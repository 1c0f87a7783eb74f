import Packrat.Proofs.PackratBound
import Packrat.Proofs.PutBack
import Packrat.Proofs.Resolution
/-!
# CursorBounds — where the cursor of a run stands

The cursor of a run stands at the furthest position or before it, and the furthest position is inside the entries; a
value that is kept stops between the position it was found at and the furthest one (`State.InBounds`).  A terminal takes
one entry or none, a failure puts the cursor back to where it was, and a kept value puts it to where that stops.  So
every run leads to a state in bounds again, and moves the furthest position only to where a terminal took an entry
(`Site.keeps`); and what a run comes to on its way is in bounds with it (`Step.inBounds`).  Main statement:
`run_inBounds`.
-/
namespace Packrat

/-! ## Steps of the cursor -/

namespace Cursor

variable {c c' : Cursor}

def StepsTo (c c' : Cursor) : Prop := c' = c ∨ c' = c.advance ∧ c.position < c.size

theorem lt_size_of_current {e : Entry} (h : c.current = some e) : c.position < c.size :=
  (List.getElem?_eq_some_iff.1 h).1

theorem stepsTo_of_eatToken {accept : Token → Bool} {t : Token} (h : c.eatToken accept = some (t, c')) :
    c.StepsTo c' := by
  unfold eatToken at h
  split at h
  · rename_i hcurrent
    split at h
    · cases h
      exact .inr ⟨rfl, lt_size_of_current hcurrent⟩
    · cases h
  · cases h

theorem stepsTo_of_eatHole {i : Nat} (h : c.eatHole = some (i, c')) : c.StepsTo c' := by
  unfold eatHole at h
  split at h
  · rename_i hcurrent
    cases h
    exact .inr ⟨rfl, lt_size_of_current hcurrent⟩
  · cases h

theorem stepsTo_of_eatEnd {u : Unit} (h : c.eatEnd = some (u, c')) : c.StepsTo c' := by
  unfold eatEnd at h
  split at h
  · cases h
    exact .inl rfl
  · cases h

end Cursor

namespace Grammar

open Packrat.Grammar.Parser

def Atom.isLeaf : Atom → Bool
  | .literal _ | .terminal _ => true
  | .rule _ | .super _ | .group _ => false

def Steps (p : Parser Value) : Prop := p = ofOption none ∨ ∃ f, p = eat f ∧ ∀ c r, f c = some r → c.StepsTo r.2

theorem steps_eat {α : Type} {f : Cursor → Option (α × Cursor)} (value : α → Value)
    (hf : ∀ c a c', f c = some (a, c') → c.StepsTo c') : Steps (eat fun c => (f c).map fun (a, c) => (value a, c)) := by
  refine .inr ⟨_, rfl, fun c r hr => ?_⟩
  obtain ⟨w, hw, rfl⟩ := Option.map_eq_some_iff.1 hr
  exact hf c w.1 w.2 hw

theorem Atom.steps_of_isLeaf (scope : Scope) : ∀ {a : Atom}, a.isLeaf → Steps (a.run scope)
  | .literal _, _ | .terminal .number, _ | .terminal .string, _ | .terminal .ident, _ =>
    steps_eat textValue fun _ _ _ => Cursor.stepsTo_of_eatToken
  | .terminal .hole, _ => steps_eat .hole fun _ _ _ => Cursor.stepsTo_of_eatHole
  | .terminal .eof, _ => steps_eat (fun _ => .null) fun _ _ _ => Cursor.stepsTo_of_eatEnd
  | .terminal .fail, _ => .inl rfl

/-! ## Bounds -/

/-- **A state in bounds**: its cursor stands in the entries at the furthest position or before, and every value that is
kept stops between the position it was found at and the furthest one. -/
structure State.InBounds (tokens : TokenList) (s : State) : Prop where
  entries : s.cursor.tokens = tokens
  position : s.position ≤ s.furthest
  furthest : s.furthest ≤ tokens.entries.length
  kept : ∀ {id : RuleId} {start : Nat} {v : Value} {stop : Nat}, s.memo[(id, start)]? = some (.value v stop) →
    start ≤ stop ∧ stop ≤ s.furthest

/-- **What a run from a state leads to**: a state in bounds, whose furthest position is what it was or one further on
that was reached. -/
structure State.Leads (tokens : TokenList) (reached : Nat → Prop) (s s' : State) : Prop where
  inBounds : s'.InBounds tokens
  furthest : s'.furthest = s.furthest ∨ s.furthest < s'.furthest ∧ reached s'.furthest

def Reply.Within {α : Type} (tokens : TokenList) (reached : Nat → Prop) (s : State) : Reply α → Prop
  | .exhausted => True
  | .value _ s' => s.position ≤ s'.position ∧ s.Leads tokens reached s'
  | .fail s' => s.Leads tokens reached s'

variable {tokens : TokenList} {reached reached' : Nat → Prop} {s s' s₁ : State} {α β : Type}

theorem inBounds_start (tokens : TokenList) : (State.start tokens.cursor).InBounds tokens :=
  ⟨rfl, Nat.le_refl 0, Nat.zero_le _, fun h => by simp [State.start] at h⟩

theorem State.InBounds.countCall (h : s.InBounds tokens) : s.countCall.InBounds tokens :=
  ⟨h.entries, h.position, h.furthest, h.kept⟩

namespace State.Leads

theorem refl (h : s.InBounds tokens) : s.Leads tokens reached s := ⟨h, .inl rfl⟩

theorem le (h : s.Leads tokens reached s') : s.furthest ≤ s'.furthest := by
  rcases h.furthest with h | h <;> omega

theorem imp (h : s.Leads tokens reached s') (hi : ∀ k, reached k → reached' k) : s.Leads tokens reached' s' :=
  ⟨h.inBounds, h.furthest.imp_right fun h => ⟨h.1, hi _ h.2⟩⟩

theorem trans (h : s.Leads tokens reached s₁) (h' : s₁.Leads tokens reached s') : s.Leads tokens reached s' := by
  refine ⟨h'.inBounds, ?_⟩
  rcases h'.furthest with he | ⟨hlt, hr⟩
  · rw [he]
    exact h.furthest
  · exact .inr ⟨Nat.lt_of_le_of_lt h.le hlt, hr⟩

/-- Putting the cursor back to where it was stays in bounds, as the furthest position never goes back. -/
theorem rewind (h : s.Leads tokens reached s') (hs : s.InBounds tokens) :
    s.Leads tokens reached (s'.rewind s.cursor) :=
  ⟨⟨hs.entries, hs.position.trans h.le, h.inBounds.furthest, h.inBounds.kept⟩, h.furthest⟩

theorem keep {memoize : Bool} {id : RuleId} {p : Nat} {o : Outcome} (h : s.Leads tokens reached s')
    (ho : ∀ {v : Value} {stop : Nat}, o = .value v stop → p ≤ stop ∧ stop ≤ s'.furthest) :
    s.Leads tokens reached (s'.keep memoize id p o) := by
  cases memoize with
  | false => exact h
  | true =>
    refine ⟨⟨h.inBounds.entries, h.inBounds.position, h.inBounds.furthest, fun {id' start v stop} hk => ?_⟩, h.furthest⟩
    change (s'.memo.insert (id, p) o)[(id', start)]? = some (.value v stop) at hk
    rw [Std.HashMap.getElem?_insert] at hk
    split at hk
    · rename_i he
      cases eq_of_beq he
      exact ho (Option.some.inj hk)
    · exact h.inBounds.kept hk

end State.Leads

namespace Reply.Within

variable {r : Reply α}

theorem imp (h : r.Within tokens reached s) (hi : ∀ k, reached k → reached' k) : r.Within tokens reached' s := by
  cases r with
  | exhausted => trivial
  | value a s' => exact ⟨h.1, h.2.imp hi⟩
  | fail s' => exact State.Leads.imp h hi

theorem of_value {a : α} (hr : r = .value a s') (h : r.Within tokens reached s) :
    s.position ≤ s'.position ∧ s.Leads tokens reached s' := by
  subst hr
  exact h

theorem of_fail (hr : r = .fail s') (h : r.Within tokens reached s) : s.Leads tokens reached s' := by
  subst hr
  exact h

theorem inBounds (hr : r.state? = some s') (h : r.Within tokens reached s) : s'.InBounds tokens := by
  cases r with
  | exhausted => cases hr
  | value a t =>
    cases hr
    exact h.2.inBounds
  | fail t =>
    cases hr
    exact State.Leads.inBounds h

theorem after (h : r.Within tokens reached s₁) (hs : s.Leads tokens reached s₁) (hp : s.position ≤ s₁.position) :
    r.Within tokens reached s := by
  cases r with
  | exhausted => trivial
  | value a s' => exact ⟨hp.trans h.1, hs.trans h.2⟩
  | fail s' => exact hs.trans h

theorem map (h : r.Within tokens reached s) (f : α → β) : (r.map f).Within tokens reached s := by
  cases r with
  | exhausted => trivial
  | value a s' => exact h
  | fail s' => exact h

end Reply.Within

/-! ## Parsers -/

theorem within_ofOption (hs : s.InBounds tokens) (a : Option α) : (ofOption a s).Within tokens reached s := by
  cases a with
  | none => exact .refl hs
  | some a => exact ⟨Nat.le_refl _, .refl hs⟩

theorem within_attempt {p : Parser α} (hs : s.InBounds tokens) (h : (p s).Within tokens reached s) :
    (attempt p s).Within tokens reached s := by
  unfold attempt
  cases hp : p s with
  | exhausted => trivial
  | value a s' =>
    rw [hp] at h
    exact h
  | fail s' =>
    rw [hp] at h
    exact State.Leads.rewind h hs

theorem within_andThen {p : Parser α} {q : α → Parser β} (h : (p s).Within tokens reached s)
    (hq : ∀ a s', p s = .value a s' → s'.InBounds tokens → (q a s').Within tokens reached s') :
    (p.andThen q s).Within tokens reached s := by
  cases hp : p s with
  | exhausted =>
    rw [Parser.andThen, hp]
    trivial
  | fail s' =>
    rw [andThen_of_fail hp]
    exact h.of_fail hp
  | value a s' =>
    obtain ⟨hle, hleads⟩ := h.of_value hp
    rw [andThen_of_value hp]
    exact (hq a s' hp hleads.inBounds).after hleads hle

theorem within_orElse {p q : Parser α} (hs : s.InBounds tokens) (h : (p s).Within tokens reached s)
    (hq : ∀ s', attempt p s = .fail s' → s'.InBounds tokens → (q s').Within tokens reached s') :
    ((attempt p).orElse q s).Within tokens reached s := by
  have ha := within_attempt hs h
  cases hp : attempt p s with
  | exhausted =>
    rw [Parser.orElse, hp]
    trivial
  | value a s' =>
    rw [orElse_of_value hp]
    exact ha.of_value hp
  | fail s' =>
    have hleads := ha.of_fail hp
    rw [orElse_of_fail hp]
    exact (hq s' hp hleads.inBounds).after hleads (attempt_position hp).ge

theorem within_optional {p : Parser Value} (hs : s.InBounds tokens) (h : (p s).Within tokens reached s) :
    (Parser.orElse (fun s => (attempt p s).map fun v => Value.list [v]) (ofOption (some (.list []))) s).Within tokens
      reached s := by
  have ha := within_attempt hs h
  unfold Parser.orElse
  dsimp only
  cases hp : attempt p s with
  | exhausted => trivial
  | value v s' => exact ha.of_value hp
  | fail s' => exact ⟨(attempt_position hp).ge, ha.of_fail hp⟩

theorem within_sepBy {p q : Parser α} (hs : s.InBounds tokens) (h : (p s).Within tokens reached s)
    (hmore : ∀ a s', attempt p s = .value a s' → s'.InBounds tokens →
      (Parser.many (q.andThen fun _ => p) s').Within tokens reached s') :
    (Parser.sepBy p q s).Within tokens reached s := by
  have ha := within_attempt hs h
  cases hp : attempt p s with
  | exhausted =>
    rw [Parser.sepBy, hp]
    trivial
  | fail s' =>
    rw [sepBy_of_fail hp]
    exact ⟨(attempt_position hp).ge, ha.of_fail hp⟩
  | value a s' =>
    obtain ⟨hle, hleads⟩ := ha.of_value hp
    rw [sepBy_of_value hp]
    exact ((hmore a s' hp hleads.inBounds).after hleads hle).map _

theorem within_eat {f : Cursor → Option (α × Cursor)} (hs : s.InBounds tokens)
    (hf : ∀ r, f s.cursor = some r → s.cursor.StepsTo r.2)
    (hr : ∀ a s', eat f s = .value a s' → s'.position = s.position + 1 → reached (s.position + 1)) :
    (eat f s).Within tokens reached s := by
  have hp := hs.position
  have hfur := hs.furthest
  cases hc : f s.cursor with
  | none =>
    rw [eat, hc]
    exact .refl hs
  | some r =>
    obtain ⟨a, c⟩ := r
    have heat : eat f s = .value a { s with cursor := c, furthest := max s.furthest c.position } := by
      rw [eat, hc]
    rw [heat]
    rcases hf _ hc with rfl | ⟨rfl, hlt⟩
    · rw [show max s.furthest s.cursor.position = s.furthest from Nat.max_eq_left hp]
      exact ⟨Nat.le_refl _, hs, .inl rfl⟩
    · have hroom : s.position + 1 ≤ tokens.entries.length := hs.entries ▸ hlt
      refine ⟨Nat.le_succ _, ⟨hs.entries, Nat.le_max_right _ _, Nat.max_le.2 ⟨hfur, hroom⟩, fun hk => ?_⟩, ?_⟩
      · exact ⟨(hs.kept hk).1, (hs.kept hk).2.trans (Nat.le_max_left _ _)⟩
      · change max s.furthest (s.position + 1) = s.furthest ∨
          s.furthest < max s.furthest (s.position + 1) ∧ reached (max s.furthest (s.position + 1))
        rcases Nat.lt_or_ge s.furthest (s.position + 1) with h | h
        · rw [Nat.max_eq_right h.le]
          exact .inr ⟨h, hr _ _ heat rfl⟩
        · exact .inl (Nat.max_eq_left h)

theorem within_asList1 {p : Parser (List Value)} (h : (asList p s).Within tokens reached s) :
    (asList1 p s).Within tokens reached s := by
  unfold asList at h
  cases hp : p s with
  | exhausted =>
    rw [asList1, Parser.andThen, hp]
    trivial
  | fail s' =>
    rw [hp] at h
    rw [asList1, andThen_of_fail hp]
    exact h
  | value vs s' =>
    rw [hp] at h
    rw [asList1, andThen_of_value hp]
    cases vs with
    | nil => exact h.2
    | cons v vs => exact h

/-! ## What a run comes to -/

variable {layers : List Layer} {memoize : Bool} {d e : Definition} {x y : Site} {n k : Nat}

/-- **A terminal took an entry** and stopped at this position, in what a run comes to from a place on. -/
def Site.Reached (layers : List Layer) (memoize : Bool) (x : Site) (k : Nat) : Prop :=
  ∃ (y : Site) (a : Atom) (v : Value) (s' : State), Relation.ReflTransGen (Step layers memoize) x y ∧
    y.phrase = .atom a ∧ a.isLeaf ∧ y.run layers memoize y.state = .value v s' ∧ y.state.position + 1 = k ∧
    s'.position = k

theorem Site.Reached.of_step (h : Step layers memoize x y) (hr : y.Reached layers memoize k) :
    x.Reached layers memoize k := by
  obtain ⟨z, a, v, s', hz, hrest⟩ := hr
  exact ⟨z, a, v, s', hz.head h, hrest⟩

def Site.Keeps (layers : List Layer) (memoize : Bool) (tokens : TokenList) (x : Site) : Prop :=
  x.state.InBounds tokens → (x.run layers memoize x.state).Within tokens (x.Reached layers memoize) x.state

/-- **The calls of rules keep to the bounds.**  What a call reaches is what the body of the rule reaches, if it runs. -/
def CallsKeep (layers : List Layer) (memoize : Bool) (tokens : TokenList) (n : Nat) : Prop :=
  ∀ {e : Definition} {s : State} {reached : Nat → Prop}, s.InBounds tokens →
    (∀ m k, n = m + 1 → s.countCall.known memoize e.id = none →
      Site.Reached layers memoize ⟨e, .choice e.rule.body, s.countCall, m⟩ k → reached k) →
    (invoke layers memoize n e s).Within tokens reached s

theorem Site.Keeps.part (h : Site.Keeps layers memoize tokens y) (hy : y.state.InBounds tokens)
    (hstep : Step layers memoize x y) :
    (y.run layers memoize y.state).Within tokens (x.Reached layers memoize) y.state :=
  (h hy).imp fun _ => Site.Reached.of_step hstep

theorem keeps_leaf {a : Atom} (ha : a.isLeaf) (s : State) : Site.Keeps layers memoize tokens ⟨d, .atom a, s, n⟩ := by
  intro hs
  rcases Atom.steps_of_isLeaf (scopeOf layers memoize n d) ha with hrun | ⟨f, hrun, hf⟩
  · rw [show Site.run layers memoize ⟨d, .atom a, s, n⟩ = ofOption none from hrun]
    exact within_ofOption hs none
  · have hsite : Site.run layers memoize ⟨d, .atom a, s, n⟩ = eat f := hrun
    rw [hsite]
    refine within_eat hs (fun r => hf _ r) fun v s' hv hpos => ?_
    exact ⟨_, a, v, s', .refl, rfl, ha, by rw [hsite]; exact hv, rfl, hpos⟩

theorem keeps_reference (hc : CallsKeep layers memoize tokens n) {a : Atom} {found : Option Definition}
    (ha : a.target? layers d = some found) (s : State) : Site.Keeps layers memoize tokens ⟨d, .atom a, s, n⟩ := by
  intro hs
  have hrun : Site.run layers memoize ⟨d, .atom a, s, n⟩ = invokeFound layers memoize n found := by
    cases a <;> cases ha <;> rfl
  rw [hrun]
  cases found with
  | none => exact within_ofOption hs none
  | some e =>
    refine hc hs fun m k hn hk hr => ?_
    subst hn
    exact hr.of_step (.call ha hk)

/-- **Items keep to the bounds if each one does**, by induction on the items that the repetition may still take. -/
theorem within_manyUpTo {b : Option Atom} {a : Atom}
    (hitem : ∀ s, Site.Keeps layers memoize tokens ⟨d, .item b a, s, n⟩) (m : Nat) (s : State)
    (hs : s.InBounds tokens) : (manyUpTo (Site.run layers memoize ⟨d, .item b a, s, n⟩) m s).Within tokens
      (Site.Reached layers memoize ⟨d, .items b a, s, n⟩) s := by
  induction m generalizing s with
  | zero => trivial
  | succ m ih =>
    have ha := within_attempt hs ((hitem s).part hs .item)
    cases hr : attempt (Site.run layers memoize ⟨d, .item b a, s, n⟩) s with
    | exhausted =>
      rw [manyUpTo, hr]
      trivial
    | fail s' =>
      rw [manyUpTo_of_fail hr]
      exact ⟨(attempt_position hr).ge, ha.of_fail hr⟩
    | value v s' =>
      obtain ⟨hle, hleads⟩ := ha.of_value hr
      by_cases hp : s'.position = s.position
      · rw [manyUpTo_of_stay hr hp]
        exact ⟨hle, hleads⟩
      · have hmore := (ih s' hleads.inBounds).imp fun _ => Site.Reached.of_step (.more hr hp)
        rw [manyUpTo_of_more hr hp]
        exact (hmore.after hleads hle).map _

section

variable {a : Atom} (ha : ∀ s, Site.Keeps layers memoize tokens ⟨d, .atom a, s, n⟩)
include ha

theorem keeps_item : ∀ (b : Option Atom), (∀ c ∈ b, ∀ s, Site.Keeps layers memoize tokens ⟨d, .atom c, s, n⟩) →
    ∀ s, Site.Keeps layers memoize tokens ⟨d, .item b a, s, n⟩
  | none, _, s, hs => (ha s).part hs .bare
  | some b, hb, s, hs => within_andThen ((hb b rfl s).part hs .separator)
    fun _ s' hr hs' => (ha s').part hs' (.separated hr)

theorem keeps_items (b : Option Atom) (hb : ∀ c ∈ b, ∀ s, Site.Keeps layers memoize tokens ⟨d, .atom c, s, n⟩)
    (s : State) : Site.Keeps layers memoize tokens ⟨d, .items b a, s, n⟩ := fun hs =>
  (within_manyUpTo (keeps_item ha b hb) (s.remaining + 1) s hs).map _

theorem keeps_listOf {b : Atom} (hb : ∀ s, Site.Keeps layers memoize tokens ⟨d, .atom b, s, n⟩) (s : State) :
    Site.Keeps layers memoize tokens ⟨d, .listOf b a, s, n⟩ := fun hs => by
  have hitem := keeps_item ha (some b) fun c hc => by
    cases hc
    exact hb
  refine (within_sepBy hs ((ha s).part hs .leading) fun v s' hr hs' => ?_).map _
  exact (within_manyUpTo hitem (s'.remaining + 1) s' hs').imp fun _ => Site.Reached.of_step (.others hr)

end

mutual

/-- **Trees keep to the bounds**, by recursion over the body of a definition. -/
theorem keeps_choice (hc : CallsKeep layers memoize tokens n) :
    ∀ (c : Choice) (s : State), Site.Keeps layers memoize tokens ⟨d, .choice c, s, n⟩
  | .last q, s, hs => within_attempt hs ((keeps_sequence hc q [] s).part hs .last)
  | .orElse q rest, s, hs => within_orElse hs ((keeps_sequence hc q [] s).part hs .first)
    fun s' hr hs' => (keeps_choice hc rest s').part hs' (.next hr)

theorem keeps_sequence (hc : CallsKeep layers memoize tokens n) :
    ∀ (q : Sequence) (done : List Value) (s : State), Site.Keeps layers memoize tokens ⟨d, .sequence done q, s, n⟩
  | .stop _, _, _, hs => within_ofOption hs _
  | .andThen f rest, done, s, hs => by
    refine within_andThen ((keeps_factor hc f s).part hs .head) fun v s' hr hs' => ?_
    have hrest := (keeps_sequence hc rest (done ++ [v]) s').part hs' (.tail hr)
    rw [Site.run, Phrase.run, List.reverse_concat] at hrest
    exact hrest

theorem keeps_factor (hc : CallsKeep layers memoize tokens n) :
    ∀ (f : Factor) (s : State), Site.Keeps layers memoize tokens ⟨d, .factor f, s, n⟩
  | .once a, s, hs => (keeps_atom hc a s).part hs .once
  | .optional a, s, hs => within_optional hs ((keeps_atom hc a s).part hs .optional)
  | .many a, s, hs => (keeps_items (keeps_atom hc a) none nofun s).part hs .many
  | .many1 a, s, hs => within_asList1 ((keeps_items (keeps_atom hc a) none nofun s).part hs .many1)
  | .sepBy a b, s, hs => (keeps_listOf (keeps_atom hc a) (keeps_atom hc b) s).part hs .sepBy
  | .sepBy1 a b, s, hs => within_asList1 ((keeps_listOf (keeps_atom hc a) (keeps_atom hc b) s).part hs .sepBy1)

theorem keeps_atom (hc : CallsKeep layers memoize tokens n) :
    ∀ (a : Atom) (s : State), Site.Keeps layers memoize tokens ⟨d, .atom a, s, n⟩
  | .literal _, s => keeps_leaf rfl s
  | .terminal _, s => keeps_leaf rfl s
  | .rule _, s => keeps_reference hc rfl s
  | .super _, s => keeps_reference hc rfl s
  | .group c, s => fun hs => (keeps_choice hc c s).part hs .group

end

/-- **A rule keeps to the bounds**, by induction on the fuel. -/
theorem keeps_invoke : ∀ n, CallsKeep layers memoize tokens n
  | 0, _, _, _, _, _ => trivial
  | n + 1, e, s, reached, hs, hreached => by
    rw [invoke_succ]
    cases hk : s.countCall.known memoize e.id with
    | some o =>
      -- the cursor goes to where the kept value stops, which is in bounds
      have hmem : s.memo[(e.id, s.position)]? = some o := (State.of_known hk).2
      cases o with
      | fail => exact ⟨⟨hs.entries, hs.position, hs.furthest, hs.kept⟩, .inl rfl⟩
      | value v stop =>
        obtain ⟨hstart, hstop⟩ := hs.kept hmem
        exact ⟨hstart, ⟨hs.entries, hstop, hs.furthest, hs.kept⟩, .inl rfl⟩
    | none =>
      -- the body runs with less fuel for its calls, and what comes of it is kept
      have hcount : s.Leads tokens reached s.countCall := ⟨hs.countCall, .inl rfl⟩
      have hbody : (e.rule.body.run (scopeOf layers memoize n e) s.countCall).Within tokens reached s :=
        ((keeps_choice (keeps_invoke n) e.rule.body s.countCall hs.countCall).imp fun k => hreached n k rfl hk).after
          hcount (Nat.le_refl _)
      dsimp only
      cases hr : e.rule.body.run (scopeOf layers memoize n e) s.countCall with
      | exhausted => trivial
      | fail s' => exact ((hbody.of_fail hr).rewind hs).keep nofun
      | value v s' =>
        obtain ⟨hle, hleads⟩ := hbody.of_value hr
        refine ⟨?_, hleads.keep fun h => ?_⟩
        · unfold State.position
          rw [State.keep_cursor]
          exact hle
        · cases h
          exact ⟨hle, hleads.inBounds.position⟩

theorem Site.keeps : ∀ x : Site, x.Keeps layers memoize tokens
  | ⟨_, .choice c, s, n⟩ => keeps_choice (keeps_invoke n) c s
  | ⟨_, .sequence done q, s, n⟩ => keeps_sequence (keeps_invoke n) q done s
  | ⟨_, .factor f, s, n⟩ => keeps_factor (keeps_invoke n) f s
  | ⟨_, .atom a, s, n⟩ => keeps_atom (keeps_invoke n) a s
  | ⟨_, .item b a, s, n⟩ => keeps_item (keeps_atom (keeps_invoke n) a) b (fun c _ => keeps_atom (keeps_invoke n) c) s
  | ⟨_, .items b a, s, n⟩ => keeps_items (keeps_atom (keeps_invoke n) a) b (fun c _ => keeps_atom (keeps_invoke n) c) s
  | ⟨_, .listOf b a, s, n⟩ => keeps_listOf (keeps_atom (keeps_invoke n) a) (keeps_atom (keeps_invoke n) b) s

theorem Step.inBounds (h : Step layers memoize x y) (hx : x.state.InBounds tokens) : y.state.InBounds tokens := by
  cases h with
  | last | first | head | once | optional | many | many1 | sepBy | sepBy1 | bare | separator | item | leading
  | group => exact hx
  | next hr => exact (Reply.Within.of_fail hr (within_attempt hx (Site.keeps _ hx))).inBounds
  | tail hr | separated hr => exact (Reply.Within.of_value hr (Site.keeps _ hx)).2.inBounds
  | more hr _ | others hr => exact (Reply.Within.of_value hr (within_attempt hx (Site.keeps _ hx))).2.inBounds
  | call => exact hx.countCall

theorem Comes.inBounds (h : Comes layers memoize d s n x) (hs : s.InBounds tokens) : x.state.InBounds tokens := by
  induction h with
  | refl => exact hs
  | tail _ hstep ih => exact hstep.inBounds ih

theorem Comes.within (h : Comes layers memoize d s n x) (hs : s.InBounds tokens) :
    (x.run layers memoize x.state).Within tokens (x.Reached layers memoize) x.state :=
  x.keeps (h.inBounds hs)

/-! ## A whole run -/

/-- **The states that a call of a rule goes through**, whether it ends or not: those in which a phrase is about to run,
those that it leaves, with the cursor put back or not, and the last one. -/
inductive Passes (layers : List Layer) (memoize : Bool) (d : Definition) (s : State) : State → Prop where
  | start : Passes layers memoize d s s
  | before {n : Nat} {x : Site} (h : Comes layers memoize d s.countCall n x) : Passes layers memoize d s x.state
  | after {n : Nat} {x : Site} {s' : State} (h : Comes layers memoize d s.countCall n x)
      (hr : (x.run layers memoize x.state).state? = some s') : Passes layers memoize d s s'
  | back {n : Nat} {x : Site} {s' : State} (h : Comes layers memoize d s.countCall n x)
      (hr : x.run layers memoize x.state = .fail s') : Passes layers memoize d s (s'.rewind x.state.cursor)
  | last {n : Nat} {s' : State} (h : (invoke layers memoize n d s).state? = some s') : Passes layers memoize d s s'

/-- **The positions that a call of a rule puts the cursor to**: where a phrase that fails began, and where a kept value
of a rule stops. -/
inductive Puts (layers : List Layer) (memoize : Bool) (d : Definition) (s : State) : Nat → Prop where
  | back {n : Nat} {x : Site} {s' : State} (h : Comes layers memoize d s.countCall n x)
      (hr : x.run layers memoize x.state = .fail s') : Puts layers memoize d s x.state.position
  | kept {n : Nat} {x : Site} {a : Atom} {e : Definition} {v : Value} {stop : Nat}
      (h : Comes layers memoize d s.countCall n x) (hx : x.phrase = .atom a)
      (he : a.target? layers x.definition = some (some e))
      (hk : x.state.countCall.known memoize e.id = some (.value v stop)) : Puts layers memoize d s stop
  | first {v : Value} {stop : Nat} (hk : s.countCall.known memoize d.id = some (.value v stop)) :
      Puts layers memoize d s stop

theorem Passes.inBounds (h : Passes layers memoize d s s') (hs : s.InBounds tokens) : s'.InBounds tokens := by
  cases h with
  | start => exact hs
  | before h => exact h.inBounds hs.countCall
  | after h hr => exact (h.within hs.countCall).inBounds hr
  | back h hr => exact (((h.within hs.countCall).of_fail hr).rewind (h.inBounds hs.countCall)).inBounds
  | @last n _ h =>
    have hwithin : (invoke layers memoize n d s).Within tokens (fun _ => True) s :=
      keeps_invoke n hs fun _ _ _ _ _ => trivial
    exact hwithin.inBounds h

theorem State.InBounds.le_length (h : s.InBounds tokens) {p : Nat} (hp : p ≤ s.furthest) : p ≤ tokens.entries.length :=
  hp.trans h.furthest

theorem Puts.le_length {p : Nat} (h : Puts layers memoize d s p) (hs : s.InBounds tokens) :
    p ≤ tokens.entries.length := by
  cases h with
  | back h _ =>
    have hx := h.inBounds hs.countCall
    exact hx.le_length hx.position
  | kept h _ _ hk =>
    have hx := h.inBounds hs.countCall
    exact hx.le_length (hx.kept (State.of_known hk).2).2
  | first hk => exact hs.le_length (hs.kept (State.of_known hk).2).2

/-! ## Failures -/

def Phrase.putsBack : Phrase → Bool
  | .choice _ | .factor _ | .atom _ => true
  | .sequence .. | .item .. | .items .. | .listOf .. => false

theorem Site.position_of_fail (hx : x.phrase.putsBack) (h : x.run layers memoize s = .fail s') :
    s'.position = s.position := by
  obtain ⟨d, φ, s₀, n⟩ := x
  refine congrArg Cursor.position ?_
  cases φ with
  | choice c => exact c.cursor_of_fail _ h
  | factor f => exact f.cursor_of_fail h
  | atom a => exact a.cursor_of_fail h
  | sequence | item | items | listOf => cases hx

/-! ## Parses -/

/-- **Only a failure behind the last entry says that it is at the end.** -/
theorem message_noMatch_eq_end_iff {name : String} {entry : Option Entry} : (ParseError.noMatch name k entry).message =
    "no alternative of " ++ marked name ++ " matched at " ++ "end of input" ↔ entry = none := by
  have hmessage : (ParseError.noMatch name k entry).message =
      "no alternative of " ++ marked name ++ " matched at " ++ (entry.map Entry.render).getD "end of input" := by
    unfold ParseError.message
    with_reducible rfl
  rw [hmessage, String.append_right_inj, Entry.getD_render_eq_iff rfl]

theorem within_runEntry (g : Grammar) (memoize : Bool) (d : Definition) (tokens : TokenList) :
    (g.runEntry memoize d tokens).Within tokens
      (fun k => ∃ n, Site.Reached g.layers memoize
        ⟨d, .choice d.rule.body, (State.start tokens.cursor).countCall, n⟩ k) (.start tokens.cursor) :=
  keeps_invoke _ (inBounds_start tokens) fun m _ _ _ hr => ⟨m, hr⟩

/-- **The cursor of a parse keeps to its bounds.**  Whatever rule runs over whatever entries, and whether it ends or
not, every state it goes through is in bounds, every phrase that succeeds stops where it began or behind that, and the
cursor is put to no position outside the entries.  A choice, a factor, an atom or a rule that fails leaves the cursor
where it was.  So a parse takes no more entries than there are; and a failure that is said to be at the end of the
input is one after a terminal took the last entry, if there is one. -/
theorem run_inBounds (g : Grammar) (options : ParseOptions) (rule : String) (program : Template) (holes : List Value) :
    (∀ (d : Definition) (tokens : TokenList),
      (∀ s, Passes g.layers options.memoize d (.start tokens.cursor) s → s.InBounds tokens) ∧
      (∀ n x v s', Comes g.layers options.memoize d (State.start tokens.cursor).countCall n x →
        x.run g.layers options.memoize x.state = .value v s' → x.state.position ≤ s'.position) ∧
      ∀ p, Puts g.layers options.memoize d (.start tokens.cursor) p → p ≤ tokens.entries.length) ∧
    ((∀ (x : Site) s s', x.phrase.putsBack → x.run g.layers options.memoize s = .fail s' → s'.position = s.position) ∧
      ∀ n d s s', invoke g.layers options.memoize n d s = .fail s' → s'.position = s.position) ∧
    (∀ p, g.parseWith options rule program holes = .ok p → p.consumed ≤ p.total) ∧
    ∀ name k entry, g.parseWith options rule program holes = .error (.noMatch name k entry) →
      (ParseError.noMatch name k entry).message =
        "no alternative of " ++ marked name ++ " matched at " ++ "end of input" →
      ∃ d tokens, g.lookup rule = some d ∧ g.scanner.scan program = .ok tokens ∧
        (tokens.entries = [] ∨ ∃ n, Site.Reached g.layers options.memoize
          ⟨d, .choice d.rule.body, (State.start tokens.cursor).countCall, n⟩ tokens.entries.length) := by
  refine ⟨fun d tokens => ⟨fun s hs => hs.inBounds (inBounds_start tokens), fun n x v s' hx hr => ?_,
    fun p hp => hp.le_length (inBounds_start tokens)⟩, ⟨fun x s s' hx h => Site.position_of_fail hx h,
    fun n d s s' h => congrArg Cursor.position (invoke_cursor_of_fail h)⟩, fun p hp => ?_,
    fun name k entry herror hend => ?_⟩
  · exact ((hx.within (inBounds_start tokens).countCall).of_value hr).1
  · obtain ⟨d, tokens, v, s, -, -, -, hr, rfl⟩ := exists_runEntry_value hp
    have hbounds := ((within_runEntry g options.memoize d tokens).of_value hr).2.inBounds
    exact hbounds.le_length hbounds.position
  · obtain ⟨d, tokens, s, hd, -, hs, hr, rfl, rfl⟩ := exists_runEntry_fail herror
    have hleads := (within_runEntry g options.memoize d tokens).of_fail hr
    -- no entry stands at the furthest position, so that this is the number of entries
    have hbehind := List.getElem?_eq_none_iff.1 (message_noMatch_eq_end_iff.1 hend)
    have hlength : s.furthest = tokens.entries.length := Nat.le_antisymm hleads.inBounds.furthest hbehind
    refine ⟨d, tokens, hd, hs, ?_⟩
    rcases hleads.furthest with hnone | ⟨-, hreached⟩
    · exact .inl (List.length_eq_zero_iff.1 (hlength.symm.trans hnone))
    · exact .inr (hlength ▸ hreached)

set_option maxRecDepth 10000 in
/-- A list that is not closed fails behind its last item, which a terminal took. -/
example : (lists.parseWith { memoize := false } "start" (.literal "1, (2") []).map Parse.consumed =
    .error (.noMatch "start" 4 none) := by decide +kernel

end Grammar

end Packrat
