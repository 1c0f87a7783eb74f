import Packrat.Grammar.Engine
import Packrat.Proofs.Depth
/-!
# Run — the engine computes the meaning

A run threads a state through the phrases of a body: a cursor that failures leave anywhere, the furthest position, and
the outcomes kept for rules.  The invariant of the state is that every kept outcome is the meaning of its rule at its
position, and that the derivation of it reached no further than the state says (`State.Sound`).  From it follows, with
outcomes kept or not, that a run that ends gives the answer that the phrase means (`fits_run`, `fits_invoke`).
-/
namespace Packrat.Grammar

open Packrat.Grammar.Parser

/-! ## The parser of a phrase -/

def invokeFound (layers : List Layer) (memoize : Bool) (fuel : Nat) : Option Definition → Parser Value
  | some d => invoke layers memoize fuel d
  | none => ofOption none

def scopeOf (layers : List Layer) (memoize : Bool) (fuel : Nat) (d : Definition) : Scope :=
  ⟨fun name => invokeFound layers memoize fuel (find? name layers),
    fun name => invokeFound layers memoize fuel (find? name d.below), d.layer.actions⟩

def itemRun (scope : Scope) : Option Atom → Atom → Parser Value
  | none, x => x.run scope
  | some y, x => (y.run scope).andThen fun _ => x.run scope

def Phrase.run (scope : Scope) : Phrase → Parser Value
  | .choice c => c.run scope
  | .sequence done s => s.run scope done.reverse
  | .factor f => f.run scope
  | .atom x => x.run scope
  | .item y x => itemRun scope y x
  | .items y x => asList (Parser.many (itemRun scope y x))
  | .listOf y x => asList (Parser.sepBy (x.run scope) (y.run scope))

theorem invoke_succ (layers : List Layer) (memoize : Bool) (fuel : Nat) (d : Definition) (s : State) :
    invoke layers memoize (fuel + 1) d s =
      match s.countCall.known memoize d.id with
      | some .fail => .fail s.countCall.countHit
      | some (.value v stop) => .value v (s.countCall.countHit.rewind (s.cursor.setPosition stop))
      | none =>
        match d.rule.body.run (scopeOf layers memoize fuel d) s.countCall with
        | .exhausted => .exhausted
        | .fail s' => .fail ((s'.rewind s.cursor).keep memoize d.id s.cursor.position .fail)
        | .value v s' => .value v (s'.keep memoize d.id s.cursor.position (.value v s'.position)) := rfl

/-! ## The invariant -/

def Outcome.answer : Outcome → Answer
  | .fail => none
  | .value v stop => some (v, stop)

/-- **What a state may know**: its cursor stands in the entries of the program, and every outcome that is kept is the
meaning of its rule, found without going beyond the furthest position. -/
structure State.Sound (layers : List Layer) (tokens : TokenList) (s : State) : Prop where
  entries : s.cursor.tokens = tokens
  memo : ∀ {d : Definition} {q : Nat} {o : Outcome}, d.Of layers → s.memo[(d.id, q)]? = some o →
    ∃ t, Means layers tokens d (.choice d.rule.body) q o.answer t ∧ t.furthest ≤ s.furthest

/-- **The state after a trail**: it is sound, and its furthest position is what it was or what the trail reached. -/
structure State.After (layers : List Layer) (tokens : TokenList) (s : State) (t : Trail) (s' : State) : Prop where
  sound : s'.Sound layers tokens
  furthest : s'.furthest = max s.furthest t.furthest

/-- **A reply fits a phrase**: unless the fuel ran out, it is what the phrase means at the position of the state. -/
def Reply.Fits (layers : List Layer) (tokens : TokenList) (d : Definition) (φ : Phrase) (s : State) :
    Reply Value → Prop
  | .exhausted => True
  | .value v s' => ∃ t, Means layers tokens d φ s.position (some (v, s'.position)) t ∧ s.After layers tokens t s'
  | .fail s' => ∃ t, Means layers tokens d φ s.position none t ∧ s.After layers tokens t s'

variable {layers : List Layer} {tokens : TokenList} {d : Definition} {φ ψ : Phrase} {s s' s₁ s₂ : State} {t u : Trail}
  {memoize : Bool} {fuel : Nat}

theorem sound_start (tokens : TokenList) : (State.start tokens.cursor).Sound layers tokens :=
  ⟨rfl, fun _ h => by simp [State.start] at h⟩

theorem State.Sound.rewind (h : s.Sound layers tokens) {c : Cursor} (hc : c.tokens = tokens) :
    (s.rewind c).Sound layers tokens :=
  ⟨hc, h.memo⟩

theorem State.Sound.eat (h : s.Sound layers tokens) {c : Cursor} (hc : c.tokens = tokens) :
    State.Sound layers tokens { s with cursor := c, furthest := max s.furthest c.position } :=
  ⟨hc, fun hd hm => by
    obtain ⟨t, ht, hf⟩ := h.memo hd hm
    exact ⟨t, ht, hf.trans (Nat.le_max_left _ _)⟩⟩

theorem State.Sound.keep (h : s.Sound layers tokens) (hd : d.Of layers) {p : Nat} {o : Outcome}
    (hm : Means layers tokens d (.choice d.rule.body) p o.answer t) (hf : t.furthest ≤ s.furthest) :
    (s.keep memoize d.id p o).Sound layers tokens := by
  cases memoize with
  | false => exact h
  | true =>
    refine ⟨h.entries, fun {d' q o'} hd' ho => ?_⟩
    change (s.memo.insert (d.id, p) o)[(d'.id, q)]? = some o' at ho
    rw [Std.HashMap.getElem?_insert] at ho
    by_cases he : d.id = d'.id ∧ p = q
    · obtain ⟨hid, rfl⟩ := he
      rw [if_pos (by simp [hid])] at ho
      cases ho
      cases hd.eq_of_id_eq hd' hid
      exact ⟨t, hm, hf⟩
    · rw [if_neg (by simpa using he)] at ho
      exact h.memo hd' ho

theorem State.keep_cursor (s : State) (memoize : Bool) (id : RuleId) (p : Nat) (o : Outcome) :
    (s.keep memoize id p o).cursor = s.cursor := by
  cases memoize <;> rfl

theorem State.keep_furthest (s : State) (memoize : Bool) (id : RuleId) (p : Nat) (o : Outcome) :
    (s.keep memoize id p o).furthest = s.furthest := by
  cases memoize <;> rfl

theorem State.of_known {id : RuleId} {o : Outcome} (h : s.known memoize id = some o) :
    memoize = true ∧ s.memo[(id, s.position)]? = some o := by
  unfold State.known at h
  split at h
  · exact ⟨‹_›, h⟩
  · cases h

theorem State.After.rewind (h : s.After layers tokens t s') {c : Cursor} (hc : c.tokens = tokens) :
    s.After layers tokens t (s'.rewind c) :=
  ⟨h.sound.rewind hc, h.furthest⟩

theorem State.After.trans (h : s.After layers tokens t s₁) (h' : s₁.After layers tokens u s₂) :
    s.After layers tokens (t.both u) s₂ :=
  ⟨h'.sound, by rw [h'.furthest, h.furthest, Trail.furthest, Nat.max_assoc]⟩

theorem State.Sound.after_nothing (h : s.Sound layers tokens) : s.After layers tokens .nothing s :=
  ⟨h, (Nat.max_zero _).symm⟩

/-! ## Replies -/

theorem Reply.Fits.imp {r : Reply Value} (h : r.Fits layers tokens d ψ s)
    (hi : ∀ {a t}, Means layers tokens d ψ s.position a t → Means layers tokens d φ s.position a t) :
    r.Fits layers tokens d φ s := by
  cases r with
  | exhausted => trivial
  | value v s' => obtain ⟨t, hm, ha⟩ := h; exact ⟨t, hi hm, ha⟩
  | fail s' => obtain ⟨t, hm, ha⟩ := h; exact ⟨t, hi hm, ha⟩

theorem Reply.Fits.after {r : Reply Value} (ha : s.After layers tokens t s₁) (h : r.Fits layers tokens d ψ s₁)
    (hi : ∀ {a u}, Means layers tokens d ψ s₁.position a u → Means layers tokens d φ s.position a (t.both u)) :
    r.Fits layers tokens d φ s := by
  cases r with
  | exhausted => trivial
  | value v s' => obtain ⟨u, hm, ha'⟩ := h; exact ⟨t.both u, hi hm, ha.trans ha'⟩
  | fail s' => obtain ⟨u, hm, ha'⟩ := h; exact ⟨t.both u, hi hm, ha.trans ha'⟩

theorem fits_attempt {p : Parser Value} (hs : s.Sound layers tokens) (h : (p s).Fits layers tokens d φ s) :
    (attempt p s).Fits layers tokens d φ s := by
  unfold attempt
  cases hp : p s with
  | exhausted => trivial
  | value v s' => rw [hp] at h; exact h
  | fail s' =>
    rw [hp] at h
    obtain ⟨t, hm, ha⟩ := h
    exact ⟨t, hm, ha.rewind hs.entries⟩

theorem attempt_cursor {α : Type} {p : Parser α} (h : attempt p s = .fail s') : s'.cursor = s.cursor := by
  unfold attempt at h
  cases hp : p s with
  | exhausted => rw [hp] at h; cases h
  | value v s₁ => rw [hp] at h; cases h
  | fail s₁ => rw [hp] at h; cases h; rfl

theorem attempt_position {α : Type} {p : Parser α} (h : attempt p s = .fail s') : s'.position = s.position :=
  congrArg Cursor.position (attempt_cursor h)

theorem attempt_eq_exhausted {α : Type} {p : Parser α} : attempt p s = .exhausted ↔ p s = .exhausted := by
  unfold attempt
  cases p s <;> simp

/-! ## Terminals -/

theorem eatToken_tokens {c c' : Cursor} {accept : Token → Bool} {tok : Token} (h : c.eatToken accept = some (tok, c')) :
    c'.tokens = c.tokens := by
  unfold Cursor.eatToken at h
  split at h
  · split at h
    · cases h; rfl
    · cases h
  · cases h

theorem eatToken_answer (c : Cursor) (accept : Token → Bool) (value? : Entry → Option Value)
    (ht : ∀ tok, value? (.token tok) = if accept tok then some (textValue tok) else none)
    (hh : ∀ i, value? (.hole i) = none) :
    (c.eatToken accept).map (fun r => (textValue r.1, r.2.position)) = answerAt c.tokens c.position value? := by
  unfold Cursor.eatToken Cursor.current answerAt
  cases c.tokens.entries[c.position]? with
  | none => rfl
  | some e =>
    cases e with
    | hole i => simp [hh]
    | token tok =>
      simp only [Option.bind_some, ht]
      cases accept tok <;> rfl

/-- **A step of the cursor fits the terminal whose answer it gives.** -/
theorem fits_eat {f : Cursor → Option (Value × Cursor)} {x : Atom} (hs : s.Sound layers tokens)
    (ha : x.leaf? tokens s.position = some ((f s.cursor).map fun r => (r.1, r.2.position)))
    (hc : ∀ r ∈ f s.cursor, r.2.tokens = s.cursor.tokens) : (eat f s).Fits layers tokens d (.atom x) s := by
  unfold eat
  cases hf : f s.cursor with
  | none =>
    rw [hf] at ha
    exact ⟨.nothing, .leaf ha, hs.after_nothing⟩
  | some r =>
    rw [hf] at ha
    have ht : r.2.tokens = tokens := (hc r (by rw [hf]; rfl)).trans hs.entries
    exact ⟨.reach r.2.position, .leaf ha, hs.eat ht, rfl⟩

theorem fits_eatToken (accept : Cursor → Token → Bool) {value? : Entry → Option Value} {x : Atom}
    (hs : s.Sound layers tokens) (hx : x.leaf? tokens s.position = some (answerAt tokens s.position value?))
    (ht : ∀ tok, value? (.token tok) = if accept s.cursor tok then some (textValue tok) else none)
    (hh : ∀ i, value? (.hole i) = none) :
    (eat (fun c => (c.eatToken (accept c)).map fun r => (textValue r.1, r.2)) s).Fits layers tokens d (.atom x) s := by
  refine fits_eat hs ?_ fun r hr => ?_
  · rw [hx, Option.map_map, ← hs.entries]
    exact congrArg some (eatToken_answer s.cursor (accept s.cursor) value? ht hh).symm
  · obtain ⟨w, hw, rfl⟩ := Option.map_eq_some_iff.1 hr
    exact eatToken_tokens hw

theorem fits_literal (hs : s.Sound layers tokens) (text : String) :
    (eat (fun c => (c.eatLiteral text).map fun r => (textValue r.1, r.2)) s).Fits layers tokens d
      (.atom (.literal text)) s := by
  refine fits_eatToken (fun _ tok => tok.text == text) hs rfl (fun tok => ?_) fun i => rfl
  by_cases h : tok.text = text
  · simp [literalValue?, textValue, h]
  · simp [literalValue?, h]

theorem fits_terminal (hs : s.Sound layers tokens) (k : Terminal) :
    (k.run s).Fits layers tokens d (.atom (.terminal k)) s := by
  have he := hs.entries
  subst he
  cases k with
  | number => exact fits_eatToken (fun c => c.tokens.lexicon.isNumber) hs rfl (fun _ => rfl) fun _ => rfl
  | string => exact fits_eatToken (fun c => c.tokens.lexicon.isString) hs rfl (fun _ => rfl) fun _ => rfl
  | ident => exact fits_eatToken (fun c => c.tokens.lexicon.isIdent) hs rfl (fun _ => rfl) fun _ => rfl
  | fail => exact ⟨.nothing, .leaf rfl, hs.after_nothing⟩
  | hole =>
    refine fits_eat (f := fun c => c.eatHole.map fun r => (.hole r.1, r.2)) hs ?_ fun r hr => ?_
    · simp only [Atom.leaf?, answerAt, Cursor.eatHole, Cursor.current, State.position]
      cases s.cursor.tokens.entries[s.cursor.position]? with
      | none => rfl
      | some e => cases e <;> rfl
    · obtain ⟨w, hw, rfl⟩ := Option.map_eq_some_iff.1 hr
      unfold Cursor.eatHole at hw
      split at hw <;> cases hw
      rfl
  | eof =>
    refine fits_eat (f := fun c => c.eatEnd.map fun r => (.null, r.2)) hs ?_ fun r hr => ?_
    · by_cases h : s.cursor.tokens.entries.length ≤ s.position
      · have he : s.cursor.isAtEnd = true := decide_eq_true h
        simp only [Atom.leaf?, Cursor.eatEnd, if_pos h, if_pos he]
        rfl
      · have he : ¬ s.cursor.isAtEnd = true := fun he => h (of_decide_eq_true he)
        simp only [Atom.leaf?, Cursor.eatEnd, if_neg h, if_neg he]
        rfl
    · obtain ⟨w, hw, rfl⟩ := Option.map_eq_some_iff.1 hr
      unfold Cursor.eatEnd at hw
      split at hw <;> cases hw
      rfl

/-! ## Trees -/

def CallsFit (layers : List Layer) (tokens : TokenList) (memoize : Bool) (fuel : Nat) : Prop :=
  ∀ {d : Definition} {s : State}, d.Of layers → s.Sound layers tokens →
    (invoke layers memoize fuel d s).Fits layers tokens d (.choice d.rule.body) s

theorem fits_found (hc : CallsFit layers tokens memoize fuel) (hd : d.Of layers) (hs : s.Sound layers tokens) {x : Atom}
    {found : Option Definition} (hx : x.target? layers d = some found) :
    (invokeFound layers memoize fuel found s).Fits layers tokens d (.atom x) s := by
  cases found with
  | none => exact ⟨.nothing, .dangling hx, hs.after_nothing⟩
  | some d' =>
    have h := hc (Atom.of_target? hd hx) hs
    rw [invokeFound]
    cases hr : invoke layers memoize fuel d' s with
    | exhausted => trivial
    | value v s' =>
      rw [hr] at h
      obtain ⟨t, hm, ha⟩ := h
      exact ⟨.call d' s.position t, .called hx hm, ha.sound, ha.furthest⟩
    | fail s' =>
      rw [hr] at h
      obtain ⟨t, hm, ha⟩ := h
      exact ⟨.call d' s.position t, .called hx hm, ha.sound, ha.furthest⟩

theorem fits_item {scope : Scope} {y : Option Atom} {x : Atom} (hs : s.Sound layers tokens)
    (hx : ∀ {s : State}, s.Sound layers tokens → (x.run scope s).Fits layers tokens d (.atom x) s)
    (hy : ∀ z ∈ y, ∀ {s : State}, s.Sound layers tokens → (z.run scope s).Fits layers tokens d (.atom z) s) :
    (itemRun scope y x s).Fits layers tokens d (.item y x) s := by
  cases y with
  | none => exact (hx hs).imp .bare
  | some z =>
    have h := hy z rfl hs
    rw [itemRun]
    unfold Parser.andThen
    cases hr : z.run scope s with
    | exhausted => trivial
    | fail s' =>
      rw [hr] at h
      obtain ⟨t, hm, ha⟩ := h
      exact ⟨t, .separatorFail hm, ha⟩
    | value v s' =>
      rw [hr] at h
      obtain ⟨t, hm, ha⟩ := h
      exact (hx ha.sound).after ha (.separated hm)

/-- **A repetition fits if its items do**, by induction on the items that it may still take. -/
theorem fits_manyUpTo {p : Parser Value} {y : Option Atom} {x : Atom}
    (hp : ∀ {s : State}, s.Sound layers tokens → (p s).Fits layers tokens d (.item y x) s) :
    ∀ (n : Nat) {s : State}, s.Sound layers tokens →
      ((manyUpTo p n s).map Value.list).Fits layers tokens d (.items y x) s
  | 0, _, _ => trivial
  | n + 1, s, hs => by
    have h := fits_attempt hs (hp hs)
    unfold manyUpTo
    cases hr : attempt p s with
    | exhausted => trivial
    | fail s' =>
      rw [hr] at h
      obtain ⟨t, hm, ha⟩ := h
      have hpos : s'.position = s.position := attempt_position hr
      exact ⟨t, by rw [hpos]; exact .itemsEnd hm, ha⟩
    | value v s' =>
      rw [hr] at h
      obtain ⟨t, hm, ha⟩ := h
      dsimp only
      split
      · rename_i hq
        rw [hq] at hm
        exact ⟨t, by rw [hq]; exact .itemsStay hm, ha⟩
      · rename_i hq
        have hrest := fits_manyUpTo hp n ha.sound
        cases hr' : manyUpTo p n s' with
        | exhausted => trivial
        | value vs s₂ =>
          rw [hr'] at hrest
          obtain ⟨u, hm', ha'⟩ := hrest
          exact ⟨t.both u, .itemsMore hm hq hm', ha.trans ha'⟩
        | fail s₂ =>
          rw [hr'] at hrest
          obtain ⟨u, hm', -⟩ := hrest
          cases hm'

theorem fits_items {scope : Scope} (y : Option Atom) (x : Atom)
    (hx : ∀ {s : State}, s.Sound layers tokens → (x.run scope s).Fits layers tokens d (.atom x) s)
    (hy : ∀ z ∈ y, ∀ {s : State}, s.Sound layers tokens → (z.run scope s).Fits layers tokens d (.atom z) s)
    (hs : s.Sound layers tokens) : (asList (Parser.many (itemRun scope y x)) s).Fits layers tokens d (.items y x) s :=
  fits_manyUpTo (fun hs => fits_item hs hx hy) (s.remaining + 1) hs

theorem fits_listOf {scope : Scope} {y x : Atom} (hs : s.Sound layers tokens)
    (hx : ∀ {s : State}, s.Sound layers tokens → (x.run scope s).Fits layers tokens d (.atom x) s)
    (hy : ∀ {s : State}, s.Sound layers tokens → (y.run scope s).Fits layers tokens d (.atom y) s) :
    (asList (Parser.sepBy (x.run scope) (y.run scope)) s).Fits layers tokens d (.listOf y x) s := by
  have h := fits_attempt hs (hx hs)
  unfold asList
  rw [sepBy_eq]
  cases hr : attempt (x.run scope) s with
  | exhausted => trivial
  | fail s' =>
    rw [hr] at h
    obtain ⟨t, hm, ha⟩ := h
    have hpos : s'.position = s.position := attempt_position hr
    exact ⟨t, by rw [hpos]; exact .listNone hm, ha⟩
  | value v s' =>
    rw [hr] at h
    obtain ⟨t, hm, ha⟩ := h
    have hrest := fits_items (some y) x hx (fun z hz => by cases hz; exact hy) ha.sound
    unfold asList at hrest
    rw [itemRun] at hrest
    dsimp only
    cases hr' : Parser.many ((y.run scope).andThen fun _ => x.run scope) s' with
    | exhausted => trivial
    | value vs s₂ =>
      rw [hr'] at hrest
      obtain ⟨u, hm', ha'⟩ := hrest
      exact ⟨t.both u, .listSome hm hm', ha.trans ha'⟩
    | fail s₂ =>
      rw [hr'] at hrest
      obtain ⟨u, hm', -⟩ := hrest
      cases hm'

theorem fits_asList1 {p : Parser (List Value)} (h : (asList p s).Fits layers tokens d ψ s)
    (hv : ∀ {v vs q t}, Means layers tokens d ψ s.position (some (.list (v :: vs), q)) t →
      Means layers tokens d φ s.position (some (.list (v :: vs), q)) t)
    (hn : ∀ {q t}, Means layers tokens d ψ s.position (some (.list [], q)) t → Means layers tokens d φ s.position none t)
    (hf : ∀ {t}, ¬ Means layers tokens d ψ s.position none t) : (asList1 p s).Fits layers tokens d φ s := by
  unfold asList at h
  unfold asList1 Parser.andThen
  cases hr : p s with
  | exhausted => trivial
  | fail s' =>
    rw [hr] at h
    obtain ⟨t, hm, -⟩ := h
    exact absurd hm hf
  | value vs s' =>
    rw [hr] at h
    obtain ⟨t, hm, ha⟩ := h
    cases vs with
    | nil => exact ⟨t, hn hm, ha⟩
    | cons v vs => exact ⟨t, hv hm, ha⟩

theorem means_stop (layers : List Layer) (tokens : TokenList) (d : Definition) (done : List Value) (action : Option Nat) (p : Nat) :
    Means layers tokens d (.sequence done (.stop action)) p
      ((finish d.layer.actions action done).map fun v => (v, p)) .nothing := by
  cases action with
  | none =>
    match done with
    | [v] => exact .sole
    | [] => exact .all (by simp)
    | _ :: _ :: _ => exact .all (by simp)
  | some i =>
    have hb : finish d.layer.actions (some i) done = d.layer.actions[i]?.bind fun f => f done := by
      simp only [finish]
      cases d.layer.actions[i]? <;> rfl
    cases hv : finish d.layer.actions (some i) done with
    | none => exact .refuse (hb.symm.trans hv)
    | some v => exact .act (hb.symm.trans hv)

mutual

/-- **Trees fit**: each parser of the body of a definition gives what its tree means. -/
theorem fits_choice (hc : CallsFit layers tokens memoize fuel) (hd : d.Of layers) :
    ∀ (c : Choice) {s : State}, s.Sound layers tokens →
      (c.run (scopeOf layers memoize fuel d) s).Fits layers tokens d (.choice c) s
  | .last q, s, hs => by
    rw [Choice.run]
    exact (fits_attempt hs (fits_sequence hc hd q [] hs)).imp .last
  | .orElse q rest, s, hs => by
    have h := fits_attempt hs (fits_sequence hc hd q [] hs)
    rw [List.reverse_nil] at h
    rw [Choice.run]
    unfold Parser.orElse
    cases hr : attempt (q.run (scopeOf layers memoize fuel d) []) s with
    | exhausted => trivial
    | value v s' =>
      rw [hr] at h
      obtain ⟨t, hm, ha⟩ := h
      exact ⟨t, .first hm, ha⟩
    | fail s' =>
      rw [hr] at h
      obtain ⟨t, hm, ha⟩ := h
      have hpos : s'.position = s.position := attempt_position hr
      refine (fits_choice hc hd rest ha.sound).after ha fun hm' => ?_
      rw [hpos] at hm'
      exact .next hm hm'

theorem fits_sequence (hc : CallsFit layers tokens memoize fuel) (hd : d.Of layers) :
    ∀ (q : Sequence) (done : List Value) {s : State}, s.Sound layers tokens →
      (q.run (scopeOf layers memoize fuel d) done.reverse s).Fits layers tokens d (.sequence done q) s
  | .stop action, done, s, hs => by
    have hm := means_stop layers tokens d done action s.position
    rw [Sequence.run, List.reverse_reverse, show (scopeOf layers memoize fuel d).actions = d.layer.actions from rfl]
    cases hv : finish d.layer.actions action done with
    | none => rw [hv] at hm; exact ⟨.nothing, hm, hs.after_nothing⟩
    | some v => rw [hv] at hm; exact ⟨.nothing, hm, hs.after_nothing⟩
  | .andThen f rest, done, s, hs => by
    have h := fits_factor hc hd f hs
    rw [Sequence.run]
    unfold Parser.andThen
    cases hr : f.run (scopeOf layers memoize fuel d) s with
    | exhausted => trivial
    | fail s' =>
      rw [hr] at h
      obtain ⟨t, hm, ha⟩ := h
      exact ⟨t, .factorFail hm, ha⟩
    | value v s' =>
      rw [hr] at h
      obtain ⟨t, hm, ha⟩ := h
      have hrest := fits_sequence hc hd rest (done ++ [v]) ha.sound
      rw [List.reverse_append] at hrest
      exact hrest.after ha (.factorThen hm)

theorem fits_factor (hc : CallsFit layers tokens memoize fuel) (hd : d.Of layers) :
    ∀ (f : Factor) {s : State}, s.Sound layers tokens →
      (f.run (scopeOf layers memoize fuel d) s).Fits layers tokens d (.factor f) s
  | .once x, s, hs => by
    rw [Factor.run]
    exact (fits_atom hc hd x hs).imp .once
  | .optional x, s, hs => by
    have h := fits_attempt hs (fits_atom hc hd x hs)
    rw [Factor.run]
    unfold Parser.orElse
    dsimp only
    cases hr : attempt (x.run (scopeOf layers memoize fuel d)) s with
    | exhausted => trivial
    | value v s' =>
      rw [hr] at h
      obtain ⟨t, hm, ha⟩ := h
      exact ⟨t, .present hm, ha⟩
    | fail s' =>
      rw [hr] at h
      obtain ⟨t, hm, ha⟩ := h
      have hpos : s'.position = s.position := attempt_position hr
      exact ⟨t, by rw [hpos]; exact .absent hm, ha⟩
  | .many x, s, hs => by
    rw [Factor.run]
    exact (fits_items none x (fun hs => fits_atom hc hd x hs) (fun _ h => by cases h) hs).imp .many
  | .many1 x, s, hs => by
    rw [Factor.run]
    exact fits_asList1 (fits_items none x (fun hs => fits_atom hc hd x hs) (fun _ h => by cases h) hs) .many1 .many1Fail
      fun h => by cases h
  | .sepBy x y, s, hs => by
    rw [Factor.run]
    exact (fits_listOf hs (fun hs => fits_atom hc hd x hs) fun hs => fits_atom hc hd y hs).imp .sepBy
  | .sepBy1 x y, s, hs => by
    rw [Factor.run]
    exact fits_asList1 (fits_listOf hs (fun hs => fits_atom hc hd x hs) fun hs => fits_atom hc hd y hs) .sepBy1 .sepBy1Fail
      fun h => by cases h

theorem fits_atom (hc : CallsFit layers tokens memoize fuel) (hd : d.Of layers) :
    ∀ (x : Atom) {s : State}, s.Sound layers tokens →
      (x.run (scopeOf layers memoize fuel d) s).Fits layers tokens d (.atom x) s
  | .literal text, s, hs => by
    rw [Atom.run]
    exact fits_literal hs text
  | .terminal k, s, hs => by
    rw [Atom.run]
    exact fits_terminal hs k
  | .rule _, s, hs => by
    rw [Atom.run]
    exact fits_found hc hd hs rfl
  | .super _, s, hs => by
    rw [Atom.run]
    exact fits_found hc hd hs rfl
  | .group c, s, hs => by
    rw [Atom.run]
    exact (fits_choice hc hd c hs).imp .group

end

/-! ## Rules -/

/-- **A run of a definition gives what its body means**, by induction on the fuel: whether the body runs or the outcome
was kept, the invariant holds again. -/
theorem fits_invoke : ∀ fuel : Nat, CallsFit layers tokens memoize fuel
  | 0, _, _, _, _ => trivial
  | fuel + 1, d, s, hd, hs => by
    rw [invoke_succ]
    cases hk : s.countCall.known memoize d.id with
    | some o =>
      have hmem : s.memo[(d.id, s.position)]? = some o := (State.of_known hk).2
      obtain ⟨t, hm, hf⟩ := hs.memo hd hmem
      have hmax : s.furthest = max s.furthest t.furthest := (Nat.max_eq_left hf).symm
      cases o with
      | fail => exact ⟨t, hm, ⟨hs.entries, hs.memo⟩, hmax⟩
      | value v stop => exact ⟨t, hm, ⟨hs.entries, hs.memo⟩, hmax⟩
    | none =>
      have hbody := fits_choice (fits_invoke fuel) hd d.rule.body (s := s.countCall) ⟨hs.entries, hs.memo⟩
      dsimp only
      cases hr : d.rule.body.run (scopeOf layers memoize fuel d) s.countCall with
      | exhausted => trivial
      | fail s' =>
        rw [hr] at hbody
        obtain ⟨t, hm, ha⟩ := hbody
        have hf : t.furthest ≤ s'.furthest := by rw [ha.furthest]; exact Nat.le_max_right _ _
        refine ⟨t, hm, (ha.rewind hs.entries).sound.keep hd (o := .fail) hm hf, ?_⟩
        rw [State.keep_furthest]
        exact ha.furthest
      | value v s' =>
        rw [hr] at hbody
        obtain ⟨t, hm, ha⟩ := hbody
        have hf : t.furthest ≤ s'.furthest := by rw [ha.furthest]; exact Nat.le_max_right _ _
        refine ⟨t, ?_, ha.sound.keep hd (o := .value v s'.position) hm hf, ?_⟩
        · unfold State.position
          rw [State.keep_cursor]
          exact hm
        · rw [State.keep_furthest]
          exact ha.furthest

theorem fits_run (memoize : Bool) (fuel : Nat) (hd : d.Of layers) (hs : s.Sound layers tokens) :
    ∀ φ : Phrase, (φ.run (scopeOf layers memoize fuel d) s).Fits layers tokens d φ s
  | .choice c => fits_choice (fits_invoke fuel) hd c hs
  | .sequence done q => fits_sequence (fits_invoke fuel) hd q done hs
  | .factor f => fits_factor (fits_invoke fuel) hd f hs
  | .atom x => fits_atom (fits_invoke fuel) hd x hs
  | .item _ x => fits_item hs (fits_atom (fits_invoke fuel) hd x) fun z _ => fits_atom (fits_invoke fuel) hd z
  | .items y x =>
    fits_items y x (fits_atom (fits_invoke fuel) hd x) (fun z _ => fits_atom (fits_invoke fuel) hd z) hs
  | .listOf y x => fits_listOf hs (fits_atom (fits_invoke fuel) hd x) (fits_atom (fits_invoke fuel) hd y)

end Packrat.Grammar
