import Packrat.Proofs.ParseMeaning
import Mathlib.Data.Fintype.EquivFin
import Mathlib.Order.WellFounded
/-!
# LeftRecursion — grammars whose parses end

A part of a body is nullable if nothing of its text need be there (`Nullable`), and a rule calls another one on the left
if the call stands behind nullable parts only (`LeftCalls`).  Where no rule calls itself on the left, directly or through
others, every rule means something at every position (`answered_rule`): later positions are clear by induction on what
is left of the entries, and at the position itself the rules that are called on the left are clear by induction along
these calls.  An item or a separator that took nothing ends its repetition, so nullable ones do no harm.  Main
statement: every parse with such a grammar ends (`ends_of_leftAcyclic`).
-/
namespace Packrat.Grammar

inductive Part where
  | choice (c : Choice)
  | sequence (q : Sequence)
  | factor (f : Factor)
  | atom (x : Atom)

/-- **What may match nothing**: the least set of parts with these laws; actions are not looked at. -/
inductive Nullable (layers : List Layer) : Definition → Part → Prop where
  | last {d q} (h : Nullable layers d (.sequence q)) : Nullable layers d (.choice (.last q))
  | first {d q rest} (h : Nullable layers d (.sequence q)) : Nullable layers d (.choice (.orElse q rest))
  | next {d q rest} (h : Nullable layers d (.choice rest)) : Nullable layers d (.choice (.orElse q rest))
  | stop {d action} : Nullable layers d (.sequence (.stop action))
  | andThen {d f rest} (h : Nullable layers d (.factor f)) (h' : Nullable layers d (.sequence rest)) :
      Nullable layers d (.sequence (.andThen f rest))
  | once {d x} (h : Nullable layers d (.atom x)) : Nullable layers d (.factor (.once x))
  | optional {d x} : Nullable layers d (.factor (.optional x))
  | many {d x} : Nullable layers d (.factor (.many x))
  | many1 {d x} (h : Nullable layers d (.atom x)) : Nullable layers d (.factor (.many1 x))
  | sepBy {d x y} : Nullable layers d (.factor (.sepBy x y))
  | sepBy1 {d x y} (h : Nullable layers d (.atom x)) : Nullable layers d (.factor (.sepBy1 x y))
  | eof {d} : Nullable layers d (.atom (.terminal .eof))
  | group {d c} (h : Nullable layers d (.choice c)) : Nullable layers d (.atom (.group c))
  | called {d x e} (hx : x.target? layers d = some (some e)) (h : Nullable layers e (.choice e.rule.body)) :
      Nullable layers d (.atom x)

/-- **A part that may call a definition before anything is taken.**  A separator stands behind an item; an item behind a
separator stands where the first item does, so there is no law of its own for it. -/
inductive OpensWith (layers : List Layer) (d : Definition) : Part → Definition → Prop where
  | last {q e} (h : OpensWith layers d (.sequence q) e) : OpensWith layers d (.choice (.last q)) e
  | first {q rest e} (h : OpensWith layers d (.sequence q) e) : OpensWith layers d (.choice (.orElse q rest)) e
  | next {q rest e} (h : OpensWith layers d (.choice rest) e) : OpensWith layers d (.choice (.orElse q rest)) e
  | head {f rest e} (h : OpensWith layers d (.factor f) e) : OpensWith layers d (.sequence (.andThen f rest)) e
  | tail {f rest e} (hf : Nullable layers d (.factor f)) (h : OpensWith layers d (.sequence rest) e) :
      OpensWith layers d (.sequence (.andThen f rest)) e
  | once {x e} (h : OpensWith layers d (.atom x) e) : OpensWith layers d (.factor (.once x)) e
  | optional {x e} (h : OpensWith layers d (.atom x) e) : OpensWith layers d (.factor (.optional x)) e
  | many {x e} (h : OpensWith layers d (.atom x) e) : OpensWith layers d (.factor (.many x)) e
  | many1 {x e} (h : OpensWith layers d (.atom x) e) : OpensWith layers d (.factor (.many1 x)) e
  | sepBy {x y e} (h : OpensWith layers d (.atom x) e) : OpensWith layers d (.factor (.sepBy x y)) e
  | separator {x y e} (hx : Nullable layers d (.atom x)) (h : OpensWith layers d (.atom y) e) :
      OpensWith layers d (.factor (.sepBy x y)) e
  | sepBy1 {x y e} (h : OpensWith layers d (.atom x) e) : OpensWith layers d (.factor (.sepBy1 x y)) e
  | separator1 {x y e} (hx : Nullable layers d (.atom x)) (h : OpensWith layers d (.atom y) e) :
      OpensWith layers d (.factor (.sepBy1 x y)) e
  | group {c e} (h : OpensWith layers d (.choice c) e) : OpensWith layers d (.atom (.group c)) e
  | called {x e} (hx : x.target? layers d = some (some e)) : OpensWith layers d (.atom x) e

def LeftCalls (layers : List Layer) (d e : Definition) : Prop := OpensWith layers d (.choice d.rule.body) e

/-- **No left recursion**: no definition of the layers calls itself on the left, through whatever others. -/
def LeftAcyclic (layers : List Layer) : Prop := ∀ d : Definition, d.Of layers → ¬ Relation.TransGen (LeftCalls layers) d d

variable {layers : List Layer} {tokens : TokenList} {d e : Definition} {φ : Phrase} {part part' : Part} {p q : Nat}
  {a : Answer} {t : Trail}

/-! ## Phrases that take nothing -/

/-- What a phrase that gave this value without taking anything says about its parts: a list with an item in it had an
item that took nothing. -/
def Phrase.NullAs (layers : List Layer) (d : Definition) (v : Value) : Phrase → Prop
  | .choice c => Nullable layers d (.choice c)
  | .sequence _ q => Nullable layers d (.sequence q)
  | .factor f => Nullable layers d (.factor f)
  | .atom x | .item _ x => Nullable layers d (.atom x)
  | .items _ x | .listOf _ x => v ≠ .list [] → Nullable layers d (.atom x)

theorem Atom.nullable_of_leaf? {v : Value} : ∀ {x : Atom}, x.leaf? tokens p = some (some (v, p)) →
    Nullable layers d (.atom x)
  | .terminal .eof, _ => .eof
  | .literal _, h | .terminal .number, h | .terminal .string, h | .terminal .ident, h | .terminal .hole, h =>
    absurd (answerAt_eq_some (Option.some.inj h)).1 (Nat.ne_of_lt (Nat.lt_succ_self p))

theorem eq_of_stop_eq {ψ : Phrase} {v w : Value} {u : Trail} (h : Means layers tokens d φ p (some (v, q)) t)
    (h' : Means layers tokens d ψ q (some (w, p)) u) : q = p := by
  have hq := stop_of_means h rfl
  have hp := stop_of_means h' rfl
  omega

theorem nullable_of_means (h : Means layers tokens d φ p a t) :
    ∀ {v : Value}, a = some (v, p) → φ.NullAs layers d v := by
  induction h with
  | last _ ih => exact fun h => .last (ih h)
  | first _ ih => exact fun h => .first (ih h)
  | next _ _ _ ih => exact fun h => .next (ih h)
  | factorFail | refuse | many1Fail | sepBy1Fail | separatorFail | dangling => exact fun h => by cases h
  | factorThen h h' ih ih' =>
    rintro v rfl
    cases eq_of_stop_eq h h'
    exact .andThen (ih rfl) (ih' rfl)
  | sole | all | act => exact fun _ => .stop
  | once _ ih => exact fun h => .once (ih h)
  | present | absent => exact fun _ => .optional
  | many => exact fun _ => .many
  | many1 _ ih => exact fun h => .many1 (ih h fun hv => by subst hv; cases h)
  | sepBy => exact fun _ => .sepBy
  | sepBy1 _ ih => exact fun h => .sepBy1 (ih h fun hv => by subst hv; cases h)
  | bare _ ih => exact fun h => ih h
  | separated h h' _ ih' =>
    rintro v rfl
    cases eq_of_stop_eq h h'
    exact ih' rfl
  | itemsEnd | listNone => rintro v h hv; cases h; exact absurd rfl hv
  | itemsStay _ ih => rintro v h hv; exact ih rfl
  | itemsMore h hne h' =>
    rintro v he hv
    cases he
    exact absurd (eq_of_stop_eq h h') hne
  | listSome h h' ih =>
    rintro v he hv
    cases he
    cases eq_of_stop_eq h h'
    exact ih rfl
  | leaf hl => rintro v rfl; exact Atom.nullable_of_leaf? hl
  | group _ ih => exact fun h => .group (ih h)
  | called hx _ ih => exact fun h => .called hx (ih h)

/-! ## Parts that mean something -/

def Answered (layers : List Layer) (tokens : TokenList) (d : Definition) (φ : Phrase) (p : Nat) : Prop :=
  ∃ a t, Means layers tokens d φ p a t

/-- **What a part may rely on at a position**: the rules at all later ones, and those that it calls on the left at this
one. -/
structure Ready (layers : List Layer) (tokens : TokenList) (d : Definition) (part : Part) (p : Nat) : Prop where
  later : ∀ {e : Definition} {q : Nat}, e.Of layers → p < q → q ≤ tokens.entries.length →
    Answered layers tokens e (.choice e.rule.body) q
  now : ∀ {e : Definition}, OpensWith layers d part e → Answered layers tokens e (.choice e.rule.body) p

theorem OpensWith.of (hd : d.Of layers) (h : OpensWith layers d part e) : e.Of layers := by
  induction h with
  | last _ ih | first _ ih | next _ ih | head _ ih | tail _ _ ih | once _ ih | optional _ ih | many _ ih | many1 _ ih
  | sepBy _ ih | separator _ _ ih | sepBy1 _ ih | separator1 _ _ ih | group _ ih => exact ih
  | called hx => exact Atom.of_target? hd hx

theorem Ready.imp (h : Ready layers tokens d part p)
    (hi : ∀ {e : Definition}, OpensWith layers d part' e → OpensWith layers d part e) :
    Ready layers tokens d part' p :=
  ⟨h.later, fun he => h.now (hi he)⟩

theorem Ready.behind (h : Ready layers tokens d part p) (hd : d.Of layers) (hpq : p < q)
    (hq : q ≤ tokens.entries.length) : Ready layers tokens d part' q :=
  ⟨fun he hqr hr => h.later he (hpq.trans hqr) hr, fun he => h.later (he.of hd) hpq hq⟩

theorem Ready.onward (h : Ready layers tokens d part p) (hd : d.Of layers) (hpq : p ≤ q)
    (hq : q ≤ tokens.entries.length) : Ready layers tokens d part q := by
  rcases Nat.eq_or_lt_of_le hpq with rfl | hlt
  · exact h
  · exact h.behind hd hlt hq

/-- A repetition means something if its items do from the position on: items that take something come to the end of the
entries. -/
theorem exists_items {y : Option Atom} {x : Atom} : ∀ {p : Nat}, p ≤ tokens.entries.length →
    (∀ {q : Nat}, p ≤ q → q ≤ tokens.entries.length → Answered layers tokens d (.item y x) q) →
    ∃ vs stop t, Means layers tokens d (.items y x) p (some (.list vs, stop)) t := by
  intro p
  induction hn : tokens.entries.length - p using Nat.strong_induction_on generalizing p with
  | _ n ih =>
    intro hp hitem
    obtain ⟨a, t, hm⟩ := hitem (Nat.le_refl p) hp
    match a with
    | none => exact ⟨[], p, t, .itemsEnd hm⟩
    | some (v, q) =>
      have hstop := stop_of_means hm rfl
      by_cases hq : q = p
      · subst hq
        exact ⟨[v], q, t, .itemsStay hm⟩
      · obtain ⟨vs, stop, u, hrest⟩ :=
          ih (tokens.entries.length - q) (by omega) rfl (by omega) fun hqr hr => hitem (by omega) hr
        exact ⟨v :: vs, stop, _, .itemsMore hm hq hrest⟩

theorem answered_item {y x : Atom} (hy : Answered layers tokens d (.atom y) p) (hp : p ≤ tokens.entries.length)
    (hx : ∀ {q : Nat}, p ≤ q → q ≤ tokens.entries.length → Answered layers tokens d (.atom x) q) :
    Answered layers tokens d (.item (some y) x) p := by
  obtain ⟨a, t, hm⟩ := hy
  match a with
  | none => exact ⟨_, _, .separatorFail hm⟩
  | some (v, q) =>
    have hstop := stop_of_means hm rfl
    obtain ⟨b, u, hm'⟩ := hx (q := q) (by omega) (by omega)
    exact ⟨_, _, .separated hm hm'⟩

theorem exists_listOf {y x : Atom} (hp : p ≤ tokens.entries.length)
    (hx : ∀ {q : Nat}, p ≤ q → q ≤ tokens.entries.length → Answered layers tokens d (.atom x) q)
    (hy : ∀ {v : Value} {q r : Nat} {t : Trail}, Means layers tokens d (.atom x) p (some (v, q)) t → q ≤ r →
      r ≤ tokens.entries.length → Answered layers tokens d (.atom y) r) :
    ∃ vs stop t, Means layers tokens d (.listOf y x) p (some (.list vs, stop)) t := by
  obtain ⟨a, t, hm⟩ := hx (Nat.le_refl p) hp
  match a with
  | none => exact ⟨[], p, t, .listNone hm⟩
  | some (v, q) =>
    have hstop := stop_of_means hm rfl
    obtain ⟨vs, stop, u, hrest⟩ := exists_items (y := some y) (x := x) (p := q) (by omega) fun hqr hr =>
      answered_item (hy hm hqr hr) hr fun hrs hs => hx (by omega) hs
    exact ⟨v :: vs, stop, _, .listSome hm hrest⟩

theorem answered_reference {x : Atom} {found : Option Definition} (hx : x.target? layers d = some found)
    (h : ∀ {e : Definition}, x.target? layers d = some (some e) → Answered layers tokens e (.choice e.rule.body) p) :
    Answered layers tokens d (.atom x) p := by
  cases found with
  | none => exact ⟨_, _, .dangling hx⟩
  | some e =>
    obtain ⟨a, t, hm⟩ := h hx
    exact ⟨_, _, .called hx hm⟩

def Settled (layers : List Layer) (tokens : TokenList) (d : Definition) (x : Atom) : Prop :=
  ∀ {p : Nat}, p ≤ tokens.entries.length → Ready layers tokens d (.atom x) p → Answered layers tokens d (.atom x) p

theorem exists_items_of_settled {x : Atom} (hd : d.Of layers) (hp : p ≤ tokens.entries.length)
    (hx : Settled layers tokens d x) (h : Ready layers tokens d (.atom x) p) :
    ∃ vs stop t, Means layers tokens d (.items none x) p (some (.list vs, stop)) t := by
  refine exists_items hp fun hpq hq => ?_
  obtain ⟨a, t, hm⟩ := hx hq (h.onward hd hpq hq)
  exact ⟨a, t, .bare hm⟩

theorem exists_listOf_of_settled {x y : Atom} (hd : d.Of layers) (hp : p ≤ tokens.entries.length)
    (hx : Settled layers tokens d x) (hy : Settled layers tokens d y) (h : Ready layers tokens d (.atom x) p)
    (h' : Nullable layers d (.atom x) → Ready layers tokens d (.atom y) p) :
    ∃ vs stop t, Means layers tokens d (.listOf y x) p (some (.list vs, stop)) t := by
  refine exists_listOf hp (fun hpq hq => hx hq (h.onward hd hpq hq)) fun {v q r t} hm hqr hr => ?_
  have hstop := stop_of_means hm rfl
  by_cases hrp : r = p
  · obtain rfl : q = p := by omega
    rw [hrp]
    exact hy hp (h' (nullable_of_means hm rfl))
  · exact hy hr (h.behind hd (by omega) hr)

mutual

theorem answered_choice (hd : d.Of layers) : ∀ (c : Choice) {p : Nat}, p ≤ tokens.entries.length →
    Ready layers tokens d (.choice c) p → Answered layers tokens d (.choice c) p
  | .last s, p, hp, h => by
    obtain ⟨a, t, hm⟩ := answered_sequence hd s [] hp (h.imp .last)
    exact ⟨a, t, .last hm⟩
  | .orElse s rest, p, hp, h => by
    obtain ⟨a, t, hm⟩ := answered_sequence hd s [] hp (h.imp .first)
    match a with
    | some r => exact ⟨_, _, .first hm⟩
    | none =>
      obtain ⟨b, u, hm'⟩ := answered_choice hd rest hp (h.imp .next)
      exact ⟨_, _, .next hm hm'⟩

theorem answered_sequence (hd : d.Of layers) : ∀ (s : Sequence) (done : List Value) {p : Nat},
    p ≤ tokens.entries.length → Ready layers tokens d (.sequence s) p → Answered layers tokens d (.sequence done s) p
  | .stop action, done, p, _, _ => ⟨_, _, means_stop layers tokens d done action p⟩
  | .andThen f rest, done, p, hp, h => by
    obtain ⟨a, t, hm⟩ := answered_factor hd f hp (h.imp .head)
    match a with
    | none => exact ⟨_, _, .factorFail hm⟩
    | some (v, q) =>
      have hstop := stop_of_means hm rfl
      -- the rest of the sequence stands on the left only if the factor took nothing
      have hrest : Ready layers tokens d (.sequence rest) q := by
        by_cases hq : q = p
        · subst hq
          exact h.imp (.tail (nullable_of_means hm rfl))
        · exact h.behind hd (by omega) (by omega)
      obtain ⟨b, u, hm'⟩ := answered_sequence hd rest (done ++ [v]) (by omega) hrest
      exact ⟨_, _, .factorThen hm hm'⟩

theorem answered_factor (hd : d.Of layers) : ∀ (f : Factor) {p : Nat}, p ≤ tokens.entries.length →
    Ready layers tokens d (.factor f) p → Answered layers tokens d (.factor f) p
  | .once x, p, hp, h => by
    obtain ⟨a, t, hm⟩ := answered_atom hd x hp (h.imp .once)
    exact ⟨a, t, .once hm⟩
  | .optional x, p, hp, h => by
    obtain ⟨a, t, hm⟩ := answered_atom hd x hp (h.imp .optional)
    match a with
    | none => exact ⟨_, _, .absent hm⟩
    | some (v, q) => exact ⟨_, _, .present hm⟩
  | .many x, p, hp, h => by
    obtain ⟨vs, stop, t, hm⟩ := exists_items_of_settled hd hp (answered_atom hd x) (h.imp .many)
    exact ⟨_, _, .many hm⟩
  | .many1 x, p, hp, h => by
    obtain ⟨vs, stop, t, hm⟩ := exists_items_of_settled hd hp (answered_atom hd x) (h.imp .many1)
    match vs with
    | [] => exact ⟨_, _, .many1Fail hm⟩
    | v :: vs => exact ⟨_, _, .many1 hm⟩
  | .sepBy x y, p, hp, h => by
    obtain ⟨vs, stop, t, hm⟩ := exists_listOf_of_settled hd hp (answered_atom hd x) (answered_atom hd y)
      (h.imp .sepBy) fun hx => h.imp (.separator hx)
    exact ⟨_, _, .sepBy hm⟩
  | .sepBy1 x y, p, hp, h => by
    obtain ⟨vs, stop, t, hm⟩ := exists_listOf_of_settled hd hp (answered_atom hd x) (answered_atom hd y)
      (h.imp .sepBy1) fun hx => h.imp (.separator1 hx)
    match vs with
    | [] => exact ⟨_, _, .sepBy1Fail hm⟩
    | v :: vs => exact ⟨_, _, .sepBy1 hm⟩

theorem answered_atom (hd : d.Of layers) : ∀ x : Atom, Settled layers tokens d x
  | .literal _, _, _, _ => ⟨_, _, .leaf rfl⟩
  | .terminal k, _, _, _ => by cases k <;> exact ⟨_, _, .leaf rfl⟩
  | .rule _, _, _, h => answered_reference rfl fun he => h.now (.called he)
  | .super _, _, _, h => answered_reference rfl fun he => h.now (.called he)
  | .group c, p, hp, h => by
    obtain ⟨a, t, hm⟩ := answered_choice hd c hp (h.imp .group)
    exact ⟨a, t, .group hm⟩

end

/-! ## Rules -/

/-- As the definitions of layers are finitely many, calls on the left come to an end where they do not come back. -/
theorem wellFounded_leftCalls (h : LeftAcyclic layers) :
    WellFounded fun e d : {d : Definition // d.Of layers} => LeftCalls layers d e := by
  have : Finite {d : Definition // d.Of layers} :=
    Finite.of_injective (β := (ruleIds layers).toFinset) (fun d => ⟨d.1.id, List.mem_toFinset.2 d.2.id_mem⟩)
      fun d e he => Subtype.ext (d.2.eq_of_id_eq e.2 (congrArg Subtype.val he))
  have htrans : IsTrans {d : Definition // d.Of layers} fun e d => Relation.TransGen (LeftCalls layers) d e :=
    ⟨fun _ _ _ hab hbc => hbc.trans hab⟩
  have hirrefl : Std.Irrefl fun e d : {d : Definition // d.Of layers} => Relation.TransGen (LeftCalls layers) d.1 e.1 :=
    ⟨fun d => h d d.2⟩
  exact Subrelation.wf (fun hde => Relation.TransGen.single hde)
    (Finite.wellFounded_of_trans_of_irrefl fun e d : {d : Definition // d.Of layers} =>
      Relation.TransGen (LeftCalls layers) d.1 e.1)

/-- **Without left recursion every rule means something everywhere**, by induction on the entries left and, among the
rules at one position, along the calls on the left. -/
theorem answered_rule (h : LeftAcyclic layers) (hd : d.Of layers) (hp : p ≤ tokens.entries.length) :
    Answered layers tokens d (.choice d.rule.body) p := by
  induction hn : tokens.entries.length - p using Nat.strong_induction_on generalizing d p with
  | _ n later =>
    have now : ∀ d : {d : Definition // d.Of layers}, Answered layers tokens d (.choice d.1.rule.body) p := by
      intro d
      induction d using (wellFounded_leftCalls h).induction with
      | _ d now =>
        exact answered_choice d.2 d.1.rule.body hp
          ⟨fun he hpq hq => later _ (by omega) he hq rfl, fun he => now ⟨_, he.of d.2⟩ he⟩
    exact now ⟨d, hd⟩

theorem leftAcyclic_of_rank (rank : String → Nat)
    (h : ∀ {d e : Definition}, d.Of layers → LeftCalls layers d e → rank e.rule.name < rank d.rule.name) :
    LeftAcyclic layers := by
  have hall : ∀ {d e : Definition}, d.Of layers → Relation.TransGen (LeftCalls layers) d e →
      rank e.rule.name < rank d.rule.name ∧ e.Of layers := by
    intro d e hd hde
    induction hde with
    | single hde => exact ⟨h hd hde, hde.of hd⟩
    | tail _ hef ih => exact ⟨(h ih.2 hef).trans ih.1, hef.of ih.2⟩
  exact fun d hd hdd => Nat.lt_irrefl _ (hall hd hdd).1

theorem Atom.name_of_target? : ∀ {x : Atom}, x.target? layers d = some (some e) →
    x = .rule e.rule.name ∨ x = .super e.rule.name
  | .rule _, h => Or.inl (congrArg Atom.rule (of_find? (Option.some.inj h)).2.symm)
  | .super _, h => Or.inr (congrArg Atom.super (of_find? (Option.some.inj h)).2.symm)

variable {g : Grammar} {rule : String} {program : Template} {holes : List Value}

theorem parseWith_ne_leftRecursion {options : ParseOptions}
    (h : ∀ d tokens, g.lookup rule = some d → ∃ a, g.Reads tokens d a) {rule' : String} :
    g.parseWith options rule program holes ≠ .error (.leftRecursion rule') := by
  unfold parseWith
  cases hd : g.lookup rule with
  | none => exact fun h => by cases h
  | some d =>
    dsimp only
    split
    · exact fun h => by cases h
    · cases g.scanner.scan program with
      | error e => exact fun h => by cases h
      | ok tokens =>
        obtain ⟨a, t, hm⟩ := h d tokens hd
        obtain ⟨hvalue, hfail⟩ := runEntry_of_means options.memoize (of_lookup hd) hm
        cases a with
        | none =>
          obtain ⟨s, hs, -⟩ := hfail rfl
          dsimp only
          rw [hs]
          exact fun h => by cases h
        | some r =>
          obtain ⟨s, hs, -⟩ := hvalue r.1 r.2 rfl
          dsimp only
          rw [hs]
          exact fun h => by cases h

/-- **Every parse ends with a grammar without left recursion**, whatever its repetitions repeat: some fuel is enough for
its run, and the fuel that a parse is given is. -/
theorem ends_of_leftAcyclic (g : Grammar) (h : LeftAcyclic g.layers) (options : ParseOptions) (rule : String)
    (program : Template) (holes : List Value) :
    g.Ends options rule program holes ∧
    ∀ rule' : String, g.parseWith options rule program holes ≠ .error (.leftRecursion rule') := by
  have hreads : ∀ d tokens, g.lookup rule = some d → ∃ a, g.Reads tokens d a := fun d tokens hd =>
    answered_rule h (of_lookup hd) (Nat.zero_le _)
  exact ⟨fun d tokens hd _ _ => (invoke_ends_iff (of_lookup hd)).2 (hreads d tokens hd), fun _ =>
    parseWith_ne_leftRecursion hreads⟩

def gaps : Grammar where
  own := ⟨[
    ⟨"start", .last (.andThen (.sepBy1 (.rule "gap") (.group (.last (.andThen (.many (.rule "gap")) (.stop none)))))
      (.stop none))⟩,
    ⟨"gap", .last (.andThen (.optional (.rule "item")) (.stop none))⟩,
    ⟨"item", .orElse (.andThen (.once (.terminal .number)) (.stop none))
      (.last (.andThen (.once (.literal "(")) (.andThen (.once (.rule "start"))
        (.andThen (.once (.literal ")")) (.stop none)))))⟩], []⟩
  inherited := []
  literals := ["(", ")"]
  scanner := (Scanner.ofTokens ["(", ")"]).toOption.getD default

def gapsRank (name : String) : Nat := if name = "start" then 2 else if name = "gap" then 1 else 0

theorem leftAcyclic_gaps : LeftAcyclic gaps.layers := by
  refine leftAcyclic_of_rank gapsRank fun {d e} hd h => ?_
  have hname : ∀ {n : String}, OpensWith gaps.layers d (.atom (.rule n)) e → e.rule.name = n := fun h => by
    cases h with
    | called hx => rcases Atom.name_of_target? hx with he | he <;> cases he; rfl
  have hlayer : d.layer :: d.below = gaps.layers := by
    rcases List.suffix_cons_iff.1 hd.suffix with hl | hl
    · exact hl
    · cases List.suffix_nil.1 hl
  have hmem := hd.mem
  rw [(List.cons.inj hlayer).1] at hmem
  unfold LeftCalls at h
  simp only [gaps, List.mem_cons, List.not_mem_nil, or_false] at hmem
  rcases hmem with hr | hr | hr <;> rw [hr] at h ⊢
  · -- the first item, the separator behind an empty one, and in it the items of the repetition
    cases h with
    | last h =>
      cases h with
      | head h =>
        cases h with
        | sepBy1 h => rw [hname h]; decide
        | separator1 _ h =>
          cases h with
          | group h =>
            cases h with
            | last h =>
              cases h with
              | head h =>
                cases h with
                | many h => rw [hname h]; decide
              | tail _ h => cases h
          | called hx => cases hx
      | tail _ h => cases h
  · cases h with
    | last h =>
      cases h with
      | head h =>
        cases h with
        | optional h => rw [hname h]; decide
      | tail _ h => cases h
  · -- a number and a bracket are no calls, and what stands behind them is not on the left
    cases h with
    | first h =>
      cases h with
      | head h =>
        cases h with
        | once h =>
          cases h with
          | called hx => cases hx
      | tail _ h => cases h
    | next h =>
      cases h with
      | last h =>
        cases h with
        | head h =>
          cases h with
          | once h =>
            cases h with
            | called hx => cases hx
        | tail hf _ =>
          cases hf with
          | once hf =>
            cases hf with
            | called hx _ => cases hx

theorem ends_of_leftAcyclic_gaps : LeftAcyclic gaps.layers ∧
    gaps.Ends { memoize := false } "start" ⟨"1 (2 ", [") 3"]⟩ [.null] ∧
    ∀ rule' : String, gaps.parseWith { memoize := false } "start" ⟨"1 (2 ", [") 3"]⟩ [.null] ≠
      .error (.leftRecursion rule') :=
  ⟨leftAcyclic_gaps, ends_of_leftAcyclic gaps leftAcyclic_gaps _ _ _ _⟩

end Packrat.Grammar
