import Packrat.Proofs.Agreement
import Packrat.Proofs.ParseMeaning
import Packrat.Proofs.Transfer
import Mathlib.Logic.Relation
/-!
# Resolution — every name that a run comes to has a definition

A run comes from phrase to phrase: from a choice to its alternatives, from a sequence to its factors, from a reference
to the body of what it stands for (`Step`).  A step stays in the bodies of the definitions of the layers
(`Step.inside`), and so does a whole run, whether it ends or not.  In a built grammar such bodies refer to definitions
only: bare names were checked where they are said, and more layers on top leave them known.  Main statement: no run
comes to a name without a definition, so it does not matter what is done with one (`names_resolve`).
-/
namespace Packrat.Grammar

open Packrat.Grammar.Parser

/-! ## The phrases that a run comes to -/

/-- **A place that a run comes to**: a phrase of the body of a definition, about to run in a state, with the fuel that is
left for calls. -/
structure Site where
  definition : Definition
  phrase : Phrase
  state : State
  fuel : Nat

def Site.run (layers : List Layer) (memoize : Bool) (x : Site) : Parser Value :=
  x.phrase.run (scopeOf layers memoize x.fuel x.definition)

/-- **One step of a run**, from a phrase to a part of it, in the state that the parts before have left; or from a
reference to the body of its definition, if no outcome of that is known. -/
inductive Step (layers : List Layer) (memoize : Bool) : Site → Site → Prop where
  -- the alternatives in turn
  | last {d q s n} : Step layers memoize ⟨d, .choice (.last q), s, n⟩ ⟨d, .sequence [] q, s, n⟩
  | first {d q rest s n} : Step layers memoize ⟨d, .choice (.orElse q rest), s, n⟩ ⟨d, .sequence [] q, s, n⟩
  | next {d q rest s s' n} (h : attempt (Site.run layers memoize ⟨d, .sequence [] q, s, n⟩) s = .fail s') :
      Step layers memoize ⟨d, .choice (.orElse q rest), s, n⟩ ⟨d, .choice rest, s', n⟩
  -- the factors in turn
  | head {d done f rest s n} :
      Step layers memoize ⟨d, .sequence done (.andThen f rest), s, n⟩ ⟨d, .factor f, s, n⟩
  | tail {d done f rest s v s' n} (h : Site.run layers memoize ⟨d, .factor f, s, n⟩ s = .value v s') :
      Step layers memoize ⟨d, .sequence done (.andThen f rest), s, n⟩ ⟨d, .sequence (done ++ [v]) rest, s', n⟩
  -- one atom, or a list
  | once {d x s n} : Step layers memoize ⟨d, .factor (.once x), s, n⟩ ⟨d, .atom x, s, n⟩
  | optional {d x s n} : Step layers memoize ⟨d, .factor (.optional x), s, n⟩ ⟨d, .atom x, s, n⟩
  | many {d x s n} : Step layers memoize ⟨d, .factor (.many x), s, n⟩ ⟨d, .items none x, s, n⟩
  | many1 {d x s n} : Step layers memoize ⟨d, .factor (.many1 x), s, n⟩ ⟨d, .items none x, s, n⟩
  | sepBy {d x y s n} : Step layers memoize ⟨d, .factor (.sepBy x y), s, n⟩ ⟨d, .listOf y x, s, n⟩
  | sepBy1 {d x y s n} : Step layers memoize ⟨d, .factor (.sepBy1 x y), s, n⟩ ⟨d, .listOf y x, s, n⟩
  -- items, and the separators before them
  | bare {d x s n} : Step layers memoize ⟨d, .item none x, s, n⟩ ⟨d, .atom x, s, n⟩
  | separator {d y x s n} : Step layers memoize ⟨d, .item (some y) x, s, n⟩ ⟨d, .atom y, s, n⟩
  | separated {d y x s v s' n} (h : Site.run layers memoize ⟨d, .atom y, s, n⟩ s = .value v s') :
      Step layers memoize ⟨d, .item (some y) x, s, n⟩ ⟨d, .atom x, s', n⟩
  | item {d y x s n} : Step layers memoize ⟨d, .items y x, s, n⟩ ⟨d, .item y x, s, n⟩
  | more {d y x s v s' n} (h : attempt (Site.run layers memoize ⟨d, .item y x, s, n⟩) s = .value v s')
      (hp : s'.position ≠ s.position) : Step layers memoize ⟨d, .items y x, s, n⟩ ⟨d, .items y x, s', n⟩
  | leading {d y x s n} : Step layers memoize ⟨d, .listOf y x, s, n⟩ ⟨d, .atom x, s, n⟩
  | others {d y x s v s' n} (h : attempt (Site.run layers memoize ⟨d, .atom x, s, n⟩) s = .value v s') :
      Step layers memoize ⟨d, .listOf y x, s, n⟩ ⟨d, .items (some y) x, s', n⟩
  -- groups and calls
  | group {d c s n} : Step layers memoize ⟨d, .atom (.group c), s, n⟩ ⟨d, .choice c, s, n⟩
  | call {d e x s n} (hx : x.target? layers d = some (some e)) (hk : s.countCall.known memoize e.id = none) :
      Step layers memoize ⟨d, .atom x, s, n + 1⟩ ⟨e, .choice e.rule.body, s.countCall, n⟩

structure Site.Inside (layers : List Layer) (x : Site) : Prop where
  definition : x.definition.Of layers
  references : x.phrase.references ⊆ x.definition.rule.body.references

variable {layers : List Layer} {memoize : Bool} {x y : Site} {d : Definition}

theorem Step.inside (h : Step layers memoize x y) (hx : x.Inside layers) : y.Inside layers := by
  obtain ⟨hd, hr⟩ := hx
  cases h with
  | last | once | optional | many | many1 | sepBy | sepBy1 | bare | item | more | group => exact ⟨hd, hr⟩
  | first | head | leading => exact ⟨hd, (List.append_subset.1 hr).1⟩
  | next | tail => exact ⟨hd, (List.append_subset.1 hr).2⟩
  | separator => exact ⟨hd, (List.append_subset.1 hr).2⟩
  | separated => exact ⟨hd, (List.append_subset.1 hr).1⟩
  | others => exact ⟨hd, hr⟩
  | call hx => exact ⟨Atom.of_target? hd hx, List.Subset.refl _⟩

def Comes (layers : List Layer) (memoize : Bool) (d : Definition) (s : State) (fuel : Nat) (x : Site) : Prop :=
  Relation.ReflTransGen (Step layers memoize) ⟨d, .choice d.rule.body, s, fuel⟩ x

theorem Comes.inside {s : State} {fuel : Nat} (h : Comes layers memoize d s fuel x) (hd : d.Of layers) :
    x.Inside layers := by
  induction h with
  | refl => exact ⟨hd, List.Subset.refl _⟩
  | tail _ hstep ih => exact hstep.inside ih

theorem Site.Inside.exists_target? (hx : x.Inside layers) (hc : AllChecked layers) (ref : Reference)
    (href : x.phrase = .atom ref.atom) : ∃ e, ref.target? layers x.definition.below = some e := by
  have hmem : ref ∈ x.phrase.references := by
    rw [href, Phrase.references, ref.references_atom]
    exact List.mem_singleton.2 rfl
  obtain ⟨e, he, -⟩ := hc.exists_target? hx.definition (hx.references hmem)
  exact ⟨e, he⟩

/-! ## What is done with a name that has no definition -/

/-- **The run of a definition** in which a name without a definition does as the parser that is given. -/
def invokeOr (dangling : Parser Value) (layers : List Layer) (memoize : Bool) : Nat → Definition → Parser Value
  | 0, _, _ => .exhausted
  | fuel + 1, d, s =>
    let start := s.cursor
    let called := s.countCall
    match called.known memoize d.id with
    | some .fail => .fail called.countHit
    | some (.value v stop) => .value v (called.countHit.rewind (start.setPosition stop))
    | none =>
      let bind (found : Option Definition) : Parser Value := found.elim dangling (invokeOr dangling layers memoize fuel)
      let scope : Scope :=
        ⟨fun name => bind (find? name layers), fun name => bind (find? name d.below), d.layer.actions⟩
      match d.rule.body.run scope called with
      | .exhausted => .exhausted
      | .fail s' => .fail ((s'.rewind start).keep memoize d.id start.position .fail)
      | .value v s' => .value v (s'.keep memoize d.id start.position (.value v s'.position))

structure Scope.SameOn (scope scope' : Scope) (references : List Reference) : Prop where
  actions : scope.actions = scope'.actions
  refer : ∀ ref ∈ references, scope.refer ref = scope'.refer ref

section

variable {scope scope' : Scope} {refs refs' : List Reference}

theorem Scope.SameOn.left (h : Scope.SameOn scope scope' (refs ++ refs')) : Scope.SameOn scope scope' refs :=
  ⟨h.actions, fun ref hr => h.refer ref (List.mem_append_left _ hr)⟩

theorem Scope.SameOn.right (h : Scope.SameOn scope scope' (refs ++ refs')) : Scope.SameOn scope scope' refs' :=
  ⟨h.actions, fun ref hr => h.refer ref (List.mem_append_right _ hr)⟩

mutual

theorem run_choice_congr : ∀ c : Choice, Scope.SameOn scope scope' c.references → c.run scope = c.run scope'
  | .last q, h => by rw [Choice.run, Choice.run, run_sequence_congr q h]
  | .orElse q rest, h => by
    rw [Choice.run, Choice.run, run_sequence_congr q h.left, run_choice_congr rest h.right]

theorem run_sequence_congr : ∀ (q : Sequence), Scope.SameOn scope scope' q.references →
    ∀ {done : List Value}, q.run scope done = q.run scope' done
  | .stop action, h, done => by rw [Sequence.run, Sequence.run, h.actions]
  | .andThen f rest, h, done => by
    have hrest : ∀ v, rest.run scope (v :: done) = rest.run scope' (v :: done) := fun v =>
      run_sequence_congr rest h.right
    rw [Sequence.run, Sequence.run, run_factor_congr f h.left, funext hrest]

theorem run_factor_congr : ∀ f : Factor, Scope.SameOn scope scope' f.references → f.run scope = f.run scope'
  | .once x, h | .optional x, h | .many x, h | .many1 x, h => by
    rw [Factor.run, Factor.run, run_atom_congr x h]
  | .sepBy x y, h | .sepBy1 x y, h => by
    rw [Factor.run, Factor.run, run_atom_congr x h.left, run_atom_congr y h.right]

theorem run_atom_congr : ∀ x : Atom, Scope.SameOn scope scope' x.references → x.run scope = x.run scope'
  | .literal _, _ | .terminal _, _ => by rw [Atom.run, Atom.run]
  | .rule name, h => by
    rw [Atom.run, Atom.run]
    exact h.refer (.rule name) List.mem_cons_self
  | .super name, h => by
    rw [Atom.run, Atom.run]
    exact h.refer (.super name) List.mem_cons_self
  | .group c, h => by rw [Atom.run, Atom.run, run_choice_congr c h]

end

end

/-- **In checked layers it does not matter what a name without a definition does**, by induction on the fuel. -/
theorem invokeOr_eq_invoke (dangling : Parser Value) (hc : AllChecked layers) :
    ∀ (fuel : Nat) {d : Definition}, d.Of layers → invokeOr dangling layers memoize fuel d = invoke layers memoize fuel d
  | 0, _, _ => rfl
  | fuel + 1, d, hd => by
    have hsame : Scope.SameOn
        ⟨fun name => (find? name layers).elim dangling (invokeOr dangling layers memoize fuel),
          fun name => (find? name d.below).elim dangling (invokeOr dangling layers memoize fuel), d.layer.actions⟩
        (scopeOf layers memoize fuel d) d.rule.body.references := by
      refine ⟨rfl, fun ref href => ?_⟩
      obtain ⟨e, he, hof⟩ := hc.exists_target? hd href
      cases ref with
      | rule name =>
        have he : find? name layers = some e := he
        simp only [Scope.refer, scopeOf, he, Option.elim_some, invokeFound, invokeOr_eq_invoke dangling hc fuel hof]
      | super name =>
        have he : find? name d.below = some e := he
        simp only [Scope.refer, scopeOf, he, Option.elim_some, invokeFound, invokeOr_eq_invoke dangling hc fuel hof]
    have hbody := run_choice_congr d.rule.body hsame
    funext s
    rw [invoke_succ, ← hbody]
    rfl

/-! ## Built grammars -/

/-- **Names never dangle**: in a built grammar every bare name that a run comes to has a definition in the grammar that
is parsed with, and every name behind `super` has one below the rule that says it, from whatever state the run of a rule
starts and whether it ends or not.  So the failure that a name without a definition would give is never given: the runs
are the same whatever such a name does. -/
theorem names_resolve (g : Grammar) (hg : Built g) (rule : String) (d : Definition) (hd : g.lookup rule = some d)
    (memoize : Bool) (s : State) (fuel : Nat) :
    (∀ x, Comes g.layers memoize d s fuel x →
      (∀ name, x.phrase = .atom (.rule name) → ∃ e, g.lookup name = some e) ∧
      (∀ name, x.phrase = .atom (.super name) → ∃ e, find? name x.definition.below = some e)) ∧
    ∀ dangling : Parser Value, invokeOr dangling g.layers memoize fuel d = invoke g.layers memoize fuel d := by
  have hof := of_lookup hd
  refine ⟨fun x hx => ?_, fun dangling => invokeOr_eq_invoke dangling hg.checked fuel hof⟩
  have hinside := hx.inside hof
  exact ⟨fun name hname => hinside.exists_target? hg.checked (.rule name) hname,
    fun name hname => hinside.exists_target? hg.checked (.super name) hname⟩

set_option maxRecDepth 10000 in
/-- A list rule that comes to an item rule defined above it, and this one to the item rule below. -/
theorem names_resolve_items : ∃ parent g d,
    compile (.literal "start ::= item ** \",\"; item ::= NUMBER;") [] = .ok parent ∧
    extend parent (.literal "item ::= HOLE / super.item;") [] = .ok g ∧ g.lookup "start" = some d ∧
    ∀ s x, Comes g.layers true d s 3 x → ∀ name, x.phrase = .atom (.rule name) → ∃ e, g.lookup name = some e := by
  have hok : (do
      let parent ← compile (.literal "start ::= item ** \",\"; item ::= NUMBER;") []
      let g ← extend parent (.literal "item ::= HOLE / super.item;") []
      return (g.lookup "start").isSome) = (.ok true : Except DefinitionError Bool) := by decide +kernel
  obtain ⟨parent, hp, hok⟩ := Except.bind_eq_ok.1 hok
  obtain ⟨g, hg, hok⟩ := Except.bind_eq_ok.1 hok
  obtain ⟨d, hd⟩ := Option.isSome_iff_exists.1 (Except.ok.inj hok)
  exact ⟨parent, g, d, hp, hg, hd, fun s x hx =>
    ((names_resolve g (.extended (.compiled hp) hg) "start" d hd true s 3).1 x hx).1⟩

end Packrat.Grammar
