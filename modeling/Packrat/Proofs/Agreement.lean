import Packrat.Grammar.Parse
import Packrat.Proofs.Run
import Packrat.Proofs.Relink
/-!
# Agreement — runs of two grammars in step

Rules of two grammars that stand for each other have ids that are paired.  Two states agree if they differ at most in
what they keep, and there not at paired ids; two parsers agree if from states that agree they give the same value or
fail together, in states that agree again.  A relinked body agrees with the body it comes from as soon as the rules
that its references name agree, and its actions are the same (`agree_choice`).  Runs of paired definitions agree as soon
as their bodies do (`agree_invoke`), and parses are equal as soon as the runs of their rules agree
(`parseWith_eq_of_agree`).
-/
namespace Packrat.Grammar

open Packrat.Grammar.Parser

def OneToOne (pairs : RuleId → RuleId → Prop) : Prop :=
  ∀ {i i' j j' : RuleId}, pairs i i' → pairs j j' → (i = j ↔ i' = j')

/-- **States that differ at most in the outcomes kept**, and agree on those of paired ids. -/
structure State.Agree (pairs : RuleId → RuleId → Prop) (s s' : State) : Prop where
  cursor : s.cursor = s'.cursor
  furthest : s.furthest = s'.furthest
  stats : s.stats = s'.stats
  memo : ∀ {i i' : RuleId}, pairs i i' → ∀ q : Nat, s.memo[(i, q)]? = s'.memo[(i', q)]?

inductive Reply.Agree (pairs : RuleId → RuleId → Prop) {α : Type} : Reply α → Reply α → Prop where
  | value {a : α} {s s' : State} (h : s.Agree pairs s') : Agree pairs (.value a s) (.value a s')
  | fail {s s' : State} (h : s.Agree pairs s') : Agree pairs (.fail s) (.fail s')
  | exhausted : Agree pairs .exhausted .exhausted

def Parser.Agree (pairs : RuleId → RuleId → Prop) {α : Type} (p p' : Parser α) : Prop :=
  ∀ s s' : State, s.Agree pairs s' → (p s).Agree pairs (p' s')

variable {pairs : RuleId → RuleId → Prop} {α β : Type} {s s' t t' : State}

namespace State.Agree

theorem start (c : Cursor) : (State.start c).Agree pairs (State.start c) :=
  ⟨rfl, rfl, rfl, fun _ q => by simp [State.start]⟩

theorem position (h : s.Agree pairs s') : s.position = s'.position := congrArg Cursor.position h.cursor

theorem rewind (h : t.Agree pairs t') {c c' : Cursor} (hc : c = c') : (t.rewind c).Agree pairs (t'.rewind c') :=
  ⟨hc, h.furthest, h.stats, h.memo⟩

theorem eat (h : s.Agree pairs s') (c : Cursor) :
    State.Agree pairs { s with cursor := c, furthest := max s.furthest c.position }
      { s' with cursor := c, furthest := max s'.furthest c.position } :=
  ⟨rfl, congrArg (max · c.position) h.furthest, h.stats, h.memo⟩

theorem countCall (h : s.Agree pairs s') : s.countCall.Agree pairs s'.countCall :=
  ⟨h.cursor, h.furthest, by rw [State.countCall, State.countCall, h.stats], h.memo⟩

theorem countHit (h : s.Agree pairs s') : s.countHit.Agree pairs s'.countHit :=
  ⟨h.cursor, h.furthest, by rw [State.countHit, State.countHit, h.stats], h.memo⟩

theorem known (h : s.Agree pairs s') (memoize : Bool) {i i' : RuleId} (hi : pairs i i') :
    s.known memoize i = s'.known memoize i' := by
  rw [State.known, State.known, h.position, h.memo hi]

theorem keep (hp : OneToOne pairs) (h : s.Agree pairs s') (memoize : Bool) {i i' : RuleId} (hi : pairs i i') (p : Nat)
    (o : Outcome) : (s.keep memoize i p o).Agree pairs (s'.keep memoize i' p o) := by
  cases memoize with
  | false => exact h
  | true =>
    refine ⟨h.cursor, h.furthest, h.stats, fun {j j'} hj q => ?_⟩
    change (s.memo.insert (i, p) o)[(j, q)]? = (s'.memo.insert (i', p) o)[(j', q)]?
    rw [Std.HashMap.getElem?_insert, Std.HashMap.getElem?_insert, h.memo hj q]
    have hkey : ((i, p) == (j, q)) = ((i', p) == (j', q)) := by
      rw [Bool.eq_iff_iff, beq_iff_eq, beq_iff_eq, Prod.mk.injEq, Prod.mk.injEq, hp hi hj]
    rw [hkey]

end State.Agree

theorem Reply.Agree.map {r r' : Reply α} (h : r.Agree pairs r') (f : α → β) : (r.map f).Agree pairs (r'.map f) := by
  cases h with
  | value h => exact .value h
  | fail h => exact .fail h
  | exhausted => exact .exhausted

/-! ## Combinators -/

variable {p p' : Parser α}

theorem Parser.Agree.cases (h : Agree pairs p p') (hs : s.Agree pairs s') :
    (∃ a t t', p s = .value a t ∧ p' s' = .value a t' ∧ t.Agree pairs t') ∨
    (∃ t t', p s = .fail t ∧ p' s' = .fail t' ∧ t.Agree pairs t') ∨
    (p s = .exhausted ∧ p' s' = .exhausted) := by
  have h := h s s' hs
  generalize p s = r at h ⊢
  generalize p' s' = r' at h ⊢
  cases h with
  | value h => exact Or.inl ⟨_, _, _, rfl, rfl, h⟩
  | fail h => exact Or.inr (Or.inl ⟨_, _, rfl, rfl, h⟩)
  | exhausted => exact Or.inr (Or.inr ⟨rfl, rfl⟩)

theorem agree_ofOption (a : Option α) : Parser.Agree pairs (ofOption a) (ofOption a) := by
  intro s s' hs
  cases a with
  | none => exact .fail hs
  | some a => exact .value hs

theorem agree_eat (f : Cursor → Option (α × Cursor)) : Parser.Agree pairs (eat f) (eat f) := by
  intro s s' hs
  rw [eat, eat, hs.cursor]
  cases f s'.cursor with
  | none => exact .fail hs
  | some r => exact .value (hs.eat r.2)

theorem agree_attempt (h : Parser.Agree pairs p p') : Parser.Agree pairs (attempt p) (attempt p') := by
  intro s s' hs
  rw [attempt, attempt]
  rcases h.cases hs with ⟨a, t, t', hr, hr', ht⟩ | ⟨t, t', hr, hr', ht⟩ | ⟨hr, hr'⟩ <;> rw [hr, hr']
  · exact .value ht
  · exact .fail (ht.rewind hs.cursor)
  · exact .exhausted

theorem agree_orElse {q q' : Parser α} (h : Parser.Agree pairs p p') (h' : Parser.Agree pairs q q') :
    Parser.Agree pairs (orElse p q) (orElse p' q') := by
  intro s s' hs
  rw [orElse, orElse]
  rcases h.cases hs with ⟨a, t, t', hr, hr', ht⟩ | ⟨t, t', hr, hr', ht⟩ | ⟨hr, hr'⟩ <;> rw [hr, hr']
  · exact .value ht
  · exact h' t t' ht
  · exact .exhausted

theorem agree_andThen {q q' : α → Parser β} (h : Parser.Agree pairs p p')
    (h' : ∀ a, Parser.Agree pairs (q a) (q' a)) : Parser.Agree pairs (p.andThen q) (p'.andThen q') := by
  intro s s' hs
  rw [andThen, andThen]
  rcases h.cases hs with ⟨a, t, t', hr, hr', ht⟩ | ⟨t, t', hr, hr', ht⟩ | ⟨hr, hr'⟩ <;> rw [hr, hr']
  · exact h' a t t' ht
  · exact .fail ht
  · exact .exhausted

theorem agree_manyUpTo (h : Parser.Agree pairs p p') :
    ∀ fuel : Nat, Parser.Agree pairs (manyUpTo p fuel) (manyUpTo p' fuel)
  | 0 => fun _ _ _ => .exhausted
  | fuel + 1 => by
    intro s s' hs
    rw [manyUpTo, manyUpTo]
    rcases (agree_attempt h).cases hs with ⟨a, t, t', hr, hr', ht⟩ | ⟨t, t', hr, hr', ht⟩ | ⟨hr, hr'⟩ <;>
      rw [hr, hr']
    · dsimp only
      rw [hs.position, ht.position]
      split
      · exact .value ht
      · exact (agree_manyUpTo h fuel t t' ht).map _
    · exact .value ht
    · exact .exhausted

theorem agree_many (h : Parser.Agree pairs p p') : Parser.Agree pairs (many p) (many p') := by
  intro s s' hs
  have hr : s.remaining = s'.remaining := by rw [State.remaining, State.remaining, hs.position, hs.cursor]
  rw [many, many, hr]
  exact agree_manyUpTo h _ s s' hs

theorem agree_sepBy {q q' : Parser α} (h : Parser.Agree pairs p p') (h' : Parser.Agree pairs q q') :
    Parser.Agree pairs (sepBy p q) (sepBy p' q') := by
  intro s s' hs
  rw [sepBy_eq, sepBy_eq]
  rcases (agree_attempt h).cases hs with ⟨a, t, t', hr, hr', ht⟩ | ⟨t, t', hr, hr', ht⟩ | ⟨hr, hr'⟩ <;> rw [hr, hr']
  · exact (agree_many (agree_andThen h' fun _ => h) t t' ht).map _
  · exact .value ht
  · exact .exhausted

theorem agree_asList {p p' : Parser (List Value)} (h : Parser.Agree pairs p p') :
    Parser.Agree pairs (asList p) (asList p') :=
  fun s s' hs => (h s s' hs).map _

theorem agree_asList1 {p p' : Parser (List Value)} (h : Parser.Agree pairs p p') :
    Parser.Agree pairs (asList1 p) (asList1 p') := by
  refine agree_andThen h fun vs => ?_
  split <;> exact agree_ofOption _

theorem agree_terminal (t : Terminal) : Parser.Agree pairs t.run t.run := by
  cases t with
  | fail => exact agree_ofOption none
  | number | string | ident | hole | eof =>
    rw [Terminal.run]
    exact agree_eat _

/-! ## Bodies -/

def Scope.refer (scope : Scope) : Reference → Parser Value
  | .rule name => scope.call name
  | .super name => scope.super name

theorem Reference.run_atom (scope : Scope) : ∀ r : Reference, r.atom.run scope = scope.refer r
  | .rule _ | .super _ => rfl

/-- **Scopes in which a body and the relinked one do the same**: references lead to rules that agree, and actions are at
the places that they are moved to. -/
structure Scope.Agree (pairs : RuleId → RuleId → Prop) (refer : Reference → Reference) (place : Nat → Nat)
    (scope scope' : Scope) (references : List Reference) (actions : List Nat) : Prop where
  calls : ∀ r ∈ references, Parser.Agree pairs (scope.refer r) (scope'.refer (refer r))
  actions : ∀ i ∈ actions, scope.actions[i]? = scope'.actions[place i]?

section Bodies

variable {refer : Reference → Reference} {place : Nat → Nat} {scope scope' : Scope} {refs refs' : List Reference}
  {acts acts' : List Nat}

theorem Scope.Agree.left (h : Scope.Agree pairs refer place scope scope' (refs ++ refs') (acts ++ acts')) :
    Scope.Agree pairs refer place scope scope' refs acts :=
  ⟨fun r hr => h.calls r (List.mem_append_left _ hr), fun i hi => h.actions i (List.mem_append_left _ hi)⟩

theorem Scope.Agree.right (h : Scope.Agree pairs refer place scope scope' (refs ++ refs') (acts ++ acts')) :
    Scope.Agree pairs refer place scope scope' refs' acts' :=
  ⟨fun r hr => h.calls r (List.mem_append_right _ hr), fun i hi => h.actions i (List.mem_append_right _ hi)⟩

theorem finish_relink (h : Scope.Agree pairs refer place scope scope' refs acts) {action : Option Nat}
    (ha : action.toList ⊆ acts) (values : List Value) :
    finish scope.actions action values = finish scope'.actions (action.map place) values := by
  cases action with
  | none => rfl
  | some i => rw [finish, Option.map_some, finish, h.actions i (ha List.mem_cons_self)]

mutual

theorem agree_choice : ∀ c : Choice, Scope.Agree pairs refer place scope scope' c.references c.actions →
    Parser.Agree pairs (c.run scope) ((c.relink refer place).run scope')
  | .last s, h => agree_attempt (agree_sequence s h [])
  | .orElse s rest, h => agree_orElse (agree_attempt (agree_sequence s h.left [])) (agree_choice rest h.right)

theorem agree_sequence : ∀ q : Sequence, Scope.Agree pairs refer place scope scope' q.references q.actions →
    ∀ done : List Value, Parser.Agree pairs (q.run scope done) ((q.relink refer place).run scope' done)
  | .stop action, h, done => by
    rw [Sequence.relink, Sequence.run, Sequence.run, finish_relink h (List.Subset.refl _)]
    exact agree_ofOption _
  | .andThen f rest, h, done => agree_andThen (agree_factor f h.left) fun v => agree_sequence rest h.right (v :: done)

theorem agree_factor : ∀ f : Factor, Scope.Agree pairs refer place scope scope' f.references f.actions →
    Parser.Agree pairs (f.run scope) ((f.relink refer place).run scope')
  | .once x, h => agree_atom x h
  | .optional x, h => agree_orElse (fun s s' hs => (agree_attempt (agree_atom x h) s s' hs).map _) (agree_ofOption _)
  | .many x, h => agree_asList (agree_many (agree_atom x h))
  | .many1 x, h => agree_asList1 (agree_many (agree_atom x h))
  | .sepBy x y, h => agree_asList (agree_sepBy (agree_atom x h.left) (agree_atom y h.right))
  | .sepBy1 x y, h => agree_asList1 (agree_sepBy (agree_atom x h.left) (agree_atom y h.right))

theorem agree_atom : ∀ x : Atom, Scope.Agree pairs refer place scope scope' x.references x.actions →
    Parser.Agree pairs (x.run scope) ((x.relink refer place).run scope')
  | .literal _, _ => by
    rw [Atom.relink, Atom.run, Atom.run]
    exact agree_eat _
  | .terminal t, _ => agree_terminal t
  | .rule name, h => by
    rw [Atom.relink, Reference.run_atom]
    exact h.calls (.rule name) List.mem_cons_self
  | .super name, h => by
    rw [Atom.relink, Reference.run_atom]
    exact h.calls (.super name) List.mem_cons_self
  | .group c, h => agree_choice c h

end

end Bodies

/-! ## Rules -/

/-- **Runs of paired definitions agree** if their bodies agree with the fuel of their calls. -/
theorem agree_invoke (hp : OneToOne pairs) {layers layers' : List Layer} {memoize : Bool} {fuel : Nat}
    {d d' : Definition} (hid : pairs d.id d'.id)
    (hbody : Parser.Agree pairs (d.rule.body.run (scopeOf layers memoize fuel d))
      (d'.rule.body.run (scopeOf layers' memoize fuel d'))) :
    Parser.Agree pairs (invoke layers memoize (fuel + 1) d) (invoke layers' memoize (fuel + 1) d') := by
  intro s s' hs
  rw [invoke_succ, invoke_succ, hs.countCall.known memoize hid, hs.cursor]
  cases s'.countCall.known memoize d'.id with
  | some o =>
    cases o with
    | fail => exact .fail hs.countCall.countHit
    | value v stop => exact .value (hs.countCall.countHit.rewind rfl)
  | none =>
    dsimp only
    rcases hbody.cases hs.countCall with ⟨v, t, t', hr, hr', ht⟩ | ⟨t, t', hr, hr', ht⟩ | ⟨hr, hr'⟩ <;> rw [hr, hr']
    · dsimp only
      rw [ht.position]
      exact .value (ht.keep hp memoize hid _ _)
    · exact .fail ((ht.rewind rfl).keep hp memoize hid _ _)
    · exact .exhausted

/-- **Parses are equal** if the programs are scanned alike and the runs of the rule agree. -/
theorem parseWith_eq_of_agree {g g' : Grammar} {options : ParseOptions} {rule : String} {d d' : Definition}
    (hd : g.lookup rule = some d) (hd' : g'.lookup rule = some d') (hs : g.scanner = g'.scanner)
    (h : ∀ tokens, (g.runEntry options.memoize d tokens).Agree pairs (g'.runEntry options.memoize d' tokens))
    (program : Template) (holes : List Value) :
    g.parseWith options rule program holes = g'.parseWith options rule program holes := by
  rw [parseWith, parseWith, hd, hd', hs]
  dsimp only
  by_cases hh : program.holeCount = holes.length
  · rw [if_neg (not_not_intro hh), if_neg (not_not_intro hh)]
    cases g'.scanner.scan program with
    | error e => rfl
    | ok tokens =>
      have ht := h tokens
      dsimp only
      generalize g.runEntry options.memoize d tokens = r at ht ⊢
      generalize g'.runEntry options.memoize d' tokens = r' at ht ⊢
      cases ht with
      | value ha =>
        dsimp only
        rw [ha.position, ha.stats]
      | fail ha =>
        dsimp only
        rw [ha.furthest]
      | exhausted => rfl
  · rw [if_pos hh, if_pos hh]

end Packrat.Grammar
