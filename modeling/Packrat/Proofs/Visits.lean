import Packrat.Proofs.Built
import Packrat.Proofs.Run
/-!
# Visits — the rules that a run goes through

The visits of a run are the rules whose bodies it runs to their end, each with its position, in the order of their ends.
They are read off the states of the run itself, so nothing is counted that the run does not do (`Phrase.visits`,
`invokeVisits`).
-/
namespace Packrat.Grammar

open Packrat.Grammar.Parser

/-- **A rule whose body ran to its end**, and the position that it ran at. -/
abbrev Visit := RuleId × Nat

def Reply.onValue {α : Type} (next : α → State → List Visit) : Reply α → List Visit
  | .value a s => next a s
  | .fail _ | .exhausted => []

def Reply.onFail {α : Type} (next : State → List Visit) : Reply α → List Visit
  | .fail s => next s
  | .value _ _ | .exhausted => []

def thenVisits (first : Parser Value) (visits next : State → List Visit) (s : State) : List Visit :=
  visits s ++ (first s).onValue fun _ s' => next s'

def manyVisits (item : Parser Value) (visits : State → List Visit) : Nat → State → List Visit
  | 0, _ => []
  | fuel + 1, s =>
    visits s ++ (attempt item s).onValue fun _ s' =>
      if s'.position = s.position then [] else manyVisits item visits fuel s'

mutual

def Choice.visits (scope : Scope) (refer : Reference → State → List Visit) : Choice → State → List Visit
  | .last q, s => q.visits scope refer [] s
  | .orElse q rest, s =>
    q.visits scope refer [] s ++ (attempt (q.run scope []) s).onFail fun s' => rest.visits scope refer s'

def Sequence.visits (scope : Scope) (refer : Reference → State → List Visit) (done : List Value) :
    Sequence → State → List Visit
  | .stop _, _ => []
  | .andThen f rest, s =>
    f.visits scope refer s ++ (f.run scope s).onValue fun v s' => rest.visits scope refer (v :: done) s'

def Factor.visits (scope : Scope) (refer : Reference → State → List Visit) : Factor → State → List Visit
  | .once x, s | .optional x, s => x.visits scope refer s
  | .many x, s | .many1 x, s => manyVisits (x.run scope) (fun s => x.visits scope refer s) (s.remaining + 1) s
  | .sepBy x y, s | .sepBy1 x y, s =>
    x.visits scope refer s ++ (attempt (x.run scope) s).onValue fun _ s' =>
      manyVisits ((y.run scope).andThen fun _ => x.run scope)
        (thenVisits (y.run scope) (fun s => y.visits scope refer s) fun s => x.visits scope refer s) (s'.remaining + 1) s'

def Atom.visits (scope : Scope) (refer : Reference → State → List Visit) : Atom → State → List Visit
  | .literal _, _ | .terminal _, _ => []
  | .rule name, s => refer (.rule name) s
  | .super name, s => refer (.super name) s
  | .group c, s => c.visits scope refer s

end

/-- **The visits of a rule's run**: those of its body and then its own, or none if its outcome was kept. -/
def invokeVisits (layers : List Layer) (memoize : Bool) : Nat → Definition → State → List Visit
  | 0, _, _ => []
  | fuel + 1, d, s =>
    match s.countCall.known memoize d.id with
    | some _ => []
    | none =>
      d.rule.body.visits (scopeOf layers memoize fuel d)
        (fun r s => (r.target? layers d.below).elim [] fun e => invokeVisits layers memoize fuel e s) s.countCall ++
        [(d.id, s.position)]

def referVisits (layers : List Layer) (memoize : Bool) (fuel : Nat) (d : Definition) (r : Reference) (s : State) :
    List Visit :=
  (r.target? layers d.below).elim [] fun e => invokeVisits layers memoize fuel e s

def itemVisits (scope : Scope) (refer : Reference → State → List Visit) : Option Atom → Atom → State → List Visit
  | none, x => x.visits scope refer
  | some y, x => thenVisits (y.run scope) (y.visits scope refer) (x.visits scope refer)

def Phrase.visits (scope : Scope) (refer : Reference → State → List Visit) : Phrase → State → List Visit
  | .choice c => c.visits scope refer
  | .sequence done q => q.visits scope refer done.reverse
  | .factor f => f.visits scope refer
  | .atom x => x.visits scope refer
  | .item y x => itemVisits scope refer y x
  | .items y x => fun s => manyVisits (itemRun scope y x) (itemVisits scope refer y x) (s.remaining + 1) s
  | .listOf y x => fun s =>
    x.visits scope refer s ++ (attempt (x.run scope) s).onValue fun _ s' =>
      manyVisits (itemRun scope (some y) x) (itemVisits scope refer (some y) x) (s'.remaining + 1) s'

/-! ## Repetitions, by how their first part comes out -/

variable {q : Parser Value} {visits next : State → List Visit} {s s' : State} {v : Value} {n m : Nat}

theorem thenVisits_of_fail (h : q s = .fail s') : thenVisits q visits next s = visits s := by
  rw [thenVisits, h]
  exact List.append_nil _

theorem thenVisits_of_value (h : q s = .value v s') : thenVisits q visits next s = visits s ++ next s' := by
  rw [thenVisits, h]
  rfl

theorem manyVisits_of_fail (h : attempt q s = .fail s') : manyVisits q visits (n + 1) s = visits s := by
  rw [manyVisits, h]
  exact List.append_nil _

theorem manyVisits_of_stay (h : attempt q s = .value v s') (hp : s'.position = s.position) :
    manyVisits q visits (n + 1) s = visits s := by
  rw [manyVisits, h]
  simp [Reply.onValue, hp]

theorem manyVisits_of_more (h : attempt q s = .value v s') (hp : s'.position ≠ s.position) :
    manyVisits q visits (n + 1) s = visits s ++ manyVisits q visits n s' := by
  rw [manyVisits, h]
  simp [Reply.onValue, hp]

/-- More fuel for the items of a repetition that ends changes neither its reply nor its visits. -/
theorem manyUpTo_of_le (visits : State → List Visit) {r : Reply (List Value)} :
    ∀ {n m : Nat} {s : State}, n ≤ m → manyUpTo q n s = r → r ≠ .exhausted →
      manyUpTo q m s = r ∧ manyVisits q visits m s = manyVisits q visits n s
  | 0, _, _, _, h, hr => absurd h.symm hr
  | n + 1, 0, _, hnm, _, _ => absurd hnm (Nat.not_succ_le_zero n)
  | n + 1, m + 1, s, hnm, h, hr => by
    cases ha : attempt q s with
    | exhausted =>
      rw [manyUpTo, ha] at h
      exact absurd h.symm hr
    | fail s' =>
      rw [manyUpTo_of_fail ha] at h ⊢
      rw [manyVisits_of_fail ha, manyVisits_of_fail ha]
      exact ⟨h, rfl⟩
    | value v s' =>
      by_cases hq : s'.position = s.position
      · rw [manyUpTo_of_stay ha hq] at h ⊢
        rw [manyVisits_of_stay ha hq, manyVisits_of_stay ha hq]
        exact ⟨h, rfl⟩
      · rw [manyUpTo_of_more ha hq] at h ⊢
        have hrest : manyUpTo q n s' ≠ .exhausted := fun he => hr (by rw [← h, he]; rfl)
        obtain ⟨hrun, hvisits⟩ := manyUpTo_of_le visits (Nat.le_of_succ_le_succ hnm) rfl hrest
        rw [manyVisits_of_more ha hq, manyVisits_of_more ha hq, hrun, hvisits]
        exact ⟨h, rfl⟩

end Packrat.Grammar
