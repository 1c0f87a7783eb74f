import Packrat.Grammar.Engine
/-!
# SeparatedLists — a list with separators is an item and pairs

Items with a separator between each two are one item, and then pairs of a separator and an item, as many as there are.
The list and the sequence that spells it out run through the same states: both read an item and pairs (`readPaired`),
and each makes its own value of them (`run_sepBy1`, `run_spelledOut`).  Main statement: `separated_spelledOut`.
-/
namespace Packrat.Grammar

open Packrat.Grammar.Parser

/-! ## The list spelled out -/

def pairOf (separator x : Atom) : Sequence := .andThen (.once separator) (.andThen (.once x) (.stop none))

/-- **The sequence `x (separator x)*`.** -/
def spelledOut (x separator : Atom) : Sequence :=
  .andThen (.once x) (.andThen (.many (.group (.last (pairOf separator x)))) (.stop none))

def spelledValue (first : Value) (pairs : List (Value × Value)) : Value :=
  .list [first, .list (pairs.map fun p => .list [p.1, p.2])]

/-- The value of the list with separators: the item, and the second component of each pair. -/
def separatedValue (first : Value) (pairs : List (Value × Value)) : Value := .list (first :: pairs.map Prod.snd)

/-! ## Parsers with one course and two values -/

section

variable {α β : Type} {p : Parser α} {q : Parser β} {f : β → α}

theorem attempt_attempt (p : Parser α) (s : State) : attempt (attempt p) s = attempt p s := by
  unfold attempt
  cases p s <;> rfl

theorem attempt_map {s : State} (h : p s = (q s).map f) : attempt p s = (attempt q s).map f := by
  unfold attempt
  rw [h]
  cases q s <;> rfl

/-- **Repetitions of parsers that differ in their values only** differ in their values only. -/
theorem manyUpTo_map (h : ∀ s, attempt p s = (attempt q s).map f) :
    ∀ (fuel : Nat) (s : State), manyUpTo p fuel s = (manyUpTo q fuel s).map (List.map f)
  | 0, _ => rfl
  | fuel + 1, s => by
    rw [manyUpTo, manyUpTo, h s]
    cases attempt q s with
    | exhausted => rfl
    | fail s' => rfl
    | value b s' =>
      dsimp only [Reply.map]
      split
      · rfl
      · rw [manyUpTo_map h fuel s']
        cases manyUpTo q fuel s' <;> rfl

theorem many_map (h : ∀ s, attempt p s = (attempt q s).map f) (s : State) : many p s = (many q s).map (List.map f) :=
  manyUpTo_map h _ s

theorem manyUpTo_ne_fail (p : Parser α) (fuel : Nat) (s s' : State) : manyUpTo p fuel s ≠ .fail s' := by
  induction fuel generalizing s s' with
  | zero =>
    intro h
    cases h
  | succ fuel ih =>
    rw [manyUpTo]
    intro h
    cases ha : attempt p s with
    | exhausted | fail _ =>
      rw [ha] at h
      cases h
    | value a t =>
      rw [ha] at h
      dsimp only at h
      split at h
      · cases h
      · cases hm : manyUpTo p fuel t with
        | exhausted | value _ _ =>
          rw [hm] at h
          cases h
        | fail t' => exact ih t t' hm

end

/-! ## What both read -/

variable (scope : Scope) (x separator : Atom)

def readPair : Parser (Value × Value) :=
  (separator.run scope).andThen fun a => (x.run scope).andThen fun b => ofOption (some (a, b))

def readPaired : Parser (Value × List (Value × Value)) :=
  (x.run scope).andThen fun first => (many (readPair scope x separator)).andThen fun pairs =>
    ofOption (some (first, pairs))

theorem run_pairOf (s : State) : (pairOf separator x).run scope [] s =
    (readPair scope x separator s).map fun p => .list [p.1, p.2] := by
  simp only [pairOf, Sequence.run, Factor.run, readPair, andThen]
  cases separator.run scope s with
  | exhausted | fail _ => rfl
  | value a t =>
    dsimp only
    cases x.run scope t <;> rfl

theorem run_separator_item (s : State) : (separator.run scope).andThen (fun _ => x.run scope) s =
    (readPair scope x separator s).map Prod.snd := by
  simp only [readPair, andThen]
  cases separator.run scope s with
  | exhausted | fail _ => rfl
  | value a t =>
    dsimp only
    cases x.run scope t <;> rfl

theorem run_spelledOut (s : State) : (spelledOut x separator).run scope [] s =
    (readPaired scope x separator s).map fun r => spelledValue r.1 r.2 := by
  have hpairs : ∀ t, many ((Atom.group (.last (pairOf separator x))).run scope) t =
      (many (readPair scope x separator) t).map (List.map fun p => .list [p.1, p.2]) :=
    many_map fun t => (attempt_attempt _ t).trans (attempt_map (run_pairOf scope x separator t))
  simp only [spelledOut, Sequence.run, Factor.run, readPaired, andThen, asList, hpairs]
  cases x.run scope s with
  | exhausted | fail _ => rfl
  | value first t =>
    dsimp only
    cases many (readPair scope x separator) t <;> rfl

/-- **A list with separators reads an item and pairs**, if there is an item, and keeps the items. -/
theorem run_sepBy (s : State) : Parser.sepBy (x.run scope) (separator.run scope) s =
    match attempt (readPaired scope x separator) s with
    | .value r t => .value (r.1 :: r.2.map Prod.snd) t
    | .fail t => .value [] t
    | .exhausted => .exhausted := by
  have hpairs : ∀ t, many ((separator.run scope).andThen fun _ => x.run scope) t =
      (many (readPair scope x separator) t).map (List.map Prod.snd) :=
    many_map fun t => attempt_map (run_separator_item scope x separator t)
  simp only [sepBy_eq, hpairs, attempt, readPaired, andThen]
  cases x.run scope s with
  | exhausted | fail _ => rfl
  | value first t =>
    dsimp only
    cases hm : many (readPair scope x separator) t with
    | exhausted => rfl
    | value pairs t' => rfl
    | fail t' => exact absurd hm (manyUpTo_ne_fail _ _ t t')

/-- **A list with separators is the sequence of an item and pairs.**  Wherever the names lead and whatever the state,
the list `x ++ separator` and the sequence `x (separator x)*` give values in one state, made of one item and the same
pairs, or fail together, the list with the cursor put back; and so do the list `x ** separator` and the option
`(x (separator x)*)?`, which is the empty list where the other is absent. -/
theorem separated_spelledOut (s : State) :
    ((∃ first pairs t, (Factor.sepBy1 x separator).run scope s = .value (separatedValue first pairs) t ∧
        (spelledOut x separator).run scope [] s = .value (spelledValue first pairs) t) ∨
      (∃ t, (Factor.sepBy1 x separator).run scope s = .fail (t.rewind s.cursor) ∧
        (spelledOut x separator).run scope [] s = .fail t) ∨
      (Factor.sepBy1 x separator).run scope s = .exhausted ∧ (spelledOut x separator).run scope [] s = .exhausted) ∧
    ((∃ first pairs t, (Factor.sepBy x separator).run scope s = .value (separatedValue first pairs) t ∧
        (Factor.optional (.group (.last (spelledOut x separator)))).run scope s =
          .value (.list [spelledValue first pairs]) t) ∨
      (∃ t, (Factor.sepBy x separator).run scope s = .value (.list []) t ∧
        (Factor.optional (.group (.last (spelledOut x separator)))).run scope s = .value (.list []) t) ∨
      (Factor.sepBy x separator).run scope s = .exhausted ∧
        (Factor.optional (.group (.last (spelledOut x separator)))).run scope s = .exhausted) := by
  have hoptional : (Factor.optional (.group (.last (spelledOut x separator)))).run scope s =
      orElse (fun s => (attempt ((spelledOut x separator).run scope []) s).map fun v => .list [v])
        (ofOption (some (.list []))) s := by
    simp only [Factor.run, Atom.run, Choice.run, orElse, attempt_attempt]
  have hspelled := run_spelledOut scope x separator s
  rw [hoptional, orElse, attempt_map hspelled]
  simp only [Factor.run, asList, asList1, andThen, run_sepBy, hspelled]
  cases hr : readPaired scope x separator s with
  | value r t =>
    rw [attempt_of_value hr]
    exact ⟨Or.inl ⟨r.1, r.2, t, rfl, rfl⟩, Or.inl ⟨r.1, r.2, t, rfl, rfl⟩⟩
  | fail t =>
    rw [attempt_of_fail hr]
    exact ⟨Or.inr (Or.inl ⟨t, rfl, rfl⟩), Or.inr (Or.inl ⟨_, rfl, rfl⟩)⟩
  | exhausted =>
    have hne : attempt (readPaired scope x separator) s = .exhausted := by
      rw [attempt, hr]
    rw [hne]
    exact ⟨Or.inr (Or.inr ⟨rfl, rfl⟩), Or.inr (Or.inr ⟨rfl, rfl⟩)⟩

end Packrat.Grammar
