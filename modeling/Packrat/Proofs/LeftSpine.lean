import Packrat.Value.Fold
import Mathlib.Data.List.Basic
import Mathlib.Data.List.Induction
/-!
# LeftSpine — chains of operators as trees that lean to the left

Folding goes through the pairs from the first to the last and puts a node on what there is for each, so the pairs lie on
the left spine of the tree, the last one on top (`spine`).  The first value that is no pair ends the fold, and the panic
tells about this value alone (`Malformed`).  Main statement: `foldBinary_spine`.
-/
namespace Packrat.Value

def ofPair (p : String × Value) : Value := .list [.string p.1, p.2]

def IsPair (x : Value) : Prop := ∃ op right, x = .list [.string op, right]

/-- **What is wrong with a value that is no pair**, as a panic. -/
inductive Malformed : Value → Panic → Prop where
  | notList {x} (h : x.asList? = none) : Malformed x (.operandPairExpected x)
  | length {items} (h : items.length ≠ 2) : Malformed (.list items) (.operandPairLength items.length)
  | operator {op right} (h : op.asString? = none) : Malformed (.list [op, right]) (.operatorExpected op)

/-- **The left spine of a tree** down to a depth: kind and second field of every node, the topmost first, and what
stands below them.  There is none where a node has not two fields, or where there is no node. -/
def spine : Nat → Value → Option (List (String × Value) × Value)
  | 0, v => some ([], v)
  | depth + 1, .node op [left, right] => (spine depth left).map fun (pairs, base) => ((op, right) :: pairs, base)
  | _ + 1, _ => none

variable {left x v : Value} {rights xs : List Value} {pairs : List (String × Value)} {p : Panic}

/-! ## One pair -/

theorem exists_malformed (h : ¬ x.IsPair) : ∃ p, x.Malformed p := by
  cases x with
  | list items =>
    by_cases hlen : items.length = 2
    · obtain ⟨op, right, rfl⟩ := List.length_eq_two.1 hlen
      cases op with
      | string op => exact absurd ⟨op, right, rfl⟩ h
      | _ => exact ⟨_, .operator rfl⟩
    · exact ⟨_, .length hlen⟩
  | _ => exact ⟨_, .notList rfl⟩

theorem foldPair_of_malformed (h : x.Malformed p) (left : Value) : foldPair left x = .error p := by
  cases h with
  | notList h =>
    cases x with
    | list items => cases h
    | _ => rfl
  | @length items h =>
    match items, h with
    | [], _ => rfl
    | [op], _ | op :: _ :: _ :: _, _ => cases op <;> rfl
    | [_, _], h => exact absurd rfl h
  | @operator op right h =>
    cases op with
    | string op => cases h
    | _ => rfl

/-! ## A row of pairs -/

theorem forall_isPair_iff : (∀ x ∈ rights, x.IsPair) ↔ ∃ pairs : List (String × Value), rights = pairs.map ofPair := by
  constructor
  · intro h
    induction rights with
    | nil => exact ⟨[], rfl⟩
    | cons x rights ih =>
      obtain ⟨op, right, rfl⟩ := h x List.mem_cons_self
      obtain ⟨pairs, rfl⟩ := ih fun y hy => h y (List.mem_cons_of_mem _ hy)
      exact ⟨(op, right) :: pairs, rfl⟩
  · rintro ⟨pairs, rfl⟩ x hx
    obtain ⟨p, -, rfl⟩ := List.mem_map.1 hx
    exact ⟨p.1, p.2, rfl⟩

theorem foldBinary_append (left : Value) (xs ys : List Value) :
    foldBinary left (xs ++ ys) = foldBinary left xs >>= fun v => foldBinary v ys := by
  induction xs generalizing left with
  | nil => rfl
  | cons x xs ih =>
    rw [List.cons_append, foldBinary, foldBinary]
    cases foldPair left x with
    | error p => rfl
    | ok v => exact ih v

def leaning (left : Value) (pairs : List (String × Value)) : Value :=
  pairs.foldl (fun v p => .node p.1 [v, p.2]) left

theorem foldBinary_map_ofPair (left : Value) (pairs : List (String × Value)) :
    foldBinary left (pairs.map ofPair) = .ok (leaning left pairs) := by
  induction pairs generalizing left with
  | nil => rfl
  | cons p pairs ih => exact ih (.node p.1 [left, p.2])

theorem foldBinary_of_malformed (hxs : ∀ y ∈ xs, y.IsPair) (hx : x.Malformed p) (ys : List Value) :
    foldBinary left (xs ++ x :: ys) = .error p := by
  obtain ⟨pairs, rfl⟩ := forall_isPair_iff.1 hxs
  rw [foldBinary_append, foldBinary_map_ofPair]
  change foldBinary (leaning left pairs) (x :: ys) = _
  rw [foldBinary, foldPair_of_malformed hx]
  rfl

theorem forall_isPair_of_foldBinary (h : foldBinary left rights = .ok v) : ∀ x ∈ rights, x.IsPair := by
  induction rights generalizing left with
  | nil => nofun
  | cons x rights ih =>
    have hx : x.IsPair := by
      by_contra hx
      obtain ⟨p, hp⟩ := exists_malformed hx
      rw [foldBinary, foldPair_of_malformed hp] at h
      cases h
    obtain ⟨op, right, rfl⟩ := hx
    exact List.forall_mem_cons.2 ⟨⟨op, right, rfl⟩, ih h⟩

/-! ## The spine -/

theorem spine_succ_eq_some_iff {depth : Nat} {op : String} {right base : Value} :
    spine (depth + 1) v = some ((op, right) :: pairs, base) ↔
      ∃ w, v = .node op [w, right] ∧ spine depth w = some (pairs, base) := by
  constructor
  · intro h
    unfold spine at h
    split at h
    · cases h
    · rename_i hdepth
      obtain ⟨⟨pairs', base'⟩, hw, he⟩ := Option.map_eq_some_iff.1 h
      cases he
      cases hdepth
      exact ⟨_, rfl, hw⟩
    · cases h
  · rintro ⟨w, rfl, hw⟩
    rw [spine, hw]
    rfl

/-- **A tree leans to the left over pairs** if its spine holds them, the last one on top.  By induction from the last
pair, which is the topmost node. -/
theorem spine_eq_some_iff : spine pairs.length v = some (pairs.reverse, left) ↔ v = leaning left pairs := by
  induction pairs using List.reverseRec generalizing v with
  | nil => simp [spine, leaning]
  | append_singleton pairs p ih =>
    have hleaning : leaning left (pairs ++ [p]) = .node p.1 [leaning left pairs, p.2] := List.foldl_append
    rw [List.length_append, List.length_singleton, List.reverse_append, List.reverse_singleton, List.singleton_append,
      spine_succ_eq_some_iff, hleaning]
    constructor
    · rintro ⟨w, rfl, hw⟩
      rw [ih.1 hw]
    · rintro rfl
      exact ⟨leaning left pairs, rfl, ih.2 rfl⟩

/-- **Folding builds the left spine.**  It gives a tree if and only if every value of the row is a pair; the tree is
then the one whose left spine, as deep as there are pairs, holds the pairs from the last to the first and ends at the
left operand.  Otherwise it gives the panic of the first value that is no pair, which depends on nothing else.  A row in
two parts is folded part by part, and a panic of the first part is that of the whole. -/
theorem foldBinary_spine (left : Value) (rights : List Value) :
    ((∃ v, foldBinary left rights = .ok v) ↔ ∀ x ∈ rights, x.IsPair) ∧
    (∀ (pairs : List (String × Value)) (v : Value), rights = pairs.map ofPair →
      (foldBinary left rights = .ok v ↔ spine rights.length v = some (pairs.reverse, left))) ∧
    (∀ before x after, rights = before ++ x :: after → (∀ y ∈ before, y.IsPair) → ¬ x.IsPair →
      ∃ p, x.Malformed p ∧ foldBinary left rights = .error p) ∧
    (∀ xs ys, rights = xs ++ ys → foldBinary left rights = foldBinary left xs >>= fun v => foldBinary v ys) := by
  refine ⟨⟨fun ⟨v, hv⟩ => ?_, fun h => ?_⟩, ?_, ?_, ?_⟩
  · exact forall_isPair_of_foldBinary hv
  · obtain ⟨pairs, rfl⟩ := forall_isPair_iff.1 h
    exact ⟨leaning left pairs, foldBinary_map_ofPair left pairs⟩
  · rintro pairs v rfl
    rw [foldBinary_map_ofPair, List.length_map, spine_eq_some_iff, Except.ok.injEq, eq_comm]
  · rintro before x after rfl hbefore hx
    obtain ⟨p, hp⟩ := exists_malformed hx
    exact ⟨p, hp, foldBinary_of_malformed hbefore hp after⟩
  · rintro xs ys rfl
    exact foldBinary_append left xs ys

/-- One and two, then three: the second operator is on top. -/
example : spine 2 (.node "*" [.node "+" [.hole 1, .hole 2], .hole 3]) =
    some ([("*", .hole 3), ("+", .hole 2)], .hole 1) := rfl

end Packrat.Value
