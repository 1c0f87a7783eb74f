/-!
# Template — literal text interleaved with holes

A template with `n` holes has `n + 1` segments of literal text; hole `i` stands between segments `i` and `i + 1`.
Authors of grammars put actions in the holes, authors of programs put values there.  Main statement: the pieces of a
text cut at a marker, joined with the marker, are the text (`intercalate_pieces`).
-/
namespace Packrat

/-- **A template**: its first segment, and the segment after each hole. -/
structure Template where
  first : String
  rest : List String
  deriving Repr, DecidableEq, Inhabited

namespace Template

def marker : String := String.ofList ['$', '{', '}']

def segments (t : Template) : List String := t.first :: t.rest

def holeCount (t : Template) : Nat := t.rest.length

/-- The template with these segments; no segments at all stand for one empty one. -/
def ofSegments : List String → Template
  | [] => ⟨"", []⟩
  | s :: rest => ⟨s, rest⟩

def literal (text : String) : Template := ⟨text, []⟩

/-! ## Cutting text at a marker -/

def firstCut (marker : List Char) : List Char → Option (List Char × List Char)
  | [] => if marker.isEmpty then some ([], []) else none
  | c :: cs =>
    if marker.isPrefixOf (c :: cs) then some ([], (c :: cs).drop marker.length)
    else (firstCut marker cs).map fun (before, after) => (c :: before, after)

/-- **The pieces of a text between the occurrences of the marker**, taken from the left without overlap: the first
piece, and the others.  A cut that leaves as much as there was (the marker is empty) is none. -/
def pieces (marker text : List Char) : List Char × List (List Char) :=
  match firstCut marker text with
  | none => (text, [])
  | some (before, after) =>
    if after.length < text.length then
      let (next, others) := pieces marker after
      (before, next :: others)
    else (text, [])
termination_by text.length

theorem eq_of_firstCut {marker : List Char} :
    ∀ {text before after : List Char}, firstCut marker text = some (before, after) →
      text = before ++ marker ++ after
  | [], before, after, h => by
    simp only [firstCut, Option.ite_none_right_eq_some, List.isEmpty_iff, Option.some.injEq, Prod.mk.injEq] at h
    obtain ⟨rfl, rfl, rfl⟩ := h
    rfl
  | c :: cs, before, after, h => by
    rw [firstCut] at h
    split at h
    · rename_i hp
      obtain ⟨t, ht⟩ := List.isPrefixOf_iff_prefix.mp hp
      simp only [Option.some.injEq, Prod.mk.injEq] at h
      obtain ⟨rfl, rfl⟩ := h
      simp [← ht]
    · obtain ⟨⟨b, a⟩, hcut, he⟩ := Option.map_eq_some_iff.mp h
      simp only [Prod.mk.injEq] at he
      obtain ⟨rfl, rfl⟩ := he
      simp [eq_of_firstCut hcut]

/-- **Cutting loses nothing**: the pieces joined with the marker are the text. -/
theorem intercalate_pieces (marker text : List Char) :
    marker.intercalate ((pieces marker text).1 :: (pieces marker text).2) = text := by
  fun_induction pieces marker text with
  | case1 text hcut => simp
  | case2 text before after hcut hlt next others heq ih =>
    rw [heq] at ih
    rw [List.intercalate_cons_cons, ih, eq_of_firstCut hcut]
  | case3 text before after hcut hlt => simp

def ofMarked (marker text : String) : Template :=
  let (first, rest) := pieces marker.toList text.toList
  ⟨String.ofList first, rest.map String.ofList⟩

/-! ## Display -/

def showHole (i : Nat) : String := String.ofList ('$' :: '{' :: (toString i).toList ++ ['}'])

def renderFrom (i : Nat) : List String → String
  | [] => ""
  | s :: rest => showHole i ++ s ++ renderFrom (i + 1) rest

def render (t : Template) : String := t.first ++ renderFrom 0 t.rest

end Template

end Packrat
