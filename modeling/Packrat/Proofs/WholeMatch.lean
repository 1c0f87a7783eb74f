import Packrat.Proofs.SplicedSource
import Packrat.Proofs.Spans
/-!
# WholeMatch — full matches of any source

A full match of a source takes a text if and only if the expression of the source spans the whole text
(`accepts_iff_spans`).  The source is read in its group as the expression that it is read as alone, so that no bar in it
comes between the ends of the text; and between these every hit is tried, so that no alternative hides another.  The
group and the ends are two levels more, so a source that is nested as deep as a pattern may be has no full match
(`not_accepts_iff_spans`).
-/
namespace Packrat.FullMatch

open Pattern

/-- **A full match takes the texts that the source spans as a whole**, the preferred match or not; and there is one
unless the source, two levels deeper, is nested too deep, or too large. -/
theorem accepts_iff_spans {C : Compiler} {source : String} {p : Pattern}
    (hp : Pattern.compile source C.flags = some p) (hx : NeverExtended source.toList C) :
    ∃ depth, readSyntax C.flags source.toList = some ⟨p.expr, depth⟩ ∧
      ((∃ m, FullMatch.ofSource source C = .ok m) ↔
        depth + 2 ≤ nestLimit ∧ C.fits (anchored p.expr) = true) ∧
      ∀ m, FullMatch.ofSource source C = .ok m →
        ∀ text : String, m.accepts text = true ↔ p.expr.Spans ⟨[], text.toList⟩ ⟨text.toList.reverse, []⟩ := by
  obtain ⟨-, -, depth, -, hread⟩ := ofChars_eq_some_iff.1 hp
  have hfull := ofSource_of_leads (d := depth + 1) hp fun g hg => leads_unit_source hx hread hg [] ['\\', 'z']
  rw [hfull]
  refine ⟨depth, hread, ?_, ?_⟩
  · by_cases hmade : depth + 2 ≤ nestLimit ∧ C.fits (anchored p.expr) = true
    · rw [if_pos hmade]
      exact iff_of_true ⟨_, rfl⟩ hmade
    · rw [if_neg hmade]
      exact iff_of_false (by simp) hmade
  · intro m hm text
    split at hm
    · cases hm
      exact isSome_search_whole p.expr text.toList
    · cases hm

/-- The shorter alternative comes first, and is not all that is taken. -/
theorem accepts_iff_spans_alternatives :
    ∃ p m, Pattern.compile "(?i)a|ab" = some p ∧ FullMatch.ofSource "(?i)a|ab" = .ok m ∧
      (∀ text : String, m.accepts text = true ↔ p.expr.Spans ⟨[], text.toList⟩ ⟨text.toList.reverse, []⟩) ∧
      m.accepts "AB" = true := by
  have hp : Pattern.compile "(?i)a|ab" = some ⟨"(?i)a|ab", .alt (.cat .empty (.one (.caseless 'a' 'a')))
      (.cat (.one (.caseless 'a' 'a')) (.one (.caseless 'b' 'b')))⟩ := by decide +kernel
  obtain ⟨depth, hread, hmade, h⟩ := accepts_iff_spans (C := .basic) hp (by decide +kernel)
  obtain rfl : 2 = depth := congrArg (fun e => (e.map Nested.depth).getD 0) hread
  obtain ⟨m, hm⟩ := hmade.2 (by decide +kernel)
  have haccepts := h m hm
  exact ⟨_, m, hp, hm, haccepts,
    (haccepts "AB").2 (Or.inr ⟨⟨['A'], ['B']⟩, ⟨'A', by decide, rfl, rfl⟩, ⟨'B', by decide, rfl, rfl⟩⟩)⟩

/-! ## Nested groups -/

/-- A letter in groups, one in the other. -/
def groups : Nat → List Char
  | 0 => ['a']
  | n + 1 => '(' :: (groups n ++ [')'])

def groupsExpr : Nat → Expr
  | 0 => .one (.single 'a')
  | n + 1 => .group none (groupsExpr n)

theorem leads_groups : ∀ (n : Nat) {g : OpenGroup} (_ : g.flags = {}) (outer : List OpenGroup) (names : List String)
    (rest : List Char),
    Leads ⟨g, outer, names, groups n ++ rest⟩ ⟨g.push ⟨groupsExpr n, n⟩, outer, names, rest⟩
  | 0, g, hg, outer, names, rest => leads_escape_char (by rw [hg]) (by simp [hg])
  | n + 1, g, hg, outer, names, rest => by
    have hopen : ∀ text, Leads ⟨g, outer, names, '(' :: (groups n ++ text)⟩
        ⟨.start {} (some none), g :: outer, names, groups n ++ text⟩ := by
      obtain ⟨flags, capture, complete, items, repeatable⟩ := g
      cases hg
      refine fun text => ⟨1, by simp only [List.length_cons]; omega, fun _ => ?_⟩
      cases n <;> rfl
    have hclose : ((OpenGroup.start {} (some none)).push ⟨groupsExpr n, n⟩).close = ⟨groupsExpr (n + 1), n + 1⟩ := by
      rw [OpenGroup.close, body_push]
      rfl
    have htext : groups (n + 1) ++ rest = '(' :: (groups n ++ ')' :: rest) := by simp [groups]
    rw [htext, ← hclose]
    exact (hopen _).trans ((leads_groups n rfl _ _ _).trans leads_close)

theorem fits_groupsExpr (n : Nat) : Compiler.basic.fits (groupsExpr n) = true := by
  induction n with
  | zero => rfl
  | succ n ih => exact ih

/-- **Nested groups compile up to the limit**, and have a full match up to two levels below it. -/
theorem compile_groups (n : Nat) : Pattern.compile (String.ofList (groups n)) =
    if n ≤ nestLimit then some ⟨String.ofList (groups n), groupsExpr n⟩ else none := by
  have hleads := leads_groups n (g := .start {} none) rfl [] [] []
  rw [List.append_nil] at hleads
  rw [Pattern.compile, String.toList_ofList, ofChars_of_readSyntax (readSyntax_of_leads hleads), body_push]
  exact if_congr (and_iff_left (fits_groupsExpr n)) rfl rfl

theorem ofSource_groups {n : Nat} (hn : n ≤ nestLimit) :
    (∃ m, FullMatch.ofSource (String.ofList (groups n)) = .ok m) ↔ n + 2 ≤ nestLimit := by
  have hcompile := (compile_groups n).trans (if_pos hn)
  have hclose : ((OpenGroup.start {} none).push ⟨groupsExpr n, n⟩).close = ⟨groupsExpr n, n + 1⟩ := by
    rw [OpenGroup.close, body_push]
    rfl
  have hfull := ofSource_of_leads (C := .basic) (d := n + 1) hcompile fun g hg => by
    rw [String.toList_ofList, ← hclose]
    exact ⟨[], leads_unit hg (leads_groups n rfl _ _ _)⟩
  rw [hfull]
  by_cases hmade : n + 1 + 1 ≤ nestLimit
  · rw [if_pos ⟨hmade, fits_anchored (fits_groupsExpr n)⟩]
    exact iff_of_true ⟨_, rfl⟩ hmade
  · rw [if_neg fun h => hmade h.1]
    exact iff_of_false (by simp) hmade

/-- Two hundred and fifty groups compile, and have no full match. -/
theorem not_accepts_iff_spans : (Pattern.compile (String.ofList (groups 250))).isSome = true ∧
    ¬∃ m, FullMatch.ofSource (String.ofList (groups 250)) = .ok m := by
  constructor
  · rw [compile_groups]
    rfl
  · rw [ofSource_groups (by decide)]
    decide

-- in the extended mode a comment at the end of the source takes in the bracket that should close the group
example : (Pattern.compile "(?x)a#").isSome = true ∧ (FullMatch.ofSource "(?x)a#").toOption = none := by decide +kernel

end Packrat.FullMatch
