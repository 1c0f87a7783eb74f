import Packrat.Template
import Mathlib.Data.List.Infix
/-!
# MarkedText — marked text and segments, one to one

A text is cut at the first occurrence of the marker that is left of all others, and its rest is cut again.  So no piece
holds the marker, whatever the marker is (`not_infix_of_mem_pieces`).  Pieces that were joined are found again if no
occurrence of the marker lies across a piece and a marker put there; such an occurrence would begin with the end of the
other, so there is none if no beginning of the marker is an end of it (`Borderless`, `pieces_intercalate`).  Main
statement: `segments_oneToOne`.
-/
namespace Packrat.Template

/-! ## Cutting at any marker -/

variable {mark text before after piece rest : List Char}

theorem firstCut_eq_none_iff (hm : mark ≠ []) : firstCut mark text = none ↔ ¬ mark <:+: text := by
  induction text with
  | nil => simp [firstCut, hm]
  | cons c cs ih =>
    rw [List.infix_cons_iff, firstCut]
    split
    · rename_i hp
      simp [List.isPrefixOf_iff_prefix.1 hp]
    · rename_i hp
      rw [Option.map_eq_none_iff, ih, not_or]
      exact ⟨fun h => ⟨fun hpre => hp (List.isPrefixOf_iff_prefix.2 hpre), h⟩, And.right⟩

/-- What stands before the first occurrence holds none: the marker would begin further to the left there. -/
theorem not_infix_of_firstCut (hm : mark ≠ []) (h : firstCut mark text = some (before, after)) :
    ¬ mark <:+: before := by
  induction text generalizing before with
  | nil => simp [firstCut, hm] at h
  | cons c cs ih =>
    have htext := eq_of_firstCut h
    rw [firstCut] at h
    split at h
    · cases h
      exact fun hin => hm (List.infix_nil.1 hin)
    · rename_i hp
      obtain ⟨⟨b, a⟩, hcut, he⟩ := Option.map_eq_some_iff.1 h
      cases he
      rw [List.infix_cons_iff, not_or]
      refine ⟨fun hpre => hp (List.isPrefixOf_iff_prefix.2 ?_), ih hcut⟩
      rw [htext, List.append_assoc]
      exact hpre.trans (List.prefix_append _ _)

theorem length_lt_of_firstCut (hm : mark ≠ []) (h : firstCut mark text = some (before, after)) :
    after.length < text.length := by
  have hlen := congrArg List.length (eq_of_firstCut h)
  have := List.length_pos_iff.2 hm
  simp only [List.length_append] at hlen
  omega

theorem not_infix_of_mem_pieces (hm : mark ≠ []) (text : List Char) :
    ∀ piece ∈ (pieces mark text).1 :: (pieces mark text).2, ¬ mark <:+: piece := by
  fun_induction pieces mark text with
  | case1 text hcut => exact List.forall_mem_singleton.2 ((firstCut_eq_none_iff hm).1 hcut)
  | case2 text before after hcut hlt next others heq ih =>
    rw [heq] at ih
    exact List.forall_mem_cons.2 ⟨not_infix_of_firstCut hm hcut, ih⟩
  | case3 text before after hcut hlt => exact absurd (length_lt_of_firstCut hm hcut) hlt

/-! ## Markers without a border -/

/-- **A marker without a border**: none of its beginnings but itself is one of its ends. -/
def Borderless (mark : List Char) : Prop := ∀ u, u ≠ [] → u <+: mark → u <:+ mark → u = mark

theorem borderless_cons {c : Char} {cs : List Char} (h : c ∉ cs) : Borderless (c :: cs) := by
  intro u hne hpre hsuf
  rcases List.suffix_cons_iff.1 hsuf with rfl | hsuf
  · rfl
  · obtain ⟨d, u, rfl⟩ := List.exists_cons_of_ne_nil hne
    obtain ⟨hd, -⟩ := List.cons_prefix_cons.1 hpre
    exact absurd (hsuf.subset (hd ▸ List.mem_cons_self)) h

theorem borderless_marker : Borderless marker.toList := borderless_cons (by decide)

/-- **A marker without a border does not begin inside a piece** that holds none and is followed by one: it would end in
the one behind, which begins with that end then. -/
theorem not_prefix_of_borderless (hb : Borderless mark) (hpiece : piece ≠ []) (hin : ¬ mark <:+: piece)
    (rest : List Char) : ¬ mark <+: piece ++ mark ++ rest := by
  intro hpre
  rw [List.append_assoc] at hpre
  rcases List.prefix_or_prefix_of_prefix hpre (List.prefix_append piece (mark ++ rest)) with h | ⟨u, hu⟩
  · exact hin h.isInfix
  · have hsuf : u <:+ mark := ⟨piece, hu⟩
    have hlen := congrArg List.length hu
    have hpos := List.length_pos_iff.2 hpiece
    rw [List.length_append] at hlen
    rw [← hu, List.prefix_append_right_inj, hu] at hpre
    have hupre : u <+: mark := List.prefix_of_prefix_length_le hpre (List.prefix_append mark rest) (by omega)
    have hune : u ≠ [] := by
      rintro rfl
      exact hin (by rw [← hu, List.append_nil])
    rw [hb u hune hupre hsuf] at hlen
    omega

theorem firstCut_front (hm : mark ≠ []) (rest : List Char) : firstCut mark (mark ++ rest) = some ([], rest) := by
  obtain ⟨c, cs, rfl⟩ := List.exists_cons_of_ne_nil hm
  simp [firstCut]

theorem firstCut_append (hm : mark ≠ []) (hb : Borderless mark) (hin : ¬ mark <:+: piece) (rest : List Char) :
    firstCut mark (piece ++ mark ++ rest) = some (piece, rest) := by
  induction piece with
  | nil => exact firstCut_front hm rest
  | cons c cs ih =>
    have hnot := not_prefix_of_borderless hb (List.cons_ne_nil c cs) hin rest
    rw [List.cons_append, List.cons_append] at hnot ⊢
    rw [firstCut, if_neg fun hp => hnot (List.isPrefixOf_iff_prefix.1 hp), ih fun h => hin (List.infix_cons h)]
    rfl

/-- **Pieces that were joined are found again**, by induction on those after the first. -/
theorem pieces_intercalate (hm : mark ≠ []) (hb : Borderless mark) {others : List (List Char)}
    (hin : ∀ p ∈ piece :: others, ¬ mark <:+: p) :
    pieces mark (mark.intercalate (piece :: others)) = (piece, others) := by
  induction others generalizing piece with
  | nil =>
    have hcut := (firstCut_eq_none_iff hm).2 (hin piece List.mem_cons_self)
    rw [List.intercalate_singleton, pieces, hcut]
  | cons next others ih =>
    have hcut := firstCut_append hm hb (hin piece List.mem_cons_self) (mark.intercalate (next :: others))
    rw [List.intercalate_cons_cons, pieces, hcut]
    dsimp only
    rw [if_pos (length_lt_of_firstCut hm hcut), ih fun p hp => hin p (List.mem_cons_of_mem _ hp)]

/-- **Only a marker without a border lets pieces be found again**: with a border, what stands before the other end of it
makes, with the marker behind, a marker at the very front. -/
theorem borderless_iff (hm : mark ≠ []) : Borderless mark ↔ ∀ piece others, (∀ p ∈ piece :: others, ¬ mark <:+: p) →
    pieces mark (mark.intercalate (piece :: others)) = (piece, others) := by
  refine ⟨fun hb piece others => pieces_intercalate hm hb, fun h u hne ⟨e, he⟩ ⟨b, hb⟩ => ?_⟩
  have hshort : b.length < mark.length := by
    have := List.length_pos_iff.2 hne
    rw [← hb, List.length_append]
    omega
  have hclear : ∀ p ∈ [b, []], ¬ mark <:+: p := by
    intro p hp hin
    have := hin.length_le
    rcases List.mem_pair.1 hp with rfl | rfl
    · omega
    · exact hm (List.infix_nil.1 hin)
  have hcut := h b [[]] hclear
  have hjoin : mark.intercalate [b, []] = mark ++ e := by
    rw [List.intercalate_cons_cons, List.intercalate_singleton, List.append_nil]
    conv_lhs => rw [← he]
    rw [← List.append_assoc, hb]
  rw [hjoin, pieces, firstCut_front hm] at hcut
  dsimp only at hcut
  rw [if_pos (length_lt_of_firstCut hm (firstCut_front hm e))] at hcut
  have hempty : [] = b := congrArg Prod.fst hcut
  rw [← hb, ← hempty, List.nil_append]

/-! ## Templates -/

/-- **The segments cut a text at a marker**: joined with it they are the text, and none of them holds it. -/
structure CutAt (mark text : String) (segments : List String) : Prop where
  joined : mark.intercalate segments = text
  clear : ∀ s ∈ segments, ¬ mark.toList <:+: s.toList
  nonempty : segments ≠ []

theorem segments_ofMarked (mark text : String) : (ofMarked mark text).segments =
    ((pieces mark.toList text.toList).1 :: (pieces mark.toList text.toList).2).map String.ofList := rfl

theorem cutAt_ofMarked {mark : String} (hm : mark ≠ "") (text : String) :
    CutAt mark text (ofMarked mark text).segments := by
  have hmark : mark.toList ≠ [] := fun h => hm (String.toList_eq_nil_iff.1 h)
  rw [segments_ofMarked]
  refine ⟨?_, ?_, List.cons_ne_nil _ _⟩
  · have hlists (ps : List (List Char)) : (ps.map String.ofList).map String.toList = ps := by
      rw [List.map_map]
      exact List.map_id'' (fun _ => String.toList_ofList) ps
    rw [← String.toList_inj, String.toList_intercalate, hlists, intercalate_pieces]
  · intro s hs
    obtain ⟨piece, hpiece, rfl⟩ := List.mem_map.1 hs
    rw [String.toList_ofList]
    exact not_infix_of_mem_pieces hmark text.toList piece hpiece

/-- **Marked texts and segments correspond one to one.**  The segments of a text, joined with the marker of holes, are
the text, none of them holds the marker, and there is at least one; and segments that hold no marker, of which there is
one at least, are those of the text that they make when they are joined.  With any other marker that is not empty the
segments of a text cut it at the marker just so. -/
theorem segments_oneToOne :
    (∀ text, CutAt marker text (ofMarked marker text).segments) ∧
    (∀ segments : List String, segments ≠ [] → (∀ s ∈ segments, ¬ marker.toList <:+: s.toList) →
      (ofMarked marker (marker.intercalate segments)).segments = segments) ∧
    (∀ mark text, mark ≠ "" → CutAt mark text (ofMarked mark text).segments) := by
  refine ⟨cutAt_ofMarked (by decide), fun segments hne hclear => ?_, fun mark text hm => cutAt_ofMarked hm text⟩
  obtain ⟨first, others, rfl⟩ := List.exists_cons_of_ne_nil hne
  have hin : ∀ p ∈ first.toList :: others.map String.toList, ¬ marker.toList <:+: p := by
    intro p hp
    obtain ⟨s, hs, rfl⟩ := List.mem_map.1 (List.map_cons ▸ hp)
    exact hclear s hs
  have hpieces := pieces_intercalate (by decide) borderless_marker hin
  rw [← List.map_cons, ← String.toList_intercalate] at hpieces
  rw [segments_ofMarked, hpieces]
  dsimp only
  rw [← List.map_cons, List.map_map]
  exact List.map_id'' (fun s => String.ofList_toList) (first :: others)

end Packrat.Template
