import Packrat.Proofs.Seams
/-!
# Respacing — token texts with single spaces between them

What the scanner drops carries no information: with every segment replaced by the texts of its tokens, a single space
between each two, a template scans to the same words.  Every text is found again because it is a lexeme wherever a gap
comes behind it (`Lexed.lexes`).  Main statement: `scan_respaced`.
-/
namespace Packrat

def Entry.textIn (segment : Nat) : Entry → Option String
  | .token t => if t.pos.segment = segment then some t.text else none
  | .hole _ => none

def textsIn (segment : Nat) (es : List Entry) : List String := es.filterMap (Entry.textIn segment)

/-- **The template with the texts of its tokens in place of its segments**, a single space between each two. -/
def TokenList.respaced (l : TokenList) (t : Template) : Template :=
  .ofSegments ((List.range t.segments.length).map fun i => " ".intercalate (textsIn i l.entries))

theorem textsIn_append (segment : Nat) (es es' : List Entry) :
    textsIn segment (es ++ es') = textsIn segment es ++ textsIn segment es' := List.filterMap_append

theorem textsIn_hole (segment i : Nat) (es : List Entry) : textsIn segment (.hole i :: es) = textsIn segment es := rfl

theorem textsIn_token (segment : Nat) (t : Token) (es : List Entry) : textsIn segment (.token t :: es) =
    if t.pos.segment = segment then t.text :: textsIn segment es else textsIn segment es := by
  unfold textsIn
  rw [List.filterMap_cons, Entry.textIn]
  by_cases h : t.pos.segment = segment
  · rw [if_pos h, if_pos h]
  · rw [if_neg h, if_neg h]

theorem TokenList.respaced_congr {l l' : TokenList} {t t' : Template}
    (h : ∀ i, textsIn i l.entries = textsIn i l'.entries) (hlen : t.segments.length = t'.segments.length) :
    l.respaced t = l'.respaced t' := by
  unfold respaced
  simp only [h, hlen]

def Word.shown : Word → String
  | .text w => w
  | .hole i => Template.showHole i

theorem texts_eq_map_words (es : List Entry) : es.map Entry.text = (es.map Entry.word).map Word.shown := by
  rw [List.map_map]
  apply List.map_congr_left
  intro e _
  cases e <;> rfl

/-! ## Words of one segment -/

theorem Template.spaced_texts : ∀ ws : List String, spaced (ws.map .text) = .literal (" ".intercalate ws)
  | [] => rfl
  | [w] => by
    have hspaced : spaced [.text w] = ⟨w ++ "", []⟩ := rfl
    rw [List.map_singleton, hspaced, String.append_empty, String.intercalate_singleton]
    rfl
  | w :: v :: ws => by
    have ih := spaced_texts (v :: ws)
    have hspaced : spaced ((w :: v :: ws).map .text) =
        ⟨w ++ (" " ++ (spaced ((v :: ws).map .text)).first), (spaced ((v :: ws).map .text)).rest⟩ := rfl
    rw [hspaced, ih, String.intercalate_cons_cons, String.append_assoc]
    rfl

namespace Lexer

variable {tokens : List String} {segment size start index : Nat} {cs : List Char} {es : List Entry}

/-- **Texts that are lexemes before a gap are found with single spaces between them.** -/
theorem exists_lexed_spaced {ws : List String} (h : ∀ w ∈ ws, Lexes tokens w) (segment : Nat) :
    ∃ es, Lexed tokens segment 0 (" ".intercalate ws).toList es ∧ es.map Entry.word = ws.map .text := by
  have htexts : ∀ w, .text w ∈ ws.map Word.text → Lexes tokens w := by
    intro w hw
    obtain ⟨v, hv, he⟩ := List.mem_map.1 hw
    cases he
    exact h w hv
  have hholes : Word.holes (ws.map .text) = List.range' segment 0 := by
    rw [Word.holes, List.filterMap_map]
    exact List.filterMap_eq_nil_iff.2 fun _ _ => rfl
  obtain ⟨es, es', hlex, hrest, hwords⟩ := (finds_spaced _ segment 0 htexts hholes).parts 0 0
  rw [Template.spaced_texts] at hlex hrest
  cases hrest
  rw [List.append_nil] at hwords
  exact ⟨es, lexed_of_lexFrom hlex, hwords⟩

theorem Lexed.textsIn_eq (h : Lexed tokens segment start cs es) (i : Nat) :
    textsIn i es = if i = segment then es.map Entry.text else [] := by
  induction h with
  | nil => exact (ite_self _).symm
  | dropped _ _ ih => exact ih
  | kept _ _ ih =>
    rw [textsIn_token, ih]
    by_cases hi : i = segment
    · subst hi
      simp [Entry.text]
    · simp [hi, Ne.symm hi]

theorem Lexed.lexes (ht : Tight tokens) (h : Lexed tokens segment start cs es) : ∀ w ∈ es.map Entry.text,
    Lexes tokens w := by
  induction h with
  | nil => simp
  | dropped _ _ ih => exact ih
  | @kept start cs text rest es hlex _ ih =>
    intro w hw
    rcases List.mem_cons.1 hw with rfl | hw
    · rw [← String.toList_ofList (l := text)] at hlex
      exact lexes_of_lexeme? ht hlex
    · exact ih w hw

theorem Lexed.words (h : Lexed tokens segment start cs es) : es.map Entry.word = (es.map Entry.text).map .text := by
  induction h with
  | nil => rfl
  | dropped _ _ ih => exact ih
  | kept _ _ ih => exact congrArg (_ :: ·) ih

/-- **A segment is lexed to the same words** if it is respaced. -/
theorem Lexed.exists_respaced (ht : Tight tokens) (h : Lexed tokens segment start cs es) :
    ∃ es', Lexed tokens segment 0 (" ".intercalate (es.map Entry.text)).toList es' ∧
      es'.map Entry.word = es.map Entry.word ∧ ∀ i, textsIn i es' = textsIn i es := by
  obtain ⟨es', hlexed, hwords⟩ := exists_lexed_spaced (h.lexes ht) segment
  rw [← h.words] at hwords
  refine ⟨es', hlexed, hwords, fun i => ?_⟩
  rw [hlexed.textsIn_eq, h.textsIn_eq, texts_eq_map_words es', texts_eq_map_words es, hwords]

/-! ## Rows of segments -/

theorem textsIn_of_lexSegments_of_lt : ∀ {rest : List String} {first : String} {index i : Nat} {es : List Entry},
    lexSegments tokens index first rest = .ok es → i < index → textsIn i es = []
  | [], _, index, i, _, h, hi => by
    rw [(lexed_of_lexFrom h).textsIn_eq, if_neg (Nat.ne_of_lt hi)]
  | next :: more, _, index, i, _, h, hi => by
    obtain ⟨es₁, es₂, h₁, h₂, rfl⟩ := lexSegments_cons_eq_ok_iff.1 h
    rw [textsIn_append, textsIn_hole, h₁.textsIn_eq, if_neg (Nat.ne_of_lt hi),
      textsIn_of_lexSegments_of_lt h₂ (Nat.lt_succ_of_lt hi)]
    rfl

theorem exists_respaced_of_lexSegments (ht : Tight tokens) : ∀ {rest : List String} {first : String} {index : Nat}
    {es : List Entry}, lexSegments tokens index first rest = .ok es →
      ∃ es', lexSegments tokens index (" ".intercalate (textsIn index es))
          ((List.range rest.length).map fun i => " ".intercalate (textsIn (index + (i + 1)) es)) = .ok es' ∧
        es'.map Entry.word = es.map Entry.word ∧ ∀ i, textsIn i es' = textsIn i es
  | [], first, index, es, h => by
    have hlexed := lexed_of_lexFrom h
    obtain ⟨es', hlexed', hwords, htexts⟩ := hlexed.exists_respaced ht
    refine ⟨es', ?_, hwords, htexts⟩
    rw [hlexed.textsIn_eq, if_pos rfl]
    exact hlexed'.lexFrom_eq
  | next :: more, first, index, es, h => by
    obtain ⟨es₁, es₂, h₁, h₂, rfl⟩ := lexSegments_cons_eq_ok_iff.1 h
    obtain ⟨es₁', h₁', hwords₁, htexts₁⟩ := h₁.exists_respaced ht
    obtain ⟨es₂', h₂', hwords₂, htexts₂⟩ := exists_respaced_of_lexSegments ht h₂
    -- the first segment has the tokens before the hole, the others have those behind it
    have hfirst : textsIn index (es₁ ++ .hole index :: es₂) = es₁.map Entry.text := by
      rw [textsIn_append, textsIn_hole, h₁.textsIn_eq, if_pos rfl,
        textsIn_of_lexSegments_of_lt h₂ (Nat.lt_succ_self index), List.append_nil]
    have hothers : ∀ i, textsIn (index + (i + 1)) (es₁ ++ .hole index :: es₂) = textsIn (index + 1 + i) es₂ := by
      intro i
      rw [textsIn_append, textsIn_hole, h₁.textsIn_eq, if_neg (by omega), List.nil_append,
        Nat.add_comm i 1, Nat.add_assoc]
    refine ⟨es₁' ++ .hole index :: es₂', ?_, ?_, fun i => ?_⟩
    · simp only [hfirst, hothers, List.length_cons, List.range_succ_eq_map, List.map_cons, List.map_map]
      exact lexSegments_cons_eq_ok_iff.2 ⟨es₁', es₂', h₁', h₂', rfl⟩
    · rw [List.map_append, List.map_append, List.map_cons, List.map_cons, hwords₁, hwords₂]
    · rw [textsIn_append, textsIn_append, textsIn_hole, textsIn_hole, htexts₁, htexts₂]

end Lexer

namespace Scanner

variable {tokens : List String} {s : Scanner} {t : Template} {l : TokenList}

/-- **Token texts are stable under re-spacing.**  A template that scans does so with its segments respaced, and to the
same words; and respacing that again changes nothing. -/
theorem scan_respaced (hs : ofTokens tokens = .ok s) (ht : Lexer.Tight tokens) (h : s.scan t = .ok l) :
    ∃ l', s.scan (l.respaced t) = .ok l' ∧ l'.entries.map Entry.word = l.entries.map Entry.word ∧ l'.texts = l.texts ∧
      l'.respaced (l.respaced t) = l.respaced t := by
  obtain ⟨es', hes', hwords, htexts⟩ := Lexer.exists_respaced_of_lexSegments ht ((scan_eq_ok_iff hs).1 h).1
  have hsegments : l.respaced t = ⟨" ".intercalate (textsIn 0 l.entries),
      (List.range t.rest.length).map fun i => " ".intercalate (textsIn (0 + (i + 1)) l.entries)⟩ := by
    rw [TokenList.respaced, Template.segments, List.length_cons, List.range_succ_eq_map, List.map_cons, List.map_map]
    simp only [Nat.zero_add]
    rfl
  refine ⟨⟨es', s.lexicon⟩, (scan_eq_ok_iff hs).2 ⟨?_, rfl⟩, hwords, ?_, TokenList.respaced_congr htexts ?_⟩
  · rw [hsegments]
    exact hes'
  · rw [TokenList.texts, TokenList.texts, texts_eq_map_words, texts_eq_map_words l.entries, hwords]
  · rw [hsegments, Template.segments, Template.segments, List.length_cons, List.length_cons, List.length_map,
      List.length_range]

set_option maxRecDepth 10000 in
/-- Operators that stand together, one of which starts as a comment does, and a string with blanks in it. -/
theorem scan_respaced_operators : ∃ s l l', ofTokens ["#if", "+", "++"] = .ok s ∧ Lexer.Tight ["#if", "+", "++"] ∧
    s.scan ⟨"+++1e5x #if# end", ["\"a  b\"\t//c"]⟩ = .ok l ∧
    l.respaced ⟨"+++1e5x #if# end", ["\"a  b\"\t//c"]⟩ = ⟨"++ + 1e5 x #if", ["\"a  b\" // c"]⟩ ∧
    s.scan ⟨"++ + 1e5 x #if", ["\"a  b\" // c"]⟩ = .ok l' ∧ l'.entries.map Entry.word = l.entries.map Entry.word := by
  have hok : (do
      let s ← ofTokens ["#if", "+", "++"]
      let l ← s.scan ⟨"+++1e5x #if# end", ["\"a  b\"\t//c"]⟩
      return decide (l.respaced ⟨"+++1e5x #if# end", ["\"a  b\"\t//c"]⟩ =
        ⟨"++ + 1e5 x #if", ["\"a  b\" // c"]⟩)) = (.ok true : Except LexError Bool) := by decide +kernel
  obtain ⟨s, hs, hok⟩ := Except.bind_eq_ok.1 hok
  obtain ⟨l, hl, hok⟩ := Except.bind_eq_ok.1 hok
  have hrespaced := of_decide_eq_true (Except.ok.inj hok)
  have htight : Lexer.Tight ["#if", "+", "++"] := by decide
  obtain ⟨l', hl', hwords, -⟩ := scan_respaced hs htight hl
  exact ⟨s, l, l', hs, htight, hl, hrespaced, hrespaced ▸ hl', hwords⟩

end Scanner

end Packrat
