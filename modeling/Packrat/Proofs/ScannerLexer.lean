import Packrat.Proofs.ActionHoles
import Packrat.Proofs.TokenKinds
import Packrat.Proofs.Vocabulary
/-!
# ScannerLexer — the scanner is the lexer

A match of the pattern of one token is the lexeme of the lexer (`next_eq`): the alternatives are its kinds in its order,
and the first operator of the alternation that fits is the longest one (`firstOf_eq_operator?`).  From there on the two
take the same steps (`scanFrom_eq`), so on every template they give the same entries, or the same error.  Main
statement: `scan_eq_lex`.
-/
namespace Packrat

open Pattern Pattern.Expr

namespace Scanner

/-! ## The match of one token -/

def taken (h : Hit) : Taken :=
  ⟨h.place.before.reverse, h.groups.contains "space" || h.groups.contains "comment", h.place.after⟩

def first (e : Expr) (cs : List Char) : Option Taken := (e.hits (.at ⟨[], cs⟩)).head?.map taken

variable {e : Expr} {f : Splitter}

theorem first_kept (h : e.Takes f) (cs : List Char) : first e cs = Lexer.kept (f cs) := by
  rw [first, h, Option.map_map]
  refine Option.map_congr fun r _ => ?_
  change Taken.mk (r.1.reverse ++ []).reverse false r.2 = _
  rw [List.append_nil, List.reverse_reverse]

theorem first_dropped {name : String} (hname : name = "space" ∨ name = "comment") (h : e.Takes f) (cs : List Char) :
    first (.group (some name) e) cs = Lexer.dropped (f cs) := by
  rw [first, hits_group, List.head?_map, h, Option.map_map, Option.map_map]
  refine Option.map_congr fun r _ => ?_
  have hdrop : ([name].contains "space" || [name].contains "comment") = true := by
    rcases hname with rfl | rfl <;> rfl
  change Taken.mk (r.1.reverse ++ []).reverse ([name].contains "space" || [name].contains "comment") r.2 = _
  rw [hdrop, List.append_nil, List.reverse_reverse]

theorem first_altAll (cs : List Char) : ∀ (e : Expr) (es : List Expr),
    first (.altAll (e :: es)) cs = (e :: es).findSome? (first · cs)
  | e, [] => by
    rw [List.findSome?_cons, List.findSome?_nil, Expr.altAll]
    cases first e cs <;> rfl
  | e, e' :: es => by
    rw [List.findSome?_cons, ← first_altAll cs e' es, Expr.altAll, first, first, hits_alt, List.head?_append, Option.map_or]
    · cases (e.hits (.at ⟨[], cs⟩)).head? <;> rfl
    · exact fun h => by cases h

theorem first_token {operators tokens : List String}
    (h : ∀ cs, firstOf (operators.map String.toList) cs = Lexer.operator? tokens cs) (cs : List Char) :
    first (.altAll ([.group (some "space") TokenClass.space.expr, TokenClass.number.expr, TokenClass.string.expr,
      TokenClass.ident.expr] ++ operatorExprs operators ++
      [TokenClass.punctuation.expr, TokenClass.symbols.expr, .group (some "comment") TokenClass.comment.expr])) cs =
      Lexer.lexeme? tokens cs := by
  have hspace := first_dropped (Or.inl rfl) takes_blanks cs
  have hcomment := first_dropped (Or.inr rfl) takes_comment cs
  rw [List.cons_append, List.cons_append, first_altAll]
  cases operators with
  | nil =>
    have hnone : Lexer.operator? tokens cs = none := (h cs).symm
    simp only [operatorExprs, List.nil_append, List.cons_append, List.findSome?_cons, List.findSome?_nil, hspace,
      hcomment, first_kept takes_number, first_kept takesOnly_string.takes, first_kept takes_ident,
      first_kept takes_punctuation, first_kept takes_symbols, Lexer.lexeme?, hnone]
    rfl
  | cons op ops =>
    have hops : (alternativesExpr ((op :: ops).map String.toList)).Takes (Lexer.operator? tokens) :=
      (takes_alternatives (List.cons_ne_nil _ _)).congr h
    simp only [operatorExprs, List.nil_append, List.cons_append, List.findSome?_cons, List.findSome?_nil, hspace,
      hcomment, first_kept takes_number, first_kept takesOnly_string.takes, first_kept takes_ident, first_kept hops,
      first_kept takes_punctuation, first_kept takes_symbols, Lexer.lexeme?]
    rfl

/-- **One match is one lexeme**, at the very start of the text. -/
theorem next_eq {s : Scanner} {operators tokens : List String}
    (hs : s.token.expr = tokenExpr (operatorExprs operators))
    (h : ∀ cs, firstOf (operators.map String.toList) cs = Lexer.operator? tokens cs) (cs : List Char) :
    s.next cs = (Lexer.lexeme? tokens cs).map fun taken => ([], taken) := by
  have hfirst := first_token h cs
  rw [next, hs, tokenExpr, search_startText, ← hfirst, first, Option.map_map, Option.map_map]
  rw [first] at hfirst
  refine Option.map_congr fun hit hhit => ?_
  rw [hhit] at hfirst
  have hsplit : hit.place.before.reverse ++ hit.place.after = cs := (Lexer.isSplit_lexeme? hfirst.symm).2
  have hdrop : cs.drop hit.place.before.length = hit.place.after := by
    rw [← hsplit, List.drop_left' List.length_reverse]
  exact congrArg (fun rest => ([], Taken.mk hit.place.before.reverse _ rest)) hdrop

end Scanner

/-! ## Full matches and operators -/

theorem accepts_eq {m : FullMatch} {e : Expr} {f : Splitter}
    (hm : m.pattern.expr = .cat (.look .startText) (.cat e (.look .endText))) (he : e.Takes f)
    (hr : ∀ h : Hit, ∀ h' ∈ (e.hits h).tail, Splitter.atEnd h'.place.after = none) (w : String) :
    m.accepts w = (f w.toList).any fun s => s.2.isEmpty := by
  have hwhole : (Expr.cat e (.look .endText)).Takes (Splitter.andThen f .atEnd) :=
    takes_cat he takesOnly_endText.takes fun h _ _ _ h' hh' => hr h h' hh'
  rw [FullMatch.accepts, Pattern.isMatch, hm, search_startText, hwhole, Splitter.andThen, Option.isSome_map,
    Option.isSome_map]
  change ((f w.toList).bind _).isSome = _
  cases f w.toList with
  | none => rfl
  | some r =>
    rw [Option.bind_some, Option.isSome_map, Option.any_some, Splitter.atEnd]
    split
    · rename_i h
      exact h.symm
    · rename_i h
      exact (Bool.eq_false_iff.2 h).symm

theorem accepts_ident {m : FullMatch}
    (hm : m.pattern.expr = .cat (.look .startText) (.cat TokenClass.ident.expr (.look .endText))) (w : String) :
    m.accepts w = Lexer.isIdentifier w := by
  refine accepts_eq hm takes_ident (fun h h' hh' => ?_) w
  -- a shorter identifier is not at the end of the word either
  have hmore := retreats_ident h h' hh'
  cases hafter : h'.place.after with
  | nil =>
    rw [hafter] at hmore
    cases hmore
  | cons c cs => rfl

theorem accepts_string {m : FullMatch}
    (hm : m.pattern.expr = .cat (.look .startText) (.cat TokenClass.string.expr (.look .endText))) (w : String) :
    m.accepts w = Lexer.isString w := by
  refine accepts_eq hm takesOnly_string.takes (fun h h' hh' => ?_) w
  rw [takesOnly_string h] at hh'
  cases hs : Lexer.string? h.place.after with
  | none => rw [hs] at hh'; cases hh'
  | some r => rw [hs] at hh'; cases hh'

theorem accepts_of_none {m : FullMatch} {e : Expr} {f : Splitter}
    (hm : m.pattern.expr = .cat (.look .startText) (.cat e (.look .endText))) (he : e.Takes f) {w : String}
    (hw : f w.toList = none) : m.accepts w = false := by
  have hnone : e.hits (.at ⟨[], w.toList⟩) = [] := by
    rw [← List.head?_eq_none_iff, he]
    exact Option.map_eq_none_iff.2 hw
  rw [FullMatch.accepts, Pattern.isMatch, hm, search_startText, hits_cat, hnone]
  rfl

theorem accepts_of_whole {m : FullMatch} {e : Expr} {f : Splitter}
    (hm : m.pattern.expr = .cat (.look .startText) (.cat e (.look .endText))) (he : e.Takes f) {w : String}
    (hw : f w.toList = some (w.toList, [])) : m.accepts w = true := by
  have hhead := he (.at ⟨[], w.toList⟩)
  rw [show (Hit.at ⟨[], w.toList⟩).place.after = w.toList from rfl, hw] at hhead
  obtain ⟨more, hhits⟩ := List.head?_eq_some_iff.1 hhead
  rw [FullMatch.accepts, Pattern.isMatch, hm, search_startText, hits_cat, hhits, List.flatMap_cons]
  rw [takesOnly_endText]
  rfl

theorem eq_of_prefix_of_bytes {v w : String} {cs : List Char} (hv : v.toList <+: cs) (hw : w.toList <+: cs)
    (hlen : v.toList.length ≤ w.toList.length) (hbytes : w.utf8ByteSize ≤ v.utf8ByteSize) : v = w := by
  obtain ⟨more, hmore⟩ := List.prefix_of_prefix_length_le hv hw hlen
  have hsize : String.utf8Len w.toList = String.utf8Len v.toList + String.utf8Len more := by
    rw [← hmore, String.utf8Len_append]
  rw [String.utf8Len_toList, String.utf8Len_toList] at hsize
  have hnil : more = [] := String.utf8Len_eq_zero.1 (by omega)
  rw [hnil, List.append_nil] at hmore
  exact String.toList_inj.1 hmore

theorem eq_or_of_find?_eq_some {α : Type} {before : α → α → Prop} {p : α → Bool} {l : List α} {v w : α}
    (horder : l.Pairwise before) (hfind : l.find? p = some v) (hw : w ∈ l) (hp : p w = true) : v = w ∨ before v w := by
  obtain ⟨-, earlier, later, rfl, hearlier⟩ := List.find?_eq_some_iff_append.1 hfind
  rcases List.mem_append.1 hw with hw | hw
  · have hnot := hearlier w hw
    rw [hp] at hnot
    cases hnot
  · rcases List.mem_cons.1 hw with hw | hw
    · exact Or.inl hw.symm
    · exact Or.inr ((List.pairwise_cons.1 (List.pairwise_append.1 horder).2.1).1 w hw)

theorem utf8ByteSize_le_of_longestFirst {v w : String} (h : Text.longestFirst v w = true) :
    w.utf8ByteSize ≤ v.utf8ByteSize := by
  simp only [Text.longestFirst, Bool.or_eq_true, Bool.and_eq_true, decide_eq_true_eq, beq_iff_eq] at h
  omega

/-- **The first that fits of words with the longest first is the longest that fits.** -/
theorem firstOf_eq_operator? {operators tokens : List String}
    (horder : operators.Pairwise fun v w => Text.longestFirst v w = true)
    (hmem : ∀ w, w ∈ operators ↔ w ∈ tokens ∧ w ≠ "" ∧ Lexer.isIdentifier w = false) (cs : List Char) :
    firstOf (operators.map String.toList) cs = Lexer.operator? tokens cs := by
  rw [firstOf, List.find?_map, Option.map_map]
  cases hop : Lexer.operator? tokens cs with
  | none =>
    have hnone : operators.find? ((fun w => w.isPrefixOf cs) ∘ String.toList) = none := by
      refine List.find?_eq_none.2 fun w hw hp => ?_
      obtain ⟨hw, hne, hid⟩ := (hmem w).1 hw
      exact Lexer.operator?_eq_none hop hw hne hid (List.isPrefixOf_iff_prefix.1 hp)
    rw [hnone]
    rfl
  | some s =>
    obtain ⟨⟨w, hw, hs, hne, hid⟩, happ, hmax⟩ := Lexer.operator?_eq_some hop
    have hprefix : w.toList <+: cs := ⟨s.2, by rw [← hs, happ]⟩
    have hw : w ∈ operators := (hmem w).2 ⟨hw, hne, hid⟩
    cases hfind : operators.find? ((fun w => w.isPrefixOf cs) ∘ String.toList) with
    | none => exact (List.find?_eq_none.1 hfind w hw (List.isPrefixOf_iff_prefix.2 hprefix)).elim
    | some v =>
      have hvw : v = w := by
        rcases eq_or_of_find?_eq_some horder hfind hw (List.isPrefixOf_iff_prefix.2 hprefix) with hvw | hlong
        · exact hvw
        · have hv : v.toList.isPrefixOf cs = true := by simpa using List.find?_some hfind
          have hvp : v.toList <+: cs := List.isPrefixOf_iff_prefix.1 hv
          obtain ⟨hvt, hvne, hvid⟩ := (hmem v).1 (List.mem_of_find?_eq_some hfind)
          have hlen := hmax v hvt hvne hvid hvp
          rw [hs] at hlen
          exact eq_of_prefix_of_bytes hvp hprefix hlen (utf8ByteSize_le_of_longestFirst hlong)
      have hrest : cs.drop w.toList.length = s.2 := by
        rw [← happ, hs, List.drop_left]
      rw [Option.map_some, hvw]
      exact congrArg some (Prod.ext hs.symm hrest)

/-! ## Segments and templates -/

namespace Scanner

variable {s : Scanner} {tokens : List String}

theorem scanFrom_of_none {cs : List Char} (hcs : cs ≠ []) (h : s.next cs = none) (segment start : Nat) :
    s.scanFrom segment start cs =
      .error (.lexical (String.ofList cs) ⟨segment, start, start + Text.byteLength cs⟩) := by
  rw [scanFrom, dif_neg fun he => hcs (List.isEmpty_iff.1 he)]
  split <;> simp_all

theorem scanFrom_of_some {cs : List Char} {taken : Taken} (h : s.next cs = some ([], taken)) (hcs : cs ≠ [])
    (htext : taken.text ≠ []) (segment start : Nat) : s.scanFrom segment start cs =
      (s.scanFrom segment (start + Text.byteLength taken.text) taken.rest).map fun entries =>
        if taken.dropped then entries
        else .token ⟨String.ofList taken.text, ⟨segment, start, start + Text.byteLength taken.text⟩⟩ :: entries := by
  rw [scanFrom, dif_neg fun he => hcs (List.isEmpty_iff.1 he)]
  split
  · simp_all
  · rename_i before found hnext
    obtain ⟨rfl, rfl⟩ : before = [] ∧ found = taken := by simpa [h, eq_comm] using hnext
    have hfound : ¬found.text.isEmpty = true := fun he => htext (List.isEmpty_iff.1 he)
    simp only [List.isEmpty_nil, Bool.not_true, Bool.false_eq_true, if_false, dif_neg hfound]
    rfl

/-- **The scanner takes the steps of the lexer**, and names the same bytes. -/
theorem scanFrom_eq (h : ∀ cs, s.next cs = (Lexer.lexeme? tokens cs).map fun taken => ([], taken))
    (segment start : Nat) (cs : List Char) :
    s.scanFrom segment start cs = Lexer.lexFrom tokens segment (start + Text.byteLength cs) start cs := by
  induction hn : cs.length using Nat.strong_induction_on generalizing start cs with
  | _ n ih =>
    by_cases hcs : cs = []
    · rw [hcs, scanFrom, Lexer.lexFrom]
      rfl
    · cases hlex : Lexer.lexeme? tokens cs with
      | none => rw [scanFrom_of_none hcs (by rw [h, hlex]; rfl), Lexer.lexFrom_of_none hcs hlex]
      | some taken =>
        have hlt := Lexer.length_rest_lt hlex
        have hsplit := Lexer.isSplit_lexeme? hlex
        have hsize : start + Text.byteLength taken.text + Text.byteLength taken.rest = start + Text.byteLength cs := by
          rw [← hsplit.2, Text.byteLength_append, Nat.add_assoc]
        rw [scanFrom_of_some (by rw [h, hlex]; rfl) hcs hsplit.1, Lexer.lexFrom_of_some hlex, ih _ (hn ▸ hlt) _ _ rfl,
          hsize]

theorem scanSegments_eq (h : ∀ cs, s.next cs = (Lexer.lexeme? tokens cs).map fun taken => ([], taken)) :
    ∀ (index : Nat) (segment : String) (segments : List String), s.scanSegments index (segment :: segments) =
      (Lexer.lexSegments tokens index segment segments).map fun entries =>
        if index = 0 then entries else .hole (index - 1) :: entries
  | index, segment, [] => by
    rw [scanSegments, scanFrom_eq h, Lexer.lexSegments, Nat.zero_add]
    cases Lexer.lexFrom tokens index (Text.byteLength segment.toList) 0 segment.toList with
    | error e => rfl
    | ok entries => exact congrArg Except.ok (List.append_nil _)
  | index, segment, next :: more => by
    rw [scanSegments, scanFrom_eq h, Lexer.lexSegments, Nat.zero_add, scanSegments_eq h (index + 1) next more]
    cases Lexer.lexFrom tokens index (Text.byteLength segment.toList) 0 segment.toList with
    | error e => rfl
    | ok entries =>
      cases Lexer.lexSegments tokens (index + 1) next more with
      | error e => rfl
      | ok others =>
        change Except.ok ((if index = 0 then entries else .hole (index - 1) :: entries) ++ .hole index :: others) = _
        by_cases hindex : index = 0
        · rw [if_pos hindex]
          exact congrArg Except.ok (if_pos hindex).symm
        · rw [if_neg hindex]
          exact congrArg Except.ok (if_neg hindex).symm

/-- **A scanner for declared tokens**: its operators are those that are no identifiers, in their order, and its pattern
is made of them. -/
theorem ofTokens_eq (tokens : List String) : ∃ s, ofTokens tokens = .ok s ∧
    s.token.expr = tokenExpr (operatorExprs s.operators) ∧
    s.operators.Pairwise (fun v w => Text.longestFirst v w = true) ∧
    ∀ w, w ∈ s.operators ↔ w ∈ tokens ∧ w ≠ "" ∧ Lexer.isIdentifier w = false := by
  obtain ⟨number, hnumber, -⟩ := ofSource_class .number
  obtain ⟨string, hstring, -⟩ := ofSource_class .string
  obtain ⟨ident, hident, hexpr⟩ := ofSource_class .ident
  have haccepts := accepts_ident hexpr
  obtain ⟨token, htoken, hkinds⟩ := tokenPattern_eq
    (Text.vocabulary Text.longestFirst ((tokens.filter (!·.isEmpty)).filter (!ident.accepts ·)))
  have hs : ofTokens tokens = .ok ⟨token, Text.vocabulary Text.longestFirst ((tokens.filter (!·.isEmpty)).filter
      (!ident.accepts ·)), ⟨Text.vocabulary Text.byteOrder ((tokens.filter (!·.isEmpty)).filter ident.accepts), number,
        string, ident⟩⟩ := by
    simp only [ofTokens, build, hnumber, hstring, hident, htoken, bind, Except.bind]
    rfl
  refine ⟨_, hs, hkinds, Text.pairwise_vocabulary Text.strict_longestFirst _, fun w => ?_⟩
  rw [Text.mem_vocabulary Text.strict_longestFirst.total, List.mem_filter, List.mem_filter, haccepts,
    Bool.not_eq_true', Bool.not_eq_true', String.isEmpty_eq_false_iff, and_assoc]

theorem lexicon_of_ofTokens (h : ofTokens tokens = .ok s) :
    FullMatch.ofSource TokenClass.number.source = .ok s.lexicon.number ∧
    FullMatch.ofSource TokenClass.string.source = .ok s.lexicon.string ∧
    FullMatch.ofSource TokenClass.ident.source = .ok s.lexicon.ident ∧
    ∀ w, w ∈ s.lexicon.keywords ↔ w ∈ tokens ∧ w ≠ "" ∧ s.lexicon.ident.accepts w = true := by
  unfold ofTokens at h
  split at h
  · rename_i s' hbuild
    cases h
    obtain ⟨number, hnumber, h⟩ := Except.bind_eq_ok.1 hbuild
    obtain ⟨string, hstring, h⟩ := Except.bind_eq_ok.1 h
    obtain ⟨ident, hident, h⟩ := Except.bind_eq_ok.1 h
    obtain ⟨token, -, h⟩ := Except.bind_eq_ok.1 h
    cases h
    refine ⟨hnumber, hstring, hident, fun w => ?_⟩
    rw [Text.mem_vocabulary Text.strict_byteOrder.total, List.mem_filter, List.mem_filter, and_assoc]
    simp
  · cases h

theorem scan_of_ofTokens (hs : ofTokens tokens = .ok s) (t : Template) :
    s.scan t = (Lexer.lexSegments tokens 0 t.first t.rest).map fun entries => ⟨entries, s.lexicon⟩ := by
  obtain ⟨s', hs', hexpr, horder, hmem⟩ := ofTokens_eq tokens
  cases hs.symm.trans hs'
  rw [scan, Template.segments, scanSegments_eq (next_eq hexpr (firstOf_eq_operator? horder hmem))]
  cases Lexer.lexSegments tokens 0 t.first t.rest <;> rfl

theorem scan_eq_ok_iff (hs : ofTokens tokens = .ok s) {t : Template} {l : TokenList} : s.scan t = .ok l ↔
    Lexer.lexSegments tokens 0 t.first t.rest = .ok l.entries ∧ l.lexicon = s.lexicon := by
  rw [scan_of_ofTokens hs]
  cases Lexer.lexSegments tokens 0 t.first t.rest with
  | error e => exact ⟨fun h => by (cases h), fun h => by (cases h.1)⟩
  | ok es =>
    constructor
    · intro h
      cases h
      exact ⟨rfl, rfl⟩
    · rintro ⟨hes, hl⟩
      cases hes
      rw [← hl]
      rfl

/-- **The scanner is the lexer**: whatever the declared tokens are, there is a scanner for them, and on every template
it gives the entries that the lexer gives, or the same error. -/
theorem scan_eq_lex (tokens : List String) :
    ∃ s, ofTokens tokens = .ok s ∧ ∀ t : Template, (s.scan t).map TokenList.entries = Lexer.lex tokens t := by
  obtain ⟨s, hs, hexpr, horder, hmem⟩ := ofTokens_eq tokens
  have hnext := next_eq hexpr (firstOf_eq_operator? horder hmem)
  refine ⟨s, hs, fun t => ?_⟩
  rw [scan, Template.segments, scanSegments_eq hnext, Lexer.lex]
  cases Lexer.lexSegments tokens 0 t.first t.rest <;> rfl

/-- **Every fault of a scan is one of the text**: no match is out of place, and none takes nothing. -/
theorem isInternal_of_scan_error (hs : ofTokens tokens = .ok s) {t : Template} {e : LexError} (h : s.scan t = .error e) :
    e.isInternal = false := by
  rw [scan_of_ofTokens hs] at h
  cases hlex : Lexer.lexSegments tokens 0 t.first t.rest with
  | ok entries =>
    rw [hlex] at h
    cases h
  | error e' =>
    rw [hlex] at h
    cases h
    exact Lexer.isInternal_of_lexSegments_error hlex

end Scanner

end Packrat
