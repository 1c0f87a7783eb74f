import Packrat.Proofs.LiteralTokens
import Packrat.Proofs.NumberRange
import Packrat.Proofs.Numerals
import Packrat.Proofs.StringItems
import Packrat.Value.Literal
/-!
# JsonTokens — the tokens that are read as data

A string or a number of the scanner is written as JSON has it but for a few things that only one of the two takes: bare
control characters and surrogates that are not paired, zeros at the front and numbers that are too large, and a plus in
the exponent.  Main statement: `decodes_iff`.
-/
namespace Packrat.Value

open Json

variable {t : String} {cs w rest : List Char} {v : Value}

/-- **No white space of JSON stands at the ends of the text.** -/
structure Trimmed (cs : List Char) : Prop where
  head : ∀ c ∈ cs.head?, isJsonBlank c = false
  last : ∀ c ∈ cs.getLast?, isJsonBlank c = false

instance (cs : List Char) : Decidable (Trimmed cs) :=
  decidable_of_iff (cs.head?.all (!isJsonBlank ·) = true ∧ cs.getLast?.all (!isJsonBlank ·) = true) <| by
    simp only [Option.all_eq_true, Bool.not_eq_true']
    exact ⟨fun h => ⟨h.1, h.2⟩, fun h => ⟨h.head, h.last⟩⟩

theorem Trimmed.dropWhile_eq (h : Trimmed cs) : cs.dropWhile isJsonBlank = cs := by
  cases cs with
  | nil => rfl
  | cons c cs => exact List.dropWhile_cons_of_neg (by rw [h.head c rfl]; exact Bool.false_ne_true)

theorem Trimmed.eq_nil (h : Trimmed (w ++ rest)) (hrest : rest.all isJsonBlank = true) : rest = [] := by
  by_contra hne
  have hlast := h.last (rest.getLast hne) (by
    rw [List.getLast?_append_of_ne_nil _ hne]
    exact List.getLast?_eq_some_getLast hne)
  rw [List.all_eq_true.1 hrest _ (List.getLast_mem hne)] at hlast
  cases hlast

theorem ofJson?_eq_some (h : Trimmed t.toList) :
    ofJson? t = some v ↔ ∃ rest, readScalar t.toList = some (v, rest) ∧ rest.all isJsonBlank = true := by
  rw [ofJson?, h.dropWhile_eq]
  constructor
  · intro hread
    obtain ⟨⟨v', rest⟩, hscalar, hread⟩ := Option.bind_eq_some_iff.1 hread
    dsimp only at hread
    split at hread
    · rename_i hrest
      cases hread
      exact ⟨rest, hscalar, hrest⟩
    · cases hread
  · rintro ⟨rest, hscalar, hrest⟩
    rw [hscalar]
    exact if_pos hrest

/-! ## Strings -/

theorem exists_of_readScalar_string {s : String} (h : readScalar cs = some (.string s, rest)) :
    ∃ xs, Readable xs ∧ cs = quoted xs ++ rest := by
  unfold readScalar at h
  split at h
  · cases h
  · cases h
  · cases h
  · split at h
    · rename_i text rest' hdecode
      obtain ⟨-, rfl⟩ := Prod.mk.inj (Option.some.inj h)
      exact exists_readable hdecode
    · cases h
  · obtain ⟨⟨n, rest'⟩, -, h⟩ := Option.bind_eq_some_iff.1 h
    obtain ⟨x, -, h⟩ := Option.bind_eq_some_iff.1 h
    cases h

theorem readScalar_quoted {xs : List Item} (h : Readable xs) : ∃ s, readScalar (quoted xs) = some (.string s, []) := by
  obtain ⟨text, htext⟩ := decodePrefix_quoted h []
  rw [List.append_nil] at htext
  refine ⟨String.ofList text, ?_⟩
  rw [quoted] at htext ⊢
  rw [readScalar.eq_4, htext]

theorem ofJson?_string_iff (h : Trimmed t.toList) :
    (∃ s, ofJson? t = some (.string s)) ↔ ∃ xs, Readable xs ∧ t.toList = quoted xs := by
  constructor
  · rintro ⟨s, hs⟩
    obtain ⟨rest, hscalar, hrest⟩ := (ofJson?_eq_some h).1 hs
    obtain ⟨xs, hxs, ht⟩ := exists_of_readScalar_string hscalar
    rw [ht] at h
    rw [h.eq_nil hrest, List.append_nil] at ht
    exact ⟨xs, hxs, ht⟩
  · rintro ⟨xs, hxs, ht⟩
    obtain ⟨s, hs⟩ := readScalar_quoted hxs
    exact ⟨s, (ofJson?_eq_some h).2 ⟨[], ht ▸ hs, rfl⟩⟩

/-! ## Numbers -/

theorem exists_of_readScalar_number {x : Float} (hminus : cs.head? ≠ some '-')
    (h : readScalar cs = some (.number x, rest)) :
    ∃ n : Numeral, ¬n.HasLeadingZero ∧ n.number.toFloat?.isSome = true ∧ cs = n.text ++ rest := by
  unfold readScalar at h
  split at h
  · cases h
  · cases h
  · cases h
  · split at h <;> cases h
  · obtain ⟨⟨number, rest'⟩, hnumber, h⟩ := Option.bind_eq_some_iff.1 h
    obtain ⟨y, hy, h⟩ := Option.bind_eq_some_iff.1 h
    obtain ⟨-, rfl⟩ := Prod.mk.inj (Option.some.inj h)
    obtain ⟨n, hzero, rfl, hcs⟩ := Numeral.exists_of_readNumber hminus hnumber
    exact ⟨n, hzero, Option.isSome_of_eq_some hy, hcs⟩

theorem readScalar_text {n : Numeral} (h : ¬n.HasLeadingZero) :
    readScalar n.text = n.number.toFloat?.map fun x => (.number x, []) := by
  obtain ⟨c, cs, hc, hdigit⟩ := n.head_text
  have hread := Numeral.readNumber_text h
  have hne : ∀ d rest, d.isDigit = false → n.text ≠ d :: rest := by
    intro d rest hd he
    rw [← (List.cons.inj (hc.symm.trans he)).1, hdigit] at hd
    cases hd
  rw [readScalar.eq_5 _ (fun _ => hne _ _ rfl) (fun _ => hne _ _ rfl) (fun _ => hne _ _ rfl) (fun _ => hne _ _ rfl),
    hread]
  change (n.number.toFloat?.bind fun x => some (Value.number x, [])) = _
  cases n.number.toFloat? <;> rfl

theorem ofJson?_number_iff (h : Trimmed t.toList) (hminus : t.toList.head? ≠ some '-') :
    (∃ x, ofJson? t = some (.number x)) ↔
      ∃ n : Numeral, ¬n.HasLeadingZero ∧ n.number.InRange ∧ t.toList = n.text := by
  simp only [← NumberText.isSome_toFloat?]
  constructor
  · rintro ⟨x, hx⟩
    obtain ⟨rest, hscalar, hrest⟩ := (ofJson?_eq_some h).1 hx
    obtain ⟨n, hzero, hfinite, ht⟩ := exists_of_readScalar_number hminus hscalar
    rw [ht] at h
    rw [h.eq_nil hrest, List.append_nil] at ht
    exact ⟨n, hzero, hfinite, ht⟩
  · rintro ⟨n, hzero, hfinite, ht⟩
    obtain ⟨x, hx⟩ := Option.isSome_iff_exists.1 hfinite
    refine ⟨x, (ofJson?_eq_some h).2 ⟨[], ?_, rfl⟩⟩
    rw [ht, readScalar_text hzero, hx]
    rfl

/-! ## Tokens -/

theorem scanText_of_lexeme? {tokens : List String} {scanner : Scanner} (hs : Scanner.ofTokens tokens = .ok scanner)
    (h : Lexer.lexeme? tokens t.toList = some ⟨t.toList, false, []⟩) :
    scanner.scanText t = .ok ⟨[.token ⟨t, ⟨0, 0, Text.byteLength t.toList⟩⟩], scanner.lexicon⟩ := by
  rw [Scanner.scanText, Scanner.scan_of_ofTokens hs, Template.literal, Lexer.lexSegments, Lexer.lexFrom_of_some h,
    Lexer.lexFrom]
  simp [Except.map]

theorem accepts_string_iff {m : FullMatch} (hm : FullMatch.ofSource TokenClass.string.source = .ok m) (t : String) :
    m.accepts t = true ↔ ∃ xs, t.toList = quoted xs := by
  obtain ⟨m', hm', hexpr⟩ := Pattern.ofSource_class .string
  cases hm.symm.trans hm'
  rw [accepts_string hexpr, isString_iff]

theorem accepts_number_iff {m : FullMatch} (hm : FullMatch.ofSource TokenClass.number.source = .ok m) (t : String) :
    m.accepts t = true ↔ ∃ n : Numeral, ¬n.HasPlus ∧ t.toList = n.text := by
  obtain ⟨m', hm', hexpr⟩ := Pattern.ofSource_class .number
  cases hm.symm.trans hm'
  exact Pattern.accepts_iff_denotes hexpr denotes_number t

/-- **What the scanner takes for a string or a number, and what is read as one**: a string is read if its items are
readable, and a number if it has no zeros at the front and is small enough.  Whatever is read is a token, but for
numbers with a plus. -/
theorem decodes_iff : ∃ string number : FullMatch, FullMatch.ofSource TokenClass.string.source = .ok string ∧
    FullMatch.ofSource TokenClass.number.source = .ok number ∧ ∀ t : String,
      (string.accepts t = true ↔ ∃ xs, t.toList = quoted xs) ∧
      (number.accepts t = true ↔ ∃ n : Numeral, ¬n.HasPlus ∧ t.toList = n.text) ∧
      (∀ tokens scanner, Scanner.ofTokens tokens = .ok scanner → (string.accepts t = true ∨ number.accepts t = true) →
        scanner.scanText t = .ok ⟨[.token ⟨t, ⟨0, 0, Text.byteLength t.toList⟩⟩], scanner.lexicon⟩) ∧
      (Trimmed t.toList →
        ((∃ s, ofJson? t = some (.string s)) ↔ string.accepts t = true ∧ ∃ xs, Readable xs ∧ t.toList = quoted xs) ∧
        (t.toList.head? ≠ some '-' →
          ((∃ x, ofJson? t = some (.number x)) ↔ ∃ n : Numeral, (number.accepts t = true ∨ n.HasPlus) ∧
            ¬n.HasLeadingZero ∧ n.number.InRange ∧ t.toList = n.text))) := by
  obtain ⟨string, hstring, hexpr⟩ := Pattern.ofSource_class .string
  obtain ⟨number, hnumber, -⟩ := Pattern.ofSource_class .number
  refine ⟨string, number, hstring, hnumber, fun t => ?_⟩
  have hs := accepts_string_iff hstring t
  have hn := accepts_number_iff hnumber t
  refine ⟨hs, hn, fun tokens scanner hscanner h => ?_, fun htrim => ⟨?_, fun hminus => ?_⟩⟩
  · refine scanText_of_lexeme? hscanner ?_
    rcases h with h | h
    · rw [accepts_string hexpr] at h
      have hlex : Lexer.lexeme? tokens (t.toList ++ []) = some ⟨t.toList, false, []⟩ := Lexer.lexeme?_of_isString h []
      rwa [List.append_nil] at hlex
    · obtain ⟨n, hplus, ht⟩ := hn.1 h
      rw [ht]
      exact Numeral.lexeme?_text tokens hplus
  · rw [ofJson?_string_iff htrim, hs]
    exact ⟨fun ⟨xs, hxs, ht⟩ => ⟨⟨xs, ht⟩, xs, hxs, ht⟩, fun h => h.2⟩
  · rw [ofJson?_number_iff htrim hminus, hn]
    constructor
    · rintro ⟨n, hzero, hvalue, ht⟩
      by_cases hplus : n.HasPlus
      · exact ⟨n, Or.inr hplus, hzero, hvalue, ht⟩
      · exact ⟨n, Or.inl ⟨n, hplus, ht⟩, hzero, hvalue, ht⟩
    · rintro ⟨n, -, hzero, hvalue, ht⟩
      exact ⟨n, hzero, hvalue, ht⟩

/-- A string with an escape and a number with an exponent are read, and each is one token. -/
theorem decodes_iff_escape : ∃ scanner, Scanner.ofTokens [] = .ok scanner ∧
    (∃ s, ofJson? "\"\\u0041\"" = some (.string s)) ∧ (∃ x, ofJson? "1.5e3" = some (.number x)) ∧
    scanner.scanText "\"\\u0041\"" = .ok ⟨[.token ⟨"\"\\u0041\"", ⟨0, 0, 8⟩⟩], scanner.lexicon⟩ ∧
    scanner.scanText "1.5e3" = .ok ⟨[.token ⟨"1.5e3", ⟨0, 0, 5⟩⟩], scanner.lexicon⟩ := by
  obtain ⟨scanner, hscanner, -⟩ := Scanner.ofTokens_eq []
  obtain ⟨string, number, -, -, h⟩ := decodes_iff
  obtain ⟨xs, hxs, hs⟩ : ∃ xs, Readable xs ∧ "\"\\u0041\"".toList = quoted xs :=
    ⟨[.unit '0' '0' '4' '1' (by decide)], .cons (standsAlone_unit (n := 65) (by decide) (by decide) (by decide)) .nil,
      by decide⟩
  obtain ⟨n, hn, hplus, hzero, hrange⟩ : ∃ n : Numeral, "1.5e3".toList = n.text ∧ ¬n.HasPlus ∧ ¬n.HasLeadingZero ∧
      n.number.InRange := by
    refine ⟨⟨⟨['1'], by decide, List.all_eq_true.1 rfl⟩, some ⟨['5'], by decide, List.all_eq_true.1 rfl⟩,
      some ⟨'e', by decide, none, by simp, ⟨['3'], by decide, List.all_eq_true.1 rfl⟩⟩⟩, by decide, ?_, ?_,
      by decide +kernel⟩
    · rintro ⟨_, ⟨⟩, ⟨⟩⟩
    · rintro ⟨_, _, ⟨⟩⟩
  obtain ⟨hstring, -, hscan, hread⟩ := h "\"\\u0041\""
  obtain ⟨-, hnumber, hscan', hread'⟩ := h "1.5e3"
  have haccepts := hstring.2 ⟨xs, hs⟩
  have haccepts' := hnumber.2 ⟨n, hplus, hn⟩
  exact ⟨scanner, hscanner, (hread (by decide)).1.2 ⟨haccepts, xs, hxs, hs⟩,
    ((hread' (by decide)).2 (by decide)).2
      ⟨n, Or.inl haccepts', hzero, hrange, hn⟩,
    hscan [] scanner hscanner (Or.inl haccepts), hscan' [] scanner hscanner (Or.inr haccepts')⟩

/-- A bare control character, a lone surrogate, a zero at the front and a number that is too large: these are tokens,
and are not read.  A plus in the exponent is read, and is no token. -/
theorem not_decodes_iff_accepts : ∃ string number : FullMatch,
    FullMatch.ofSource TokenClass.string.source = .ok string ∧
    FullMatch.ofSource TokenClass.number.source = .ok number ∧
    (string.accepts "\"\x01\"" = true ∧ ofJson? "\"\x01\"" = none) ∧
    (string.accepts "\"\\ud800\"" = true ∧ ofJson? "\"\\ud800\"" = none) ∧
    (number.accepts "01" = true ∧ ofJson? "01" = none) ∧
    (number.accepts "1e999" = true ∧ ofJson? "1e999" = none) ∧
    number.accepts "1e+5" = false ∧ ∃ x, ofJson? "1e+5" = some (.number x) := by
  obtain ⟨string, hstring, hexpr⟩ := Pattern.ofSource_class .string
  obtain ⟨number, hnumber, -⟩ := Pattern.ofSource_class .number
  have hs := accepts_string hexpr
  have hn := accepts_number_iff hnumber
  refine ⟨string, number, hstring, hnumber, ⟨?_, ?_⟩, ⟨?_, ?_⟩, ⟨?_, ?_⟩, ⟨?_, ?_⟩, ?_, ?_⟩
  · rw [hs]
    decide
  · decide
  · rw [hs]
    decide
  · decide
  · refine (hn "01").2 ⟨⟨⟨['0', '1'], by decide, List.all_eq_true.1 rfl⟩, none, none⟩, ?_, by decide⟩
    rintro ⟨_, ⟨⟩, -⟩
  · decide
  · refine (hn "1e999").2 ⟨⟨⟨['1'], by decide, List.all_eq_true.1 rfl⟩, none,
      some ⟨'e', by decide, none, by simp, ⟨['9', '9', '9'], by decide, List.all_eq_true.1 rfl⟩⟩⟩, ?_, by decide⟩
    rintro ⟨_, ⟨⟩, ⟨⟩⟩
  · decide +kernel
  · rw [Bool.eq_false_iff, Ne, hn]
    rintro ⟨n, hplus, ht⟩
    have hwhole := Numeral.number?_text hplus
    rw [← ht] at hwhole
    cases hwhole
  · refine (ofJson?_number_iff (by decide) (by decide)).2 ⟨⟨⟨['1'], by decide, List.all_eq_true.1 rfl⟩, none,
      some ⟨'e', by decide, some '+', by simp, ⟨['5'], by decide, List.all_eq_true.1 rfl⟩⟩⟩, ?_,
      by decide +kernel, by decide⟩
    rintro ⟨_, _, ⟨⟩⟩

end Packrat.Value
