import Packrat.Json.Number
import Packrat.Proofs.Denotations
import Packrat.Proofs.LiteralTokens
import Packrat.Proofs.TokenKinds
/-!
# Numerals — what the scanner and the reader of JSON take for a number

A numeral is digits, with a fraction and an exponent or without.  The scanner's kind of token has all numerals but those
with a plus before the digits of the exponent (`denotes_number`), and takes such a numeral as a whole
(`number?_text`).  The reader of JSON has all numerals but those with zeros at the front (`readNumber_text`,
`exists_of_readNumber`).
-/
namespace Packrat.Json

structure Digits where
  chars : List Char
  nonempty : chars ≠ []
  isDigit : ∀ c ∈ chars, c.isDigit = true

structure Exponent where
  letter : Char
  isLetter : letter = 'e' ∨ letter = 'E'
  sign : Option Char
  isSign : ∀ c ∈ sign, c = '+' ∨ c = '-'
  digits : Digits

/-- **A numeral**: digits, and as it may be those of a fraction and an exponent. -/
structure Numeral where
  whole : Digits
  fraction : Option Digits
  exponent : Option Exponent

def Exponent.text (e : Exponent) : List Char := e.letter :: (e.sign.toList ++ e.digits.chars)

def Exponent.value (e : Exponent) : Int :=
  if e.sign = some '-' then -(Text.digitsValue e.digits.chars : Int) else Text.digitsValue e.digits.chars

namespace Numeral

def fractionText (n : Numeral) : List Char := n.fraction.elim [] fun d => '.' :: d.chars

def exponentText (n : Numeral) : List Char := n.exponent.elim [] Exponent.text

def text (n : Numeral) : List Char := n.whole.chars ++ (n.fractionText ++ n.exponentText)

def fractionDigits (n : Numeral) : List Char := n.fraction.elim [] Digits.chars

def number (n : Numeral) : NumberText :=
  .ofDigits false n.whole.chars n.fractionDigits (n.exponent.elim 0 Exponent.value)

def HasPlus (n : Numeral) : Prop := ∃ e ∈ n.exponent, e.sign = some '+'

/-- The digits before the fraction are more than one, and the first is a zero. -/
def HasLeadingZero (n : Numeral) : Prop := ∃ c cs, n.whole.chars = '0' :: c :: cs

end Numeral

/-! ## The kind of token -/

open Pattern Pattern.Expr

theorem denotes_digits : digitsExpr.Denotes fun w => ∃ d : Digits, w = d.chars := by
  refine (Denotes.characters mem_digit 1 none true).congr fun w => ?_
  constructor
  · rintro ⟨hlen, -, hw⟩
    exact ⟨⟨w, List.length_pos_iff.1 hlen, hw⟩, rfl⟩
  · rintro ⟨d, rfl⟩
    exact ⟨List.length_pos_iff.2 d.nonempty, by simp, d.isDigit⟩

theorem denotes_fraction :
    (catAll [.one (.single '.'), digitsExpr]).Denotes fun w => ∃ d : Digits, w = '.' :: d.chars := by
  refine ((Denotes.single '.').cat denotes_digits).congr fun w => ?_
  constructor
  · rintro ⟨_, _, rfl, ⟨d, rfl⟩, rfl⟩
    exact ⟨d, rfl⟩
  · rintro ⟨d, rfl⟩
    exact ⟨_, _, rfl, ⟨d, rfl⟩, rfl⟩

theorem denotes_exponent :
    (catAll [.one (oneOf ['e', 'E']), .times 0 (some 1) true (.one (.single '-')), digitsExpr]).Denotes
      fun w => ∃ e : Exponent, e.sign ≠ some '+' ∧ w = e.text := by
  refine ((Denotes.one (mem_oneOf ['e', 'E'])).cat
    (((Denotes.single '-').optional true).cat denotes_digits)).congr fun w => ?_
  constructor
  · rintro ⟨_, _, ⟨c, hc, rfl⟩, ⟨sign, _, hsign, ⟨d, rfl⟩, rfl⟩, rfl⟩
    have hletter : c = 'e' ∨ c = 'E' := by simpa using hc
    rcases hsign with rfl | rfl
    · exact ⟨⟨c, hletter, none, by simp, d⟩, by simp, rfl⟩
    · exact ⟨⟨c, hletter, some '-', by simp, d⟩, by simp, rfl⟩
  · rintro ⟨⟨c, hletter, sign, hsign, d⟩, hplus, rfl⟩
    refine ⟨[c], _, ⟨c, by simpa using hletter, rfl⟩, ⟨sign.toList, _, ?_, ⟨d, rfl⟩, rfl⟩, rfl⟩
    cases sign with
    | none => exact Or.inl rfl
    | some s =>
      rcases hsign s rfl with rfl | rfl
      · exact absurd rfl hplus
      · exact Or.inr rfl

/-- **The numbers of the scanner are the numerals without a plus.** -/
theorem denotes_number : TokenClass.number.expr.Denotes fun w => ∃ n : Numeral, ¬n.HasPlus ∧ w = n.text := by
  refine (denotes_digits.cat ((denotes_fraction.optional true).cat (denotes_exponent.optional true))).congr fun w => ?_
  constructor
  · rintro ⟨_, _, ⟨whole, rfl⟩, ⟨f, e, hf, he, rfl⟩, rfl⟩
    obtain ⟨fraction, rfl⟩ : ∃ fraction : Option Digits, f = fraction.elim [] fun d => '.' :: d.chars := by
      rcases hf with rfl | ⟨d, rfl⟩
      · exact ⟨none, rfl⟩
      · exact ⟨some d, rfl⟩
    rcases he with rfl | ⟨e, hplus, rfl⟩
    · refine ⟨⟨whole, fraction, none⟩, ?_, rfl⟩
      rintro ⟨_, ⟨⟩, -⟩
    · refine ⟨⟨whole, fraction, some e⟩, ?_, rfl⟩
      rintro ⟨_, ⟨⟩, h⟩
      exact hplus h
  · rintro ⟨⟨whole, fraction, exponent⟩, hplus, rfl⟩
    refine ⟨_, _, ⟨whole, rfl⟩, ⟨_, _, ?_, ?_, rfl⟩, rfl⟩
    · cases fraction with
      | none => exact Or.inl rfl
      | some d => exact Or.inr ⟨d, rfl⟩
    · cases exponent with
      | none => exact Or.inl rfl
      | some e => exact Or.inr ⟨e, fun h => hplus ⟨e, rfl, h⟩, rfl⟩

/-! ## The reader -/

def NoDigit (cs : List Char) : Prop := ∀ c ∈ cs.head?, c.isDigit = false

theorem span_digits (d : Digits) {more : List Char} (hm : NoDigit more) :
    (d.chars ++ more).takeWhile Char.isDigit = d.chars ∧ (d.chars ++ more).dropWhile Char.isDigit = more :=
  Lexer.run_append_of_head d.isDigit fun c hc => hm c hc

theorem spanDigits_chars (d : Digits) {more : List Char} (hm : NoDigit more) :
    spanDigits (d.chars ++ more) = (d.chars, more) := by
  rw [spanDigits, List.span_eq_takeWhile_dropWhile, (span_digits d hm).1, (span_digits d hm).2]

theorem exists_digits {cs ds rest : List Char} (h : spanDigits cs = (ds, rest)) (hne : ds ≠ []) :
    ∃ d : Digits, d.chars = ds ∧ cs = d.chars ++ rest := by
  rw [spanDigits, List.span_eq_takeWhile_dropWhile] at h
  cases h
  exact ⟨⟨_, hne, fun c hc => List.mem_takeWhile_imp hc⟩, rfl, List.takeWhile_append_dropWhile.symm⟩

theorem readInteger_chars (d : Digits) (hd : ¬∃ c cs, d.chars = '0' :: c :: cs) {more : List Char} (hm : NoDigit more) :
    readInteger (d.chars ++ more) = some (d.chars, more) := by
  rw [readInteger, spanDigits_chars d hm]
  split <;> rename_i h
  · exact absurd (congrArg Prod.fst h) d.nonempty
  · obtain ⟨hchars, rfl⟩ := Prod.mk.inj h
    rw [hchars]
  · exact absurd ⟨_, _, congrArg Prod.fst h⟩ hd
  · obtain ⟨rfl, rfl⟩ := Prod.mk.inj h
    rfl

theorem exists_of_readInteger {cs ds rest : List Char} (h : readInteger cs = some (ds, rest)) :
    ∃ d : Digits, d.chars = ds ∧ cs = d.chars ++ rest ∧ ¬∃ c cs', ds = '0' :: c :: cs' := by
  unfold readInteger at h
  split at h
  · cases h
  · rename_i hspan
    cases h
    obtain ⟨d, hd, hcs⟩ := exists_digits hspan (by simp)
    exact ⟨d, hd, hcs, fun ⟨_, _, he⟩ => nomatch he⟩
  · cases h
  · rename_i hne _ hzero hspan
    cases h
    obtain ⟨d, hd, hcs⟩ := exists_digits hspan hne
    exact ⟨d, hd, hcs, fun ⟨_, _, he⟩ => hzero _ _ he⟩

theorem readFraction_text (f : Option Digits) {more : List Char} (hm : NoDigit more) (hdot : more.head? ≠ some '.') :
    readFraction (f.elim [] (fun d => '.' :: d.chars) ++ more) = some (f.elim [] Digits.chars, more) := by
  cases f with
  | none =>
    change readFraction more = some ([], more)
    unfold readFraction
    split
    · exact absurd rfl hdot
    · rfl
  | some d =>
    change readFraction ('.' :: (d.chars ++ more)) = some (d.chars, more)
    rw [readFraction, spanDigits_chars d hm]
    split <;> rename_i h
    · exact absurd (congrArg Prod.fst h) d.nonempty
    · obtain ⟨rfl, rfl⟩ := Prod.mk.inj h
      rfl

theorem exists_of_readFraction {cs ds rest : List Char} (h : readFraction cs = some (ds, rest)) :
    ∃ f : Option Digits, f.elim [] Digits.chars = ds ∧ cs = f.elim [] (fun d => '.' :: d.chars) ++ rest := by
  unfold readFraction at h
  split at h
  · split at h
    · cases h
    · rename_i hne hspan
      cases h
      obtain ⟨d, hd, hcs⟩ := exists_digits hspan hne
      exact ⟨some d, hd, congrArg ('.' :: ·) hcs⟩
  · cases h
    exact ⟨none, rfl, rfl⟩

theorem Digits.head (d : Digits) : ∃ c cs, d.chars = c :: cs ∧ c ≠ '-' ∧ c ≠ '+' := by
  obtain ⟨c, cs, hc⟩ := List.exists_cons_of_ne_nil d.nonempty
  have hdigit := d.isDigit c (hc ▸ List.mem_cons_self)
  refine ⟨c, cs, hc, ?_, ?_⟩ <;> rintro rfl <;> exact absurd hdigit (by decide)

def cutSign : List Char → Bool × List Char
  | '-' :: r => (true, r)
  | '+' :: r => (false, r)
  | r => (false, r)

def exponentDigits (negative : Bool) (cs : List Char) : Option (Int × List Char) :=
  match spanDigits cs with
  | ([], _) => none
  | (ds, rest) => some (if negative then -(Text.digitsValue ds : Int) else Text.digitsValue ds, rest)

theorem readExponent_cons (c : Char) (cs : List Char) : readExponent (c :: cs) =
    if c = 'e' ∨ c = 'E' then exponentDigits (cutSign cs).1 (cutSign cs).2 else some (0, c :: cs) := rfl

theorem cutSign_text (e : Exponent) :
    cutSign (e.sign.toList ++ e.digits.chars) = (decide (e.sign = some '-'), e.digits.chars) := by
  obtain ⟨-, -, sign, hsign, d⟩ := e
  cases sign with
  | none =>
    obtain ⟨c, cs, hc, hminus, hplus⟩ := d.head
    change cutSign d.chars = _
    rw [hc]
    exact cutSign.eq_3 _ (fun _ he => hminus (List.cons.inj he).1) fun _ he => hplus (List.cons.inj he).1
  | some s => rcases hsign s rfl with rfl | rfl <;> rfl

theorem exists_sign (cs : List Char) : ∃ sign : Option Char, (∀ c ∈ sign, c = '+' ∨ c = '-') ∧
    (cutSign cs).1 = decide (sign = some '-') ∧ cs = sign.toList ++ (cutSign cs).2 := by
  unfold cutSign
  split
  · exact ⟨some '-', by simp, rfl, rfl⟩
  · exact ⟨some '+', by simp, rfl, rfl⟩
  · exact ⟨none, by simp, rfl, rfl⟩

theorem noDigit_nil : NoDigit [] := fun _ hc => nomatch hc

theorem exponentDigits_chars (negative : Bool) (d : Digits) : exponentDigits negative d.chars =
    some (if negative then -(Text.digitsValue d.chars : Int) else Text.digitsValue d.chars, []) := by
  have hspan := spanDigits_chars d noDigit_nil
  rw [List.append_nil] at hspan
  rw [exponentDigits, hspan]
  split <;> rename_i h
  · exact absurd (congrArg Prod.fst h) d.nonempty
  · obtain ⟨rfl, rfl⟩ := Prod.mk.inj h
    rfl

theorem readExponent_text (e : Option Exponent) :
    readExponent (e.elim [] Exponent.text) = some (e.elim 0 Exponent.value, []) := by
  cases e with
  | none => rfl
  | some e =>
    rw [Option.elim_some, Exponent.text, readExponent_cons, if_pos e.isLetter, cutSign_text, exponentDigits_chars]
    simp only [Option.elim_some, Exponent.value, decide_eq_true_eq]

theorem exists_of_readExponent {cs rest : List Char} {v : Int} (h : readExponent cs = some (v, rest)) :
    ∃ e : Option Exponent, e.elim 0 Exponent.value = v ∧ cs = e.elim [] Exponent.text ++ rest := by
  cases cs with
  | nil =>
    cases h
    exact ⟨none, rfl, rfl⟩
  | cons c cs =>
    rw [readExponent_cons] at h
    split at h
    · rename_i hletter
      obtain ⟨sign, hsign, hminus, hcs⟩ := exists_sign cs
      unfold exponentDigits at h
      split at h
      · cases h
      · rename_i hne hspan
        obtain ⟨hv, rfl⟩ := Prod.mk.inj (Option.some.inj h)
        obtain ⟨d, rfl, hrest⟩ := exists_digits hspan hne
        refine ⟨some ⟨c, hletter, sign, hsign, d⟩, ?_, ?_⟩
        · rw [hminus] at hv
          simpa [Exponent.value] using hv
        · rw [hrest] at hcs
          rw [hcs]
          simp [Exponent.text]
    · cases h
      exact ⟨none, rfl, rfl⟩

/-! ## The scanner -/

theorem digits?_chars (d : Digits) {more : List Char} (hm : NoDigit more) :
    Lexer.digits? (d.chars ++ more) = some (d.chars, more) := by
  rw [Lexer.digits?, Lexer.run?, (span_digits d hm).1, (span_digits d hm).2,
    if_neg fun h => d.nonempty (List.isEmpty_iff.1 h)]

theorem orNothing_fraction?_text (f : Option Digits) {more : List Char} (hm : NoDigit more)
    (hdot : more.head? ≠ some '.') : Lexer.orNothing Lexer.fraction? (f.elim [] (fun d => '.' :: d.chars) ++ more) =
      (f.elim [] fun d => '.' :: d.chars, more) := by
  cases f with
  | none =>
    change Lexer.orNothing Lexer.fraction? more = ([], more)
    rw [Lexer.orNothing, Lexer.fraction?.eq_2 _ fun cs he => hdot (congrArg List.head? he)]
    rfl
  | some d =>
    change ((Lexer.digits? (d.chars ++ more)).map _).getD _ = _
    rw [digits?_chars d hm]
    rfl

theorem orNothing_exponent?_text (e : Option Exponent) (hplus : ∀ x ∈ e, x.sign ≠ some '+') :
    Lexer.orNothing Lexer.exponent? (e.elim [] Exponent.text) = (e.elim [] Exponent.text, []) := by
  cases e with
  | none => rfl
  | some e =>
    have hsigned : Lexer.signed? (e.sign.toList ++ e.digits.chars) = some (e.sign.toList ++ e.digits.chars, []) := by
      have hdigits := digits?_chars e.digits noDigit_nil
      rw [List.append_nil] at hdigits
      cases hsign : e.sign with
      | none =>
        obtain ⟨c, cs, hc, hminus, -⟩ := e.digits.head
        rw [Option.toList_none, List.nil_append, ← hdigits, hc]
        exact Lexer.signed?.eq_2 _ fun _ he => hminus (List.cons.inj he).1
      | some s =>
        rcases e.isSign s hsign with rfl | rfl
        · exact absurd hsign (hplus e rfl)
        · change (Lexer.digits? e.digits.chars).map _ = _
          rw [hdigits]
          rfl
    rw [Option.elim_some, Lexer.orNothing, Exponent.text, Lexer.exponent?, if_pos e.isLetter, hsigned]
    rfl

/-! ## Digits that fit -/

theorem le_foldl_pushDigit (ds : List Char) (n : Nat) : n ≤ ds.foldl Text.pushDigit n := by
  induction ds generalizing n with
  | nil => exact Nat.le_refl n
  | cons d ds ih =>
    have hle : n ≤ Text.pushDigit n d := by
      unfold Text.pushDigit
      omega
    exact Nat.le_trans hle (ih _)

theorem keepDigits_of_lt {ds : List Char} {s : UInt64} (h : ds.foldl Text.pushDigit s.toNat < UInt64.size) :
    keepDigits s ds = (.ofNat (ds.foldl Text.pushDigit s.toNat), []) := by
  induction ds generalizing s with
  | nil =>
    rw [keepDigits, List.foldl_nil, UInt64.ofNat_toNat]
  | cons d ds ih =>
    rw [List.foldl_cons] at h ⊢
    have hlt := Nat.lt_of_le_of_lt (le_foldl_pushDigit ds _) h
    have hvalue : (UInt64.ofNat (Text.pushDigit s.toNat d)).toNat = Text.pushDigit s.toNat d :=
      UInt64.toNat_ofNat_of_lt hlt
    rw [keepDigits, if_pos hlt, ih (by rwa [hvalue]), hvalue]

/-- **A number whose digits fit** is kept as it is written. -/
theorem ofDigits_of_lt {whole fraction : List Char} (h : Text.digitsValue (whole ++ fraction) < UInt64.size)
    (negative : Bool) (exponent : Int) : NumberText.ofDigits negative whole fraction exponent =
      ⟨negative, .ofNat (Text.digitsValue (whole ++ fraction)), exponent - fraction.length⟩ := by
  rw [Text.digitsValue, List.foldl_append] at h ⊢
  have hlt := Nat.lt_of_le_of_lt (le_foldl_pushDigit fraction _) h
  have hwhole := keepDigits_of_lt (s := 0) hlt
  have hvalue : (UInt64.ofNat (whole.foldl Text.pushDigit 0)).toNat = whole.foldl Text.pushDigit 0 :=
    UInt64.toNat_ofNat_of_lt hlt
  have hfraction := keepDigits_of_lt (s := .ofNat (whole.foldl Text.pushDigit 0)) (by rwa [hvalue])
  rw [hvalue] at hfraction
  rw [UInt64.toNat_zero] at hwhole
  simp [NumberText.ofDigits, hwhole, hfraction]

/-! ## Whole numerals -/

namespace Numeral

variable {n : Numeral}

theorem noDigit_exponentText (n : Numeral) : NoDigit n.exponentText ∧ n.exponentText.head? ≠ some '.' := by
  unfold exponentText
  cases n.exponent with
  | none => exact ⟨noDigit_nil, fun h => nomatch h⟩
  | some e => rcases e.isLetter with h | h <;> simp [NoDigit, Exponent.text, h]

theorem noDigit_fractionText (n : Numeral) : NoDigit (n.fractionText ++ n.exponentText) := by
  unfold fractionText
  cases n.fraction with
  | none => exact n.noDigit_exponentText.1
  | some d => simp [NoDigit]

theorem head_text (n : Numeral) : ∃ c cs, n.text = c :: cs ∧ c.isDigit = true := by
  obtain ⟨c, cs, hc, -⟩ := n.whole.head
  exact ⟨c, _, by rw [text, hc, List.cons_append], n.whole.isDigit c (hc ▸ List.mem_cons_self)⟩

theorem readNumber_of_head {cs : List Char} (h : cs.head? ≠ some '-') : readNumber cs =
    (readInteger cs).bind fun whole => (readFraction whole.2).bind fun fraction =>
      (readExponent fraction.2).map fun exponent =>
        (.ofDigits false whole.1 fraction.1 exponent.1, exponent.2) := by
  unfold readNumber
  split
  rename_i heq
  split at heq
  · exact absurd rfl h
  · cases heq
    cases readInteger cs with
    | none => rfl
    | some whole =>
      obtain ⟨ds, cs₁⟩ := whole
      change _ = (readFraction cs₁).bind _
      cases hf : readFraction cs₁ with
      | none => simp [hf]
      | some fraction =>
        obtain ⟨fs, cs₂⟩ := fraction
        cases he : readExponent cs₂ <;> simp [hf, he]

/-- **The reader of JSON reads a numeral** without leading zeros as its number. -/
theorem readNumber_text (h : ¬n.HasLeadingZero) : readNumber n.text = some (n.number, []) := by
  obtain ⟨c, cs, hc, hdigit⟩ := n.head_text
  have hhead : n.text.head? ≠ some '-' := by
    rw [hc]
    rintro ⟨⟩
    cases hdigit
  have hwhole := readInteger_chars n.whole h n.noDigit_fractionText
  have hfraction := readFraction_text n.fraction n.noDigit_exponentText.1 n.noDigit_exponentText.2
  have hexponent := readExponent_text n.exponent
  rw [readNumber_of_head hhead, text, hwhole, Option.bind_some, fractionText, hfraction, Option.bind_some, exponentText,
    hexponent]
  rfl

/-- **What the reader of JSON reads without a minus is a numeral** without leading zeros. -/
theorem exists_of_readNumber {cs rest : List Char} {number : NumberText} (hminus : cs.head? ≠ some '-')
    (h : readNumber cs = some (number, rest)) :
    ∃ n : Numeral, ¬n.HasLeadingZero ∧ n.number = number ∧ cs = n.text ++ rest := by
  rw [readNumber_of_head hminus] at h
  obtain ⟨⟨ds, cs₁⟩, hwhole, h⟩ := Option.bind_eq_some_iff.1 h
  obtain ⟨⟨fs, cs₂⟩, hfraction, h⟩ := Option.bind_eq_some_iff.1 h
  obtain ⟨⟨v, cs₃⟩, hexponent, h⟩ := Option.map_eq_some_iff.1 h
  cases h
  obtain ⟨whole, rfl, rfl, hzero⟩ := exists_of_readInteger hwhole
  obtain ⟨fraction, rfl, rfl⟩ := exists_of_readFraction hfraction
  obtain ⟨exponent, rfl, rfl⟩ := exists_of_readExponent hexponent
  exact ⟨⟨whole, fraction, exponent⟩, hzero, rfl, by simp [text, fractionText, exponentText]⟩

theorem number?_text (h : ¬n.HasPlus) : Lexer.number? n.text = some (n.text, []) := by
  have hfraction := orNothing_fraction?_text n.fraction n.noDigit_exponentText.1 n.noDigit_exponentText.2
  have hexponent := orNothing_exponent?_text n.exponent fun e he hs => h ⟨e, he, hs⟩
  rw [Lexer.number?, text, digits?_chars n.whole n.noDigit_fractionText, Option.map_some]
  simp only [fractionText, exponentText] at hfraction ⊢
  simp only [hfraction, hexponent, List.append_assoc]

theorem isBlank_of_isDigit {c : Char} (h : c.isDigit = true) : Text.isBlank c = false := by
  obtain ⟨h0, h9⟩ : 48 ≤ c.toNat ∧ c.toNat ≤ 57 := by
    simpa [Char.isDigit, UInt32.le_iff_toNat_le] using h
  have hall : ∀ k < 10, Text.inRanges Text.blankRanges (48 + k) = false := by decide
  have hk := hall (c.toNat - 48) (by omega)
  rwa [show 48 + (c.toNat - 48) = c.toNat by omega] at hk

theorem lexeme?_text (tokens : List String) (h : ¬n.HasPlus) :
    Lexer.lexeme? tokens n.text = some ⟨n.text, false, []⟩ := by
  obtain ⟨c, cs, hc, hdigit⟩ := n.head_text
  have hblanks : Lexer.blanks? n.text = none := by
    rw [hc]
    exact Lexer.run?_cons_eq_none_iff.2 (isBlank_of_isDigit hdigit)
  rw [Lexer.lexeme?, hblanks, number?_text h]
  rfl

end Numeral

end Packrat.Json
