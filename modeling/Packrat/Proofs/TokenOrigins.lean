import Packrat.Proofs.LexedSegments
import Packrat.Proofs.NotationWriter
import Packrat.Proofs.Numerals
import Packrat.Token.Cursor
/-!
# TokenOrigins — the kind that a token comes from

A scan keeps the texts of tokens and not their kinds.  A cursor asks the full matches of numbers, strings and
identifiers again, and is right to: what such a match accepts starts with a character that no kind tried before it
starts with, so that its kind was the first to find something where the token stands (`origin?_of_isAsked`); and what
the kind has found there it accepts as a whole (`accepts_iff_origin`).  Main statement: `eats_iff_comesFrom`.
-/
namespace Packrat

open Pattern Pattern.Expr

/-- **The kinds that a cursor asks for.** -/
def TokenClass.isAsked : TokenClass → Bool
  | .number | .string | .ident => true
  | .space | .punctuation | .symbols | .comment => false

namespace Lexer

/-- **What a lexeme can come from**: a built-in kind of token, or the declared operators. -/
inductive Origin where
  | builtIn (k : TokenClass)
  | operator
  deriving Repr, DecidableEq

namespace Origin

def split? (tokens : List String) : Origin → List Char → Option Split
  | .builtIn .space => blanks?
  | .builtIn .number => number?
  | .builtIn .string => string?
  | .builtIn .ident => ident?
  | .operator => operator? tokens
  | .builtIn .punctuation => punctuation?
  | .builtIn .symbols => symbols?
  | .builtIn .comment => comment?

def order : List Origin :=
  [.builtIn .space, .builtIn .number, .builtIn .string, .builtIn .ident, .operator, .builtIn .punctuation,
    .builtIn .symbols, .builtIn .comment]

def isDropped : Origin → Bool
  | .builtIn .space | .builtIn .comment => true
  | _ => false

end Origin

/-- **What the lexeme at the head of a text comes from**: the first that finds something there. -/
def origin? (tokens : List String) (cs : List Char) : Option Origin :=
  Origin.order.find? fun o => (o.split? tokens cs).isSome

variable {tokens : List String} {cs rest tail : List Char} {s : Split} {o : Origin} {k : TokenClass}

theorem findSome?_map_eq_bind_find? {α β γ : Type} (f : α → Option β) (g : α → β → γ) (as : List α) :
    (as.map fun a => (f a).map (g a)).findSome? id =
      (as.find? fun a => (f a).isSome).bind fun a => (f a).map (g a) := by
  induction as with
  | nil => rfl
  | cons a as ih =>
    rw [List.map_cons, List.findSome?_cons, List.find?_cons]
    cases hf : f a with
    | none => exact ih
    | some b => simp [hf]

theorem lexeme?_eq_origin? (tokens : List String) (cs : List Char) : lexeme? tokens cs =
    (origin? tokens cs).bind fun o => (o.split? tokens cs).map fun s => ⟨s.1, o.isDropped, s.2⟩ :=
  findSome?_map_eq_bind_find? (fun o => Origin.split? tokens o cs)
    (fun o (s : Split) => Scanner.Taken.mk s.1 o.isDropped s.2) Origin.order

theorem takes_builtIn (tokens : List String) : ∀ k : TokenClass, k.expr.Takes ((Origin.builtIn k).split? tokens)
  | .space => takes_blanks
  | .number => takes_number
  | .string => takesOnly_string.takes
  | .ident => takes_ident
  | .punctuation => takes_punctuation
  | .symbols => takes_symbols
  | .comment => takes_comment

theorem Origin.isSplit (h : o.split? tokens cs = some s) : IsSplit cs s := by
  match o with
  | .builtIn .space => exact isSplit_run? h
  | .builtIn .number => exact isSplit_number? h
  | .builtIn .string => exact isSplit_string? h
  | .builtIn .ident => exact isSplit_ident? h
  | .operator => exact isSplit_operator? h
  | .builtIn .punctuation => exact isSplit_punctuation? h
  | .builtIn .symbols => exact isSplit_run? h
  | .builtIn .comment => exact isSplit_comment? h

/-! ## Kinds known by the first character -/

theorem head_of_number? (h : number? cs = some s) : ∃ c more, cs = c :: more ∧ c.isDigit = true := by
  obtain ⟨whole, hwhole, -⟩ := Option.map_eq_some_iff.1 h
  cases cs with
  | nil => cases hwhole
  | cons c more =>
    refine ⟨c, more, rfl, ?_⟩
    by_contra hc
    rw [digits?, run?_cons_eq_none_iff.2 (by simpa using hc)] at hwhole
    cases hwhole

theorem head_of_string? (h : string? cs = some s) : ∃ more, cs = '"' :: more := by
  unfold string? at h
  split at h
  · exact ⟨_, rfl⟩
  · cases h

theorem head_of_ident? (h : ident? cs = some s) : ∃ c more, cs = c :: more ∧ isIdentStart c = true := by
  unfold ident? at h
  split at h
  · split at h
    · rename_i hc
      exact ⟨_, _, rfl, hc⟩
    · cases h
  · cases h

/-- **Where a kind that is asked for finds something, nothing is tried with success before.** -/
theorem origin?_of_isAsked (hk : k.isAsked = true) (h : (Origin.builtIn k).split? tokens cs = some s) :
    origin? tokens cs = some (.builtIn k) := by
  match k with
  | .number =>
    change number? cs = some s at h
    obtain ⟨c, more, rfl, hc⟩ := head_of_number? h
    have hblanks : blanks? (c :: more) = none := run?_cons_eq_none_iff.2 (Json.Numeral.isBlank_of_isDigit hc)
    simp [origin?, Origin.order, Origin.split?, hblanks, h]
  | .string =>
    change string? cs = some s at h
    obtain ⟨more, rfl⟩ := head_of_string? h
    have hblanks : blanks? ('"' :: more) = none := run?_cons_eq_none_iff.2 (by decide)
    have hnumber : number? ('"' :: more) = none := number?_of_not_digit rfl
    simp [origin?, Origin.order, Origin.split?, hblanks, hnumber, h]
  | .ident =>
    change ident? cs = some s at h
    obtain ⟨c, more, rfl, hc⟩ := head_of_ident? h
    obtain ⟨hblank, hdigit, hquote⟩ := of_isIdentStart hc
    have hblanks : blanks? (c :: more) = none := run?_cons_eq_none_iff.2 hblank
    have hnumber : number? (c :: more) = none := number?_of_not_digit hdigit
    have hstring : string? (c :: more) = none := string?.eq_2 _ fun _ he => hquote (List.cons.inj he).1
    simp [origin?, Origin.order, Origin.split?, hblanks, hnumber, hstring, h]
  | .space | .punctuation | .symbols | .comment => cases hk

/-! ## Words of a kind that is asked for -/

theorem split?_self (hk : k.isAsked = true) (h : (Origin.builtIn k).split? tokens cs = some s) :
    (Origin.builtIn k).split? tokens s.1 = some (s.1, []) := by
  match k with
  | .number => exact number?_self h
  | .string =>
    have hself := string?_append h []
    rw [List.append_nil] at hself
    exact hself
  | .ident => exact ident?_self h
  | .space | .punctuation | .symbols | .comment => cases hk

theorem split?_eq_none_of_append {w : List Char} (hk : k.isAsked = true)
    (h : (Origin.builtIn k).split? tokens (w ++ rest) = none) : (Origin.builtIn k).split? tokens w = none := by
  match k with
  | .number => exact number?_eq_none_of_append h
  | .string => exact string?_eq_none_of_append h
  | .ident => exact ident?_eq_none_of_append h
  | .space | .punctuation | .symbols | .comment => cases hk

/-- **A full match of a kind that is asked for knows the tokens that come from it.** -/
theorem accepts_iff_origin {m : FullMatch} (hk : k.isAsked = true)
    (hm : m.pattern.expr = .cat (.look .startText) (.cat k.expr (.look .endText))) (ho : origin? tokens cs = some o)
    {w : String} (h : o.split? tokens cs = some (w.toList, tail)) : m.accepts w = true ↔ o = .builtIn k := by
  constructor
  · intro haccepts
    cases hsplit : (Origin.builtIn k).split? tokens cs with
    | some s => exact Option.some.inj (ho.symm.trans (origin?_of_isAsked hk hsplit))
    | none =>
      -- the kind finds nothing in the text, so nothing in the word
      rw [← (Origin.isSplit h).2] at hsplit
      rw [accepts_of_none hm (takes_builtIn tokens k) (split?_eq_none_of_append hk hsplit)] at haccepts
      cases haccepts
  · rintro rfl
    exact accepts_of_whole hm (takes_builtIn tokens k) (split?_self hk h)

theorem eq_of_byteLength_eq : ∀ {a b x y : List Char}, a ++ x = b ++ y → Text.byteLength a = Text.byteLength b → a = b
  | [], b, _, _, _, hlen => ((Text.byteLength_eq_zero_iff b).1 hlen.symm).symm
  | c :: a, [], _, _, _, hlen => (Text.byteLength_eq_zero_iff (c :: a)).1 hlen
  | c :: a, d :: b, _, _, h, hlen => by
    obtain ⟨rfl, hmore⟩ := List.cons.inj h
    rw [Text.byteLength_cons, Text.byteLength_cons, Nat.add_left_cancel_iff] at hlen
    exact congrArg (c :: ·) (eq_of_byteLength_eq hmore hlen)

end Lexer

/-! ## Cursors -/

/-- **The token comes from there**: where it stands in its segment, this is the first that finds something, and it finds
the token. -/
def Token.ComesFrom (tokens : List String) (t : Template) (token : Token) (o : Lexer.Origin) : Prop :=
  ∃ segment before rest tail, t.segments[token.pos.segment]? = some segment ∧ segment.toList = before ++ rest ∧
    token.pos.start = Text.byteLength before ∧ Lexer.origin? tokens rest = some o ∧
    o.split? tokens rest = some (token.text.toList, tail)

variable {tokens : List String} {t : Template} {token : Token} {o o' : Lexer.Origin} {s : Scanner} {l : TokenList}

theorem Token.ComesFrom.unique (h : token.ComesFrom tokens t o) (h' : token.ComesFrom tokens t o') : o = o' := by
  obtain ⟨segment, before, rest, -, hsegment, happ, hstart, ho, -⟩ := h
  obtain ⟨segment', before', rest', -, hsegment', happ', hstart', ho', -⟩ := h'
  cases hsegment.symm.trans hsegment'
  have hsame : before ++ rest = before' ++ rest' := happ.symm.trans happ'
  have hbefore : before = before' := Lexer.eq_of_byteLength_eq hsame (hstart.symm.trans hstart')
  subst hbefore
  cases List.append_cancel_left hsame
  exact Option.some.inj (ho.symm.trans ho')

/-- **Every token of a scan comes from somewhere**, and not from what is dropped. -/
theorem exists_comesFrom (hs : Scanner.ofTokens tokens = .ok s) (h : s.scan t = .ok l)
    (ht : .token token ∈ l.entries) : ∃ o, token.ComesFrom tokens t o ∧ o.isDropped = false := by
  obtain ⟨i, segment, hsegment, before, rest, tail, happ, hlex, hpos⟩ :=
    Lexer.placedIn_of_lexSegments ((Scanner.scan_eq_ok_iff hs).1 h).1 ht
  rw [Lexer.lexeme?_eq_origin?] at hlex
  obtain ⟨o, ho, hlex⟩ := Option.bind_eq_some_iff.1 hlex
  obtain ⟨s, hs, hlex⟩ := Option.map_eq_some_iff.1 hlex
  injection hlex with htext hdropped htail
  refine ⟨o, ⟨segment, before, rest, s.2, ?_, happ, ?_, ho, ?_⟩, hdropped⟩
  · simpa [hpos, Template.segments] using hsegment
  · simp [hpos]
  · rw [hs, ← htext]

theorem Token.ComesFrom.accepts_iff {m : FullMatch} {k : TokenClass} (h : token.ComesFrom tokens t o)
    (hk : k.isAsked = true) (hm : FullMatch.ofSource k.source = .ok m) :
    m.accepts token.text = true ↔ o = .builtIn k := by
  obtain ⟨m', hm', hexpr⟩ := Pattern.ofSource_class k
  cases hm.symm.trans hm'
  obtain ⟨segment, before, rest, tail, -, -, -, ho, hsplit⟩ := h
  exact Lexer.accepts_iff_origin hk hexpr ho hsplit

theorem Token.ComesFrom.ne_empty (h : token.ComesFrom tokens t o) : token.text ≠ "" := by
  obtain ⟨segment, before, rest, tail, -, -, -, -, hsplit⟩ := h
  intro he
  rw [he] at hsplit
  exact (Lexer.Origin.isSplit hsplit).1 rfl

theorem Cursor.eatToken_eq_ite {c : Cursor} (h : c.current = some (.token token)) {accept : Token → Bool} {p : Prop}
    [Decidable p] (ha : accept token = true ↔ p) :
    c.eatToken accept = if p then some (token, c.advance) else none := by
  rw [eatToken, h]
  exact if_congr ha rfl rfl

namespace Scanner

/-- **A cursor tells tokens apart as the scan did.**  A token of a scan comes from one origin and no other, and from
nothing that is dropped; at the token, a number is eaten if and only if it comes from the numbers, a string if and only
if it comes from the strings, and an identifier if and only if it comes from the identifiers and is not declared. -/
theorem eats_iff_comesFrom (hs : ofTokens tokens = .ok s) (h : s.scan t = .ok l) {i : Nat}
    (hi : l.entries[i]? = some (.token token)) :
    ∃ o, (∀ o', token.ComesFrom tokens t o' ↔ o' = o) ∧ o.isDropped = false ∧
      ((l.cursor.setPosition i).eatNumber =
        if o = .builtIn .number then some (token, (l.cursor.setPosition i).advance) else none) ∧
      ((l.cursor.setPosition i).eatString =
        if o = .builtIn .string then some (token, (l.cursor.setPosition i).advance) else none) ∧
      ((l.cursor.setPosition i).eatIdent =
        if o = .builtIn .ident ∧ token.text ∉ tokens then some (token, (l.cursor.setPosition i).advance) else none) ∧
      (o = .operator ∨ o = .builtIn .punctuation ∨ o = .builtIn .symbols →
        (l.cursor.setPosition i).eatNumber = none ∧ (l.cursor.setPosition i).eatString = none ∧
          (l.cursor.setPosition i).eatIdent = none) := by
  obtain ⟨o, ho, hdropped⟩ := exists_comesFrom hs h (List.mem_of_getElem? hi)
  have hlexicon : l.lexicon = s.lexicon := lexicon_of_scan h
  obtain ⟨hnumber, hstring, hident, hkeywords⟩ := lexicon_of_ofTokens hs
  rw [← hlexicon] at hnumber hstring hident hkeywords
  have hcurrent : (l.cursor.setPosition i).current = some (.token token) := hi
  have haccept : l.lexicon.isIdent token = true ↔ o = .builtIn .ident ∧ token.text ∉ tokens := by
    rw [Lexicon.isIdent, Bool.and_eq_true, Bool.not_eq_true', ho.accepts_iff rfl hident, ← Bool.not_eq_true,
      List.contains_iff_mem, hkeywords, ho.accepts_iff rfl hident]
    -- a declared identifier is a keyword, since no token is empty
    exact and_congr_right fun hident => not_congr ⟨fun h => h.1, fun h => ⟨h, ho.ne_empty, hident⟩⟩
  have hN : (l.cursor.setPosition i).eatNumber =
      if o = .builtIn .number then some (token, (l.cursor.setPosition i).advance) else none :=
    Cursor.eatToken_eq_ite hcurrent (ho.accepts_iff rfl hnumber)
  have hS : (l.cursor.setPosition i).eatString =
      if o = .builtIn .string then some (token, (l.cursor.setPosition i).advance) else none :=
    Cursor.eatToken_eq_ite hcurrent (ho.accepts_iff rfl hstring)
  have hI : (l.cursor.setPosition i).eatIdent =
      if o = .builtIn .ident ∧ token.text ∉ tokens then some (token, (l.cursor.setPosition i).advance) else none :=
    Cursor.eatToken_eq_ite hcurrent haccept
  refine ⟨o, fun o' => ⟨fun ho' => ho'.unique ho, fun he => he ▸ ho⟩, hdropped, hN, hS, hI, ?_⟩
  rw [hN, hS, hI]
  rintro (rfl | rfl | rfl) <;> exact ⟨rfl, rfl, if_neg fun h => absurd h.1 (by decide)⟩

set_option maxRecDepth 10000 in
/-- Declared tokens that look as the built-in kinds do: the number is a number all the same. -/
theorem eats_iff_comesFrom_declared : ∃ s l, ofTokens ["1", "\"ab\"", "if", "-x"] = .ok s ∧
    s.scan ⟨"if 1 -x", ["\"ab\" x"]⟩ = .ok l ∧
    l.entries[1]? = some (.token ⟨"1", 0, 3, 4⟩) ∧ l.entries[2]? = some (.token ⟨"-x", 0, 5, 7⟩) ∧
    Token.ComesFrom ["1", "\"ab\"", "if", "-x"] ⟨"if 1 -x", ["\"ab\" x"]⟩ ⟨"1", 0, 3, 4⟩ (.builtIn .number) ∧
    (l.cursor.setPosition 1).eatNumber = some (⟨"1", 0, 3, 4⟩, (l.cursor.setPosition 1).advance) ∧
    Token.ComesFrom ["1", "\"ab\"", "if", "-x"] ⟨"if 1 -x", ["\"ab\" x"]⟩ ⟨"-x", 0, 5, 7⟩ .operator ∧
    (l.cursor.setPosition 2).eatIdent = none := by
  have hok : (do
      let s ← ofTokens ["1", "\"ab\"", "if", "-x"]
      let l ← s.scan ⟨"if 1 -x", ["\"ab\" x"]⟩
      return decide (l.entries[1]? = some (.token ⟨"1", 0, 3, 4⟩) ∧ l.entries[2]? = some (.token ⟨"-x", 0, 5, 7⟩))) =
      (.ok true : Except LexError Bool) := by decide +kernel
  obtain ⟨s, hs, hok⟩ := Except.bind_eq_ok.1 hok
  obtain ⟨l, hl, hok⟩ := Except.bind_eq_ok.1 hok
  obtain ⟨hone, htwo⟩ := of_decide_eq_true (Except.ok.inj hok)
  have hnumber : Token.ComesFrom ["1", "\"ab\"", "if", "-x"] ⟨"if 1 -x", ["\"ab\" x"]⟩ ⟨"1", 0, 3, 4⟩
      (.builtIn .number) :=
    ⟨"if 1 -x", "if ".toList, "1 -x".toList, " -x".toList, rfl, rfl, rfl, by decide +kernel, by decide +kernel⟩
  have hoperator : Token.ComesFrom ["1", "\"ab\"", "if", "-x"] ⟨"if 1 -x", ["\"ab\" x"]⟩ ⟨"-x", 0, 5, 7⟩ .operator :=
    ⟨"if 1 -x", "if 1 ".toList, "-x".toList, [], rfl, rfl, rfl, by decide +kernel, by decide +kernel⟩
  obtain ⟨o, ho, -, heats, -⟩ := eats_iff_comesFrom hs hl hone
  obtain ⟨o', ho', -, -, -, -, hnone⟩ := eats_iff_comesFrom hs hl htwo
  rw [if_pos ((ho _).1 hnumber).symm] at heats
  exact ⟨s, l, hs, hl, hone, htwo, hnumber, heats, hoperator, (hnone (Or.inl ((ho' _).1 hoperator).symm)).2.2⟩

end Scanner

end Packrat
