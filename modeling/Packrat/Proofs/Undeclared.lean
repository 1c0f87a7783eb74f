import Packrat.Proofs.LexedSegments
import Packrat.Proofs.Transfer
/-!
# Undeclared — tokens that do not occur

Two sets of declared tokens may differ in words that do not occur in a text (`SameWords`).  On such a text they have the
same lexemes, though the scanners differ in their patterns and in the order of their operators: no operator of the one
set alone fits anywhere (`lexeme?_of_sameWords`).  Nor is any token of the text a keyword of the one set alone.  Main
statement: the scanners give the same entries, or the same error, and the entries are read alike (`scan_of_sameWords`).
-/
namespace Packrat

/-- **The words of a text that two sets declare are the same.** -/
def SameWords (tokens tokens' : List String) (cs : List Char) : Prop :=
  ∀ w : String, w ≠ "" → w.toList <:+: cs → (w ∈ tokens ↔ w ∈ tokens')

variable {tokens tokens' : List String} {cs cs' : List Char}

theorem SameWords.symm (h : SameWords tokens tokens' cs) : SameWords tokens' tokens cs :=
  fun w hne hw => (h w hne hw).symm

theorem SameWords.mono (h : SameWords tokens tokens' cs) (hcs : cs' <:+: cs) : SameWords tokens tokens' cs' :=
  fun w hne hw => h w hne (hw.trans hcs)

namespace Lexer

variable {s s' : Split} {index segment size start : Nat} {entries : List Entry} {t : Token}

/-! ## Lexemes -/

theorem le_of_operator? (h : SameWords tokens tokens' cs) (hs : operator? tokens cs = some s)
    (hs' : operator? tokens' cs = some s') : s.1.length ≤ s'.1.length := by
  obtain ⟨⟨w, hw, hsw, hne, hid⟩, happ, -⟩ := operator?_eq_some hs
  obtain ⟨-, -, hmax⟩ := operator?_eq_some hs'
  have hprefix : w.toList <+: cs := ⟨s.2, by rw [← hsw, happ]⟩
  rw [hsw]
  exact hmax w ((h w hne hprefix.isInfix).1 hw) hne hid hprefix

theorem operator?_isSome (h : SameWords tokens tokens' cs) (hs : operator? tokens cs = some s) :
    operator? tokens' cs ≠ none := by
  intro hnone
  obtain ⟨⟨w, hw, hsw, hne, hid⟩, happ, -⟩ := operator?_eq_some hs
  have hprefix : w.toList <+: cs := ⟨s.2, by rw [← hsw, happ]⟩
  exact operator?_eq_none hnone ((h w hne hprefix.isInfix).1 hw) hne hid hprefix

theorem operator?_of_sameWords (h : SameWords tokens tokens' cs) : operator? tokens cs = operator? tokens' cs := by
  cases hs : operator? tokens cs with
  | none =>
    cases hs' : operator? tokens' cs with
    | none => rfl
    | some s' => exact absurd hs (operator?_isSome h.symm hs')
  | some s =>
    cases hs' : operator? tokens' cs with
    | none => exact absurd hs' (operator?_isSome h hs)
    | some s' =>
      -- both are heads of the text, and of one length
      have hlen := Nat.le_antisymm (le_of_operator? h hs hs') (le_of_operator? h.symm hs' hs)
      have happ : s.1 ++ s.2 = s'.1 ++ s'.2 := (operator?_eq_some hs).2.1.trans (operator?_eq_some hs').2.1.symm
      obtain ⟨h₁, h₂⟩ := List.append_inj happ hlen
      exact congrArg some (Prod.ext h₁ h₂)

theorem lexeme?_of_sameWords (h : SameWords tokens tokens' cs) : lexeme? tokens cs = lexeme? tokens' cs := by
  rw [lexeme?, lexeme?, operator?_of_sameWords h]

theorem infix_rest {taken : Scanner.Taken} (h : lexeme? tokens cs = some taken) : taken.rest <:+: cs :=
  List.IsSuffix.isInfix ⟨taken.text, (isSplit_lexeme? h).2⟩

theorem infix_text {taken : Scanner.Taken} (h : lexeme? tokens cs = some taken) : taken.text <:+: cs :=
  List.IsPrefix.isInfix ⟨taken.rest, (isSplit_lexeme? h).2⟩

/-! ## Segments -/

theorem lexFrom_of_sameWords (h : SameWords tokens tokens' cs) :
    lexFrom tokens segment size start cs = lexFrom tokens' segment size start cs := by
  induction hn : cs.length using Nat.strong_induction_on generalizing start cs with
  | _ n ih =>
    by_cases hcs : cs = []
    · rw [hcs, lexFrom, lexFrom]
      rfl
    · cases hlex : lexeme? tokens cs with
      | none =>
        have hlex' : lexeme? tokens' cs = none := by rw [← lexeme?_of_sameWords h, hlex]
        rw [lexFrom_of_none hcs hlex, lexFrom_of_none hcs hlex']
      | some taken =>
        have hlex' : lexeme? tokens' cs = some taken := by rw [← lexeme?_of_sameWords h, hlex]
        rw [lexFrom_of_some hlex, lexFrom_of_some hlex',
          ih _ (hn ▸ length_rest_lt hlex) (h.mono (infix_rest hlex)) rfl]

def FoundIn (tokens : List String) (cs : List Char) (t : Token) : Prop :=
  ∃ rest taken, rest <:+ cs ∧ lexeme? tokens rest = some taken ∧ taken.dropped = false ∧ t.text.toList = taken.text

theorem FoundIn.occurs (h : FoundIn tokens cs t) : t.text.toList <:+: cs := by
  obtain ⟨rest, taken, hrest, hlex, -, htext⟩ := h
  rw [htext]
  exact (infix_text hlex).trans hrest.isInfix

theorem lexSegments_of_sameWords : ∀ {index : Nat} {segment : String} {segments : List String},
    (∀ w ∈ segment :: segments, SameWords tokens tokens' w.toList) →
      lexSegments tokens index segment segments = lexSegments tokens' index segment segments
  | _, _, [], h => lexFrom_of_sameWords (h _ List.mem_cons_self)
  | _, _, next :: more, h => by
    rw [lexSegments, lexSegments, lexFrom_of_sameWords (h _ List.mem_cons_self),
      lexSegments_of_sameWords fun w hw => h w (List.mem_cons_of_mem _ hw)]

theorem foundIn_of_lexSegments {segment : String} {segments : List String}
    (h : lexSegments tokens index segment segments = .ok entries) (ht : .token t ∈ entries) :
    ∃ w ∈ segment :: segments, FoundIn tokens w.toList t := by
  obtain ⟨i, w, hw, before, rest, tail, happ, hlex, -⟩ := placedIn_of_lexSegments h ht
  exact ⟨w, List.mem_of_getElem? hw, rest, _, ⟨before, happ.symm⟩, hlex, rfl, rfl⟩

end Lexer

/-! ## Scans -/

namespace Scanner

variable {s s' : Scanner} {t : Template} {l : TokenList}

theorem alike_of_sameWords {a : Token} (hs : ofTokens tokens = .ok s) (hs' : ofTokens tokens' = .ok s')
    (h : SameWords tokens tokens' a.text.toList) : Grammar.Entry.Alike s.lexicon s'.lexicon (.token a) (.token a) := by
  obtain ⟨hnumber, hstring, hident, hkeys⟩ := lexicon_of_ofTokens hs
  obtain ⟨hnumber', hstring', hident', hkeys'⟩ := lexicon_of_ofTokens hs'
  have hnumber : s.lexicon.number = s'.lexicon.number := Except.ok.inj (hnumber.symm.trans hnumber')
  have hstring : s.lexicon.string = s'.lexicon.string := Except.ok.inj (hstring.symm.trans hstring')
  have hident : s.lexicon.ident = s'.lexicon.ident := Except.ok.inj (hident.symm.trans hident')
  -- the text of the token occurs in the text, so that it is a keyword of both or of neither
  have hkey : s.lexicon.keywords.contains a.text = s'.lexicon.keywords.contains a.text := by
    rw [Bool.eq_iff_iff, List.contains_iff_mem, List.contains_iff_mem, hkeys, hkeys', hident]
    exact and_congr_left fun hne => h a.text hne.1 List.infix_rfl
  refine Grammar.Entry.alike_token rfl ?_ ?_ ?_
  · rw [Lexicon.isNumber, Lexicon.isNumber, hnumber]
  · rw [Lexicon.isString, Lexicon.isString, hstring]
  · rw [Lexicon.isIdent, Lexicon.isIdent, hident, hkey]

/-- **Scans by two sets of tokens** whose words in the program are the same: one error, or the same entries, each of them
read alike. -/
theorem scan_of_sameWords (hs : ofTokens tokens = .ok s) (hs' : ofTokens tokens' = .ok s')
    (h : ∀ w ∈ t.segments, SameWords tokens tokens' w.toList) :
    (∃ e, s.scan t = .error e ∧ s'.scan t = .error e) ∨
    ∃ l l', s.scan t = .ok l ∧ s'.scan t = .ok l' ∧ l.entries = l'.entries ∧
      ∀ e ∈ l.entries, Grammar.Entry.Alike l.lexicon l'.lexicon e e := by
  rw [scan_of_ofTokens hs, scan_of_ofTokens hs', ← Lexer.lexSegments_of_sameWords h]
  cases hlex : Lexer.lexSegments tokens 0 t.first t.rest with
  | error e => exact Or.inl ⟨e, rfl, rfl⟩
  | ok entries =>
    refine Or.inr ⟨_, _, rfl, rfl, rfl, fun e he => ?_⟩
    cases e with
    | token a =>
      obtain ⟨w, hw, hin⟩ := Lexer.foundIn_of_lexSegments hlex he
      exact alike_of_sameWords hs hs' ((h w hw).mono hin.occurs)
    | hole i => exact Grammar.Entry.alike_hole _ _ i

end Scanner

end Packrat
