import Mathlib.Data.List.TakeWhile
import Packrat.Grammar.Engine
import Packrat.Proofs.Built
import Packrat.Proofs.Undeclared
/-!
# LiteralTokens — literals that come up as tokens

The literals of a grammar are declared tokens of its scanner.  But the kinds of token are tried in a fixed order, and a
kind that comes before the operators may drop the head of a literal, or take a part of it and leave the rest.  A word
that these kinds leave alone or take as a whole is a token when it stands alone (`lexeme?_of_isUnbroken`); and no other
word is ever a token, whatever stands around it, because a token is a token again when it stands alone
(`isUnbroken_of_lexeme?`).  Main statement: `literal_scanned`.
-/
namespace Packrat

namespace Lexer

variable {tokens : List String} {p : Char → Bool} {cs w rest more : List Char} {s : Split}
  {taken : Scanner.Taken}

def builtin? (cs : List Char) : Option Split := (number? cs).or ((string? cs).or (ident? cs))

/-- **No kind that comes before the operators breaks the word**: it does not start with a blank, and what a number, a
string or an identifier takes at its head is all of it. -/
def isUnbroken (w : List Char) : Bool := (blanks? w).isNone && (builtin? w).all (·.2.isEmpty)

theorem lexeme?_eq (tokens : List String) (cs : List Char) : lexeme? tokens cs =
    (dropped (blanks? cs)).or ((kept (builtin? cs)).or ((kept (operator? tokens cs)).or ((kept (punctuation? cs)).or
      ((kept (symbols? cs)).or (dropped (comment? cs)))))) := by
  rw [lexeme?, builtin?]
  cases blanks? cs <;> cases number? cs <;> cases string? cs <;> cases ident? cs <;> cases operator? tokens cs <;>
    cases punctuation? cs <;> cases symbols? cs <;> cases comment? cs <;> rfl

theorem isSplit_builtin? (h : builtin? cs = some s) : IsSplit cs s := by
  rcases Option.or_eq_some_iff.1 h with h | ⟨-, h⟩
  · exact isSplit_number? h
  · rcases Option.or_eq_some_iff.1 h with h | ⟨-, h⟩
    · exact isSplit_string? h
    · exact isSplit_ident? h

/-! ## What is found at the head of a text is found when it stands alone -/

theorem of_mem_run? {c : Char} (h : run? p cs = some s) (hc : c ∈ s.1) : p c = true := by
  unfold run? at h
  split at h
  · cases h
  · cases h
    exact List.mem_takeWhile_imp hc

theorem run?_append (h : run? p cs = some s) (more : List Char) (hmore : ∀ c, more.head? = some c → p c = false) :
    run? p (s.1 ++ more) = some (s.1, more) := by
  obtain ⟨htake, hdrop⟩ := run_append_of_head (fun c hc => of_mem_run? h hc) hmore
  rw [run?, htake, hdrop, if_neg fun he => (isSplit_run? h).1 (List.isEmpty_iff.1 he)]

theorem fraction?_append (h : fraction? cs = some s) (more : List Char)
    (hmore : ∀ c, more.head? = some c → c.isDigit = false) :
    fraction? (s.1 ++ more) = some (s.1, more) ∧ s.1.head? = some '.' := by
  unfold fraction? at h
  split at h
  · obtain ⟨q, hq, rfl⟩ := Option.map_eq_some_iff.1 h
    refine ⟨?_, rfl⟩
    change (digits? (q.1 ++ more)).map (prepend ['.']) = _
    rw [digits?, run?_append hq more hmore]
    rfl
  · cases h

theorem signed?_append (h : signed? cs = some s) (more : List Char)
    (hmore : ∀ c, more.head? = some c → c.isDigit = false) :
    signed? (s.1 ++ more) = some (s.1, more) := by
  unfold signed? at h
  split at h
  · obtain ⟨q, hq, rfl⟩ := Option.map_eq_some_iff.1 h
    change (digits? (q.1 ++ more)).map (prepend ['-']) = _
    rw [digits?, run?_append hq more hmore]
    rfl
  · -- the first of the digits is no minus
    rw [signed?.eq_2, digits?, run?_append h more hmore]
    intro rest he
    cases hs : s.1 with
    | nil => exact (isSplit_run? h).1 hs
    | cons c digits =>
      rw [hs] at he
      cases he
      cases of_mem_run? h (hs ▸ List.mem_cons_self)

theorem exponent?_append (h : exponent? cs = some s) (more : List Char)
    (hmore : ∀ c, more.head? = some c → c.isDigit = false) :
    exponent? (s.1 ++ more) = some (s.1, more) ∧ (s.1.head? = some 'e' ∨ s.1.head? = some 'E') := by
  unfold exponent? at h
  split at h
  · split at h
    · rename_i c cs hc
      obtain ⟨q, hq, rfl⟩ := Option.map_eq_some_iff.1 h
      refine ⟨?_, hc.imp (congrArg some) (congrArg some)⟩
      change exponent? (c :: (q.1 ++ more)) = _
      rw [exponent?, if_pos hc, signed?_append hq more hmore]
      rfl
    · cases h
  · cases h

theorem orNothing_append {f : List Char → Option Split} {t : Split} (h : orNothing f cs = t)
    (hsome : ∀ s, f cs = some s → f (s.1 ++ more) = some (s.1, more)) (hnone : f more = none) :
    orNothing f (t.1 ++ more) = (t.1, more) := by
  rw [← h, orNothing, orNothing]
  cases h : f cs with
  | none =>
    rw [Option.getD_none, List.nil_append, hnone]
    rfl
  | some s =>
    rw [Option.getD_some, hsome s h]
    rfl

theorem head_exponent {c : Char} (h : (orNothing exponent? cs).1.head? = some c) : c = 'e' ∨ c = 'E' := by
  unfold orNothing at h
  cases he : exponent? cs with
  | none =>
    rw [he] at h
    cases h
  | some s =>
    rw [he, Option.getD_some] at h
    obtain ⟨-, hhead⟩ := exponent?_append he [] nofun
    simpa [h] using hhead

theorem head_fraction {c : Char} (h : (orNothing fraction? cs).1.head? = some c) : c = '.' := by
  unfold orNothing at h
  cases hf : fraction? cs with
  | none =>
    rw [hf] at h
    cases h
  | some s =>
    rw [hf, Option.getD_some] at h
    obtain ⟨-, hhead⟩ := fraction?_append hf [] nofun
    simpa [h] using hhead

theorem number?_self (h : number? cs = some s) : number? s.1 = some (s.1, []) := by
  obtain ⟨whole, hwhole, rfl⟩ := Option.map_eq_some_iff.1 h
  dsimp only
  generalize hf : orNothing fraction? whole.2 = fraction
  generalize he : orNothing exponent? fraction.2 = exponent
  have hhead : ∀ c, exponent.1.head? = some c → c = 'e' ∨ c = 'E' := fun c hc => head_exponent (he ▸ hc)
  have hexponent : orNothing exponent? exponent.1 = (exponent.1, []) := by
    have hself := orNothing_append he (fun s hs => (exponent?_append hs [] nofun).1) rfl
    rwa [List.append_nil] at hself
  have hbehind : ∀ c, exponent.1.head? = some c → c.isDigit = false := by
    intro c hc
    rcases hhead c hc with rfl | rfl <;> rfl
  have hnone : fraction? exponent.1 = none := by
    unfold fraction?
    split
    · rename_i cs hcs
      rcases hhead '.' (by rw [hcs]; rfl) with h | h <;> cases h
    · rfl
  have hfraction : orNothing fraction? (fraction.1 ++ exponent.1) = (fraction.1, exponent.1) :=
    orNothing_append hf (fun s hs => (fraction?_append hs _ hbehind).1) hnone
  have hdigits : digits? (whole.1 ++ (fraction.1 ++ exponent.1)) = some (whole.1, fraction.1 ++ exponent.1) := by
    refine run?_append hwhole _ fun c hc => ?_
    rw [List.head?_append] at hc
    rcases Option.or_eq_some_iff.1 hc with hc | ⟨-, hc⟩
    · obtain rfl := head_fraction (hf ▸ hc)
      rfl
    · exact hbehind c hc
  rw [List.append_assoc, number?, hdigits, Option.map_some]
  dsimp only
  rw [hfraction, hexponent, List.append_assoc]

theorem stringTail?_append (more : List Char) : ∀ {cs : List Char} {s : Split}, stringTail? cs = some s →
    stringTail? (s.1 ++ more) = some (s.1, more) := by
  intro cs
  fun_induction stringTail? cs with
  | case1 => exact fun h => by cases h
  | case2 cs =>
    intro s h
    cases h
    rfl
  | case3 a b c d cs hhex ih =>
    intro s h
    obtain ⟨q, hq, rfl⟩ := Option.map_eq_some_iff.1 h
    change stringTail? ('\\' :: 'u' :: a :: b :: c :: d :: (q.1 ++ more)) = _
    rw [stringTail?, if_pos hhex, ih hq]
    rfl
  | case4 | case6 | case7 => exact fun h => by cases h
  | case5 c cs _ hc ih =>
    intro s h
    obtain ⟨q, hq, rfl⟩ := Option.map_eq_some_iff.1 h
    change stringTail? ('\\' :: c :: (q.1 ++ more)) = _
    have hu : c ≠ 'u' := by
      rintro rfl
      cases hc
    rw [stringTail?.eq_4 c _ fun _ _ _ _ _ he _ => hu he, if_pos hc, ih hq]
    rfl
  | case8 c cs hquote _ _ hc ih =>
    intro s h
    obtain ⟨q, hq, rfl⟩ := Option.map_eq_some_iff.1 h
    change stringTail? (c :: (q.1 ++ more)) = _
    rw [stringTail?.eq_5 c _ hquote (fun _ _ _ _ _ he _ => hc he) (fun _ _ he _ => hc he), if_neg hc, ih hq]
    rfl

theorem string?_append (h : string? cs = some s) (more : List Char) : string? (s.1 ++ more) = some (s.1, more) := by
  unfold string? at h
  split at h
  · obtain ⟨q, hq, rfl⟩ := Option.map_eq_some_iff.1 h
    change (stringTail? (q.1 ++ more)).map (prepend ['"']) = _
    rw [stringTail?_append more hq]
    rfl
  · cases h

theorem lexeme?_of_isString {w : String} (h : isString w = true) (cs : List Char) :
    lexeme? tokens (w.toList ++ cs) = some ⟨w.toList, false, cs⟩ := by
  obtain ⟨s, hs, hrest⟩ := (Option.any_eq_true _ _).1 h
  have happ := (isSplit_string? hs).2
  rw [List.isEmpty_iff.1 hrest, List.append_nil] at happ
  have hstring := string?_append hs cs
  rw [happ] at hstring
  obtain ⟨more, hw⟩ : ∃ more, w.toList = '"' :: more := by
    unfold string? at hs
    split at hs
    · rename_i more hw
      exact ⟨more, hw⟩
    · cases hs
  have hblanks : blanks? (w.toList ++ cs) = none := by
    rw [hw]
    exact run?_cons_eq_none_iff.2 (by decide)
  have hnumber : number? (w.toList ++ cs) = none := by
    rw [hw]
    exact Option.map_eq_none_iff.2 (run?_cons_eq_none_iff.2 (by decide))
  rw [lexeme?, hblanks, hnumber, hstring]
  rfl

theorem ident?_self (h : ident? cs = some s) : ident? s.1 = some (s.1, []) := by
  unfold ident? at h
  split at h
  · split at h
    · rename_i c cs hc
      cases h
      have hmem : ∀ x ∈ cs.takeWhile isIdentChar, isIdentChar x = true := fun x hx => List.mem_takeWhile_imp hx
      rw [ident?, if_pos hc, List.takeWhile_eq_self_iff.2 hmem, List.dropWhile_eq_nil_iff.2 hmem]
    · cases h
  · cases h

/-! ## What is not found at the head of a text is not found when its head stands alone -/

theorem run?_eq_none_of_append (h : run? p (w ++ rest) = none) : run? p w = none := by
  cases w with
  | nil => rfl
  | cons c w => exact run?_cons_eq_none_iff.2 (run?_cons_eq_none_iff.1 h)

theorem number?_eq_none_of_append (h : number? (w ++ rest) = none) : number? w = none :=
  Option.map_eq_none_iff.2 (run?_eq_none_of_append (Option.map_eq_none_iff.1 h))

theorem string?_eq_none_of_append (h : string? (w ++ rest) = none) : string? w = none := by
  cases hw : string? w with
  | none => rfl
  | some s =>
    rw [← (isSplit_string? hw).2, List.append_assoc, string?_append hw] at h
    cases h

theorem ident?_eq_none_of_append (h : ident? (w ++ rest) = none) : ident? w = none := by
  cases w with
  | nil => rfl
  | cons c w =>
    rw [List.cons_append, ident?] at h
    rw [ident?]
    split at h
    · cases h
    · rename_i hc
      exact if_neg hc

theorem builtin?_eq_none_of_append (h : builtin? (w ++ rest) = none) : builtin? w = none := by
  simp only [builtin?, Option.or_eq_none_iff] at h ⊢
  exact ⟨number?_eq_none_of_append h.1, string?_eq_none_of_append h.2.1, ident?_eq_none_of_append h.2.2⟩

theorem builtin?_self (h : builtin? cs = some s) : builtin? s.1 = some (s.1, []) := by
  have happ := (isSplit_builtin? h).2
  rw [builtin?]
  rcases Option.or_eq_some_iff.1 h with h | ⟨hnumber, h⟩
  · rw [number?_self h]
    rfl
  · rw [number?_eq_none_of_append (happ ▸ hnumber), Option.none_or]
    rcases Option.or_eq_some_iff.1 h with h | ⟨hstring, h⟩
    · have hself := string?_append h []
      rw [List.append_nil] at hself
      rw [hself]
      rfl
    · rw [string?_eq_none_of_append (happ ▸ hstring), Option.none_or, ident?_self h]

/-! ## Unbroken words -/

/-- **A declared word that nothing breaks** is a token when it stands alone. -/
theorem lexeme?_of_isUnbroken {w : String} (hw : w ∈ tokens) (hne : w ≠ "") (h : isUnbroken w.toList = true) :
    lexeme? tokens w.toList = some ⟨w.toList, false, []⟩ := by
  obtain ⟨hblanks, hbuiltin⟩ := Bool.and_eq_true_iff.1 h
  rw [lexeme?_eq, Option.isNone_iff_eq_none.1 hblanks]
  cases hb : builtin? w.toList with
  | some s =>
    rw [hb] at hbuiltin
    have hrest : s.2 = [] := List.isEmpty_iff.1 hbuiltin
    have happ := (isSplit_builtin? hb).2
    rw [hrest, List.append_nil] at happ
    rw [← happ, ← hrest]
    rfl
  | none =>
    have hid : isIdentifier w = false := by
      simp only [builtin?, Option.or_eq_none_iff] at hb
      rw [isIdentifier, hb.2.2]
      rfl
    cases hop : operator? tokens w.toList with
    | none => exact absurd (List.prefix_refl _) (operator?_eq_none hop hw hne hid)
    | some s =>
      -- no operator is longer than the word, and the word is one
      obtain ⟨-, happ, hmax⟩ := operator?_eq_some hop
      have hlen := hmax w hw hne hid (List.prefix_refl _)
      rw [← happ, List.length_append] at hlen
      have hrest : s.2 = [] := List.length_eq_zero_iff.1 (by omega)
      rw [hrest, List.append_nil] at happ
      rw [← happ, ← hrest]
      rfl

theorem isUnbroken_of_lexeme? (h : lexeme? tokens cs = some taken) (hkept : taken.dropped = false) :
    isUnbroken taken.text = true := by
  have happ : taken.text ++ taken.rest = cs := (isSplit_lexeme? h).2
  rw [lexeme?_eq] at h
  cases hblanks : blanks? cs with
  | some s =>
    rw [hblanks] at h
    cases h
    cases hkept
  | none =>
    rw [isUnbroken, blanks?, run?_eq_none_of_append (happ ▸ hblanks)]
    cases hb : builtin? cs with
    | some s =>
      rw [hblanks, hb] at h
      cases h
      rw [builtin?_self hb]
      rfl
    | none =>
      rw [builtin?_eq_none_of_append (happ ▸ hb)]
      rfl

end Lexer

namespace Grammar

/-! ## Literals of grammars -/

theorem run_literal_of_text {tokens : TokenList} {t : Token} {rest : List Entry} (h : tokens.entries = .token t :: rest)
    (scope : Scope) : ∃ s, (Atom.literal t.text).run scope (.start tokens.cursor) = .value (.string t.text) s ∧
      s.position = 1 := by
  have hcurrent : tokens.cursor.current = some (.token t) := by
    rw [Cursor.current, TokenList.cursor, h]
    rfl
  rw [Atom.run]
  simp only [Parser.eat, State.start, Cursor.eatLiteral, Cursor.eatToken, hcurrent, beq_self_eq_true, if_true,
    Option.map_some]
  exact ⟨_, rfl, rfl⟩

theorem run_literal_of_ne {L : String} {s : State} (h : ∀ t, .token t ∈ s.cursor.tokens.entries → t.text ≠ L)
    (scope : Scope) : (Atom.literal L).run scope s = .fail s := by
  have hnone : s.cursor.eatLiteral L = none := by
    unfold Cursor.eatLiteral Cursor.eatToken
    split
    · rename_i t ht
      exact if_neg (by simpa using h t (List.mem_of_getElem? ht))
    · rfl
  rw [Atom.run]
  simp only [Parser.eat, hnone, Option.map_none]

/-- **A literal comes up as a token exactly if no kind of token breaks it.** -/
theorem literal_scanned (g : Grammar) (hg : Built g) (L : String) (hL : L ∈ literalsIn g.layers) (hne : L ≠ "") :
    (Lexer.isUnbroken L.toList = true → ∃ tokens, g.scanner.scanText L = .ok tokens ∧
      tokens.entries = [.token ⟨L, ⟨0, 0, Text.byteLength L.toList⟩⟩] ∧
      ∀ scope, ∃ s, (Atom.literal L).run scope (.start tokens.cursor) = .value (.string L) s ∧ s.position = 1) ∧
    (Lexer.isUnbroken L.toList = false → ∀ program tokens, g.scanner.scan program = .ok tokens →
      (∀ t, .token t ∈ tokens.entries → t.text ≠ L) ∧
      ∀ scope s, s.cursor.tokens = tokens → (Atom.literal L).run scope s = .fail s) := by
  have hmem : L ∈ g.literals := hg.mem_literals_iff.2 hL
  constructor
  · intro hwhole
    have hlex := Lexer.lexeme?_of_isUnbroken hmem hne hwhole
    have hentries : (⟨[.token ⟨L, ⟨0, 0, Text.byteLength L.toList⟩⟩], g.scanner.lexicon⟩ : TokenList).entries =
        [.token ⟨L, ⟨0, 0, Text.byteLength L.toList⟩⟩] := rfl
    refine ⟨_, ?_, hentries, run_literal_of_text hentries⟩
    rw [Scanner.scanText, Scanner.scan_of_ofTokens hg.scanner_eq, Template.literal, Lexer.lexSegments,
      Lexer.lexFrom_of_some hlex, Lexer.lexFrom]
    simp [Except.map]
  · intro hbroken program tokens hscan
    have hnever : ∀ t, .token t ∈ tokens.entries → t.text ≠ L := by
      rintro t ht rfl
      rw [Scanner.scan_of_ofTokens hg.scanner_eq] at hscan
      cases hentries : Lexer.lexSegments g.literals 0 program.first program.rest with
      | error e =>
        rw [hentries] at hscan
        cases hscan
      | ok entries =>
        rw [hentries] at hscan
        cases hscan
        obtain ⟨w, -, rest, taken, -, hlex, hkept, htext⟩ := Lexer.foundIn_of_lexSegments hentries ht
        rw [htext, Lexer.isUnbroken_of_lexeme? hlex hkept] at hbroken
        cases hbroken
    exact ⟨hnever, fun scope s hs => run_literal_of_ne (hs ▸ hnever) scope⟩

set_option maxRecDepth 10000 in
/-- Two literals of the layer below: one is a token, and the other is broken by the identifier at its head. -/
theorem literal_scanned_inherited : ∃ parent g,
    compile (.literal "start ::= \"<=\" / \"a-b\";") [] = .ok parent ∧
    extend parent (.literal "start ::= \"<\" / super.start;") [] = .ok g ∧
    "<=" ∈ literalsIn g.layers ∧ "a-b" ∈ literalsIn g.layers ∧
    (∃ tokens, g.scanner.scanText "<=" = .ok tokens ∧ tokens.entries = [.token ⟨"<=", ⟨0, 0, 2⟩⟩]) ∧
    ∀ program tokens, g.scanner.scan program = .ok tokens → ∀ t, .token t ∈ tokens.entries → t.text ≠ "a-b" := by
  have hok : (do
      let parent ← compile (.literal "start ::= \"<=\" / \"a-b\";") []
      let g ← extend parent (.literal "start ::= \"<\" / super.start;") []
      return decide ("<=" ∈ literalsIn g.layers ∧ "a-b" ∈ literalsIn g.layers)) =
        (.ok true : Except DefinitionError Bool) := by decide +kernel
  obtain ⟨parent, hp, hok⟩ := Except.bind_eq_ok.1 hok
  obtain ⟨g, hg, hok⟩ := Except.bind_eq_ok.1 hok
  obtain ⟨hwhole, hbroken⟩ := of_decide_eq_true (Except.ok.inj hok)
  have hbuilt : Built g := .extended (.compiled hp) hg
  obtain ⟨tokens, hscan, hentries, -⟩ := (literal_scanned g hbuilt "<=" hwhole (by decide)).1 (by decide +kernel)
  exact ⟨parent, g, hp, hg, hwhole, hbroken, ⟨tokens, hscan, hentries⟩, fun program tokens hscan =>
    ((literal_scanned g hbuilt "a-b" hbroken (by decide)).2 (by decide +kernel) program tokens hscan).1⟩

set_option maxRecDepth 10000 in
/-- The scan of a literal with an identifier at its head gives three tokens. -/
theorem not_literal_scanned : ¬∀ g : Grammar, Built g → ∀ L ∈ literalsIn g.layers, L ≠ "" →
    ∃ tokens pos, g.scanner.scanText L = .ok tokens ∧ tokens.entries = [.token ⟨L, pos⟩] := by
  intro h
  have hok : (do
      let g ← compile (.literal "start ::= \"a-b\";") []
      return decide ("a-b" ∈ literalsIn g.layers ∧
        ((g.scanner.scanText "a-b").toOption.map TokenList.texts) = some ["a", "-", "b"])) =
        (.ok true : Except DefinitionError Bool) := by decide +kernel
  obtain ⟨g, hg, hok⟩ := Except.bind_eq_ok.1 hok
  obtain ⟨hmem, htexts⟩ := of_decide_eq_true (Except.ok.inj hok)
  obtain ⟨tokens, pos, hscan, hentries⟩ := h g (.compiled hg) "a-b" hmem (by decide)
  rw [hscan] at htexts
  have htexts := congrArg List.length (Option.some.inj htexts)
  rw [TokenList.texts, hentries] at htexts
  cases htexts

end Grammar

end Packrat
