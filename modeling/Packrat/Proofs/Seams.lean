import Packrat.Proofs.LexedSegments
import Packrat.Proofs.LiteralTokens
import Packrat.Proofs.Spacing
/-!
# Seams — texts that meet at a blank

Where the declared tokens hold neither blanks nor quotes (`Tight`), a blank is a wall: what the lexer finds before it
does not change with what stands behind it (`word?_append`).  A string alone may reach over a blank, and so could one
that is still open before it; but at a lexeme no string is open, since nothing but a string starts with a quote
(`isSome_string?_of_lexeme?`).  In the other direction a word that is cut out of its text is found again as a whole
(`word?_self`).
-/
namespace Packrat.Lexer

/-- **The declared tokens hold no blanks and no quotes.** -/
def Tight (tokens : List String) : Prop := ∀ w ∈ tokens, ∀ c ∈ w.toList, Text.isBlank c = false ∧ c ≠ '"'

instance (tokens : List String) : Decidable (Tight tokens) :=
  decidable_of_iff (tokens.all fun w => w.toList.all fun c => !Text.isBlank c && c != '"') <| by
    simp only [Tight, List.all_eq_true, Bool.and_eq_true, Bool.not_eq_true', bne_iff_ne]

variable {tokens : List String} {cs rest more text : List Char} {c : Char} {s : Split} {p : Char → Bool}

/-! ## Blanks are in no token but strings -/

theorem isBlank_of_isIdentChar (h : isIdentChar c = true) : Text.isBlank c = false := by
  have hall : ∀ n < 128, isIdentChar (Char.ofNat n) = true → Text.isBlank (Char.ofNat n) = false := by decide
  have hc := hall c.toNat (Pattern.toNat_lt_of_isIdentChar h)
  rw [Char.ofNat_toNat] at hc
  exact hc h

theorem isIdentChar_of_isBlank (h : Text.isBlank c = true) : isIdentChar c = false := by
  by_contra hc
  rw [Bool.not_eq_false] at hc
  rw [isBlank_of_isIdentChar hc] at h
  cases h

theorem isIdentStart_of_isBlank (h : Text.isBlank c = true) : isIdentStart c = false :=
  (Bool.or_eq_false_iff.1 (isIdentChar_of_isBlank h)).1

theorem isDigit_of_isBlank (h : Text.isBlank c = true) : c.isDigit = false :=
  (Bool.or_eq_false_iff.1 (isIdentChar_of_isBlank h)).2

theorem ne_of_isBlank (h : Text.isBlank c = true) {d : Char} (hd : Text.isBlank d = false) : c ≠ d := by
  rintro rfl
  rw [h] at hd
  cases hd

theorem contains_of_isBlank (h : Text.isBlank c = true) {ds : List Char} (hds : ds.any Text.isBlank = false) :
    ds.contains c = false := by
  rw [List.contains_eq_mem, decide_eq_false_iff_not]
  exact fun hc => List.any_eq_false.1 hds c hc h

theorem isSymbol_of_isBlank (h : Text.isBlank c = true) : isSymbol c = false := contains_of_isBlank h (by decide)

/-! ## Kinds of token that do not see what is behind a blank -/

def extend (more : List Char) (s : Split) : Split := (s.1, s.2 ++ more)

/-- **The kind of token does not see the text behind**: it finds what it finds without it. -/
def Blind (f : List Char → Option Split) (more : List Char) : Prop := ∀ cs, f (cs ++ more) = (f cs).map (extend more)

theorem takeWhile_append_stop (h : p c = false) (cs more : List Char) :
    (cs ++ c :: more).takeWhile p = cs.takeWhile p ∧ (cs ++ c :: more).dropWhile p = cs.dropWhile p ++ c :: more := by
  induction cs with
  | nil => simp [h]
  | cons d cs ih =>
    by_cases hd : p d = true
    · simp [hd, ih]
    · simp [hd]

theorem blind_run? (h : p c = false) : Blind (run? p) (c :: more) := fun cs => by
  obtain ⟨htake, hdrop⟩ := takeWhile_append_stop h cs more
  unfold run?
  rw [htake, hdrop]
  split <;> rfl

theorem blind_digits? (h : Text.isBlank c = true) : Blind digits? (c :: more) := blind_run? (isDigit_of_isBlank h)

theorem fraction?_of_ne (h : c ≠ '.') : fraction? (c :: cs) = none :=
  fraction?.eq_2 _ fun _ he => h (List.cons.inj he).1

theorem blind_fraction? (h : Text.isBlank c = true) : Blind fraction? (c :: more) := fun cs => by
  cases cs with
  | nil => exact fraction?_of_ne (ne_of_isBlank h (by decide))
  | cons d cs =>
    by_cases hd : d = '.'
    · subst hd
      rw [List.cons_append, fraction?, fraction?, blind_digits? h cs, Option.map_map, Option.map_map]
      rfl
    · rw [List.cons_append, fraction?_of_ne hd, fraction?_of_ne hd]
      rfl

theorem signed?_of_ne (h : c ≠ '-') : signed? (c :: cs) = digits? (c :: cs) :=
  signed?.eq_2 _ fun _ he => h (List.cons.inj he).1

theorem blind_signed? (h : Text.isBlank c = true) : Blind signed? (c :: more) := fun cs => by
  cases cs with
  | nil =>
    rw [List.nil_append, signed?_of_ne (ne_of_isBlank h (by decide))]
    exact blind_digits? h []
  | cons d cs =>
    by_cases hd : d = '-'
    · subst hd
      rw [List.cons_append, signed?, signed?, blind_digits? h cs, Option.map_map, Option.map_map]
      rfl
    · rw [List.cons_append, signed?_of_ne hd, signed?_of_ne hd]
      exact blind_digits? h (d :: cs)

theorem blind_exponent? (h : Text.isBlank c = true) : Blind exponent? (c :: more) := fun cs => by
  cases cs with
  | nil =>
    have he : ¬(c = 'e' ∨ c = 'E') :=
      not_or.2 ⟨ne_of_isBlank h (by decide), ne_of_isBlank h (by decide)⟩
    rw [List.nil_append, exponent?, if_neg he]
    rfl
  | cons d cs =>
    by_cases hd : d = 'e' ∨ d = 'E'
    · rw [List.cons_append, exponent?, exponent?, if_pos hd, if_pos hd, blind_signed? h cs, Option.map_map,
        Option.map_map]
      rfl
    · rw [List.cons_append, exponent?, exponent?, if_neg hd, if_neg hd]
      rfl

theorem orNothing_of_blind {f : List Char → Option Split} (h : Blind f more) (cs : List Char) :
    orNothing f (cs ++ more) = extend more (orNothing f cs) := by
  unfold orNothing
  rw [h cs]
  cases f cs <;> rfl

theorem blind_number? (h : Text.isBlank c = true) : Blind number? (c :: more) := fun cs => by
  unfold number?
  rw [blind_digits? h cs, Option.map_map, Option.map_map]
  apply Option.map_congr
  intro whole _
  dsimp only [Function.comp_apply, extend]
  rw [orNothing_of_blind (blind_fraction? h)]
  dsimp only [extend]
  rw [orNothing_of_blind (blind_exponent? h)]
  rfl

theorem blind_ident? (h : Text.isBlank c = true) : Blind ident? (c :: more) := fun cs => by
  cases cs with
  | nil =>
    rw [List.nil_append, ident?, if_neg (by rw [isIdentStart_of_isBlank h]; exact Bool.false_ne_true)]
    rfl
  | cons d cs =>
    obtain ⟨htake, hdrop⟩ := takeWhile_append_stop (isIdentChar_of_isBlank h) cs more
    rw [List.cons_append, ident?, ident?, htake, hdrop]
    split <;> rfl

theorem blind_punctuation? (h : Text.isBlank c = true) : Blind punctuation? (c :: more) := fun cs => by
  cases cs with
  | nil =>
    rw [List.nil_append, punctuation?, contains_of_isBlank h (by decide)]
    rfl
  | cons d cs =>
    rw [List.cons_append, punctuation?, punctuation?]
    split <;> rfl

theorem blind_symbols? (h : Text.isBlank c = true) : Blind symbols? (c :: more) := blind_run? (isSymbol_of_isBlank h)

theorem prefix_append_stop_iff {w : List Char} (h : c ∉ w) : w <+: cs ++ c :: more ↔ w <+: cs := by
  constructor
  · intro hw
    by_cases hlen : w.length ≤ cs.length
    · exact List.prefix_of_prefix_length_le hw (List.prefix_append _ _) hlen
    · have hstop : cs ++ [c] <+: cs ++ c :: more := ⟨more, by rw [List.append_assoc, List.singleton_append]⟩
      have hc : cs ++ [c] <+: w := by
        apply List.prefix_of_prefix_length_le hstop hw
        rw [List.length_append, List.length_singleton]
        omega
      exact absurd (hc.subset (List.mem_append_right _ List.mem_cons_self)) h
  · exact fun hw => hw.trans (List.prefix_append _ _)

theorem blind_operator? (ht : Tight tokens) (h : Text.isBlank c = true) : Blind (operator? tokens) (c :: more) :=
  fun cs => by
    unfold operator?
    dsimp only
    -- no operator holds the blank, so that the same ones fit
    have hfit : (((tokens.filter fun w => !w.isEmpty && !isIdentifier w).map String.toList).filter
        (·.isPrefixOf (cs ++ c :: more))) = (((tokens.filter fun w => !w.isEmpty && !isIdentifier w).map
          String.toList).filter (·.isPrefixOf cs)) := by
      apply List.filter_congr
      intro w hw
      obtain ⟨v, hv, rfl⟩ := List.mem_map.1 hw
      have hc : c ∉ v.toList := fun hc => by
        rw [(ht v (List.mem_filter.1 hv).1 c hc).1] at h
        cases h
      rw [Bool.eq_iff_iff, List.isPrefixOf_iff_prefix, List.isPrefixOf_iff_prefix, prefix_append_stop_iff hc]
    rw [hfit, Option.map_map]
    apply Option.map_congr
    intro w hw
    have hprefix : w <+: cs := by
      have hmem := (longest?_eq_some (Option.mem_def.1 hw)).1
      exact List.isPrefixOf_iff_prefix.1 (List.mem_filter.1 hmem).2
    rw [List.drop_append_of_le_length hprefix.length_le]
    rfl

/-! ## Words -/

def word? (tokens : List String) (cs : List Char) : Option Split :=
  (builtin? cs).or ((operator? tokens cs).or ((punctuation? cs).or (symbols? cs)))

theorem lexeme?_eq_word? (tokens : List String) (cs : List Char) :
    lexeme? tokens cs = (dropped (blanks? cs)).or ((kept (word? tokens cs)).or (dropped (comment? cs))) := by
  rw [lexeme?_eq, word?]
  cases builtin? cs <;> cases operator? tokens cs <;> cases punctuation? cs <;> cases symbols? cs <;> rfl

theorem lexeme?_eq_kept_iff : lexeme? tokens cs = some ⟨text, false, rest⟩ ↔
    blanks? cs = none ∧ word? tokens cs = some (text, rest) := by
  rw [lexeme?_eq_word?]
  cases blanks? cs with
  | some s => simp [dropped]
  | none =>
    cases word? tokens cs with
    | some s => simp [dropped, kept, Prod.ext_iff]
    | none => cases comment? cs <;> simp [dropped, kept]

theorem lexeme?_eq_dropped_iff : lexeme? tokens cs = some ⟨text, true, rest⟩ ↔ blanks? cs = some (text, rest) ∨
    blanks? cs = none ∧ word? tokens cs = none ∧ comment? cs = some (text, rest) := by
  rw [lexeme?_eq_word?]
  cases blanks? cs with
  | some s => simp [dropped, Prod.ext_iff]
  | none =>
    cases word? tokens cs with
    | some s => simp [dropped, kept]
    | none => cases comment? cs <;> simp [dropped, kept, Prod.ext_iff]

/-! ## Strings -/

theorem string?_of_ne (h : c ≠ '"') : string? (c :: cs) = none := string?.eq_2 _ fun _ he => h (List.cons.inj he).1

theorem string?_append_blank (h : Text.isBlank c = true) (hq : cs.head? = some '"' → (string? cs).isSome = true) :
    string? (cs ++ c :: more) = (string? cs).map (extend (c :: more)) := by
  cases hs : string? cs with
  | some s =>
    have happ := (isSplit_string? hs).2
    rw [← happ, List.append_assoc]
    exact string?_append hs (s.2 ++ c :: more)
  | none =>
    cases cs with
    | nil => exact string?_of_ne (ne_of_isBlank h (by decide))
    | cons d cs =>
      apply string?_of_ne
      rintro rfl
      rw [hs] at hq
      cases hq rfl

/-- **At a lexeme no string is open.** -/
theorem isSome_string?_of_lexeme? (ht : Tight tokens) {taken : Scanner.Taken} (h : lexeme? tokens cs = some taken)
    (hq : cs.head? = some '"') : (string? cs).isSome = true := by
  obtain ⟨cs, rfl⟩ := List.head?_eq_some_iff.1 hq
  by_contra hs
  rw [Bool.not_eq_true, Option.isSome_eq_false_iff, Option.isNone_iff_eq_none] at hs
  have hop : operator? tokens ('"' :: cs) = none := by
    cases hop : operator? tokens ('"' :: cs) with
    | none => rfl
    | some s =>
      obtain ⟨⟨w, hw, hs', -, -⟩, -, -⟩ := operator?_eq_some hop
      obtain ⟨hne, happ⟩ := isSplit_operator? hop
      -- the operator would start with the quote
      obtain ⟨d, ds, hd⟩ := List.exists_cons_of_ne_nil hne
      rw [hd] at happ
      have hquote : '"' ∈ w.toList := by
        rw [← hs', hd, (List.cons.inj happ).1]
        exact List.mem_cons_self
      exact absurd rfl (ht w hw '"' hquote).2
  have hnone : lexeme? tokens ('"' :: cs) = none := by
    rw [lexeme?_eq_word?, word?, builtin?, hs, hop]
    rfl
  rw [hnone] at h
  cases h

/-! ## Words before a blank -/

/-- **A word does not change with what stands behind a blank.** -/
theorem word?_append (ht : Tight tokens) (h : Text.isBlank c = true)
    (hq : cs.head? = some '"' → (string? cs).isSome = true) :
    word? tokens (cs ++ c :: more) = (word? tokens cs).map (extend (c :: more)) := by
  unfold word? builtin?
  rw [blind_number? h cs, string?_append_blank h hq, blind_ident? h cs, blind_operator? ht h cs,
    blind_punctuation? h cs, blind_symbols? h cs]
  simp only [Option.map_or]

theorem lexeme?_append_blank (ht : Tight tokens) (hc : Text.isBlank c = true)
    (h : lexeme? tokens cs = some ⟨text, false, rest⟩) :
    lexeme? tokens (cs ++ c :: more) = some ⟨text, false, rest ++ c :: more⟩ := by
  obtain ⟨hblanks, hword⟩ := lexeme?_eq_kept_iff.1 h
  apply lexeme?_eq_kept_iff.2
  constructor
  · obtain ⟨d, ds, rfl⟩ := List.exists_cons_of_ne_nil (ne_nil_of_lexeme? h)
    exact run?_cons_eq_none_iff.2 (run?_cons_eq_none_iff.1 hblanks)
  · rw [word?_append ht hc (isSome_string?_of_lexeme? ht h), hword]
    rfl

/-! ## Words cut out of a text -/

theorem operator?_self (h : operator? tokens cs = some s) : operator? tokens s.1 = some (s.1, []) := by
  obtain ⟨⟨w, hw, hs, hne, hid⟩, happ, hmax⟩ := operator?_eq_some h
  cases hop : operator? tokens s.1 with
  | none => exact absurd (hs ▸ List.prefix_refl _) (operator?_eq_none hop hw hne hid)
  | some s' =>
    -- the longest operator in the word is at least as long as the word
    obtain ⟨-, happ', hmax'⟩ := operator?_eq_some hop
    have hlen := hmax' w hw hne hid (hs ▸ List.prefix_refl _)
    rw [← hs, ← happ', List.length_append] at hlen
    have hrest : s'.2 = [] := List.length_eq_zero_iff.1 (by omega)
    rw [hrest, List.append_nil] at happ'
    exact congrArg some (Prod.ext happ' hrest)

theorem operator?_eq_none_of_append {w : List Char} (h : operator? tokens (w ++ rest) = none) :
    operator? tokens w = none := by
  cases hop : operator? tokens w with
  | none => rfl
  | some s =>
    obtain ⟨⟨v, hv, hs, hne, hid⟩, happ, -⟩ := operator?_eq_some hop
    have hprefix : v.toList <+: w ++ rest := ⟨s.2 ++ rest, by rw [← List.append_assoc, ← hs, happ]⟩
    exact absurd hprefix (operator?_eq_none h hv hne hid)

theorem punctuation?_eq_none_of_append {w : List Char} (h : punctuation? (w ++ rest) = none) :
    punctuation? w = none := by
  cases w with
  | nil => rfl
  | cons c w =>
    rw [List.cons_append, punctuation?] at h
    rw [punctuation?]
    split at h
    · cases h
    · rename_i hc
      exact if_neg hc

theorem punctuation?_self (h : punctuation? cs = some s) : punctuation? s.1 = some (s.1, []) := by
  unfold punctuation? at h
  split at h
  · split at h
    · rename_i hc
      cases h
      rw [punctuation?, if_pos hc]
    · cases h
  · cases h

theorem word?_self (h : word? tokens cs = some s) : word? tokens s.1 = some (s.1, []) := by
  unfold word? at h ⊢
  rcases Option.or_eq_some_iff.1 h with h | ⟨hbuiltin, h⟩
  · rw [builtin?_self h]
    rfl
  rcases Option.or_eq_some_iff.1 h with h | ⟨hop, h⟩
  · rw [← (isSplit_operator? h).2] at hbuiltin
    rw [builtin?_eq_none_of_append hbuiltin, operator?_self h]
    rfl
  rcases Option.or_eq_some_iff.1 h with h | ⟨hpunct, h⟩
  · rw [← (isSplit_punctuation? h).2] at hbuiltin hop
    rw [builtin?_eq_none_of_append hbuiltin, operator?_eq_none_of_append hop, punctuation?_self h]
    rfl
  · rw [← (isSplit_run? h).2] at hbuiltin hop hpunct
    have hself := run?_append h [] nofun
    rw [List.append_nil] at hself
    rw [builtin?_eq_none_of_append hbuiltin, operator?_eq_none_of_append hop, punctuation?_eq_none_of_append hpunct]
    exact hself

/-- **A lexeme that is kept is a lexeme when it stands alone.** -/
theorem lexeme?_self (h : lexeme? tokens cs = some ⟨text, false, rest⟩) :
    lexeme? tokens text = some ⟨text, false, []⟩ := by
  have happ : text ++ rest = cs := (isSplit_lexeme? h).2
  obtain ⟨hblanks, hword⟩ := lexeme?_eq_kept_iff.1 h
  rw [← happ] at hblanks
  exact lexeme?_eq_kept_iff.2 ⟨run?_eq_none_of_append hblanks, word?_self hword⟩

theorem lexes_of_lexeme? (ht : Tight tokens) {w : String} (h : lexeme? tokens cs = some ⟨w.toList, false, rest⟩) :
    Lexes tokens w := by
  rintro cs (rfl | ⟨more, rfl⟩)
  · rw [List.append_nil]
    exact lexeme?_self h
  · exact lexeme?_append_blank ht (by decide) (lexeme?_self h)

theorem lexes_of_lexSegments (ht : Tight tokens) {segments : List String} {first : String} {index : Nat}
    {es : List Entry} (h : lexSegments tokens index first segments = .ok es) {a : Token} (ha : .token a ∈ es) :
    Lexes tokens a.text := by
  obtain ⟨i, segment, -, before, rest, tail, -, hlex, -⟩ := placedIn_of_lexSegments h ha
  exact lexes_of_lexeme? ht hlex

end Packrat.Lexer
