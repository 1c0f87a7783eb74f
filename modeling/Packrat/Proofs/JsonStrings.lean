import Packrat.Json.Quoted
import Packrat.Proofs.Lexer
/-!
# JsonStrings — a text as a JSON string

A text written as a JSON string is read back whole (`decode_encode`), and is one string of the lexer, whatever comes
behind it (`string?_encode`).
-/
namespace Packrat.Json

/-! ## Characters -/

theorem hexUnit?_hexDigit : ∀ n < 32, hexUnit? '0' '0' (hexDigit (n / 16)) (hexDigit (n % 16)) = some n := by
  decide

theorem isHexDigit_hexDigit : ∀ n < 16, Lexer.isHexDigit (hexDigit n) = true := by decide

/-- **How a character is written**: as a short escape, by the number of a control character, or as itself. -/
theorem encodeChar_cases (c : Char) :
    (∃ e, encodeChar c = ['\\', e] ∧ e ≠ 'u' ∧ shortEscape? e = some c ∧ Lexer.escapable.contains e = true) ∨
    (c.toNat < 32 ∧ encodeChar c = ['\\', 'u', '0', '0', hexDigit (c.toNat / 16), hexDigit (c.toNat % 16)]) ∨
    (32 ≤ c.toNat ∧ c ≠ '"' ∧ c ≠ '\\' ∧ encodeChar c = [c]) := by
  by_cases hshort : c ∈ ['"', '\\', '\x08', '\x0c', '\n', '\r', '\t']
  · simp only [List.mem_cons, List.not_mem_nil, or_false] at hshort
    left
    rcases hshort with rfl | rfl | rfl | rfl | rfl | rfl | rfl
    · exact ⟨'"', by decide⟩
    · exact ⟨'\\', by decide⟩
    · exact ⟨'b', by decide⟩
    · exact ⟨'f', by decide⟩
    · exact ⟨'n', by decide⟩
    · exact ⟨'r', by decide⟩
    · exact ⟨'t', by decide⟩
  · simp only [List.mem_cons, List.not_mem_nil, or_false, not_or] at hshort
    obtain ⟨h₁, h₂, h₃, h₄, h₅, h₆, h₇⟩ := hshort
    right
    unfold encodeChar
    rw [if_neg h₁, if_neg h₂, if_neg h₃, if_neg h₄, if_neg h₅, if_neg h₆, if_neg h₇]
    by_cases hc : c.toNat < 0x20
    · exact Or.inl ⟨hc, if_pos hc⟩
    · exact Or.inr ⟨Nat.le_of_not_lt hc, h₁, h₂, if_neg hc⟩

theorem decodeChar_plain {c : Char} (h : 32 ≤ c.toNat) (hc : c ≠ '\\') (rest : List Char) :
    decodeChar (c :: rest) = .ok (c, rest) := by
  rw [decodeChar.eq_3 _ _ (fun _ _ _ _ _ he => absurd he hc) (fun _ _ he => absurd he hc),
    if_neg (Nat.not_lt.2 h), if_neg hc]

theorem decodeChar_encodeChar (c : Char) (rest : List Char) : decodeChar (encodeChar c ++ rest) = .ok (c, rest) := by
  rcases encodeChar_cases c with ⟨e, he, hu, hshort, -⟩ | ⟨hc, he⟩ | ⟨hc, -, hne, he⟩
  · rw [he, List.cons_append, List.cons_append, List.nil_append,
      decodeChar.eq_2 _ _ (fun _ _ _ _ _ h => absurd h hu), hshort]
  · rw [he]
    simp only [List.cons_append, List.nil_append, decodeChar, hexUnit?_hexDigit _ hc]
    have htrail : isTrailingSurrogate c.toNat = false := by
      simp [isTrailingSurrogate]
      omega
    have hlead : isLeadingSurrogate c.toNat = false := by
      simp [isLeadingSurrogate]
      omega
    rw [htrail, hlead, if_neg Bool.false_ne_true, if_neg Bool.false_ne_true, Char.ofNat_toNat]
  · rw [he]
    exact decodeChar_plain hc hne rest

theorem head_encodeChar (c : Char) : ∃ d ds, encodeChar c = d :: ds ∧ d ≠ '"' := by
  rcases encodeChar_cases c with ⟨e, he, -⟩ | ⟨-, he⟩ | ⟨-, hq, -, he⟩
  · exact ⟨_, _, he, by decide⟩
  · exact ⟨_, _, he, by decide⟩
  · exact ⟨_, _, he, hq⟩

/-! ## Texts -/

theorem length_le_length_flatMap_encodeChar : ∀ cs : List Char, cs.length ≤ (cs.flatMap encodeChar).length
  | [] => Nat.le_refl _
  | c :: cs => by
    obtain ⟨d, ds, he, -⟩ := head_encodeChar c
    have ih := length_le_length_flatMap_encodeChar cs
    rw [List.flatMap_cons, he, List.cons_append, List.length_cons, List.length_cons, List.length_append]
    omega

theorem decodeChars_encode (rest : List Char) : ∀ (cs : List Char) (fuel : Nat), cs.length ≤ fuel →
    decodeChars fuel (cs.flatMap encodeChar ++ '"' :: rest) = .ok (cs, rest)
  | [], fuel, _ => by cases fuel <;> rfl
  | c :: cs, fuel + 1, h => by
    obtain ⟨d, ds, he, hd⟩ := head_encodeChar c
    have hread := decodeChar_encodeChar c (cs.flatMap encodeChar ++ '"' :: rest)
    rw [List.flatMap_cons, List.append_assoc]
    rw [he] at hread ⊢
    rw [List.cons_append] at hread ⊢
    rw [decodeChars.eq_3 _ _ (fun _ h => hd (List.cons.inj h).1), hread]
    change (decodeChars fuel (cs.flatMap encodeChar ++ '"' :: rest) >>= _) = _
    rw [decodeChars_encode rest cs fuel (Nat.le_of_succ_le_succ h)]
    rfl

theorem encode_append (cs rest : List Char) :
    encode cs ++ rest = '"' :: (cs.flatMap encodeChar ++ '"' :: rest) := by
  rw [encode, List.cons_append, List.cons_append, List.append_assoc]
  rfl

theorem decodePrefix_encode_append (cs rest : List Char) : decodePrefix (encode cs ++ rest) = .ok (cs, rest) := by
  have hlen := length_le_length_flatMap_encodeChar cs
  rw [encode_append]
  refine decodeChars_encode rest cs _ ?_
  rw [List.length_append]
  omega

theorem decodePrefix_encode (cs : List Char) : decodePrefix (encode cs) = .ok (cs, []) := by
  have h := decodePrefix_encode_append cs []
  rwa [List.append_nil] at h

/-- **A text is read as it was written.** -/
theorem decode_encode (cs : List Char) : decode (encode cs) = .ok cs := by
  rw [decode, decodePrefix_encode]
  rfl

/-! ## Strings of the lexer -/

open Lexer

theorem stringTail?_encodeChar (c : Char) (more : List Char) :
    stringTail? (encodeChar c ++ more) = (stringTail? more).map (prepend (encodeChar c)) := by
  rcases encodeChar_cases c with ⟨e, he, hu, -, hesc⟩ | ⟨hc, he⟩ | ⟨-, hq, hb, he⟩
  · rw [he, List.cons_append, List.cons_append, List.nil_append,
      stringTail?.eq_4 _ _ (fun _ _ _ _ _ h => absurd h hu), if_pos hesc]
  · have hdigits : ['0', '0', hexDigit (c.toNat / 16), hexDigit (c.toNat % 16)].all isHexDigit = true := by
      simp only [List.all_cons, List.all_nil, isHexDigit_hexDigit _ (show c.toNat / 16 < 16 by omega),
        isHexDigit_hexDigit _ (show c.toNat % 16 < 16 by omega)]
      decide
    rw [he]
    simp only [List.cons_append, List.nil_append, stringTail?]
    rw [if_pos hdigits]
  · rw [he, List.singleton_append,
      stringTail?.eq_5 _ _ hq (fun _ _ _ _ _ h => absurd h hb) (fun _ _ h => absurd h hb), if_neg hb]

theorem stringTail?_encode (rest : List Char) : ∀ cs : List Char,
    stringTail? (cs.flatMap encodeChar ++ '"' :: rest) = some (cs.flatMap encodeChar ++ ['"'], rest)
  | [] => rfl
  | c :: cs => by
    rw [List.flatMap_cons, List.append_assoc, stringTail?_encodeChar, stringTail?_encode rest cs, Option.map_some,
      prepend, List.append_assoc]

/-- **A text as a JSON string is one string**, whatever comes behind it. -/
theorem string?_encode (cs rest : List Char) : string? (encode cs ++ rest) = some (encode cs, rest) := by
  rw [encode_append, string?, stringTail?_encode]
  rfl

theorem isString_encode (cs : List Char) : isString (String.ofList (encode cs)) = true := by
  have h := string?_encode cs []
  rw [List.append_nil] at h
  rw [isString, String.toList_ofList, h]
  rfl

end Packrat.Json
