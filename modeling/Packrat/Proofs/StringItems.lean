import Packrat.Proofs.ActionHoles
import Packrat.Proofs.JsonStrings
/-!
# StringItems — what the scanner and the reader of JSON take for a string

Between its quotes a string is a list of items: characters that stand for themselves, and escapes.  The scanner takes
every list of items (`isString_iff`).  The reader of JSON takes those without bare control characters whose surrogates
come in pairs (`decodePrefix_quoted`, `exists_readable`).
-/
namespace Packrat.Json

/-- **What stands between the quotes of a string**: a character that stands for itself, an escape by a letter, or one by
the four digits of a number. -/
inductive Item where
  | plain (c : Char) (isPlain : c ≠ '"' ∧ c ≠ '\\')
  | short (e : Char) (isEscapable : Lexer.escapable.contains e = true)
  | unit (a b c d : Char) (isHex : [a, b, c, d].all Lexer.isHexDigit = true)

namespace Item

def text : Item → List Char
  | plain c _ => [c]
  | short e _ => ['\\', e]
  | unit a b c d _ => ['\\', 'u', a, b, c, d]

def unit? : Item → Option Nat
  | unit a b c d _ => hexUnit? a b c d
  | _ => none

def IsControl (x : Item) : Prop := ∃ c h, x = plain c h ∧ c.toNat < 0x20

def IsLeading (x : Item) : Prop := ∃ n ∈ x.unit?, isLeadingSurrogate n = true

def IsTrailing (x : Item) : Prop := ∃ n ∈ x.unit?, isTrailingSurrogate n = true

structure StandsAlone (x : Item) : Prop where
  not_isControl : ¬x.IsControl
  not_isLeading : ¬x.IsLeading
  not_isTrailing : ¬x.IsTrailing

end Item

def quoted (xs : List Item) : List Char := '"' :: (xs.flatMap Item.text ++ ['"'])

/-- **The items that JSON reads**: each stands for a character of its own, or is a leading surrogate with a trailing one
behind it. -/
inductive Readable : List Item → Prop
  | nil : Readable []
  | cons {x : Item} {xs : List Item} : x.StandsAlone → Readable xs → Readable (x :: xs)
  | pair {x y : Item} {xs : List Item} : x.IsLeading → y.IsTrailing → Readable xs → Readable (x :: y :: xs)

/-! ## The items of a text -/

theorem Item.head (x : Item) : ∃ c cs, x.text = c :: cs ∧ c ≠ '"' := by
  cases x with
  | plain c h => exact ⟨c, [], rfl, h.1⟩
  | short e _ => exact ⟨'\\', [e], rfl, by decide⟩
  | unit a b c d _ => exact ⟨'\\', ['u', a, b, c, d], rfl, by decide⟩

/-! ## The scanner -/

section Scanner

open Lexer

theorem stringTail?_item (x : Item) (more : List Char) :
    stringTail? (x.text ++ more) = (stringTail? more).map (prepend x.text) := by
  cases x with
  | plain c h =>
    exact (stringTail?.eq_5 _ _ h.1 (fun _ _ _ _ _ he => absurd he h.2) (fun _ _ he => absurd he h.2)).trans
      (if_neg h.2)
  | short e h =>
    have hu : e ≠ 'u' := by
      rintro rfl
      cases h
    exact (stringTail?.eq_4 _ _ fun _ _ _ _ _ he => absurd he hu).trans (if_pos h)
  | unit a b c d h => exact (stringTail?.eq_3 a b c d more).trans (if_pos h)

theorem stringTail?_items (xs : List Item) : stringTail? (xs.flatMap Item.text ++ ['"']) =
    some (xs.flatMap Item.text ++ ['"'], []) := by
  induction xs with
  | nil => rfl
  | cons x xs ih =>
    rw [List.flatMap_cons, List.append_assoc, stringTail?_item, ih]
    rfl

theorem exists_items {cs : List Char} : ∀ {s : Split}, stringTail? cs = some s →
    ∃ xs : List Item, s.1 = xs.flatMap Item.text ++ ['"'] := by
  have hcons : ∀ (x : Item) {t : Option Split} {s : Split},
      (∀ {q : Split}, t = some q → ∃ xs : List Item, q.1 = xs.flatMap Item.text ++ ['"']) →
      t.map (prepend x.text) = some s → ∃ xs : List Item, s.1 = xs.flatMap Item.text ++ ['"'] := by
    intro x t s ih h
    obtain ⟨q, hq, rfl⟩ := Option.map_eq_some_iff.1 h
    obtain ⟨xs, hxs⟩ := ih hq
    refine ⟨x :: xs, ?_⟩
    rw [prepend, hxs, List.flatMap_cons, List.append_assoc]
  fun_induction stringTail? cs with
  | case1 | case4 | case6 | case7 =>
    intro s h
    cases h
  | case2 =>
    intro s h
    cases h
    exact ⟨[], rfl⟩
  | case3 a b c d _ hhex ih => exact fun h => hcons (.unit a b c d hhex) ih h
  | case5 c _ _ hc ih => exact fun h => hcons (.short c hc) ih h
  | case8 c _ hquote _ _ hc ih => exact fun h => hcons (.plain c ⟨hquote, hc⟩) ih h

/-- **The strings of the scanner are the lists of items** with quotes around them. -/
theorem isString_iff (w : String) : isString w = true ↔ ∃ xs, w.toList = quoted xs := by
  constructor
  · intro h
    obtain ⟨s, hs, hrest⟩ := (Option.any_eq_true _ _).1 h
    have happ := (isSplit_string? hs).2
    rw [List.isEmpty_iff.1 hrest, List.append_nil] at happ
    rw [← happ]
    unfold string? at hs
    split at hs
    · obtain ⟨q, hq, rfl⟩ := Option.map_eq_some_iff.1 hs
      obtain ⟨xs, hxs⟩ := exists_items hq
      exact ⟨xs, congrArg ('"' :: ·) hxs⟩
    · cases hs
  · rintro ⟨xs, hw⟩
    have hstring : string? w.toList = some (quoted xs, []) := by
      rw [hw]
      change (stringTail? (xs.flatMap Item.text ++ ['"'])).map _ = _
      rw [stringTail?_items]
      rfl
    rw [isString, hstring]
    rfl

end Scanner

/-! ## The reader -/

section Reader

variable {a b c d e : Char} {n : Nat} {x y : Item} {xs : List Item} {cs rest : List Char}

theorem isSome_hexValue? (c : Char) : (hexValue? c).isSome = Lexer.isHexDigit c := by
  have hdigit : c.isDigit = (decide ('0' ≤ c) && decide (c ≤ '9')) := rfl
  rw [hexValue?, Lexer.isHexDigit, hdigit, ← Bool.decide_and, ← Bool.decide_and, ← Bool.decide_and]
  by_cases h₁ : '0' ≤ c ∧ c ≤ '9'
  · rw [if_pos h₁, decide_eq_true h₁]
    rfl
  · rw [if_neg h₁, decide_eq_false h₁, Bool.false_or]
    by_cases h₂ : 'a' ≤ c ∧ c ≤ 'f'
    · rw [if_pos h₂, decide_eq_true h₂]
      rfl
    · rw [if_neg h₂, decide_eq_false h₂, Bool.false_or]
      by_cases h₃ : 'A' ≤ c ∧ c ≤ 'F'
      · rw [if_pos h₃, decide_eq_true h₃]
        rfl
      · rw [if_neg h₃, decide_eq_false h₃]
        rfl

theorem isSome_hexUnit? (a b c d : Char) : (hexUnit? a b c d).isSome = [a, b, c, d].all Lexer.isHexDigit := by
  simp only [← isSome_hexValue?, List.all_cons, List.all_nil, hexUnit?]
  cases hexValue? a <;> cases hexValue? b <;> cases hexValue? c <;> cases hexValue? d <;> rfl

theorem isSome_shortEscape? (e : Char) : (shortEscape? e).isSome = Lexer.escapable.contains e := by
  fun_cases shortEscape? e with
  | case9 => simp_all [Lexer.escapable]
  | _ => rfl

theorem standsAlone_plain {h : c ≠ '"' ∧ c ≠ '\\'} (hc : 0x20 ≤ c.toNat) : (Item.plain c h).StandsAlone where
  not_isControl := by
    rintro ⟨_, _, he, hcontrol⟩
    cases he
    exact Nat.not_lt.2 hc hcontrol
  not_isLeading := fun ⟨_, hn, _⟩ => nomatch hn
  not_isTrailing := fun ⟨_, hn, _⟩ => nomatch hn

theorem standsAlone_short {h : Lexer.escapable.contains e = true} : (Item.short e h).StandsAlone where
  not_isControl := fun ⟨_, _, he, _⟩ => nomatch he
  not_isLeading := fun ⟨_, hn, _⟩ => nomatch hn
  not_isTrailing := fun ⟨_, hn, _⟩ => nomatch hn

theorem standsAlone_unit {h : [a, b, c, d].all Lexer.isHexDigit = true} (hn : hexUnit? a b c d = some n)
    (hlead : ¬isLeadingSurrogate n = true) (htrail : ¬isTrailingSurrogate n = true) :
    (Item.unit a b c d h).StandsAlone where
  not_isControl := fun ⟨_, _, he, _⟩ => nomatch he
  not_isLeading := fun ⟨_, hm, hl⟩ => hlead (Option.some.inj (hm.symm.trans hn) ▸ hl)
  not_isTrailing := fun ⟨_, hm, ht⟩ => htrail (Option.some.inj (hm.symm.trans hn) ▸ ht)

theorem decodeChar_item (h : x.StandsAlone) (rest : List Char) : ∃ c, decodeChar (x.text ++ rest) = .ok (c, rest) := by
  cases x with
  | plain c hplain =>
    exact ⟨c, decodeChar_plain (Nat.le_of_not_lt fun hc => h.not_isControl ⟨c, hplain, rfl, hc⟩) hplain.2 rest⟩
  | short e hesc =>
    obtain ⟨c, hc⟩ := Option.isSome_iff_exists.1 ((isSome_shortEscape? e).trans hesc)
    have hu : e ≠ 'u' := by
      rintro rfl
      cases hesc
    refine ⟨c, ?_⟩
    change decodeChar ('\\' :: e :: rest) = _
    rw [decodeChar.eq_2 _ _ (fun _ _ _ _ _ he => absurd he hu), hc]
  | unit a b c d hhex =>
    obtain ⟨n, hn⟩ := Option.isSome_iff_exists.1 ((isSome_hexUnit? a b c d).trans hhex)
    refine ⟨Char.ofNat n, ?_⟩
    change decodeChar ('\\' :: 'u' :: a :: b :: c :: d :: rest) = _
    rw [decodeChar.eq_1, hn]
    dsimp only
    rw [if_neg fun ht => h.not_isTrailing ⟨n, hn, ht⟩, if_neg fun hl => h.not_isLeading ⟨n, hn, hl⟩]

theorem decodeChar_pair (hlead : x.IsLeading) (htrail : y.IsTrailing) (rest : List Char) :
    ∃ c, decodeChar (x.text ++ (y.text ++ rest)) = .ok (c, rest) := by
  obtain ⟨n, hn, hlead⟩ := hlead
  obtain ⟨m, hm, htrail⟩ := htrail
  cases x with
  | plain | short => cases hn
  | unit a b c d h =>
    cases y with
    | plain | short => cases hm
    | unit a' b' c' d' h' =>
      have hnot : isTrailingSurrogate n = false := by
        simp only [isLeadingSurrogate, isTrailingSurrogate, Bool.and_eq_true, decide_eq_true_eq, Bool.and_eq_false_iff,
          decide_eq_false_iff_not] at hlead ⊢
        omega
      refine ⟨joinSurrogates n m, ?_⟩
      change decodeChar ('\\' :: 'u' :: a :: b :: c :: d :: '\\' :: 'u' :: a' :: b' :: c' :: d' :: rest) = _
      rw [Item.unit?] at hn hm
      simp only [decodeChar, Option.mem_def.1 hn, Option.mem_def.1 hm, hnot, hlead, htrail, if_true, if_false,
        Bool.false_eq_true]

theorem isHex_of_hexUnit? (h : hexUnit? a b c d = some n) : [a, b, c, d].all Lexer.isHexDigit = true :=
  (isSome_hexUnit? a b c d).symm.trans (Option.isSome_of_eq_some h)

theorem item_of_decodeChar_leading {ch : Char} (hn : hexUnit? a b c d = some n) (htrail : ¬isTrailingSurrogate n = true)
    (hlead : isLeadingSurrogate n = true) (h : decodeChar ('\\' :: 'u' :: a :: b :: c :: d :: cs) = .ok (ch, rest)) :
    ∃ y : Item, y.IsTrailing ∧ cs = y.text ++ rest := by
  rw [decodeChar.eq_1, hn] at h
  dsimp only at h
  rw [if_neg htrail, if_pos hlead] at h
  split at h
  · rename_i a' b' c' d' r
    split at h
    · cases h
    · rename_i m hm
      split at h
      · rename_i htrail'
        obtain ⟨-, rfl⟩ := Prod.mk.inj (Except.ok.inj h)
        exact ⟨.unit a' b' c' d' (isHex_of_hexUnit? hm), ⟨m, hm, htrail'⟩, rfl⟩
      · cases h
  · cases h
  · cases h

theorem items_of_decodeChar_unit {ch : Char} (h : decodeChar ('\\' :: 'u' :: a :: b :: c :: d :: cs) = .ok (ch, rest)) :
    ∃ x : Item, x.text = ['\\', 'u', a, b, c, d] ∧
      (x.StandsAlone ∧ cs = rest ∨ x.IsLeading ∧ ∃ y : Item, y.IsTrailing ∧ cs = y.text ++ rest) := by
  rcases hn : hexUnit? a b c d with _ | n
  · rw [decodeChar.eq_1, hn] at h
    cases h
  have hhex := isHex_of_hexUnit? hn
  refine ⟨.unit a b c d hhex, rfl, ?_⟩
  by_cases htrail : isTrailingSurrogate n = true
  · rw [decodeChar.eq_1, hn] at h
    dsimp only at h
    rw [if_pos htrail] at h
    cases h
  by_cases hlead : isLeadingSurrogate n = true
  · exact Or.inr ⟨⟨n, hn, hlead⟩, item_of_decodeChar_leading hn htrail hlead h⟩
  · rw [decodeChar.eq_1, hn] at h
    dsimp only at h
    rw [if_neg htrail, if_neg hlead] at h
    exact Or.inl ⟨standsAlone_unit hn hlead htrail, (Prod.mk.inj (Except.ok.inj h)).2⟩

theorem items_of_decodeChar {ch : Char} (hquote : cs.head? ≠ some '"') (h : decodeChar cs = .ok (ch, rest)) :
    (∃ x : Item, x.StandsAlone ∧ cs = x.text ++ rest) ∨
      ∃ x y : Item, x.IsLeading ∧ y.IsTrailing ∧ cs = x.text ++ (y.text ++ rest) := by
  have hread := h
  unfold decodeChar at h
  split at h
  · obtain ⟨x, hx, ⟨halone, rfl⟩ | ⟨hlead, y, htrail, rfl⟩⟩ := items_of_decodeChar_unit hread
    · exact Or.inl ⟨x, halone, by rw [hx]; rfl⟩
    · exact Or.inr ⟨x, y, hlead, htrail, by rw [hx]; rfl⟩
  · rename_i e r _
    split at h
    · rename_i c he
      obtain ⟨-, rfl⟩ := Prod.mk.inj (Except.ok.inj h)
      exact Or.inl ⟨.short e ((isSome_shortEscape? e).symm.trans (Option.isSome_of_eq_some he)), standsAlone_short, rfl⟩
    · cases h
  · rename_i c r _ _
    split at h
    · cases h
    · rename_i hcontrol
      split at h
      · cases h
      · rename_i hbackslash
        obtain ⟨-, rfl⟩ := Prod.mk.inj (Except.ok.inj h)
        exact Or.inl ⟨.plain c ⟨fun he => hquote (congrArg some he), hbackslash⟩,
          standsAlone_plain (Nat.le_of_not_lt hcontrol), rfl⟩
  · cases h

theorem decodeChars_step {ch k : Char} (h : decodeChar (k :: cs) = .ok (ch, rest)) (hk : k ≠ '"') (fuel : Nat) :
    decodeChars (fuel + 1) (k :: cs) = (decodeChars fuel rest).map fun r => (ch :: r.1, r.2) := by
  rw [decodeChars.eq_3 _ _ (fun _ he => hk (List.cons.inj he).1), h]
  change (decodeChars fuel rest >>= _) = _
  cases decodeChars fuel rest <;> rfl

theorem decodeChars_items (h : Readable xs) : ∀ fuel, xs.length ≤ fuel →
    ∃ text, decodeChars fuel (xs.flatMap Item.text ++ '"' :: rest) = .ok (text, rest) := by
  induction h with
  | nil =>
    intro fuel _
    refine ⟨[], ?_⟩
    cases fuel <;> rfl
  | @cons x xs halone _ ih =>
    rintro (_ | fuel) hfuel
    · cases hfuel
    · obtain ⟨text, htext⟩ := ih fuel (Nat.le_of_succ_le_succ hfuel)
      obtain ⟨c, hc⟩ := decodeChar_item halone (xs.flatMap Item.text ++ '"' :: rest)
      obtain ⟨k, ks, hk, hq⟩ := x.head
      rw [hk, List.cons_append] at hc
      refine ⟨c :: text, ?_⟩
      rw [List.flatMap_cons, List.append_assoc, hk, List.cons_append, decodeChars_step hc hq, htext]
      rfl
  | @pair x y xs hlead htrail _ ih =>
    rintro (_ | fuel) hfuel
    · cases hfuel
    · have hle : xs.length ≤ fuel := by
        simp only [List.length_cons] at hfuel
        omega
      obtain ⟨text, htext⟩ := ih fuel hle
      obtain ⟨c, hc⟩ := decodeChar_pair hlead htrail (xs.flatMap Item.text ++ '"' :: rest)
      obtain ⟨k, ks, hk, hq⟩ := x.head
      rw [hk, List.cons_append] at hc
      refine ⟨c :: text, ?_⟩
      rw [List.flatMap_cons, List.flatMap_cons, List.append_assoc, List.append_assoc, hk, List.cons_append,
        decodeChars_step hc hq, htext]
      rfl

/-- **What the reader reads is readable.** -/
theorem items_of_decodeChars (fuel : Nat) (cs : List Char) : ∀ {text : List Char},
    decodeChars fuel cs = .ok (text, rest) → ∃ xs, Readable xs ∧ cs = xs.flatMap Item.text ++ '"' :: rest := by
  fun_induction decodeChars fuel cs with
  | case1 =>
    intro text h
    cases h
    exact ⟨[], .nil, rfl⟩
  | case2 =>
    intro text h
    cases h
  | case3 fuel cs hquote ih =>
    intro text h
    obtain ⟨⟨c, r⟩, hc, h⟩ := Except.bind_eq_ok.1 h
    obtain ⟨⟨more, r'⟩, hmore, h⟩ := Except.bind_eq_ok.1 h
    cases h
    obtain ⟨xs, hxs, rfl⟩ := ih r hmore
    have hhead : cs.head? ≠ some '"' := by
      cases cs with
      | nil => exact fun h => nomatch h
      | cons k ks => exact fun h => hquote ks (congrArg (· :: ks) (Option.some.inj h))
    rcases items_of_decodeChar hhead hc with ⟨x, halone, rfl⟩ | ⟨x, y, hlead, htrail, rfl⟩
    · exact ⟨x :: xs, .cons halone hxs, by rw [List.flatMap_cons, List.append_assoc]⟩
    · exact ⟨x :: y :: xs, .pair hlead htrail hxs, by simp only [List.flatMap_cons, List.append_assoc]⟩

theorem length_le_flatMap_text (xs : List Item) : xs.length ≤ (xs.flatMap Item.text).length := by
  induction xs with
  | nil => exact Nat.le_refl _
  | cons x xs ih =>
    obtain ⟨k, ks, hk, -⟩ := x.head
    simp only [List.flatMap_cons, hk, List.length_append, List.length_cons]
    omega

/-- **A string of readable items is read**, whatever comes behind it. -/
theorem decodePrefix_quoted (h : Readable xs) (rest : List Char) :
    ∃ text, decodePrefix (quoted xs ++ rest) = .ok (text, rest) := by
  have hquoted : quoted xs ++ rest = '"' :: (xs.flatMap Item.text ++ '"' :: rest) := by
    rw [quoted, List.cons_append, List.append_assoc]
    rfl
  have hlen := length_le_flatMap_text xs
  rw [hquoted]
  refine decodeChars_items h _ ?_
  rw [List.length_append]
  omega

/-- **What is read as a string has readable items.** -/
theorem exists_readable {text : List Char} (h : decodePrefix cs = .ok (text, rest)) :
    ∃ xs, Readable xs ∧ cs = quoted xs ++ rest := by
  unfold decodePrefix at h
  split at h
  · obtain ⟨xs, hxs, rfl⟩ := items_of_decodeChars _ _ h
    refine ⟨xs, hxs, ?_⟩
    rw [quoted, List.cons_append, List.append_assoc]
    rfl
  · cases h

end Reader

end Packrat.Json
