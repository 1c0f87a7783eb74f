import Packrat.Text.Vocabulary
import Mathlib.Data.String.Basic
/-!
# ByteOrder — words in the order of their bytes

Words are compared by their characters, and they are stored as bytes.  The two orders are one: the leading byte of a
character tells how many bytes follow it and holds its highest digits, and the bytes behind it hold the others, six bits
each, so that the first byte in which two characters differ is greater for the greater one (`utf8EncodeChar_lt`).  Main
statement: `bytes_lt_iff`.
-/
namespace Packrat.Text

open String (utf8EncodeChar)

def bytes (w : String) : List UInt8 := w.toUTF8.data.toList

theorem bytes_eq (w : String) : bytes w = w.toList.flatMap utf8EncodeChar := by
  rw [bytes, String.toUTF8_eq_toByteArray, ← List.toList_data_toByteArray (l := w.toList.flatMap utf8EncodeChar)]
  change _ = (List.utf8Encode w.toList).data.toList
  rw [← String.toByteArray_ofList, String.ofList_toList]

theorem length_bytes (w : String) : (bytes w).length = w.utf8ByteSize := by
  rw [bytes, Array.length_toList, String.toUTF8_eq_toByteArray, ← String.size_toByteArray]
  rfl

/-! ## Characters -/

variable {m n k lead : Nat}

theorem cons_lt_cons_of_lt (hmn : m < n) (hn : n < 256) (s t : List UInt8) :
    UInt8.ofNat m :: s < UInt8.ofNat n :: t :=
  List.cons_lt_cons_iff.2 (Or.inl ((UInt8.ofNat_lt_iff_lt (hmn.trans hn) hn).2 hmn))

theorem cons_lt_cons_of_eq (b : UInt8) {s t : List UInt8} (h : s < t) : b :: s < b :: t :=
  List.cons_lt_cons_iff.2 (Or.inr ⟨rfl, h⟩)

/-- The bytes of the lowest digits of a number to the base 64, the highest of them first. -/
def digitBytes : Nat → Nat → List UInt8
  | 0, _ => []
  | k + 1, n => UInt8.ofNat (n / 64 ^ k % 64 + 128) :: digitBytes k n

theorem digitBytes_lt (s t : List UInt8) : ∀ {k m n : Nat}, m % 64 ^ k < n % 64 ^ k →
    digitBytes k m ++ s < digitBytes k n ++ t
  | 0, m, n, h => by
    rw [Nat.pow_zero, Nat.mod_one, Nat.mod_one] at h
    cases h
  | k + 1, m, n, h => by
    rw [Nat.pow_succ, Nat.mod_mul, Nat.mod_mul] at h
    have hm := Nat.mod_lt m (Nat.pow_pos (n := k) (show 0 < 64 by decide))
    have hn := Nat.mod_lt n (Nat.pow_pos (n := k) (show 0 < 64 by decide))
    rcases Nat.lt_trichotomy (m / 64 ^ k % 64) (n / 64 ^ k % 64) with hlt | heq | hgt
    · exact cons_lt_cons_of_lt (by omega) (by omega) _ _
    · rw [heq, Nat.add_lt_add_iff_right] at h
      rw [digitBytes, digitBytes, heq]
      exact cons_lt_cons_of_eq _ (digitBytes_lt s t h)
    · have := Nat.mul_le_mul_left (64 ^ k) hgt
      rw [Nat.mul_succ] at this
      omega

/-- **How a code point is written**: the number of bytes behind the leading one, and what marks the leading one. -/
def Written (n k lead : Nat) : Prop :=
  (k = 0 ∧ lead = 0 ∧ n < 128) ∨ (k = 1 ∧ lead = 192 ∧ 128 ≤ n ∧ n < 2048) ∨
  (k = 2 ∧ lead = 224 ∧ 2048 ≤ n ∧ n < 65536) ∨ (k = 3 ∧ lead = 240 ∧ 65536 ≤ n ∧ n < 1114112)

theorem toNat_lt (c : Char) : c.toNat < 1114112 := by
  have h := c.valid
  simp only [UInt32.isValidChar, Nat.isValidChar] at h
  change c.val.toNat < _
  omega

/-- **The bytes of a character**: the marked leading byte with the highest digits, and the other digits. -/
theorem exists_written (c : Char) : ∃ k lead, Written c.toNat k lead ∧
    utf8EncodeChar c = UInt8.ofNat (c.toNat / 64 ^ k + lead) :: digitBytes k c.toNat := by
  have hc := toNat_lt c
  rw [utf8EncodeChar, show c.val.toNat = c.toNat from rfl]
  generalize c.toNat = n at hc
  split
  · exact ⟨0, 0, Or.inl ⟨rfl, rfl, by omega⟩, by simp [digitBytes]⟩
  · split
    · have hlead : n / 64 % 32 = n / 64 := Nat.mod_eq_of_lt (by omega)
      exact ⟨1, 192, Or.inr (Or.inl ⟨rfl, rfl, by omega, by omega⟩), by simp [digitBytes, hlead]⟩
    · split
      · have hlead : n / 4096 % 16 = n / 4096 := Nat.mod_eq_of_lt (by omega)
        exact ⟨2, 224, Or.inr (Or.inr (Or.inl ⟨rfl, rfl, by omega, by omega⟩)), by simp [digitBytes, hlead]⟩
      · have hlead : n / 262144 % 8 = n / 262144 := Nat.mod_eq_of_lt (by omega)
        exact ⟨3, 240, Or.inr (Or.inr (Or.inr ⟨rfl, rfl, by omega, hc⟩)), by simp [digitBytes, hlead]⟩

/-- The leading bytes decide, unless they are the same; then as many bytes follow, and the digits in these decide. -/
theorem leading_lt_or_eq {k' lead' : Nat} (hm : Written m k lead) (hn : Written n k' lead') (h : m < n) :
    m / 64 ^ k + lead < n / 64 ^ k' + lead' ∨
    (m / 64 ^ k + lead = n / 64 ^ k' + lead' ∧ k = k' ∧ m % 64 ^ k < n % 64 ^ k) := by
  rcases hm with ⟨rfl, rfl, hm⟩ | ⟨rfl, rfl, hm⟩ | ⟨rfl, rfl, hm⟩ | ⟨rfl, rfl, hm⟩ <;>
    rcases hn with ⟨rfl, rfl, hn⟩ | ⟨rfl, rfl, hn⟩ | ⟨rfl, rfl, hn⟩ | ⟨rfl, rfl, hn⟩ <;> omega

theorem leading_lt (hn : Written n k lead) : n / 64 ^ k + lead < 256 := by
  rcases hn with ⟨rfl, rfl, hn⟩ | ⟨rfl, rfl, hn⟩ | ⟨rfl, rfl, hn⟩ | ⟨rfl, rfl, hn⟩ <;> omega

theorem utf8EncodeChar_lt {c d : Char} (h : c < d) (s t : List UInt8) :
    utf8EncodeChar c ++ s < utf8EncodeChar d ++ t := by
  have hlt : c.toNat < d.toNat := by
    rwa [Char.lt_def, UInt32.lt_iff_toNat_lt] at h
  obtain ⟨k, lead, hk, hc⟩ := exists_written c
  obtain ⟨k', lead', hk', hd⟩ := exists_written d
  rw [hc, hd]
  rcases leading_lt_or_eq hk hk' hlt with hlt | ⟨heq, rfl, hlt⟩
  · exact cons_lt_cons_of_lt hlt (leading_lt hk') _ _
  · rw [heq]
    exact cons_lt_cons_of_eq _ (digitBytes_lt s t hlt)

/-! ## Words -/

theorem flatMap_utf8EncodeChar_lt : ∀ {cs ds : List Char}, cs < ds →
    cs.flatMap utf8EncodeChar < ds.flatMap utf8EncodeChar
  | [], [], h => absurd h (List.lt_irrefl [])
  | [], d :: ds, _ => by
    obtain ⟨k, lead, -, hd⟩ := exists_written d
    rw [List.flatMap_nil, List.flatMap_cons, hd]
    exact List.nil_lt_cons _ _
  | _ :: _, [], h => absurd h (List.not_lt_nil _)
  | c :: cs, d :: ds, h => by
    rcases List.cons_lt_cons_iff.1 h with hlt | ⟨rfl, hlt⟩
    · exact utf8EncodeChar_lt hlt _ _
    · exact List.append_left_lt (flatMap_utf8EncodeChar_lt hlt)

/-- **The order of words is that of their bytes.** -/
theorem bytes_lt_iff {v w : String} : bytes v < bytes w ↔ v < w := by
  have hbytes : ∀ {v w : String}, v < w → bytes v < bytes w := by
    intro v w h
    rw [bytes_eq, bytes_eq]
    exact flatMap_utf8EncodeChar_lt (String.lt_iff_toList_lt.1 h)
  refine ⟨fun h => ?_, hbytes⟩
  rcases lt_trichotomy v w with hlt | rfl | hgt
  · exact hlt
  · exact absurd h (List.lt_irrefl _)
  · exact absurd h (List.lt_asymm (hbytes hgt))

end Packrat.Text
