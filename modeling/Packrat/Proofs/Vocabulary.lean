import Packrat.Text.Vocabulary
import Mathlib.Data.List.Sort
import Mathlib.Data.String.Basic
/-!
# Vocabulary — one list for every set of words

A vocabulary is strictly ascending (`pairwise_vocabulary`), so it is fixed by its words: lists of words with the same
words, in any order and with any repetitions, have the same vocabulary (`vocabulary_eq_of_mem_iff`).
-/
namespace Packrat.Text

structure Strict (before : String → String → Bool) : Prop where
  irrefl : ∀ a, before a a = false
  trans : ∀ {a b c}, before a b = true → before b c = true → before a c = true
  total : ∀ a b, before a b = false → before b a = false → a = b

theorem strict_byteOrder : Strict byteOrder where
  irrefl a := by simp [byteOrder]
  trans h h' := by
    simp only [byteOrder, decide_eq_true_eq] at h h' ⊢
    exact lt_trans h h'
  total a b h h' := by
    simp only [byteOrder, decide_eq_false_iff_not] at h h'
    exact le_antisymm (not_lt.1 h') (not_lt.1 h)

theorem strict_longestFirst : Strict longestFirst where
  irrefl a := by simp [longestFirst]
  trans h h' := by
    simp only [longestFirst, Bool.or_eq_true, Bool.and_eq_true, decide_eq_true_eq, beq_iff_eq] at h h' ⊢
    rcases h with h | ⟨h, hlt⟩ <;> rcases h' with h' | ⟨h', hlt'⟩
    · exact Or.inl (h'.trans h)
    · exact Or.inl (h' ▸ h)
    · exact Or.inl (h ▸ h')
    · exact Or.inr ⟨h.trans h', lt_trans hlt hlt'⟩
  total a b h h' := by
    simp only [longestFirst, Bool.or_eq_false_iff, decide_eq_false_iff_not, Bool.and_eq_false_imp, beq_iff_eq] at h h'
    have hlen : a.utf8ByteSize = b.utf8ByteSize := le_antisymm (not_lt.1 h.1) (not_lt.1 h'.1)
    exact le_antisymm (not_lt.1 (h'.2 hlen.symm)) (not_lt.1 (h.2 hlen))

variable {before : String → String → Bool}

theorem pairwise_insertWord (hb : Strict before) (w : String) :
    ∀ {vs : List String}, vs.Pairwise (fun a b => before a b = true) →
      (insertWord before w vs).Pairwise fun a b => before a b = true
  | [], _ => List.pairwise_singleton _ _
  | v :: vs, h => by
    obtain ⟨hv, hvs⟩ := List.pairwise_cons.1 h
    unfold insertWord
    split
    · rename_i hwv
      refine List.pairwise_cons.2 ⟨fun x hx => ?_, h⟩
      rcases List.mem_cons.1 hx with rfl | hx
      · exact hwv
      · exact hb.trans hwv (hv x hx)
    · split
      · rename_i hvw
        refine List.pairwise_cons.2 ⟨fun x hx => ?_, pairwise_insertWord hb w hvs⟩
        rcases (mem_insertWord hb.total w x vs).1 hx with rfl | hx
        · exact hvw
        · exact hv x hx
      · exact h

/-- **A vocabulary is strictly ascending.** -/
theorem pairwise_vocabulary (hb : Strict before) :
    ∀ ws : List String, (vocabulary before ws).Pairwise fun a b => before a b = true
  | [] => List.Pairwise.nil
  | w :: ws => pairwise_insertWord hb w (pairwise_vocabulary hb ws)

theorem nodup_vocabulary (hb : Strict before) (ws : List String) : (vocabulary before ws).Nodup := by
  refine (pairwise_vocabulary hb ws).imp fun {v w} h he => ?_
  rw [he, hb.irrefl] at h
  cases h

/-- **The same words have the same vocabulary.** -/
theorem vocabulary_eq_of_mem_iff (hb : Strict before) {ws vs : List String} (h : ∀ x, x ∈ ws ↔ x ∈ vs) :
    vocabulary before ws = vocabulary before vs := by
  have hasymm : Std.Asymm fun a b => before a b = true :=
    ⟨fun a b hab hba => by have := hb.trans hab hba; rw [hb.irrefl] at this; cases this⟩
  refine List.Pairwise.eq_of_mem_iff (pairwise_vocabulary hb ws) (pairwise_vocabulary hb vs) fun x => ?_
  rw [mem_vocabulary hb.total, mem_vocabulary hb.total, h]

end Packrat.Text
