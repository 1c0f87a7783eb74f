/-!
# Vocabulary — sets of words in a fixed order

A set of words is kept as a list in strictly ascending order of some comparison.  Building it from a list of words
loses their order and their repetitions, and nothing else, so two lists with the same words give the same vocabulary.
-/
namespace Packrat.Text

def insertWord (before : String → String → Bool) (w : String) : List String → List String
  | [] => [w]
  | v :: vs =>
    if before w v then w :: v :: vs
    else if before v w then v :: insertWord before w vs
    else v :: vs

/-- **The set of the words**, in the order of the comparison. -/
def vocabulary (before : String → String → Bool) : List String → List String
  | [] => []
  | w :: ws => insertWord before w (vocabulary before ws)

/-- The order of the bytes of words, which is that of their code points. -/
def byteOrder (a b : String) : Bool := decide (a < b)

/-- Longer words first, and words of one length in byte order. -/
def longestFirst (a b : String) : Bool :=
  decide (b.utf8ByteSize < a.utf8ByteSize) || (a.utf8ByteSize == b.utf8ByteSize && decide (a < b))

theorem mem_insertWord {before : String → String → Bool}
    (h : ∀ a b, before a b = false → before b a = false → a = b) (w x : String) :
    ∀ vs : List String, x ∈ insertWord before w vs ↔ x = w ∨ x ∈ vs
  | [] => by simp [insertWord]
  | v :: vs => by
    unfold insertWord
    split
    · simp
    · split
      · simp [mem_insertWord h w x vs, or_left_comm]
      · rename_i h₁ h₂
        have : w = v := h w v (by simpa using h₁) (by simpa using h₂)
        simp [this]

/-- **The words of a vocabulary are those it was built from.** -/
theorem mem_vocabulary {before : String → String → Bool}
    (h : ∀ a b, before a b = false → before b a = false → a = b) (x : String) :
    ∀ ws : List String, x ∈ vocabulary before ws ↔ x ∈ ws
  | [] => by simp [vocabulary]
  | w :: ws => by simp [vocabulary, mem_insertWord h, mem_vocabulary h x ws]

end Packrat.Text
