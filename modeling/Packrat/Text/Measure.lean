/-!
# Measure — lengths and places in bytes

Texts are lists of characters; places in them are counted in the bytes of their UTF-8 form, which is a sum over the
characters.
-/
namespace Packrat.Text

def byteLength : List Char → Nat
  | [] => 0
  | c :: cs => c.utf8Size + byteLength cs

@[simp] theorem byteLength_nil : byteLength [] = 0 := rfl

@[simp] theorem byteLength_cons (c : Char) (cs : List Char) : byteLength (c :: cs) = c.utf8Size + byteLength cs := rfl

@[simp] theorem byteLength_append : ∀ a b : List Char, byteLength (a ++ b) = byteLength a + byteLength b
  | [], b => by simp
  | c :: a, b => by simp [byteLength_append a b, Nat.add_assoc]

theorem byteLength_eq_zero_iff : ∀ a : List Char, byteLength a = 0 ↔ a = []
  | [] => by simp
  | c :: a => by
    have := c.utf8Size_pos
    simp only [byteLength_cons, reduceCtorEq, iff_false]
    omega

end Packrat.Text
