import Packrat.Text.Blank
import Packrat.Text.CaseFold
import Packrat.Text.DecimalDigit
import Packrat.Text.WordChar
/-!
# CharSet — sets of characters

What one step of a pattern may take: a range, a class such as "digit", or a combination of such sets.  A set says of
each character whether it is a member, and nothing else matters about it.
-/
namespace Packrat.Pattern

inductive CharSet where
  | empty
  | range (low high : Char)
  /-- the characters with a case variant in the range -/
  | caseless (low high : Char)
  | digit
  | blank
  | word
  | negate (s : CharSet)
  | union (a b : CharSet)
  | inter (a b : CharSet)
  | diff (a b : CharSet)
  | symDiff (a b : CharSet)
  deriving Repr, DecidableEq, Inhabited

namespace CharSet

def mem : CharSet → Char → Bool
  | .empty, _ => false
  | .range low high, c => decide (low ≤ c) && decide (c ≤ high)
  | .caseless low high, c => (Text.caseVariants c.toNat).any fun n => decide (low.toNat ≤ n) && decide (n ≤ high.toNat)
  | .digit, c => Text.isDecimalDigit c
  | .blank, c => Text.isBlank c
  | .word, c => Text.isWordChar c
  | .negate s, c => !s.mem c
  | .union a b, c => a.mem c || b.mem c
  | .inter a b, c => a.mem c && b.mem c
  | .diff a b, c => a.mem c && !b.mem c
  | .symDiff a b, c => a.mem c != b.mem c

def single (c : Char) : CharSet := .range c c

theorem mem_single (c d : Char) : (single c).mem d = true ↔ d = c := by
  simp only [single, mem, Bool.and_eq_true, decide_eq_true_eq]
  constructor
  · rintro ⟨h₁, h₂⟩
    exact Char.le_antisymm h₂ h₁
  · rintro rfl
    exact ⟨Char.le_refl d, Char.le_refl d⟩

/-- **Case is ignored** by what folding does to a character. -/
theorem mem_caseless (low high c : Char) : (caseless low high).mem c = true ↔
    ∃ n, Text.foldCase n = Text.foldCase c.toNat ∧ low.toNat ≤ n ∧ n ≤ high.toNat := by
  simp only [mem, List.any_eq_true, Text.mem_caseVariants, Bool.and_eq_true, decide_eq_true_eq]

def all : CharSet := .negate .empty

theorem mem_all (c : Char) : all.mem c = true := rfl

/-! ## ASCII -/

def ascii : CharSet := .range '\x00' '\x7f'

def asciiDigit : CharSet := .range '0' '9'

def asciiBlank : CharSet := .union (.range '\t' '\r') (single ' ')

def asciiWord : CharSet :=
  .union (.union (.range '0' '9') (single '_')) (.union (.range 'A' 'Z') (.range 'a' 'z'))

/-- The set is put together from ranges of ASCII, and takes no complement. -/
def isAscii : CharSet → Bool
  | .empty => true
  | .range _ high | .caseless _ high => decide (high ≤ '\x7f')
  | .digit | .blank | .word | .negate _ => false
  | .union a b | .inter a b | .diff a b | .symDiff a b => a.isAscii && b.isAscii

def ofName? : String → Option CharSet
  | "alnum" => some (.union (.range '0' '9') (.union (.range 'A' 'Z') (.range 'a' 'z')))
  | "alpha" => some (.union (.range 'A' 'Z') (.range 'a' 'z'))
  | "ascii" => some .ascii
  | "blank" => some (.union (single '\t') (single ' '))
  | "cntrl" => some (.union (.range '\x00' '\x1f') (single '\x7f'))
  | "digit" => some .asciiDigit
  | "graph" => some (.range '!' '~')
  | "lower" => some (.range 'a' 'z')
  | "print" => some (.range ' ' '~')
  | "punct" => some (.union (.union (.range '!' '/') (.range ':' '@')) (.union (.range '[' '\x60') (.range '\x7b' '~')))
  | "space" => some .asciiBlank
  | "upper" => some (.range 'A' 'Z')
  | "word" => some .asciiWord
  | "xdigit" => some (.union (.range '0' '9') (.union (.range 'A' 'F') (.range 'a' 'f')))
  | _ => none

def unionAll (sets : List CharSet) : CharSet := sets.foldl .union .empty

theorem mem_unionAll (sets : List CharSet) (c : Char) :
    (unionAll sets).mem c = true ↔ ∃ s ∈ sets, s.mem c = true := by
  have hfoldl : ∀ (sets : List CharSet) (s : CharSet),
      (sets.foldl .union s).mem c = true ↔ s.mem c = true ∨ ∃ s ∈ sets, s.mem c = true := by
    intro sets
    induction sets with
    | nil => simp
    | cons s' sets ih =>
      intro s
      rw [List.foldl_cons, ih, mem, Bool.or_eq_true, or_assoc]
      simp
  rw [unionAll, hfoldl]
  simp [mem]

def ignoreCase : CharSet → CharSet
  | .range low high => .caseless low high
  | .negate s => .negate s.ignoreCase
  | .union a b => .union a.ignoreCase b.ignoreCase
  | .inter a b => .inter a.ignoreCase b.ignoreCase
  | .diff a b => .diff a.ignoreCase b.ignoreCase
  | .symDiff a b => .symDiff a.ignoreCase b.ignoreCase
  | s => s

end CharSet

end Packrat.Pattern
