import Packrat.Pattern.Escape
import Packrat.Pattern.Expr
import Packrat.Json.Quoted
/-!
# Atom — flags, layout, nesting and escapes

What the readers of patterns and of classes share.  A text that is read comes with the depth of its syntax, as a pattern
may not be nested too deep; the flags in force say what letters, lines and layout mean; and an escape stands for a
character, a set or a condition.

Two things belong to the compiler and are left open: which sets of characters go by a name behind `\p`, and how large a
compiled expression may be.
-/
namespace Packrat.Pattern

/-! ## Nesting -/

/-- **What was read**, and how deep its syntax is nested. -/
structure Nested (α : Type) where
  val : α
  depth : Nat
  deriving Repr, DecidableEq, Inhabited

namespace Nested

variable {α β : Type}

def leaf (a : α) : Nested α := ⟨a, 0⟩

def map (f : α → β) (x : Nested α) : Nested β := ⟨f x.val, x.depth⟩

def wrap (f : α → β) (x : Nested α) : Nested β := ⟨f x.val, x.depth + 1⟩

def deepest (xs : List (Nested α)) : Nat := xs.foldr (fun x d => max x.depth d) 0

/-- **A list of parts**, a level of its own if there are two or more. -/
def row (f : List α → β) (xs : List (Nested α)) : Nested β :=
  ⟨f (xs.map val), if xs.length < 2 then deepest xs else deepest xs + 1⟩

@[simp] theorem val_wrap (f : α → β) (x : Nested α) : (x.wrap f).val = f x.val := rfl

@[simp] theorem depth_wrap (f : α → β) (x : Nested α) : (x.wrap f).depth = x.depth + 1 := rfl

@[simp] theorem val_map (f : α → β) (x : Nested α) : (x.map f).val = f x.val := rfl

theorem row_singleton (f : List α → β) (x : Nested α) : row f [x] = x.map fun a => f [a] := by
  simp [row, deepest, map]

theorem deepest_le {xs : List (Nested α)} {d : Nat} (h : ∀ x ∈ xs, x.depth ≤ d) : deepest xs ≤ d := by
  induction xs with
  | nil => exact Nat.zero_le _
  | cons x xs ih =>
    exact Nat.max_le.2 ⟨h x List.mem_cons_self, ih fun y hy => h y (List.mem_cons_of_mem _ hy)⟩

theorem depth_row_le {f : List α → β} {xs : List (Nested α)} {d : Nat} (h : ∀ x ∈ xs, x.depth ≤ d) :
    (row f xs).depth ≤ d + 1 := by
  have hdeepest := deepest_le h
  unfold row
  dsimp only
  split <;> omega

end Nested

/-! ## Flags -/

/-- **What a compiler brings of its own**: the sets of characters that go by a name, given by their ranges, and the limit
on the size of what is compiled. -/
structure Compiler where
  property : List Char → Option (List (Char × Char))
  plain : ∀ {name ranges}, property name = some ranges → ∀ c ∈ name, c ∉ ['\\', '[', ']']
  fits : Expr → Bool

/-- No names, and an estimate of the size: a counted repetition may take 300000 steps when it is written out. -/
def Compiler.basic : Compiler := ⟨fun _ => none, nofun, Expr.countsWithin 300000⟩

instance : Inhabited Compiler := ⟨.basic⟩

structure Flags where
  /-- `i`: letters match in both cases -/
  caseless : Bool := false
  /-- `m`: `^` and `$` match at lines -/
  multiLine : Bool := false
  /-- `s`: the dot takes a line feed -/
  dotAll : Bool := false
  /-- `U`: repetitions are lazy, and greedy with a question mark -/
  swapGreed : Bool := false
  /-- `x`: blanks and comments are ignored -/
  extended : Bool := false
  /-- `R`: a carriage return ends a line, too -/
  crlf : Bool := false
  /-- `u` turned off: classes and the ends of words are those of ASCII, and what might take a byte beyond it is refused -/
  ascii : Bool := false
  compiler : Compiler := .basic
  deriving Inhabited

abbrev Compiler.flags (C : Compiler) : Flags := { compiler := C }

def Flags.set (f : Flags) (on : Bool) : Char → Option Flags
  | 'i' => some { f with caseless := on }
  | 'm' => some { f with multiLine := on }
  | 's' => some { f with dotAll := on }
  | 'U' => some { f with swapGreed := on }
  | 'x' => some { f with extended := on }
  | 'R' => some { f with crlf := on }
  | 'u' => some { f with ascii := !on }
  | _ => none

theorem Flags.compiler_of_set {f f' : Flags} {on : Bool} {c : Char} (h : f.set on c = some f') :
    f'.compiler = f.compiler := by
  unfold Flags.set at h
  split at h <;> cases h <;> rfl

def Flags.span (f : Flags) (low high : Char) : CharSet :=
  if f.caseless && !f.ascii then .caseless low high
  else if f.caseless && decide (high ≤ '\x7f') then .inter (.caseless low high) .ascii
  else .range low high

def Flags.allows (f : Flags) (s : CharSet) : Bool := !f.ascii || s.isAscii

def Flags.digit (f : Flags) : CharSet := if f.ascii then .asciiDigit else .digit

def Flags.blank (f : Flags) : CharSet := if f.ascii then .asciiBlank else .blank

def Flags.word (f : Flags) : CharSet := if f.ascii then .asciiWord else .word

/-! ## Layout -/

def skipLayout (inComment : Bool) : List Char → List Char
  | [] => []
  | c :: cs =>
    if inComment then skipLayout (c != '\n') cs
    else if Text.isBlank c then skipLayout false cs
    else if c = '#' then skipLayout true cs
    else c :: cs

def Flags.skip (f : Flags) (cs : List Char) : List Char :=
  if f.extended then skipLayout false cs else cs

theorem Flags.skip_of_not_extended {f : Flags} (h : f.extended = false) (cs : List Char) : f.skip cs = cs := by
  simp [Flags.skip, h]

def Flags.readBraced (f : Flags) (inComment : Bool) : List Char → Option (List Char × List Char)
  | [] => none
  | c :: cs =>
    if inComment then f.readBraced (c != '\n') cs
    else if f.extended && Text.isBlank c then f.readBraced false cs
    else if f.extended && c == '#' then f.readBraced true cs
    else if c = '}' then some ([], cs)
    else (f.readBraced false cs).map fun (text, rest) => (c :: text, rest)

def Flags.readExactly (f : Flags) : Nat → List Char → Option (List Char × List Char)
  | 0, cs => some ([], cs)
  | n + 1, cs =>
    match f.skip cs with
    | [] => none
    | c :: cs => (f.readExactly n cs).map fun (text, rest) => (c :: text, rest)

/-! ## Escapes -/

inductive Atom where
  | char (c : Char)
  | set (s : CharSet)
  | look (l : Look)
  deriving Repr, DecidableEq, Inhabited

def charOfNat? (n : Nat) : Option Char :=
  if n < 0xD800 ∨ (0xDFFF < n ∧ n < 0x110000) then some (Char.ofNat n) else none

def hexNumber? (ds : List Char) : Option Nat :=
  if ds.isEmpty then none else ds.foldlM (fun n d => (Json.hexValue? d).map (16 * n + ·)) 0

def charOfDigits? (ds : List Char) : Option Char := (hexNumber? ds).bind charOfNat?

/-- **The character given by its number**: in braces, or in exactly `width` digits.  Two digits are a byte for the flags
of ASCII, and none beyond it is allowed. -/
def readNumbered (flags : Flags) (width : Nat) (cs : List Char) : Option (Atom × List Char) :=
  match flags.skip cs with
  | '{' :: cs => do
    let (digits, rest) ← flags.readBraced false cs
    return (.char (← charOfDigits? digits), rest)
  | cs => do
    let (digits, rest) ← flags.readExactly width cs
    let c ← charOfDigits? digits
    if flags.ascii && width == 2 && decide ('\x7f' < c) then none else return (.char c, rest)

def readPropertyName (flags : Flags) (cs : List Char) : Option (List Char × List Char) :=
  match flags.skip cs with
  | [] | '\\' :: _ => none
  | '{' :: cs => flags.readBraced false cs
  | c :: cs => some ([c], cs)

def namedSet? (flags : Flags) (negated : Bool) (name : List Char) : Option CharSet :=
  if flags.ascii then none
  else (flags.compiler.property name).map fun ranges =>
    let s := CharSet.unionAll (ranges.map fun r => flags.span r.1 r.2)
    if negated then .negate s else s

def readProperty (flags : Flags) (negated : Bool) (cs : List Char) : Option (Atom × List Char) := do
  let (name, rest) ← readPropertyName flags cs
  return (.set (← namedSet? flags negated name), rest)

def namedBoundary? : String → Option WordLook
  | "start" => some .start
  | "end" => some .stop
  | "start-half" => some .startHalf
  | "end-half" => some .stopHalf
  | _ => none

/-- **The boundary of a word**: one of a kind, if a name follows in braces, or any.  Braces that hold no letters are a
count, and left for the repetition. -/
def readBoundary (flags : Flags) : List Char → Option (Atom × List Char)
  | '{' :: cs =>
    match flags.skip cs with
    | [] => none
    | c :: _ =>
      if c.isAlpha || c == '-' then do
        let (name, rest) ← flags.readBraced false cs
        return (.look (.word flags.ascii (← namedBoundary? (String.ofList name))), rest)
      else some (.look (.word flags.ascii .boundary), '{' :: cs)
  | cs => some (.look (.word flags.ascii .boundary), cs)

/-- A character of ASCII that stands for itself behind a backslash: all but letters, digits and the angle brackets. -/
def isEscapable (c : Char) : Bool :=
  isMeta c || (decide (c.toNat < 0x80) && !c.isAlphanum && c != '<' && c != '>')

def namedAtom? (flags : Flags) : Char → Option Atom
  | 'a' => some (.char '\x07')
  | 'f' => some (.char '\x0c')
  | 't' => some (.char '\t')
  | 'n' => some (.char '\n')
  | 'r' => some (.char '\r')
  | 'v' => some (.char '\x0b')
  | 'd' => some (.set flags.digit)
  | 's' => some (.set flags.blank)
  | 'w' => some (.set flags.word)
  | 'D' => some (.set (.negate flags.digit))
  | 'S' => some (.set (.negate flags.blank))
  | 'W' => some (.set (.negate flags.word))
  | 'A' => some (.look .startText)
  | 'z' => some (.look .endText)
  | 'B' => some (.look (.word flags.ascii .notBoundary))
  | '<' => some (.look (.word flags.ascii .start))
  | '>' => some (.look (.word flags.ascii .stop))
  | _ => none

def Atom.allowed (flags : Flags) : Atom → Bool
  | .char _ | .look _ => true
  | .set s => flags.allows s

def escapeReader? (flags : Flags) : Char → Option (List Char → Option (Atom × List Char))
  | 'x' => some (readNumbered flags 2)
  | 'u' => some (readNumbered flags 4)
  | 'U' => some (readNumbered flags 8)
  | 'p' => some (readProperty flags false)
  | 'P' => some (readProperty flags true)
  | 'b' => some (readBoundary flags)
  | _ => none

def shortEscape? (flags : Flags) (c : Char) : Option Atom :=
  if isEscapable c then some (.char c) else (namedAtom? flags c).filter (·.allowed flags)

/-- **The escape after a backslash**, and the rest.  Digits, which elsewhere refer back to groups, and unknown letters
are refused. -/
def readEscape (flags : Flags) : List Char → Option (Atom × List Char)
  | [] => none
  | c :: cs =>
    match escapeReader? flags c with
    | some read => read cs
    | none => (shortEscape? flags c).map fun a => (a, cs)

end Packrat.Pattern
