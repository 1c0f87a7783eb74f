import Packrat.Token.Scanner
import Mathlib.Data.List.Basic
/-!
# Lexer — tokens without patterns

A lexer that reads characters: each kind of token is a function that splits a text in the longest token of the kind at
its head and the rest.  The kinds are tried in a fixed order, and the first that finds something counts, whether or not
another one would find more.  Every segment of a template is read for itself (`lex`).
-/
namespace Packrat.Lexer

abbrev Split := List Char × List Char

def prepend (text : List Char) (s : Split) : Split := (text ++ s.1, s.2)

/-! ## Kinds of token -/

def run? (p : Char → Bool) (cs : List Char) : Option Split :=
  if (cs.takeWhile p).isEmpty then none else some (cs.takeWhile p, cs.dropWhile p)

def blanks? : List Char → Option Split := run? Text.isBlank

def digits? : List Char → Option Split := run? Char.isDigit

def fraction? : List Char → Option Split
  | '.' :: cs => (digits? cs).map (prepend ['.'])
  | _ => none

def signed? : List Char → Option Split
  | '-' :: cs => (digits? cs).map (prepend ['-'])
  | cs => digits? cs

def exponent? : List Char → Option Split
  | c :: cs => if c = 'e' ∨ c = 'E' then (signed? cs).map (prepend [c]) else none
  | [] => none

def orNothing (f : List Char → Option Split) (cs : List Char) : Split := (f cs).getD ([], cs)

def number? (cs : List Char) : Option Split :=
  (digits? cs).map fun whole =>
    let fraction := orNothing fraction? whole.2
    let exponent := orNothing exponent? fraction.2
    (whole.1 ++ fraction.1 ++ exponent.1, exponent.2)

def isHexDigit (c : Char) : Bool := c.isDigit || (decide ('a' ≤ c) && decide (c ≤ 'f')) || (decide ('A' ≤ c) && decide (c ≤ 'F'))

def escapable : List Char := ['"', '\\', '/', 'b', 'f', 'n', 'r', 't']

def stringTail? : List Char → Option Split
  | [] => none
  | '"' :: cs => some (['"'], cs)
  | '\\' :: 'u' :: a :: b :: c :: d :: cs =>
    if [a, b, c, d].all isHexDigit then (stringTail? cs).map (prepend ['\\', 'u', a, b, c, d]) else none
  | '\\' :: c :: cs => if escapable.contains c then (stringTail? cs).map (prepend ['\\', c]) else none
  | c :: cs => if c = '\\' then none else (stringTail? cs).map (prepend [c])

def string? : List Char → Option Split
  | '"' :: cs => (stringTail? cs).map (prepend ['"'])
  | _ => none

def isString (w : String) : Bool := (string? w.toList).any fun s => s.2.isEmpty

def isIdentStart (c : Char) : Bool := c.isAlpha || c == '_' || c == '$'

def isIdentChar (c : Char) : Bool := isIdentStart c || c.isDigit

def ident? : List Char → Option Split
  | c :: cs => if isIdentStart c then some (c :: cs.takeWhile isIdentChar, cs.dropWhile isIdentChar) else none
  | [] => none

def isIdentifier (w : String) : Bool := (ident? w.toList).any fun s => s.2.isEmpty

def longest? : List (List Char) → Option (List Char)
  | [] => none
  | w :: ws =>
    match longest? ws with
    | some v => if w.length < v.length then some v else some w
    | none => some w

/-- **The longest declared token** at the head of the text, among those that are no identifiers. -/
def operator? (tokens : List String) (cs : List Char) : Option Split :=
  let operators := tokens.filter fun w => !w.isEmpty && !isIdentifier w
  (longest? ((operators.map String.toList).filter (·.isPrefixOf cs))).map fun w => (w, cs.drop w.length)

def punctuation? : List Char → Option Split
  | c :: cs => if ['[', ']', '(', ')', '{', '}', ',', ';'].contains c then some ([c], cs) else none
  | [] => none

def isSymbol (c : Char) : Bool :=
  ['~', '@', '%', '&', '+', '=', '*', '<', '>', '.', '?', '|', ':', '\\', '-', '^', '/'].contains c

def symbols? : List Char → Option Split := run? isSymbol

def comment? : List Char → Option Split
  | '#' :: cs =>
    match cs.dropWhile (· != '\n') with
    | end' :: rest => some ('#' :: cs.takeWhile (· != '\n') ++ [end'], rest)
    | [] => some ('#' :: cs, [])
  | _ => none

/-! ## Lexemes -/

def kept (s : Option Split) : Option Scanner.Taken := s.map fun s => ⟨s.1, false, s.2⟩

def dropped (s : Option Split) : Option Scanner.Taken := s.map fun s => ⟨s.1, true, s.2⟩

/-- **The lexeme at the head of a text**: the first kind that finds one. -/
def lexeme? (tokens : List String) (cs : List Char) : Option Scanner.Taken :=
  [dropped (blanks? cs), kept (number? cs), kept (string? cs), kept (ident? cs), kept (operator? tokens cs),
    kept (punctuation? cs), kept (symbols? cs), dropped (comment? cs)].findSome? id

/-! ## Heads and rests -/

/-- The split is one of the text, and takes something. -/
def IsSplit (cs : List Char) (s : Split) : Prop := s.1 ≠ [] ∧ s.1 ++ s.2 = cs

variable {cs : List Char} {s : Split}

theorem append_prepend {text : List Char} (h : s.1 ++ s.2 = cs) : (prepend text s).1 ++ (prepend text s).2 = text ++ cs := by
  rw [prepend, List.append_assoc, h]

theorem run?_cons_eq_none_iff {p : Char → Bool} {c : Char} : run? p (c :: cs) = none ↔ p c = false := by
  rw [run?, List.takeWhile_cons]
  cases p c <;> simp

/-- **A run ends where what stands behind it begins with a character of another kind.** -/
theorem run_append_of_head {p : Char → Bool} {run more : List Char} (hrun : ∀ c ∈ run, p c = true)
    (hmore : ∀ c, more.head? = some c → p c = false) :
    (run ++ more).takeWhile p = run ∧ (run ++ more).dropWhile p = more := by
  rw [List.takeWhile_append_of_pos hrun, List.dropWhile_append_of_pos hrun]
  cases more with
  | nil => exact ⟨List.append_nil _, rfl⟩
  | cons c more => simp [hmore c rfl]

theorem isSplit_run? {p : Char → Bool} (h : run? p cs = some s) : IsSplit cs s := by
  unfold run? at h
  split at h
  · cases h
  · rename_i hne
    cases h
    exact ⟨fun he => hne (List.isEmpty_iff.2 he), List.takeWhile_append_dropWhile⟩

theorem append_fraction? (h : fraction? cs = some s) : s.1 ++ s.2 = cs := by
  unfold fraction? at h
  split at h
  · obtain ⟨q, hq, rfl⟩ := Option.map_eq_some_iff.1 h
    exact append_prepend (isSplit_run? hq).2
  · cases h

theorem append_signed? (h : signed? cs = some s) : s.1 ++ s.2 = cs := by
  unfold signed? at h
  split at h
  · obtain ⟨q, hq, rfl⟩ := Option.map_eq_some_iff.1 h
    exact append_prepend (isSplit_run? hq).2
  · exact (isSplit_run? h).2

theorem append_exponent? (h : exponent? cs = some s) : s.1 ++ s.2 = cs := by
  unfold exponent? at h
  split at h
  · split at h
    · obtain ⟨q, hq, rfl⟩ := Option.map_eq_some_iff.1 h
      exact append_prepend (append_signed? hq)
    · cases h
  · cases h

theorem append_orNothing {f : List Char → Option Split} (hf : ∀ {s}, f cs = some s → s.1 ++ s.2 = cs) :
    (orNothing f cs).1 ++ (orNothing f cs).2 = cs := by
  rw [orNothing]
  cases h : f cs with
  | none => rfl
  | some s => exact hf h

theorem isSplit_number? (h : number? cs = some s) : IsSplit cs s := by
  obtain ⟨whole, hw, rfl⟩ := Option.map_eq_some_iff.1 h
  obtain ⟨hne, hcs⟩ := isSplit_run? hw
  constructor
  · exact List.append_ne_nil_of_left_ne_nil (List.append_ne_nil_of_left_ne_nil hne _) _
  · rw [List.append_assoc, append_orNothing append_exponent?, List.append_assoc, append_orNothing append_fraction?, hcs]

theorem append_stringTail? : ∀ {cs : List Char} {s : Split}, stringTail? cs = some s → s.1 ++ s.2 = cs := by
  intro cs
  fun_induction stringTail? cs with
  | case1 => exact fun h => by cases h
  | case2 cs => exact fun h => by cases h; rfl
  | case3 a b c d cs hhex ih | case5 c cs _ hc ih | case8 c cs _ _ hc _ ih =>
    intro s h
    obtain ⟨q, hq, rfl⟩ := Option.map_eq_some_iff.1 h
    exact append_prepend (ih hq)
  | case4 | case6 | case7 => exact fun h => by cases h

theorem isSplit_string? (h : string? cs = some s) : IsSplit cs s := by
  unfold string? at h
  split at h
  · obtain ⟨q, hq, rfl⟩ := Option.map_eq_some_iff.1 h
    exact ⟨List.cons_ne_nil _ _, append_prepend (append_stringTail? hq)⟩
  · cases h

theorem isSplit_ident? : ∀ {cs : List Char} {s : Split}, ident? cs = some s → IsSplit cs s
  | c :: cs, s, h => by
    by_cases hc : isIdentStart c
    · rw [ident?, if_pos hc] at h
      cases h
      exact ⟨List.cons_ne_nil _ _, congrArg (c :: ·) List.takeWhile_append_dropWhile⟩
    · rw [ident?, if_neg hc] at h
      cases h

theorem longest?_eq_none : ∀ {ws : List (List Char)}, longest? ws = none → ws = []
  | [], _ => rfl
  | w :: ws, h => by
    rw [longest?] at h
    split at h
    · split at h <;> cases h
    · cases h

theorem longest?_eq_some : ∀ {ws : List (List Char)} {w : List Char}, longest? ws = some w →
    w ∈ ws ∧ ∀ v ∈ ws, v.length ≤ w.length
  | u :: ws, w, h => by
    rw [longest?] at h
    cases hl : longest? ws with
    | none =>
      rw [hl] at h
      cases h
      refine ⟨List.mem_cons_self, fun v hv => ?_⟩
      rw [longest?_eq_none hl] at hv
      exact Nat.le_of_eq (congrArg List.length (List.mem_singleton.1 hv))
    | some x =>
      obtain ⟨hmem, hmax⟩ := longest?_eq_some hl
      rw [hl] at h
      dsimp only at h
      by_cases hlt : u.length < x.length
      · rw [if_pos hlt] at h
        cases h
        refine ⟨List.mem_cons_of_mem _ hmem, fun v hv => ?_⟩
        rcases List.mem_cons.1 hv with rfl | hv
        · exact Nat.le_of_lt hlt
        · exact hmax v hv
      · rw [if_neg hlt] at h
        cases h
        refine ⟨List.mem_cons_self, fun v hv => ?_⟩
        rcases List.mem_cons.1 hv with rfl | hv
        · exact Nat.le_refl _
        · have := hmax v hv
          omega

theorem operator?_eq_none {tokens : List String} (h : operator? tokens cs = none) {w : String} (hw : w ∈ tokens)
    (hne : w ≠ "") (hid : isIdentifier w = false) : ¬w.toList <+: cs := by
  intro hp
  have hnil := longest?_eq_none (Option.map_eq_none_iff.1 h)
  have hmem : w.toList ∈ ((tokens.filter fun w => !w.isEmpty && !isIdentifier w).map String.toList).filter
      (·.isPrefixOf cs) := by
    simp only [List.mem_filter, List.mem_map, List.isPrefixOf_iff_prefix, Bool.and_eq_true, Bool.not_eq_true',
      String.isEmpty_eq_false_iff]
    exact ⟨⟨w, ⟨hw, hne, hid⟩, rfl⟩, hp⟩
  rw [hnil] at hmem
  cases hmem

theorem operator?_eq_some {tokens : List String} (h : operator? tokens cs = some s) :
    (∃ w ∈ tokens, s.1 = w.toList ∧ w ≠ "" ∧ isIdentifier w = false) ∧ s.1 ++ s.2 = cs ∧
    ∀ w ∈ tokens, w ≠ "" → isIdentifier w = false → w.toList <+: cs → w.toList.length ≤ s.1.length := by
  obtain ⟨v, hv, rfl⟩ := Option.map_eq_some_iff.1 h
  obtain ⟨hmem, hmax⟩ := longest?_eq_some hv
  simp only [List.mem_filter, List.mem_map, List.isPrefixOf_iff_prefix, Bool.and_eq_true, Bool.not_eq_true',
    String.isEmpty_eq_false_iff] at hmem hmax
  obtain ⟨⟨w, ⟨hw, hne, hid⟩, rfl⟩, hp⟩ := hmem
  refine ⟨⟨w, hw, rfl, hne, hid⟩, ?_, fun u hu hune huid hup => hmax _ ⟨⟨u, ⟨hu, hune, huid⟩, rfl⟩, hup⟩⟩
  exact List.prefix_iff_eq_append.1 hp

theorem isSplit_operator? {tokens : List String} (h : operator? tokens cs = some s) : IsSplit cs s := by
  obtain ⟨⟨w, -, hw, hne, -⟩, happ, -⟩ := operator?_eq_some h
  refine ⟨fun he => hne ?_, happ⟩
  rw [hw] at he
  exact String.toList_eq_nil_iff.1 he

theorem isSplit_punctuation? (h : punctuation? cs = some s) : IsSplit cs s := by
  unfold punctuation? at h
  split at h
  · split at h
    · cases h
      exact ⟨List.cons_ne_nil _ _, rfl⟩
    · cases h
  · cases h

theorem isSplit_comment? (h : comment? cs = some s) : IsSplit cs s := by
  unfold comment? at h
  split at h
  · rename_i cs
    have happ : cs.takeWhile (· != '\n') ++ cs.dropWhile (· != '\n') = cs := List.takeWhile_append_dropWhile
    split at h
    · rename_i nl rest hd
      cases h
      rw [hd] at happ
      refine ⟨List.cons_ne_nil _ _, congrArg ('#' :: ·) ((List.append_assoc _ _ _).trans happ)⟩
    · cases h
      exact ⟨List.cons_ne_nil _ _, List.append_nil _⟩
  · cases h

/-- **A lexeme is a head of the text**, and takes something. -/
theorem isSplit_lexeme? {tokens : List String} {taken : Scanner.Taken} (h : lexeme? tokens cs = some taken) :
    IsSplit cs (taken.text, taken.rest) := by
  have hmap : ∀ {o : Option Split} {b : Bool}, (∀ {s}, o = some s → IsSplit cs s) →
      o.map (fun s => (⟨s.1, b, s.2⟩ : Scanner.Taken)) = some taken → IsSplit cs (taken.text, taken.rest) := by
    intro o b ho hm
    obtain ⟨s, hs, rfl⟩ := Option.map_eq_some_iff.1 hm
    exact ho hs
  obtain ⟨o, ho, hid⟩ := List.exists_of_findSome?_eq_some h
  simp only [List.mem_cons, List.not_mem_nil, or_false] at ho
  rcases ho with rfl | rfl | rfl | rfl | rfl | rfl | rfl | rfl
  · exact hmap isSplit_run? hid
  · exact hmap isSplit_number? hid
  · exact hmap isSplit_string? hid
  · exact hmap isSplit_ident? hid
  · exact hmap isSplit_operator? hid
  · exact hmap isSplit_punctuation? hid
  · exact hmap isSplit_run? hid
  · exact hmap isSplit_comment? hid

theorem length_rest_lt {tokens : List String} {taken : Scanner.Taken} (h : lexeme? tokens cs = some taken) :
    taken.rest.length < cs.length := by
  obtain ⟨hne, happ⟩ := isSplit_lexeme? h
  have hpos : 0 < taken.text.length := List.length_pos_iff.2 hne
  rw [← happ, List.length_append]
  exact Nat.lt_add_of_pos_left hpos

/-! ## Segments and templates -/

/-- **The tokens of the rest of a segment** from a byte on; `size` is the number of bytes of the segment. -/
def lexFrom (tokens : List String) (segment size start : Nat) (cs : List Char) : Except LexError (List Entry) :=
  if cs.isEmpty then .ok []
  else
    match _h : lexeme? tokens cs with
    | none => .error (.lexical (String.ofList cs) ⟨segment, start, size⟩)
    | some taken => do
      let after := start + Text.byteLength taken.text
      let entries ← lexFrom tokens segment size after taken.rest
      return if taken.dropped then entries
        else .token ⟨String.ofList taken.text, ⟨segment, start, after⟩⟩ :: entries
termination_by cs.length
decreasing_by exact length_rest_lt _h

theorem lexFrom_of_none {tokens : List String} (hcs : cs ≠ []) (h : lexeme? tokens cs = none)
    (segment size start : Nat) : lexFrom tokens segment size start cs =
      .error (.lexical (String.ofList cs) ⟨segment, start, size⟩) := by
  rw [lexFrom, if_neg fun he => hcs (List.isEmpty_iff.1 he)]
  split <;> rename_i hlex
  · rfl
  · rw [h] at hlex
    cases hlex

theorem lexFrom_of_some {tokens : List String} {taken : Scanner.Taken} (h : lexeme? tokens cs = some taken)
    (segment size start : Nat) : lexFrom tokens segment size start cs =
      (lexFrom tokens segment size (start + Text.byteLength taken.text) taken.rest).map fun entries =>
        if taken.dropped then entries
        else .token ⟨String.ofList taken.text, ⟨segment, start, start + Text.byteLength taken.text⟩⟩ :: entries := by
  have hcs : ¬cs.isEmpty = true := fun he => by
    have hlt := length_rest_lt h
    rw [List.isEmpty_iff.1 he] at hlt
    cases hlt
  rw [lexFrom, if_neg hcs]
  split <;> rename_i hlex
  · rw [h] at hlex
    cases hlex
  · rw [h] at hlex
    cases hlex
    rfl

theorem exists_of_lexFrom_error {tokens : List String} {segment size start : Nat} {e : LexError}
    (h : lexFrom tokens segment size start cs = .error e) :
    ∃ remainder pos, e = .lexical remainder pos := by
  induction hn : cs.length using Nat.strongRecOn generalizing start cs with
  | _ m ih =>
    by_cases hcs : cs = []
    · subst hcs
      rw [lexFrom] at h
      cases h
    · cases hlex : lexeme? tokens cs with
      | none =>
        rw [lexFrom_of_none hcs hlex] at h
        cases h
        exact ⟨_, _, rfl⟩
      | some taken =>
        rw [lexFrom_of_some hlex] at h
        cases hrest : lexFrom tokens segment size (start + Text.byteLength taken.text) taken.rest with
        | error e' =>
          rw [hrest] at h
          cases h
          exact ih _ (hn ▸ length_rest_lt hlex) hrest rfl
        | ok es =>
          rw [hrest] at h
          cases h

def lexSegments (tokens : List String) (index : Nat) (segment : String) :
    List String → Except LexError (List Entry)
  | [] => lexFrom tokens index (Text.byteLength segment.toList) 0 segment.toList
  | next :: more => do
    let entries ← lexFrom tokens index (Text.byteLength segment.toList) 0 segment.toList
    return entries ++ .hole index :: (← lexSegments tokens (index + 1) next more)

theorem isInternal_of_lexSegments_error {tokens : List String} {e : LexError} : ∀ {index : Nat} {segment : String}
    {segments : List String}, lexSegments tokens index segment segments = .error e → e.isInternal = false
  | _, _, [], h => by
    obtain ⟨remainder, pos, rfl⟩ := exists_of_lexFrom_error h
    rfl
  | index, segment, next :: more, h => by
    rw [lexSegments] at h
    cases hfirst : lexFrom tokens index (Text.byteLength segment.toList) 0 segment.toList with
    | error e' =>
      rw [hfirst] at h
      cases h
      obtain ⟨remainder, pos, rfl⟩ := exists_of_lexFrom_error hfirst
      rfl
    | ok entries =>
      cases hmore : lexSegments tokens (index + 1) next more with
      | error e' =>
        rw [hfirst, hmore] at h
        cases h
        exact isInternal_of_lexSegments_error hmore
      | ok others =>
        rw [hfirst, hmore] at h
        cases h

def lex (tokens : List String) (t : Template) : Except LexError (List Entry) := lexSegments tokens 0 t.first t.rest

end Packrat.Lexer
