import Packrat.Proofs.JsonStrings
import Packrat.Value.Render
/-!
# ReadBack — what the text of a value shows

A value's text does not tell a node from the list of its kind and its fields, nor two numbers that are written alike;
all else of the value it shows.  A text is read back from its first character on: a bracket opens a list, a quote a
string, a dollar sign a hole, and what is left is a bare word up to the comma or the bracket that ends it, as no bare
word holds either (`readsBack_chars`).  Main statement: two values have one text if and only if they show the same
(`render_eq_iff`).
-/
namespace Packrat

inductive Shown where
  | null
  | bool (b : Bool)
  | number (text : List Char)
  | string (s : String)
  | hole (i : Nat)
  | list (items : List Shown)

namespace Value

mutual

/-- **The value with every node turned into the list of its kind and its fields**, and every number into its text. -/
def shown : Value → Shown
  | .null => .null
  | .bool b => .bool b
  | .number n => .number (renderNumber n)
  | .string s => .string s
  | .hole i => .hole i
  | .list items => .list (shownAll items)
  | .node kind fields => .list (.string kind :: shownAll fields)

def shownAll : List Value → List Shown
  | [] => []
  | v :: vs => shown v :: shownAll vs

end

end Value

namespace Shown

open Value (renderNumber)

/-! ## Writing -/

mutual

def chars : Shown → List Char
  | .null => ['n', 'u', 'l', 'l']
  | .bool true => ['t', 'r', 'u', 'e']
  | .bool false => ['f', 'a', 'l', 's', 'e']
  | .number text => text
  | .string s => Json.encode s.toList
  | .hole i => (Template.showHole i).toList
  | .list [] => ['[', ']']
  | .list (item :: items) => '[' :: chars item ++ charsAll items ++ [']']

def charsAll : List Shown → List Char
  | [] => []
  | v :: vs => ',' :: chars v ++ charsAll vs

end

mutual

theorem chars_shown : ∀ v : Value, v.shown.chars = v.chars
  | .null | .number _ | .string _ | .hole _ | .list [] => rfl
  | .bool true | .bool false => rfl
  | .list (item :: items) => by
    rw [Value.shown, Value.shownAll, chars, Value.chars, chars_shown item, charsAll_shownAll items]
  | .node kind fields => by
    rw [Value.shown, chars, chars, Value.chars, charsAll_shownAll fields]

theorem charsAll_shownAll : ∀ vs : List Value, charsAll (Value.shownAll vs) = Value.charsAll vs
  | [] => rfl
  | v :: vs => by
    rw [Value.shownAll, charsAll, Value.charsAll, chars_shown v, charsAll_shownAll vs]

end

/-! ## Numbers and holes -/

def isNumberChar (c : Char) : Bool := c.isDigit || ['-', '.', 'N', 'a', 'i', 'n', 'f'].contains c

def isWordChar (c : Char) : Bool := !(['[', ']', ',', '"', '$'].contains c)

theorem isWordChar_of_isNumberChar {c : Char} (h : isNumberChar c = true) : isWordChar c = true := by
  have hall : ∀ d ∈ ['[', ']', ',', '"', '$'], (!isNumberChar d) = true := List.all_eq_true.1 (by decide)
  by_contra hc
  rw [isWordChar, Bool.not_eq_true, Bool.not_eq_false', List.contains_iff_mem] at hc
  have hnot := hall c hc
  rw [h] at hnot
  cases hnot

structure Numeric (text : List Char) : Prop where
  ne_nil : text ≠ []
  isNumberChar : ∀ c ∈ text, isNumberChar c = true

theorem numeric_toDigits (n : Nat) : Numeric (Nat.toDigits 10 n) where
  ne_nil := Nat.toDigits_ne_nil
  isNumberChar c hc := by
    rw [Shown.isNumberChar, Nat.isDigit_of_mem_toDigits (by decide) (by decide) hc, Bool.true_or]

theorem numeric_plain (d : Decimal) : Numeric d.plain := by
  have hdigit := (numeric_toDigits d.digits).isNumberChar
  have hzero : ∀ k : Nat, ∀ c ∈ List.replicate k '0', isNumberChar c = true := fun k c hc => by
    rw [List.eq_of_mem_replicate hc]
    rfl
  unfold Decimal.plain
  dsimp only
  split
  · exact ⟨List.append_ne_nil_of_left_ne_nil Nat.toDigits_ne_nil _,
      fun c hc => (List.mem_append.1 hc).elim (hdigit c) (hzero _ c)⟩
  · generalize hk : (-d.exponent).toNat + 1 - (Nat.toDigits 10 d.digits).length = k
    have hpadded : ∀ c ∈ List.replicate k '0' ++ Nat.toDigits 10 d.digits, isNumberChar c = true :=
      fun c hc => (List.mem_append.1 hc).elim (hzero k c) (hdigit c)
    refine ⟨List.append_ne_nil_of_right_ne_nil _ (List.cons_ne_nil _ _), fun c hc => ?_⟩
    rcases List.mem_append.1 hc with hc | hc
    · exact hpadded c (List.mem_of_mem_take hc)
    · rcases List.mem_cons.1 hc with rfl | hc
      · rfl
      · exact hpadded c (List.mem_of_mem_drop hc)

/-- **The text of a number** is a word of its own, or a sign or none before such a word or a decimal. -/
theorem numeric_renderNumber (n : Float) : Numeric (renderNumber n) := by
  unfold renderNumber
  split
  · exact ⟨List.cons_ne_nil _ _, List.all_eq_true.1 (by decide)⟩
  · have hsign : ∀ c ∈ (if n < 0.0 then ['-'] else []), isNumberChar c = true := by
      split <;> exact List.all_eq_true.1 (by decide)
    have hdigits : Numeric (if n.isInf then ['i', 'n', 'f'] else if n == 0.0 then ['0']
        else (Binary.ofBits n.toBits).shortest.plain) := by
      split
      · exact ⟨List.cons_ne_nil _ _, List.all_eq_true.1 (by decide)⟩
      · split
        · exact ⟨List.cons_ne_nil _ _, List.all_eq_true.1 (by decide)⟩
        · exact numeric_plain _
    exact ⟨List.append_ne_nil_of_right_ne_nil _ hdigits.ne_nil,
      fun c hc => (List.mem_append.1 hc).elim (hsign c) (hdigits.isNumberChar c)⟩

theorem toList_showHole (i : Nat) : (Template.showHole i).toList = '$' :: '{' :: (Nat.toDigits 10 i ++ ['}']) := by
  rw [Template.showHole, String.toList_ofList, Nat.toString_eq_ofList_toDigits, String.toList_ofList]
  rfl

/-! ## Reading -/

def ofWord (word : List Char) : Shown :=
  if word = ['n', 'u', 'l', 'l'] then .null
  else if word = ['t', 'r', 'u', 'e'] then .bool true
  else if word = ['f', 'a', 'l', 's', 'e'] then .bool false
  else .number word

mutual

/-- **What the text of a value at the head of a text shows**, and the rest.  Every list and every item of one takes a
character, so the length of the text is fuel enough. -/
def read : Nat → List Char → Option (Shown × List Char)
  | 0, _ => none
  | _ + 1, '[' :: ']' :: rest => some (.list [], rest)
  | fuel + 1, '[' :: cs => do
    let (item, cs) ← read fuel cs
    let (items, rest) ← readItems fuel cs
    return (.list (item :: items), rest)
  | _ + 1, '"' :: cs =>
    match Json.decodePrefix ('"' :: cs) with
    | .ok (text, rest) => some (.string (String.ofList text), rest)
    | .error _ => none
  | _ + 1, '$' :: '{' :: cs =>
    match cs.dropWhile Char.isDigit with
    | '}' :: rest => some (.hole (Nat.ofDigitChars 10 (cs.takeWhile Char.isDigit) 0), rest)
    | _ => none
  | _ + 1, cs => some (ofWord (cs.takeWhile isWordChar), cs.dropWhile isWordChar)

def readItems : Nat → List Char → Option (List Shown × List Char)
  | 0, _ => none
  | fuel + 1, ',' :: cs => do
    let (item, cs) ← read fuel cs
    let (items, rest) ← readItems fuel cs
    return (item :: items, rest)
  | _ + 1, ']' :: rest => some ([], rest)
  | _ + 1, _ => none

end

variable {cs more word : List Char}

def EndsWord (rest : List Char) : Prop := ∀ c, rest.head? = some c → isWordChar c = false

/-- **A text reads back as what it shows**, up to what ends it.  It opens with no bracket that closes, so that a list
with it as the first item is not the empty one. -/
structure ReadsBack (text : List Char) (what : Shown) : Prop where
  head : ∃ c cs, text = c :: cs ∧ c ≠ ']'
  read : ∀ {fuel rest}, text.length ≤ fuel → EndsWord rest → Shown.read fuel (text ++ rest) = some (what, rest)

structure ItemsReadBack (text : List Char) (items : List Shown) : Prop where
  endsWord : ∀ rest, EndsWord (text ++ ']' :: rest)
  read : ∀ {fuel} rest, text.length < fuel → readItems fuel (text ++ ']' :: rest) = some (items, rest)

theorem ReadsBack.of_read {c : Char} {what : Shown} (hc : c ≠ ']')
    (h : ∀ fuel rest, EndsWord rest → Shown.read (fuel + 1) (c :: cs ++ rest) = some (what, rest)) :
    ReadsBack (c :: cs) what where
  head := ⟨c, cs, rfl, hc⟩
  read {fuel rest} hfuel hrest := by
    rw [List.length_cons] at hfuel
    obtain ⟨k, rfl⟩ := Nat.exists_eq_add_of_le' (Nat.le_trans (Nat.le_add_left 1 _) hfuel)
    exact h k rest hrest

/-! ## Reading back -/

theorem readsBack_word (word : List Char) (hne : word ≠ []) (hword : word.all isWordChar = true) :
    ReadsBack word (ofWord word) := by
  rw [List.all_eq_true] at hword
  obtain ⟨c, cs, rfl⟩ := List.exists_cons_of_ne_nil hne
  have hc := hword c List.mem_cons_self
  refine .of_read (fun h => ?_) fun fuel rest hrest => ?_
  · rw [h] at hc
    cases hc
  · obtain ⟨htake, hdrop⟩ := Lexer.run_append_of_head hword hrest
    -- a word opens nothing, so the reader takes it as a word
    have hhead : ∀ {d : Char} {ds : List Char}, isWordChar d = false → c :: cs ++ rest = d :: ds → False := by
      intro d ds hd he
      rw [(List.cons.inj he).1, hd] at hc
      cases hc
    rw [Shown.read, htake, hdrop]
    all_goals exact fun _ => hhead rfl

theorem ofWord_of_numeric (h : Numeric word) : ofWord word = .number word := by
  have hne : ∀ w : List Char, (∃ c ∈ w, isNumberChar c = false) → word ≠ w := by
    rintro w ⟨c, hc, hnot⟩ rfl
    rw [h.isNumberChar c hc] at hnot
    cases hnot
  rw [ofWord, if_neg (hne _ ⟨'u', by decide, by decide⟩), if_neg (hne _ ⟨'t', by decide, by decide⟩),
    if_neg (hne _ ⟨'s', by decide, by decide⟩)]

theorem readsBack_number (h : Numeric word) : ReadsBack word (.number word) := by
  have hword : word.all isWordChar = true :=
    List.all_eq_true.2 fun c hc => isWordChar_of_isNumberChar (h.isNumberChar c hc)
  have hread := readsBack_word word h.ne_nil hword
  rwa [ofWord_of_numeric h] at hread

theorem readsBack_string (s : String) : ReadsBack (Json.encode s.toList) (.string s) := by
  refine .of_read (by decide) fun fuel rest _ => ?_
  have hread := Json.decodePrefix_encode_append s.toList rest
  change Shown.read (fuel + 1) (Json.encode s.toList ++ rest) = _
  rw [Json.encode_append] at hread ⊢
  rw [Shown.read, hread]
  dsimp only
  rw [String.ofList_toList]

theorem readsBack_hole (i : Nat) : ReadsBack (Template.showHole i).toList (.hole i) := by
  rw [toList_showHole]
  refine .of_read (by decide) fun fuel rest _ => ?_
  have hdigits : ∀ c ∈ Nat.toDigits 10 i, c.isDigit = true := fun c hc =>
    Nat.isDigit_of_mem_toDigits (by decide) (by decide) hc
  have hend : ∀ c, ('}' :: rest).head? = some c → c.isDigit = false := by
    rintro c ⟨⟩
    rfl
  obtain ⟨htake, hdrop⟩ := Lexer.run_append_of_head hdigits hend
  rw [List.cons_append, List.cons_append, List.append_assoc, List.singleton_append, Shown.read, htake, hdrop,
    Nat.ofDigitChars_toDigits (by decide) (by decide)]
  rfl

theorem readsBack_nil : ReadsBack ['[', ']'] (.list []) :=
  .of_read (by decide) fun _ _ _ => rfl

theorem ReadsBack.list {item : Shown} {items : List Shown} (hitem : ReadsBack cs item)
    (hitems : ItemsReadBack more items) : ReadsBack ('[' :: cs ++ more ++ [']']) (.list (item :: items)) where
  head := ⟨'[', cs ++ more ++ [']'], rfl, by decide⟩
  read {fuel rest} hfuel _ := by
    simp only [List.length_append, List.length_cons, List.length_nil] at hfuel
    obtain ⟨k, rfl⟩ := Nat.exists_eq_add_of_le' (show 1 ≤ fuel by omega)
    have hne : ∀ tail, cs ++ (more ++ ']' :: rest) ≠ ']' :: tail := by
      obtain ⟨c, ds, rfl, hc⟩ := hitem.head
      exact fun tail he => hc (List.cons.inj he).1
    rw [List.cons_append, List.cons_append, List.cons_append, List.append_assoc, List.append_assoc,
      List.singleton_append, Shown.read, hitem.read (by omega) (hitems.endsWord rest)]
    · change (readItems k (more ++ ']' :: rest) >>= _) = _
      rw [hitems.read rest (by omega)]
      rfl
    · exact hne

theorem itemsReadBack_nil : ItemsReadBack [] [] where
  endsWord rest := by
    rintro c ⟨⟩
    rfl
  read {fuel} rest hfuel := by
    obtain ⟨k, rfl⟩ := Nat.exists_eq_add_of_le' (show 1 ≤ fuel from hfuel)
    rfl

theorem ItemsReadBack.cons {item : Shown} {items : List Shown} (hitem : ReadsBack cs item)
    (hitems : ItemsReadBack more items) : ItemsReadBack (',' :: cs ++ more) (item :: items) where
  endsWord rest := by
    rintro c ⟨⟩
    rfl
  read {fuel} rest hfuel := by
    simp only [List.length_append, List.length_cons] at hfuel
    obtain ⟨k, rfl⟩ := Nat.exists_eq_add_of_le' (show 1 ≤ fuel by omega)
    rw [List.cons_append, List.cons_append, List.append_assoc, readItems,
      hitem.read (by omega) (hitems.endsWord rest)]
    change (readItems k (more ++ ']' :: rest) >>= _) = _
    rw [hitems.read rest (by omega)]
    rfl

mutual

/-- **The text of a value reads back as what the value shows.** -/
theorem readsBack_chars : ∀ v : Value, ReadsBack v.chars v.shown
  | .null => readsBack_word ['n', 'u', 'l', 'l'] (List.cons_ne_nil _ _) rfl
  | .bool true => readsBack_word ['t', 'r', 'u', 'e'] (List.cons_ne_nil _ _) rfl
  | .bool false => readsBack_word ['f', 'a', 'l', 's', 'e'] (List.cons_ne_nil _ _) rfl
  | .number n => readsBack_number (numeric_renderNumber n)
  | .string s => readsBack_string s
  | .hole i => readsBack_hole i
  | .list [] => readsBack_nil
  | .list (item :: items) => (readsBack_chars item).list (itemsReadBack_charsAll items)
  | .node kind fields => (readsBack_string kind).list (itemsReadBack_charsAll fields)

theorem itemsReadBack_charsAll : ∀ vs : List Value, ItemsReadBack (Value.charsAll vs) (Value.shownAll vs)
  | [] => itemsReadBack_nil
  | v :: vs => .cons (readsBack_chars v) (itemsReadBack_charsAll vs)

end

end Shown

/-- **Two values have one text if and only if they show the same.** -/
theorem Value.render_eq_iff (a b : Value) : a.render = b.render ↔ a.shown = b.shown := by
  have hend : Shown.EndsWord [] := fun _ hc => nomatch hc
  rw [Value.render, Value.render, String.ofList_inj]
  constructor
  · intro h
    have ha := (Shown.readsBack_chars a).read (Nat.le_refl _) hend
    have hb := (Shown.readsBack_chars b).read (Nat.le_refl _) hend
    rw [h, hb] at ha
    exact congrArg Prod.fst (Option.some.inj ha).symm
  · intro h
    rw [← Shown.chars_shown a, h, Shown.chars_shown b]

/-- A node is written as a list is, and a string that looks like a hole between quotes. -/
example : (Value.node "a" [.hole 0]).render = (Value.list [.string "a", .hole 0]).render ∧
    (Value.string "$\x7b0\x7d").render ≠ (Value.hole 0).render := by decide +kernel

end Packrat
