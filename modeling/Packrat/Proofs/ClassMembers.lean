import Packrat.Proofs.ClassText
/-!
# ClassMembers — the scan for the members of a class

A scan that looks at brackets and backslashes alone finds where a class ends, without reading what stands in it.  Item
by item it goes where the reader goes: an item leaves it at the same depth, the head of a class inside one deeper
(`passesOver_item`).  Two kinds of items mislead it: a bracket as the first member of a class inside, and a bare bracket
as the high end of a range.  Main statement: without them, the scan finds the members of a source if and only if the
source is one class, and the members make a class with the same characters (`classMembers_iff_isClass`).
-/
namespace Packrat.Pattern

open Splice (membersFrom classMembers)

variable {C : Compiler} {cs rest piece piece' : List Char} {item : ClassItem} {set : Nested CharSet} {d d' d'' : Nat}

/-! ## Pieces of a class -/

def ClassItem.depthAfter : ClassItem → Nat → Nat
  | .opening _, depth => depth + 1
  | .closing, depth => depth - 1
  | .member _, depth | .operator _, depth => depth

def itemsFrom (C : Compiler) : Nat → Nat → List Char → List (ClassItem × List Char)
  | 0, _, _ => []
  | fuel + 1, depth, cs =>
    match nextItem? C cs with
    | none => []
    | some (item, rest) =>
      if item = .closing ∧ depth = 0 then []
      else (item, cs.take (cs.length - rest.length)) :: itemsFrom C fuel (item.depthAfter depth) rest

/-- **The items of the class at the head of a source**, behind its own head, each with the text that it takes. -/
def classItems (source : List Char) (C : Compiler := .basic) : List (ClassItem × List Char) :=
  match source with
  | '[' :: cs => itemsFrom C ((openClass C.flags cs).2.length + 1) 0 (openClass C.flags cs).2
  | _ => []

/-- **Items that mislead a scan for brackets**: the head of a class with a bracket as its first member, and a range up
to a bare bracket. -/
def Misread (piece : List Char) : Prop := piece = ['[', ']'] ∨ piece = ['[', '^', ']'] ∨ ['-', '['] <:+ piece

instance (piece : List Char) : Decidable (Misread piece) := inferInstanceAs (Decidable (_ ∨ _ ∨ _))

theorem itemsFrom_succ (h : nextItem? C (piece ++ rest) = some (item, rest)) (hend : ¬(item = .closing ∧ d = 0))
    (fuel : Nat) :
    itemsFrom C (fuel + 1) d (piece ++ rest) = (item, piece) :: itemsFrom C fuel (item.depthAfter d) rest := by
  have htake : (piece ++ rest).take ((piece ++ rest).length - rest.length) = piece := by simp
  rw [itemsFrom, h]
  simp only [if_neg hend, htake]

/-! ## The scan over a piece -/

/-- **The scan passes over a piece**, from one depth to another. -/
def PassesOver (piece : List Char) (d d' : Nat) : Prop :=
  ∀ cs, membersFrom false d (piece ++ cs) = (membersFrom false d' cs).map (piece ++ ·)

theorem PassesOver.append (h : PassesOver piece d d') (h' : PassesOver piece' d' d'') :
    PassesOver (piece ++ piece') d d'' := by
  intro cs
  rw [List.append_assoc, h, h', Option.map_map]
  exact congrArg (Option.map · _) (funext fun ms => (List.append_assoc _ _ _).symm)

theorem membersFrom_plain {c : Char} (hc : isBracketing c = false) (first : Bool) (d : Nat) (cs : List Char) :
    membersFrom first d (c :: cs) = (membersFrom false d cs).map (c :: ·) := by
  simp only [isBracketing, List.contains_eq_mem, decide_eq_false_iff_not, List.mem_cons, List.not_mem_nil, or_false,
    not_or] at hc
  exact Splice.membersFrom.eq_6 _ _ _ _ (fun h _ => hc.1 h) (fun _ _ h _ => hc.1 h) hc.2.1 hc.2.2

theorem passesOver_plain (h : Plain piece) (d : Nat) : PassesOver piece d d := by
  induction piece with
  | nil => exact fun cs => by simp
  | cons c piece ih =>
    obtain ⟨hc, hpiece⟩ := (plain_cons c piece).1 h
    have hone : PassesOver [c] d d := membersFrom_plain hc false d
    exact hone.append (ih hpiece)

theorem passesOver_open (d : Nat) : PassesOver ['['] d (d + 1) := fun _ => rfl

theorem passesOver_close (d : Nat) : PassesOver [']'] (d + 1) d := fun _ => rfl

theorem passesOver_escape {escape : List Char} (h : EscapeText escape) (d : Nat) :
    PassesOver ('\\' :: escape) d d := by
  obtain ⟨c, more, rfl, hplain⟩ := h
  have hpair : PassesOver ['\\', c] d d := fun _ => rfl
  exact hpair.append (passesOver_plain hplain d)

theorem passesOver_memberText (h : MemberText piece) (d : Nat) : PassesOver piece d d := by
  obtain ⟨⟨c, -, rfl⟩ | ⟨escape, hescape, rfl⟩, hplain⟩ := h
  · exact passesOver_plain (by simp [hplain c rfl]) d
  · exact passesOver_escape hescape d

/-- **The scan passes over an item** to the depth behind it, if the item does not mislead it. -/
theorem passesOver_item (h : ItemText item piece) (hread : ¬Misread piece) (hdepth : ¬(item = .closing ∧ d = 0)) :
    PassesOver piece d (item.depthAfter d) := by
  have hdash : PassesOver ['-'] d d := passesOver_plain (by simp [isBracketing]) d
  cases h with
  | named s h =>
    obtain ⟨inside, hplain, rfl⟩ := h
    exact (passesOver_open d).append ((passesOver_plain hplain _).append (passesOver_close d))
  | opening k h => exact (passesOver_open d).append (passesOver_plain h _)
  | openingBracket k negated => cases negated <;> exact absurd (by simp [Misread, sign]) hread
  | closing =>
    obtain ⟨d, rfl⟩ := Nat.exists_eq_succ_of_ne_zero fun h => hdepth ⟨rfl, h⟩
    exact passesOver_close d
  | operator op h => exact passesOver_plain (by simp [h]) d
  | single s h => exact passesOver_memberText h d
  | range s hlow hhigh =>
    exact (passesOver_memberText hlow d).append (hdash.append (passesOver_memberText hhigh d))
  | bareRange s h => exact absurd (Or.inr (Or.inr (List.suffix_append _ _))) hread

/-! ## The scan over a class -/

/-- **The scan finds the end of the class that the reader finds**: it gives the members if nothing stands behind, and
nothing if something does. -/
theorem membersFrom_of_readMembers : ∀ {n : Nat} {top : OpenClass} {outer : List OpenClass} {cs rest : List Char}
    {set : Nested CharSet}, readMembers C.flags n top outer cs = some (set, rest) →
      (∀ i ∈ itemsFrom C n outer.length cs, ¬Misread i.2) →
      ∃ ms, cs = ms ++ ']' :: rest ∧ membersFrom false outer.length cs = if rest = [] then some ms else none := by
  intro n
  -- on the steps of the reader, which stands as deep as the scan before each of them
  induction n with
  | zero => nofun
  | succ n ih =>
    intro top outer cs rest set hclass hread
    rw [readMembers_succ] at hclass
    obtain ⟨⟨item, rest'⟩, hitem, h⟩ := Option.bind_eq_some_iff.1 hclass
    obtain ⟨piece, hpiece, rfl⟩ := exists_itemText hitem
    by_cases hend : item = .closing ∧ outer.length = 0
    · obtain ⟨rfl, houter⟩ := hend
      obtain rfl := List.length_eq_zero_iff.1 houter
      cases hpiece
      obtain ⟨rfl, rfl⟩ : top.close = set ∧ rest' = rest := by simpa using h
      refine ⟨[], rfl, ?_⟩
      cases rest' <;> rfl
    · rw [itemsFrom_succ hitem hend, List.forall_mem_cons] at hread
      -- what is left is read with the classes open that the item leaves open
      obtain ⟨top', outer', houter, h⟩ : ∃ top' outer', outer'.length = item.depthAfter outer.length ∧
          readMembers C.flags n top' outer' rest' = some (set, rest) := by
        cases item with
        | member s | operator op => exact ⟨_, outer, rfl, h⟩
        | opening k => exact ⟨k, top :: outer, rfl, h⟩
        | closing =>
          cases outer with
          | nil => exact absurd ⟨rfl, rfl⟩ hend
          | cons next outer => exact ⟨_, outer, rfl, h⟩
      obtain ⟨ms, rfl, hms⟩ := ih h (houter ▸ hread.2)
      refine ⟨piece ++ ms, by simp, ?_⟩
      rw [passesOver_item hpiece hread.1 hend, ← houter, hms]
      split <;> rfl

theorem membersFrom_true (h : ∀ r, cs ≠ ']' :: r) (d : Nat) : membersFrom true d cs = membersFrom false d cs := by
  fun_cases membersFrom true d cs with
  | case5 | case6 | case7 => exact absurd rfl (h _)
  | _ => simp_all [membersFrom]

theorem classMembers_cons (cs : List Char) :
    classMembers ('[' :: cs) = (membersFrom true 0 (signed cs).2).map (sign (signed cs).1 ++ ·) := by
  fun_cases signed cs with
  | case1 rest => rfl
  | case2 cs hhat =>
    rw [Splice.classMembers.eq_2 _ hhat]
    exact Option.map_id'.symm

def headMembers : List Char → List ClassItem
  | ']' :: _ => [.member (.single ']')]
  | cs => (cs.takeWhile (· == '-')).map fun _ => .member (.single '-')

def writtenHead : List Char → List Char
  | ']' :: _ => ['\\', ']']
  | cs => cs.takeWhile (· == '-')

/-- **What the scan gives for a class that the reader reads**: nothing if something stands behind, and else what stands
between the brackets, but with a backslash before a bracket that is the first member. -/
theorem classMembers_of_readClass (h : readClass C.flags cs = some (set, rest))
    (hread : ∀ i ∈ classItems ('[' :: cs) C, ¬Misread i.2) :
    ∃ inner, (openClass C.flags cs).2 = inner ++ ']' :: rest ∧ classMembers ('[' :: cs) =
      if rest = [] then some (sign (signed cs).1 ++ (writtenHead (signed cs).2 ++ inner)) else none := by
  rw [readClass_eq] at h
  obtain ⟨inner, hinner, hscan⟩ := membersFrom_of_readMembers h hread
  refine ⟨inner, hinner, ?_⟩
  rw [classMembers_cons]
  rw [openClass_eq rfl] at hscan
  generalize (signed cs).1 = negated, (signed cs).2 = behind at hscan ⊢
  have hhead : membersFrom true 0 behind =
      (membersFrom false 0 (openMembers C.flags (.start negated) behind).2).map (writtenHead behind ++ ·) := by
    rcases openMembers_cases (.start negated) behind with ⟨first, rfl, hopen⟩ | ⟨hbracket, hopen⟩
    · rw [hopen]
      rfl
    · rw [hopen, membersFrom_true hbracket, writtenHead.eq_2 _ hbracket]
      dsimp only
      rw [← passesOver_plain (plain_dashes behind), List.takeWhile_append_dropWhile]
  rw [hhead, show membersFrom false 0 _ = _ from hscan]
  split <;> rfl

/-! ## Sources that are one class -/

def isClass (source : List Char) (C : Compiler := .basic) : Bool :=
  match source with
  | '[' :: cs => match readClass C.flags cs with
    | some (_, []) => true
    | _ => false
  | _ => false

/-- A bracket that is the first member of the class at the head of a source, if it is one, is not the low end of a
range when it is written as an escape. -/
def bracketApart : List Char → Bool
  | '[' :: cs => match (signed cs).2 with
    | ']' :: rest => endsMember rest
    | _ => true
  | _ => true

theorem isClass_cons (h : readClass C.flags cs = some (set, rest)) : isClass ('[' :: cs) C = rest.isEmpty := by
  rw [isClass, h]
  cases rest <;> rfl

theorem readSyntax_bracketed (h : readClass C.flags cs = some (set, [])) :
    readSyntax C.flags ('[' :: cs) = some (set.map .one) := by
  rw [readSyntax_of_leads (leads_bracketed rfl h (Nat.zero_le _)), body_push]

theorem compile_bracketed {ms : List Char} (h : readClass C.flags (ms ++ [']']) = some (set, []))
    (hdepth : set.depth ≤ nestLimit) (hfits : C.fits (.one set.val) = true) :
    Pattern.compile (String.ofList ('[' :: (ms ++ [']']))) C.flags =
      some ⟨String.ofList ('[' :: (ms ++ [']'])), .one set.val⟩ := by
  rw [Pattern.compile, String.toList_ofList, ofChars_of_readSyntax (readSyntax_bracketed h)]
  exact if_pos ⟨hdepth, hfits⟩

theorem readClass_of_readSyntax {e : Nested Expr} (h : readSyntax C.flags ('[' :: cs) = some e) :
    ∃ set rest, readClass C.flags cs = some (set, rest) := by
  rw [readSyntax, readItems] at h
  obtain ⟨⟨set, rest⟩, hclass, -⟩ := Option.bind_eq_some_iff.1 h
  exact ⟨set, rest, hclass⟩

theorem readClass_escapedBracket (negated : Bool) (hend : endsMember cs = true)
    (h : readClass C.flags (sign negated ++ ']' :: cs) = some (set, rest)) :
    readClass C.flags (sign negated ++ '\\' :: ']' :: cs) = some (set, rest) := by
  have hbare : openClass C.flags (sign negated ++ ']' :: cs) =
      ((OpenClass.start negated).add (.single ']'), cs) := by
    rw [openClass_eq rfl, signed_sign_append (by simp)]
    rfl
  have hescaped : openClass C.flags (sign negated ++ '\\' :: ']' :: cs) = (.start negated, '\\' :: ']' :: cs) :=
    openClass_sign_append (by simp) (by simp) (by simp)
  have hitem : nextItem? C ('\\' :: ']' :: cs) = some (.member (.single ']'), cs) := nextItem?_escapeMembers ']' hend
  rw [readClass_eq, hbare] at h
  rw [readClass_eq, hescaped, readMembers_succ, hitem]
  exact readMembers_mono (by simp) h

/-- **What the scan writes is read as the same class.** -/
theorem readClass_written {inner : List Char} (h : readClass C.flags cs = some (set, []))
    (hinner : (openClass C.flags cs).2 = inner ++ [']']) (hbracket : bracketApart ('[' :: cs) = true) :
    readClass C.flags (sign (signed cs).1 ++ (writtenHead (signed cs).2 ++ inner) ++ [']']) = some (set, []) := by
  rw [openClass_eq rfl] at hinner
  rw [bracketApart] at hbracket
  have hcs := sign_append_signed cs
  generalize (signed cs).1 = negated, (signed cs).2 = behind at hinner hcs hbracket ⊢
  subst hcs
  -- but for a bracket that is the first member, what is written is the source itself
  rcases openMembers_cases (.start negated) behind with ⟨first, rfl, hopen⟩ | ⟨hfirst, hopen⟩
  · rw [hopen] at hinner
    obtain rfl : first = inner ++ [']'] := hinner
    simpa [writtenHead] using readClass_escapedBracket negated hbracket h
  · rw [hopen] at hinner
    rw [writtenHead.eq_2 _ hfirst, List.append_assoc, List.append_assoc, ← hinner, List.takeWhile_append_dropWhile]
    exact h

/-- **The scan finds the members of a source if and only if the source is one class**, and they make a class with the
same characters, unless an item misleads it or the first bracket would begin a range. -/
theorem classMembers_iff_isClass {C : Compiler} {source : String} {p : Pattern}
    (hp : Pattern.compile source C.flags = some p) (hread : ∀ i ∈ classItems source.toList C, ¬Misread i.2) :
    (classMembers source.toList).isSome = isClass source.toList C ∧
    (bracketApart source.toList = true → ∀ ms, classMembers source.toList = some ms →
      ∃ q, Pattern.compile (String.ofList ('[' :: (ms ++ [']']))) C.flags = some q ∧ q.expr = p.expr) := by
  obtain ⟨-, hfits, d, hdepth, he⟩ := ofChars_eq_some_iff.1 hp
  generalize source.toList = text at he hread ⊢
  by_cases hopen : ∃ cs, text = '[' :: cs
  · obtain ⟨cs, rfl⟩ := hopen
    obtain ⟨set, rest, hclass⟩ := readClass_of_readSyntax he
    obtain ⟨inner, hinner, hms⟩ := classMembers_of_readClass hclass hread
    rw [hms, isClass_cons hclass]
    refine ⟨by cases rest <;> rfl, fun hbracket ms hsome => ?_⟩
    obtain ⟨rfl, rfl⟩ : rest = [] ∧ sign (signed cs).1 ++ (writtenHead (signed cs).2 ++ inner) = ms := by
      simpa using hsome
    obtain ⟨hexpr, rfl⟩ : .one set.val = p.expr ∧ set.depth = d :=
      Nested.mk.inj (Option.some.inj ((readSyntax_bracketed hclass).symm.trans he))
    rw [← hexpr] at hfits ⊢
    exact ⟨_, compile_bracketed (readClass_written hclass hinner hbracket) hdepth hfits, rfl⟩
  · have hscan : classMembers text = none :=
      Splice.classMembers.eq_3 text (fun cs h => hopen ⟨_, h⟩) fun cs h => hopen ⟨cs, h⟩
    have hclass : isClass text C = false := by
      unfold isClass
      split
      · exact absurd ⟨_, rfl⟩ hopen
      · rfl
    rw [hscan, hclass]
    exact ⟨rfl, nofun⟩

/-- A complement with a bracket first, a class inside, an operator and a named class. -/
theorem classMembers_iff_isClass_nested :
    ∃ p q, Pattern.compile "[^]a[^b-d\\]]&&[:alpha:]--x]" = some p ∧
      isClass "[^]a[^b-d\\]]&&[:alpha:]--x]".toList = true ∧
      classMembers "[^]a[^b-d\\]]&&[:alpha:]--x]".toList = some "^\\]a[^b-d\\]]&&[:alpha:]--x".toList ∧
      Pattern.compile "[^\\]a[^b-d\\]]&&[:alpha:]--x]" = some q ∧ q.expr = p.expr := by
  obtain ⟨p, hp⟩ := Option.isSome_iff_exists.1
    (show (Pattern.compile "[^]a[^b-d\\]]&&[:alpha:]--x]").isSome = true by decide +kernel)
  obtain ⟨hiff, hsame⟩ := classMembers_iff_isClass (C := .basic) hp (by decide +kernel)
  have hms : classMembers "[^]a[^b-d\\]]&&[:alpha:]--x]".toList = some "^\\]a[^b-d\\]]&&[:alpha:]--x".toList := by
    decide +kernel
  obtain ⟨q, hq, hexpr⟩ := hsame (by decide +kernel) _ hms
  refine ⟨p, q, hp, ?_, hms, hq, hexpr⟩
  rw [← hiff, hms]
  rfl

/-- A class inside with a bracket first is no class for the scan; a range up to a bare bracket takes in what stands
behind the class; and a bracket first, before a dash, begins a range. -/
theorem not_classMembers_iff_isClass :
    ((Pattern.compile "[[]a]]").isSome = true ∧ isClass "[[]a]]".toList = true ∧
      classMembers "[[]a]]".toList = none) ∧
    ((Pattern.compile "[+-[]a]").isSome = true ∧ isClass "[+-[]a]".toList = false ∧
      classMembers "[+-[]a]".toList = some "+-[]a".toList) ∧
    ∃ p q, Pattern.compile "[]-a]" = some p ∧ classMembers "[]-a]".toList = some "\\]-a".toList ∧
      Pattern.compile "[\\]-a]" = some q ∧ p.isMatch "-" = true ∧ q.isMatch "-" = false := by
  refine ⟨by decide +kernel, by decide +kernel, ?_⟩
  refine ⟨⟨"[]-a]", .one (.union (.union (.union .empty (.single ']')) (.single '-')) (.single 'a'))⟩,
    ⟨"[\\]-a]", .one (.union .empty (.range ']' 'a'))⟩, ?_⟩
  decide +kernel

end Packrat.Pattern
