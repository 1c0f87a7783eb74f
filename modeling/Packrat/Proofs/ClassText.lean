import Packrat.Proofs.ClassItems
import Packrat.Proofs.LiteralText
/-!
# ClassText — text in a class

Text that fills a hole in a class adds its characters to the class, and does nothing else there: each character is read
as a member of its own, whatever stands beside it.  Main statement: a class of such a text takes the characters of the
text, and its complement all others (`isMatch_members`).
-/
namespace Packrat.Pattern

variable {C : Compiler} {k k' k'' : OpenClass} {cs rest rest' : List Char} {set : CharSet} {item : ClassItem}

/-! ## Reading on in a class -/

def OpenClass.take (k : OpenClass) : ClassItem → OpenClass
  | .member set => k.add set
  | .operator op => k.operator op
  | .opening _ | .closing => k

/-- **Reading goes on in a class** over some text, and a step takes a character at least. -/
def ReadsOn (C : Compiler) (k : OpenClass) (cs : List Char) (k' : OpenClass) (rest : List Char) : Prop :=
  ∃ n, n + rest.length ≤ cs.length ∧
    ∀ fuel outer, readMembers C.flags (fuel + n) k outer cs = readMembers C.flags fuel k' outer rest

theorem ReadsOn.refl (k : OpenClass) (cs : List Char) : ReadsOn C k cs k cs := ⟨0, by omega, fun _ _ => rfl⟩

theorem ReadsOn.trans (h : ReadsOn C k cs k' rest) (h' : ReadsOn C k' rest k'' rest') : ReadsOn C k cs k'' rest' := by
  obtain ⟨n, hn, h⟩ := h
  obtain ⟨m, hm, h'⟩ := h'
  refine ⟨m + n, by omega, fun fuel outer => ?_⟩
  rw [← Nat.add_assoc, h, h']

theorem length_lt_of_nextItem? (h : nextItem? C cs = some (item, rest)) : rest.length < cs.length := by
  obtain ⟨piece, hpiece, rfl⟩ := exists_itemText h
  have := List.length_pos_iff.2 hpiece.ne_nil
  rw [List.length_append]
  omega

theorem readsOn_item (h : nextItem? C cs = some (item, rest)) (hopen : ∀ k, item ≠ .opening k) (hclose : item ≠ .closing)
    (k : OpenClass) : ReadsOn C k cs (k.take item) rest := by
  refine ⟨1, by have := length_lt_of_nextItem? h; omega, fun fuel outer => ?_⟩
  rw [readMembers_succ, h, Option.bind_some]
  cases item with
  | member set | operator op => rfl
  | opening k => exact absurd rfl (hopen k)
  | closing => exact absurd rfl hclose

/-- **A class that is read up to its bracket** is the one that is open there. -/
theorem readMembers_of_readsOn (h : ReadsOn C k cs k' (']' :: rest)) :
    readMembers C.flags (cs.length + 1) k [] cs = some (k'.close, rest) := by
  obtain ⟨n, hn, h⟩ := h
  rw [List.length_cons] at hn
  have hlen : cs.length + 1 = (cs.length - n) + 1 + n := by omega
  rw [hlen, h]
  rfl

/-! ## Texts as members -/

def OpenClass.addAll (k : OpenClass) (text : List Char) : OpenClass :=
  text.foldl (fun k c => k.add (.single c)) k

@[simp] theorem addAll_negated (text : List Char) (k : OpenClass) : (k.addAll text).negated = k.negated := by
  induction text generalizing k with
  | nil => rfl
  | cons c text ih => exact ih _

@[simp] theorem addAll_waiting (text : List Char) (k : OpenClass) : (k.addAll text).waiting = k.waiting := by
  induction text generalizing k with
  | nil => rfl
  | cons c text ih => exact ih _

theorem mem_row (members : List (Nested CharSet)) (c : Char) :
    (Nested.row CharSet.unionAll members).val.mem c = true ↔ ∃ m ∈ members, m.val.mem c = true := by
  rw [Nested.row, CharSet.mem_unionAll]
  simp

def OpenClass.Has (k : OpenClass) (c : Char) : Prop := ∃ m ∈ k.members, m.val.mem c = true

theorem has_start (negated : Bool) (c : Char) : ¬(OpenClass.start negated).Has c := by simp [OpenClass.Has, OpenClass.start]

theorem has_add (k : OpenClass) (set : CharSet) (c : Char) : (k.add set).Has c ↔ set.mem c = true ∨ k.Has c := by
  simp [OpenClass.Has, OpenClass.add, OpenClass.push, Nested.leaf]

theorem has_addAll (text : List Char) (k : OpenClass) (c : Char) : (k.addAll text).Has c ↔ k.Has c ∨ c ∈ text := by
  induction text generalizing k with
  | nil => simp [OpenClass.addAll]
  | cons d text ih =>
    change ((k.add (.single d)).addAll text).Has c ↔ _
    rw [ih, has_add, CharSet.mem_single, List.mem_cons, or_assoc, or_left_comm]

theorem mem_current (hwaiting : k.waiting = none) (c : Char) : k.current.val.mem c = true ↔ k.Has c := by
  rw [OpenClass.current, hwaiting]
  exact (mem_row _ c).trans (by simp only [List.mem_reverse, OpenClass.Has])

theorem mem_close (k : OpenClass) (c : Char) :
    k.close.val.mem c = true ↔ (k.negated = false ↔ k.current.val.mem c = true) := by
  rw [OpenClass.close]
  cases k.negated <;> simp [CharSet.mem]

theorem operator?_eq_none {c : Char} (hc : c ∉ ['&', '-', '~']) (cs : List Char) : operator? (c :: cs) = none := by
  unfold operator?
  split <;> simp_all

theorem endsMember_of_ne (h : ∀ r, cs ≠ '-' :: r) : endsMember cs = true := by
  unfold endsMember
  split <;> simp_all

/-- **A character that is written as a member is read as one**, if no range opens behind it. -/
theorem nextItem?_escapeMembers (c : Char) (hend : endsMember rest = true) :
    nextItem? C (escapeMembers [c] ++ rest) = some (.member (.single c), rest) := by
  by_cases hc : isClassMeta c
  · have htext : escapeMembers [c] ++ rest = '\\' :: c :: rest := by
      rw [escapeMembers, List.flatMap_singleton, if_pos hc]
      rfl
    have hatom : readClassAtom C.flags ('\\' :: c :: rest) = some (.char c, rest) := by
      simp only [isClassMeta, List.contains_eq_mem, List.mem_cons, List.not_mem_nil, or_false,
        decide_eq_true_eq] at hc
      rcases hc with rfl | rfl | rfl | rfl | rfl | rfl | rfl <;> rfl
    rw [htext, nextItem?_cons (by decide), operator?_eq_none (by decide), readMember_single hatom hend rfl]
    rfl
  · have htext : escapeMembers [c] ++ rest = c :: rest := by
      rw [escapeMembers, List.flatMap_singleton, if_neg hc]
      rfl
    simp only [isClassMeta, List.contains_eq_mem, List.mem_cons, List.not_mem_nil, or_false, decide_eq_true_eq,
      not_or] at hc
    have hatom : readClassAtom C.flags (c :: rest) = some (.char c, rest) := readClassAtom.eq_3 _ _ _ hc.1
    rw [htext, nextItem?_cons (by simp [hc]), operator?_eq_none (by simp [hc]), readMember_single hatom hend rfl]
    rfl

theorem escapeMembers_cons (c : Char) (text : List Char) :
    escapeMembers (c :: text) = escapeMembers [c] ++ escapeMembers text := by
  simp [escapeMembers]

theorem head_escapeMembers {text : List Char} {d : Char} (h : escapeMembers text ++ rest = d :: cs)
    (hd : isClassMeta d) (hslash : d ≠ '\\') : text = [] ∧ rest = d :: cs := by
  cases text with
  | nil => exact ⟨rfl, h⟩
  | cons c text =>
    rw [escapeMembers_cons, escapeMembers, List.flatMap_singleton] at h
    split at h
    · exact absurd (List.cons.inj h).1.symm hslash
    · rename_i hc
      exact absurd ((List.cons.inj h).1 ▸ hd) hc

/-- **Text that is written as members adds its characters to the class.** -/
theorem readsOn_escapeMembers (hrest : ∀ r, rest ≠ '-' :: r) :
    ∀ (text : List Char) (k : OpenClass), ReadsOn C k (escapeMembers text ++ rest) (k.addAll text) rest
  | [], k => ReadsOn.refl k rest
  | c :: text, k => by
    have hend : endsMember (escapeMembers text ++ rest) = true := by
      refine endsMember_of_ne fun r he => ?_
      exact hrest r (head_escapeMembers he (by decide) (by decide)).2
    rw [escapeMembers_cons, List.append_assoc]
    exact (readsOn_item (nextItem?_escapeMembers c hend) nofun nofun k).trans (readsOn_escapeMembers hrest text _)

/-! ## Classes in a pattern -/

theorem openClass_sign_append {negated : Bool} (hhat : negated = false → ∀ r, cs ≠ '^' :: r)
    (hdash : ∀ r, cs ≠ '-' :: r) (hclose : ∀ r, cs ≠ ']' :: r) :
    openClass C.flags (sign negated ++ cs) = (.start negated, cs) := by
  rw [openClass_eq rfl, signed_sign_append hhat]
  exact openMembers.eq_3 C.flags _ cs (fun r he => hdash r he) fun r he => hclose r he

theorem readClass_eq (cs : List Char) : readClass C.flags cs = readMembers C.flags ((openClass C.flags cs).2.length + 1)
    (openClass C.flags cs).1 [] (openClass C.flags cs).2 := by
  unfold readClass
  generalize openClass C.flags cs = opened
  obtain ⟨k, rest⟩ := opened
  dsimp only
  cases readMembers C.flags (rest.length + 1) k [] rest <;> rfl

theorem leads_bracketed {g : OpenGroup} (hg : g.flags = C.flags) {outer : List OpenGroup} {names : List String}
    {set : Nested CharSet} (h : readClass C.flags cs = some (set, rest)) (hlen : rest.length ≤ cs.length) :
    Leads ⟨g, outer, names, '[' :: cs⟩ ⟨g.push (set.map .one), outer, names, rest⟩ := by
  obtain ⟨flags, capture, complete, items, repeatable⟩ := g
  cases hg
  refine ⟨1, by simp only [List.length_cons]; omega, fun fuel => ?_⟩
  rw [readItems, skip_flags]
  simp only [h, Option.bind_eq_bind, Option.bind_some]

theorem spans_one_whole (set : CharSet) (cs : List Char) :
    (Expr.one set).Spans ⟨[], cs⟩ ⟨cs.reverse, []⟩ ↔ ∃ c, set.mem c = true ∧ cs = [c] := by
  constructor
  · rintro ⟨c, hc, hcs, -⟩
    exact ⟨c, hc, hcs⟩
  · rintro ⟨c, hc, rfl⟩
    exact ⟨c, hc, rfl, rfl⟩

/-- **A class between the ends of the text** is composed unless it is nested too deep or too large, and matches the
texts of one character that it has. -/
theorem compose_bracketed {parts : List String} {fillers : List Splice.Filler} {splice : Splice} {set : Nested CharSet}
    (hp : Splice.analyse parts = .ok splice)
    (hs : splice.sourceChars fillers = .ok ('\\' :: 'A' :: '[' :: (cs ++ ']' :: ['\\', 'z'])))
    (hread : readClass C.flags (cs ++ ']' :: ['\\', 'z']) = some (set, ['\\', 'z'])) :
    ((∃ p, Splice.compose parts fillers C = .ok p) ↔
      set.depth + 1 ≤ nestLimit ∧ C.fits (anchored (.one set.val)) = true) ∧
    ∀ p, Splice.compose parts fillers C = .ok p → ∀ text : String,
      p.isMatch text = true ↔ ∃ c, set.val.mem c = true ∧ text = String.ofList [c] := by
  have hs' : splice.sourceChars fillers = .ok ('\\' :: 'A' :: ('[' :: (cs ++ [']']) ++ ['\\', 'z'])) := by
    rw [hs, List.cons_append, List.append_assoc]
    rfl
  obtain ⟨hmade, hmatch⟩ := compose_anchored (C := C) (e := set.map .one) hp hs' fun g hg => by
    rw [List.cons_append, List.append_assoc]
    exact ⟨[], leads_bracketed hg hread (by simp)⟩
  refine ⟨hmade, fun p hp text => ?_⟩
  rw [hmatch p hp, Nested.val_map, spans_one_whole]
  simp only [← String.toList_inj, String.toList_ofList]

/-! ## Text in a class -/

theorem readClass_escapeMembers (negated : Bool) {text : List Char} (htext : text ≠ []) (rest : List Char) :
    readClass C.flags (sign negated ++ (escapeMembers text ++ ']' :: rest)) =
      some (((OpenClass.start negated).addAll text).close, rest) := by
  have hne : ∀ d r, isClassMeta d → d ≠ '\\' → escapeMembers text ++ ']' :: rest ≠ d :: r := fun d r hd hslash he =>
    htext (head_escapeMembers he hd hslash).1
  have hopen : openClass C.flags (sign negated ++ (escapeMembers text ++ ']' :: rest)) =
      (.start negated, escapeMembers text ++ ']' :: rest) :=
    openClass_sign_append (fun _ r => hne '^' r (by decide) (by decide))
      (fun r => hne '-' r (by decide) (by decide)) (fun r => hne ']' r (by decide) (by decide))
  rw [readClass_eq, hopen]
  exact readMembers_of_readsOn (readsOn_escapeMembers (by simp) text _)

theorem mem_close_addAll (negated : Bool) (text : List Char) (c : Char) :
    ((OpenClass.start negated).addAll text).close.val.mem c = true ↔ if negated then c ∉ text else c ∈ text := by
  have hmem : ((OpenClass.start negated).addAll text).current.val.mem c = true ↔ c ∈ text := by
    rw [mem_current (addAll_waiting _ _), has_addAll]
    simp [has_start]
  rw [mem_close, hmem, addAll_negated, OpenClass.start]
  cases negated <;> simp

def OpenClass.Flat (k : OpenClass) : Prop := ∀ m ∈ k.members, m.depth = 0

theorem flat_start (negated : Bool) : (OpenClass.start negated).Flat := by simp [OpenClass.Flat, OpenClass.start]

theorem OpenClass.Flat.add (h : k.Flat) (set : CharSet) : (k.add set).Flat := List.forall_mem_cons.2 ⟨rfl, h⟩

theorem OpenClass.Flat.addAll (text : List Char) (h : k.Flat) : (k.addAll text).Flat := by
  induction text generalizing k with
  | nil => exact h
  | cons c text ih => exact ih (h.add _)

theorem OpenClass.Flat.depth_row_le (h : k.Flat) : (Nested.row CharSet.unionAll k.members.reverse).depth ≤ 1 :=
  Nested.depth_row_le fun m hm => Nat.le_of_eq (h m (List.mem_reverse.1 hm))

theorem depth_close_addAll_le (negated : Bool) (text : List Char) :
    ((OpenClass.start negated).addAll text).close.depth ≤ 2 := by
  rw [OpenClass.close, Nested.depth_wrap, OpenClass.current, addAll_waiting]
  exact Nat.succ_le_succ ((flat_start negated).addAll text).depth_row_le

theorem compose_members (head : String) (negated : Bool) {t : String} (ht : t ≠ "")
    (hp : Splice.analyse [head, "]\\z"] = .ok ⟨[head, "]\\z"], [.charset]⟩)
    (hhead : head.toList = '\\' :: 'A' :: '[' :: sign negated) :
    ∃ p, Splice.compose [head, "]\\z"] [.text t] = .ok p ∧ ∀ text : String, p.isMatch text = true ↔
      ∃ c, (if negated then c ∉ t.toList else c ∈ t.toList) ∧ text = String.ofList [c] := by
  have hs : Splice.sourceChars ⟨[head, "]\\z"], [.charset]⟩ [.text t] =
      .ok ('\\' :: 'A' :: '[' :: (sign negated ++ escapeMembers t.toList ++ ']' :: ['\\', 'z'])) := by
    rw [sourceChars_eq rfl, hhead]
    simp [Splice.filled, Splice.written]
  obtain ⟨hmade, hmatch⟩ := compose_bracketed (C := .basic) hp hs (by
    rw [List.append_assoc]
    exact readClass_escapeMembers negated (by simpa using ht) _)
  have hdepth : ((OpenClass.start negated).addAll t.toList).close.depth + 1 ≤ nestLimit :=
    Nat.le_trans (Nat.succ_le_succ (depth_close_addAll_le negated _)) (by decide)
  obtain ⟨p, hp⟩ := hmade.2 ⟨hdepth, fits_anchored rfl⟩
  refine ⟨p, hp, fun text => ?_⟩
  rw [hmatch p hp]
  simp only [mem_close_addAll]

/-- **Text in a class is taken character by character**: the class has the characters of the text, and its complement
has all others. -/
theorem isMatch_members (t : String) (ht : t ≠ "") :
    (∃ p, Splice.compose ["\\A[", "]\\z"] [.text t] = .ok p ∧
      ∀ text : String, p.isMatch text = true ↔ ∃ c, c ∈ t.toList ∧ text = String.ofList [c]) ∧
    ∃ p, Splice.compose ["\\A[^", "]\\z"] [.text t] = .ok p ∧
      ∀ text : String, p.isMatch text = true ↔ ∃ c, c ∉ t.toList ∧ text = String.ofList [c] := by
  constructor
  · obtain ⟨p, hp, hmatch⟩ := compose_members "\\A[" false ht (by decide +kernel) rfl
    exact ⟨p, hp, fun text => by simpa using hmatch text⟩
  · obtain ⟨p, hp, hmatch⟩ := compose_members "\\A[^" true ht (by decide +kernel) rfl
    exact ⟨p, hp, fun text => by simpa using hmatch text⟩

/-- A text with all that means something in a class: the sign of a complement first, then brackets, a range and an
operator. -/
theorem isMatch_members_signs :
    "^]-[&&a" ≠ "" ∧
    ∃ p, Splice.compose ["\\A[", "]\\z"] [.text "^]-[&&a"] = .ok p ∧ p.isMatch "]" = true ∧ p.isMatch "b" = false := by
  have hne : "^]-[&&a" ≠ "" := by decide
  obtain ⟨⟨p, hp, hmatch⟩, -⟩ := isMatch_members "^]-[&&a" hne
  refine ⟨hne, p, hp, (hmatch "]").2 ⟨']', by decide, rfl⟩, ?_⟩
  rw [← Bool.not_eq_true, hmatch]
  rintro ⟨c, hc, htext⟩
  have hb : c = 'b' := by
    have h : ['b'] = [c] := (congrArg String.toList htext).trans String.toList_ofList
    exact (List.cons.inj h).1.symm
  subst hb
  exact absurd hc (by decide)

end Packrat.Pattern
