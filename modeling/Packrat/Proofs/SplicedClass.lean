import Packrat.Proofs.ClassMembers
import Packrat.Proofs.HoleContexts
/-!
# SplicedClass — a class in a class

A class that fills a hole in a class gives its members, as they are written.  An item of it is the same item there if
what stands behind it looks the same, so the class goes on with these items (`readsOn_flat`): letters before them join
the members before the first operator, letters behind them those behind the last one.  Only the sign of a complement
means something else behind letters, where it is a member.  Main statement: `isMatch_spliced`.
-/
namespace Packrat.Pattern

open Splice (classMembers)

variable {C : Compiler} {cs rest r t : List Char} {item : ClassItem} {x : Char} {k : OpenClass}

/-! ## What stands behind an item -/

theorem endsMember_cons_cons (c d : Char) (cs : List Char) :
    endsMember (c :: d :: cs) = (c != '-' || d == ']' || d == '-') := by
  by_cases hc : c = '-'
  · subst hc
    by_cases hd : d = ']' ∨ d = '-'
    · rcases hd with rfl | rfl <;> rfl
    · have hfalse : endsMember ('-' :: d :: cs) = false :=
        endsMember.eq_3 _ (fun r he => hd (Or.inl (List.cons.inj he).1)) fun r he => hd (Or.inr (List.cons.inj he).1)
      rw [hfalse]
      simpa using hd
  · rw [endsMember_of_ne fun r he => hc (List.cons.inj he).1]
    simp [hc]

theorem operator?_cons_cons {c d : Char} (h : operator? (c :: d :: cs) = none) (cs' : List Char) :
    operator? (c :: d :: cs') = none := by
  unfold operator? at h ⊢
  split <;> simp_all

theorem endsMember_behind (hx : x ≠ '-') (hdash : x = ']' ∨ r ≠ ['-']) (h : endsMember (r ++ [']']) = true)
    (t : List Char) : endsMember (r ++ x :: t) = true := by
  match r with
  | [] => exact endsMember_of_ne fun s he => hx (List.cons.inj he).1
  | [d] =>
    by_cases hd : d = '-'
    · subst hd
      rw [hdash.resolve_right fun h => h rfl]
      rfl
    · exact endsMember_of_ne fun s he => hd (List.cons.inj he).1
  | d :: e :: r =>
    rw [List.cons_append, List.cons_append, endsMember_cons_cons] at h ⊢
    exact h

theorem operator?_behind {c : Char} (hx : x ∉ ['&', '-', '~']) (h : operator? (c :: (r ++ [']'])) = none)
    (t : List Char) : operator? (c :: (r ++ x :: t)) = none := by
  match r with
  | [] =>
    unfold operator?
    split <;> simp_all
  | d :: r => exact operator?_cons_cons h _

theorem readMember_behind {set : CharSet} (hx : x ≠ '-') (hdash : x = ']' ∨ r ≠ ['-'])
    (h : readMember C.flags cs = some (set, r ++ [']'])) :
    ∃ c more, cs = c :: (more ++ (r ++ [']'])) ∧
      ∀ t, readMember C.flags (c :: (more ++ (r ++ x :: t))) = some (set, r ++ x :: t) := by
  rcases readMember_cases h with ⟨a, ha, hend, hset⟩ | ⟨a, b, behind, ha, hopen, hb, hle, rfl⟩
  · obtain ⟨piece, hpiece, rfl, hagain⟩ := exists_atomText ha (ne_look_of_toSet hset)
    obtain ⟨c, more, rfl⟩ := hpiece.exists_cons
    exact ⟨c, more, rfl, fun t => readMember_single (hagain _) (endsMember_behind hx hdash hend t) hset⟩
  · obtain ⟨low, hlow, rfl, hlow'⟩ := exists_atomText ha nofun
    obtain ⟨high, hhigh, rfl, hhigh'⟩ := exists_atomText hb nofun
    obtain ⟨c, more, rfl⟩ := hlow.exists_cons
    obtain ⟨d, more', rfl⟩ := hhigh.exists_cons
    refine ⟨c, more ++ '-' :: d :: more', by simp, fun t => ?_⟩
    have htext : c :: (more ++ '-' :: d :: more' ++ (r ++ x :: t)) =
        c :: more ++ '-' :: (d :: more' ++ (r ++ x :: t)) := by
      simp
    rw [List.cons_append, endsMember_cons_cons] at hopen
    rw [htext]
    exact readMember_range (hlow' _) ((endsMember_cons_cons _ _ _).trans hopen) (hhigh' _) hle

/-- **An item of a class is the same item** where something else that begins no operator and no range stands in place of
the bracket. -/
theorem nextItem?_behind (hx : x ∉ ['&', '-', '~']) (hdash : x = ']' ∨ r ≠ ['-']) (hopen : ∀ s, cs ≠ '[' :: s)
    (hclose : item ≠ .closing) (h : nextItem? C cs = some (item, r ++ [']'])) :
    ∃ piece, cs = piece ++ (r ++ [']']) ∧ ∀ t, nextItem? C (piece ++ (r ++ x :: t)) = some (item, r ++ x :: t) := by
  have hxdash : x ≠ '-' := by
    rintro rfl
    exact hx (by decide)
  obtain ⟨c, s, rfl⟩ : ∃ c s, cs = c :: s := by
    cases cs with
    | nil => cases h
    | cons c s => exact ⟨c, s, rfl⟩
  have hc : c ∉ ['[', ']'] := by
    simp only [List.mem_cons, List.not_mem_nil, or_false, not_or]
    refine ⟨fun he => hopen s (he ▸ rfl), ?_⟩
    rintro rfl
    cases h
    exact hclose rfl
  rw [nextItem?_cons hc] at h
  split at h
  · rename_i op s' hop
    cases h
    obtain ⟨_, ⟨d, hd, rfl⟩, hcs, hagain⟩ := operator?_takesPieces hop
    refine ⟨[d, d], hcs, fun t => ?_⟩
    obtain rfl : c = d := (List.cons.inj hcs).1
    have hop' : operator? (c :: c :: (r ++ x :: t)) = some (op, r ++ x :: t) := hagain _
    change nextItem? C (c :: c :: (r ++ x :: t)) = _
    rw [nextItem?_cons hc, hop']
  · rename_i hop
    obtain ⟨⟨s', rest⟩, hmember, he⟩ := Option.map_eq_some_iff.1 h
    cases he
    obtain ⟨d, more, hcs, hagain⟩ := readMember_behind hxdash hdash hmember
    obtain ⟨rfl, rfl⟩ := List.cons.inj hcs
    refine ⟨c :: more, rfl, fun t => ?_⟩
    have hop' : operator? (c :: (more ++ (r ++ x :: t))) = none := by
      rw [← List.append_assoc] at hop ⊢
      exact operator?_behind hx hop t
    rw [List.cons_append, nextItem?_cons hc, hop']
    dsimp only
    rw [hagain]
    rfl

/-! ## Classes without brackets inside -/

def HasBracket (piece : List Char) : Prop := piece.head? = some '[' ∨ ['-', '['] <:+ piece

instance (piece : List Char) : Decidable (HasBracket piece) := inferInstanceAs (Decidable (_ ∨ _))

theorem HasBracket.of_misread {piece : List Char} (h : Misread piece) : HasBracket piece := by
  rcases h with rfl | rfl | h
  · exact Or.inl rfl
  · exact Or.inl rfl
  · exact Or.inr h

/-- **A class without brackets inside is the fold of its items**, and a class goes on with the same items where another
character stands in place of the bracket behind them. -/
theorem readsOn_flat (hx : x ∉ ['&', '-', '~']) : ∀ {n : Nat} {k : OpenClass} {cs : List Char}
    {set : Nested CharSet}, readMembers C.flags n k [] cs = some (set, []) →
    (∀ i ∈ itemsFrom C n 0 cs, ¬HasBracket i.2) →
    (x = ']' ∨ ((itemsFrom C n 0 cs).map Prod.snd).getLast? ≠ some ['-']) →
    ∃ r, cs = r ++ [']'] ∧ (x = ']' ∨ r ≠ ['-']) ∧
      set = (((itemsFrom C n 0 cs).map Prod.fst).foldl OpenClass.take k).close ∧
      ∀ k' t, ReadsOn C k' (r ++ x :: t) (((itemsFrom C n 0 cs).map Prod.fst).foldl OpenClass.take k') (x :: t) := by
  intro n
  -- what is left behind an item decides whether the item is the same, so the rest is read first
  induction n with
  | zero => nofun
  | succ n ih =>
    intro k cs set hclass hflat hlast
    rw [readMembers_succ] at hclass
    obtain ⟨⟨item, rest⟩, hitem, h⟩ := Option.bind_eq_some_iff.1 hclass
    obtain ⟨piece, hpiece, rfl⟩ := exists_itemText hitem
    by_cases hclose : item = .closing
    · subst hclose
      cases hpiece
      obtain ⟨rfl, rfl⟩ : k.close = set ∧ rest = [] := by simpa using h
      exact ⟨[], rfl, Or.inr (by simp), rfl, fun k' t => ReadsOn.refl k' _⟩
    · rw [itemsFrom_succ hitem fun h => hclose h.1] at hflat hlast ⊢
      rw [List.forall_mem_cons] at hflat
      have hopen : ∀ s, piece ++ rest ≠ '[' :: s := by
        intro s he
        obtain ⟨c, more, rfl⟩ := List.exists_cons_of_ne_nil hpiece.ne_nil
        exact hflat.1 (Or.inl (congrArg some (List.cons.inj he).1))
      obtain ⟨hflatItem, hdepth, h⟩ : (∀ k', item ≠ .opening k') ∧ item.depthAfter 0 = 0 ∧
          readMembers C.flags n (k.take item) [] rest = some (set, []) := by
        cases item with
        | member s | operator op => exact ⟨nofun, rfl, h⟩
        | opening k' => cases hpiece <;> exact absurd rfl (hopen _)
        | closing => exact absurd rfl hclose
      rw [hdepth] at hflat hlast ⊢
      have hlast' : x = ']' ∨ ((itemsFrom C n 0 rest).map Prod.snd).getLast? ≠ some ['-'] := by
        refine hlast.imp_right fun hlast he => hlast ?_
        rw [List.map_cons, List.getLast?_cons, he]
        rfl
      obtain ⟨r, rfl, hdash, hset, hreads⟩ := ih h hflat.2 hlast'
      obtain ⟨piece', hcs, hagain⟩ := nextItem?_behind hx hdash hopen hclose hitem
      obtain rfl : piece = piece' := List.append_cancel_right hcs
      refine ⟨piece ++ r, by simp, ?_, hset, fun k' t => ?_⟩
      -- a single dash before the bracket would be the last item
      · refine hlast.imp_right fun hlast he => ?_
        obtain ⟨rfl, rfl⟩ : piece = ['-'] ∧ r = [] := by
          simpa [hpiece.ne_nil] using List.append_eq_singleton_iff.1 he
        have hend : itemsFrom C n 0 ([] ++ [']']) = [] := by cases n <;> rfl
        rw [hend] at hlast
        exact hlast rfl
      · rw [List.append_assoc]
        exact (readsOn_item (hagain t) hflatItem hclose k').trans (hreads _ t)

/-! ## The head of a class -/

theorem foldl_headMembers (k : OpenClass) (cs : List Char) :
    (openMembers C.flags k cs).1 = (headMembers cs).foldl OpenClass.take k := by
  rcases openMembers_cases k cs with ⟨rest, rfl, hopen⟩ | ⟨hclose, hopen⟩
  · rw [hopen]
    rfl
  · rw [hopen, headMembers.eq_2 _ hclose, List.foldl_map]
    rfl

theorem ne_hat_of_signed (h : (signed cs).1 = false) (r : List Char) : (signed cs).2 ≠ '^' :: r := by
  fun_cases signed cs with
  | case1 rest => cases h
  | case2 cs hhat => exact fun he => hhat r he

theorem openClass_dashes {negated : Bool} {dashes : List Char} (hdashes : ∀ d ∈ dashes, d = '-')
    (hrest : ∀ r, rest ≠ '-' :: r) (hclose : dashes = [] → ∀ r, rest ≠ ']' :: r)
    (hhat : dashes = [] → negated = false → ∀ r, rest ≠ '^' :: r) :
    openClass C.flags (sign negated ++ (dashes ++ rest)) =
      ((dashes.map fun _ => ClassItem.member (.single '-')).foldl OpenClass.take (.start negated), rest) := by
  cases dashes with
  | nil => exact openClass_sign_append (hhat rfl) hrest (hclose rfl)
  | cons d dashes =>
    obtain rfl : d = '-' := hdashes d List.mem_cons_self
    have hall : ∀ d ∈ '-' :: dashes, (d == '-') = true := fun d hd => beq_iff_eq.2 (hdashes d hd)
    rw [openClass_eq rfl, signed_sign_append (by simp)]
    rcases openMembers_cases (.start negated) ('-' :: dashes ++ rest) with ⟨r, he, -⟩ | ⟨-, hopen⟩
    · cases he
    · rw [hopen, List.takeWhile_append_of_pos hall, List.dropWhile_append_of_pos hall, takeWhile_dash hrest,
        dropWhile_dash hrest, List.append_nil, List.foldl_map]
      rfl

/-! ## Letters beside a class -/

theorem ne_of_isAlpha {c d : Char} (hc : c.isAlpha = true) (hd : d.isAlpha = false) : c ≠ d := by
  rintro rfl
  rw [hc] at hd
  cases hd

theorem not_mem_of_isAlpha {c : Char} {signs : List Char} (hc : c.isAlpha = true) (h : signs.any Char.isAlpha = false) :
    c ∉ signs := fun hmem => List.any_eq_false.1 h c hmem hc

theorem escapeMembers_letters {text : List Char} (h : ∀ c ∈ text, c.isAlpha = true) : escapeMembers text = text := by
  induction text with
  | nil => rfl
  | cons c text ih =>
    have hc : ¬isClassMeta c = true := by
      intro hmeta
      simp only [isClassMeta, List.contains_eq_mem, decide_eq_true_eq] at hmeta
      exact not_mem_of_isAlpha (h c List.mem_cons_self) (by decide) hmeta
    rw [escapeMembers_cons, ih fun d hd => h d (List.mem_cons_of_mem _ hd), escapeMembers, List.flatMap_singleton,
      if_neg hc]
    rfl

theorem readsOn_letters {text : List Char} (h : ∀ c ∈ text, c.isAlpha = true) (hrest : ∀ r, rest ≠ '-' :: r)
    (k : OpenClass) : ReadsOn C k (text ++ rest) (k.addAll text) rest := by
  have hread := readsOn_escapeMembers (C := C) hrest text k
  rwa [escapeMembers_letters h] at hread

theorem readsOn_sign (negated : Bool) (hrest : ∀ r, rest ≠ '-' :: r) (k : OpenClass) :
    ReadsOn C k (sign negated ++ rest) (k.addAll (sign negated)) rest := by
  cases negated with
  | false => exact ReadsOn.refl k rest
  | true =>
    have hitem : nextItem? C ('^' :: rest) = some (.member (.single '^'), rest) := by
      rw [nextItem?_cons (by decide), operator?_eq_none (by decide), readMember_single rfl (endsMember_of_ne hrest) rfl]
      rfl
    exact readsOn_item hitem nofun nofun k

/-- If the text begins with a sign, another text begins with the same one. -/
def BeginsLike (text other : List Char) : Prop :=
  ∀ d s, d.isAlpha = false → text = d :: s → ∃ s', other = d :: s'

theorem beginsLike_letters {b : List Char} (hb : ∀ c ∈ b, c.isAlpha = true) (r t : List Char) :
    BeginsLike (r ++ (b ++ ']' :: t)) (r ++ [']']) := by
  intro d s hd h
  cases r with
  | cons c r => exact ⟨r ++ [']'], congrArg (· :: (r ++ [']'])) (List.cons.inj h).1⟩
  | nil =>
    cases b with
    | nil => exact ⟨[], congrArg (· :: []) (List.cons.inj h).1⟩
    | cons c b => exact absurd (List.cons.inj h).1 (ne_of_isAlpha (hb c List.mem_cons_self) hd)

/-! ## A class between letters -/

def isComplement : List Char → Bool
  | '[' :: cs => (signed cs).1
  | _ => false

def dashFirst : List Char → Bool
  | '[' :: cs => (signed cs).2.head? == some '-'
  | _ => false

def dashLast (source : List Char) (C : Compiler := .basic) : Bool :=
  ((classItems source C).map Prod.snd).getLast? == some ['-']

def allItems (source : List Char) (C : Compiler := .basic) : List ClassItem :=
  match source with
  | '[' :: cs => headMembers (signed cs).2 ++ (classItems ('[' :: cs) C).map Prod.fst
  | _ => []

theorem allItems_cons (cs : List Char) : allItems ('[' :: cs) C =
    headMembers (signed cs).2 ++ (classItems ('[' :: cs) C).map Prod.fst := rfl

/-- **The class that items make with texts before and behind them.** -/
def joined (negated : Bool) (before : List Char) (items : List ClassItem) (behind : List Char) : Nested CharSet :=
  ((items.foldl OpenClass.take ((OpenClass.start negated).addAll before)).addAll behind).close

/-- **The class that a class makes between texts**: the sign of a complement is one of the members behind a text. -/
def spliced (source before behind : List Char) (C : Compiler := .basic) : Nested CharSet :=
  if before = [] then joined (isComplement source) [] (allItems source C) behind
  else joined false (before ++ sign (isComplement source)) (allItems source C) behind

variable {a b : List Char}

theorem addAll_append (k : OpenClass) (a b : List Char) : k.addAll (a ++ b) = (k.addAll a).addAll b := List.foldl_append

/-- **A class without brackets inside, read up to letters in place of its bracket**: what it makes, and what a class
that goes on with its items makes. -/
theorem readsOn_classItems {set : Nested CharSet} (h : readClass C.flags cs = some (set, []))
    (hflat : ∀ i ∈ classItems ('[' :: cs) C, ¬HasBracket i.2) (hb : ∀ c ∈ b, c.isAlpha = true)
    (hlast : b = [] ∨ dashLast ('[' :: cs) C = false) :
    ∃ r, (openClass C.flags cs).2 = r ++ [']'] ∧ set = joined (signed cs).1 [] (allItems ('[' :: cs) C) [] ∧
      (endsMember (r ++ [']']) = true → ∀ t, endsMember (r ++ (b ++ ']' :: t)) = true) ∧
      ∀ k t, ReadsOn C k (r ++ (b ++ ']' :: t))
        ((((classItems ('[' :: cs) C).map Prod.fst).foldl OpenClass.take k).addAll b) (']' :: t) := by
  -- the first letter stands in place of the bracket, or the bracket itself
  obtain ⟨x, hx, hxlast, s, hs⟩ : ∃ x, x ∉ ['&', '-', '~'] ∧ (x = ']' ∨ dashLast ('[' :: cs) C = false) ∧
      ∃ s : List Char → List Char, ∀ t, b ++ ']' :: t = x :: s t := by
    cases b with
    | nil => exact ⟨']', by decide, Or.inl rfl, id, fun _ => rfl⟩
    | cons c b =>
      have hc : c ∉ ['&', '-', '~'] := not_mem_of_isAlpha (hb c List.mem_cons_self) (by decide)
      exact ⟨c, hc, Or.inr (hlast.resolve_left (List.cons_ne_nil c b)), fun t => b ++ ']' :: t, fun _ => rfl⟩
  have hxdash : x ≠ '-' := by
    rintro rfl
    exact hx (by decide)
  rw [readClass_eq] at h
  obtain ⟨r, hr, hdash, hset, hreads⟩ := readsOn_flat hx h hflat (hxlast.imp_right fun h => beq_eq_false_iff_ne.1 h)
  refine ⟨r, hr, ?_, fun hend t => ?_, fun k t => ?_⟩
  · have hhead : (openClass C.flags cs).1 =
        (headMembers (signed cs).2).foldl OpenClass.take (.start (signed cs).1) := by
      rw [openClass_eq rfl, foldl_headMembers]
    rw [hset, hhead, ← List.foldl_append]
    rfl
  · rw [hs]
    exact endsMember_behind hxdash hdash hend (s t)
  · have hread := hreads k (s t)
    rw [← hs] at hread
    exact hread.trans (readsOn_letters hb (by simp) _)

theorem readsOn_writtenHead {behind : List Char} (hdash : ∀ r, behind ≠ '-' :: r)
    (hend : ∀ r, behind = ']' :: r → endsMember rest = true) (k : OpenClass) :
    ReadsOn C k (writtenHead behind ++ rest) ((headMembers behind).foldl OpenClass.take k) rest := by
  by_cases hbracket : ∃ r, behind = ']' :: r
  · obtain ⟨r, rfl⟩ := hbracket
    exact readsOn_item (nextItem?_escapeMembers ']' (hend r rfl)) nofun nofun k
  · have hclose : ∀ r, behind ≠ ']' :: r := fun r he => hbracket ⟨r, he⟩
    rw [writtenHead.eq_2 _ hclose, headMembers.eq_2 _ hclose, takeWhile_dash hdash]
    exact ReadsOn.refl k rest

variable {negated : Bool} {behind : List Char}

theorem openClass_writtenHead (hbehind : (openMembers C.flags (.start negated) behind).2 = r ++ [']'])
    (hhat : negated = false → ∀ s, behind ≠ '^' :: s) (hrest : BeginsLike rest (r ++ [']']))
    (hend : ∀ first, behind = ']' :: first → endsMember rest = true) :
    ∃ k text, openClass C.flags (sign negated ++ (writtenHead behind ++ rest)) = (k, text) ∧
      ReadsOn C k text ((headMembers behind).foldl OpenClass.take (.start negated)) rest := by
  rcases openMembers_cases (C := C) (.start negated) behind with ⟨first, rfl, -⟩ | ⟨hclose, hopen⟩
  · exact ⟨_, _, openClass_sign_append (by simp [writtenHead]) (by simp [writtenHead]) (by simp [writtenHead]),
      readsOn_writtenHead (by simp) hend _⟩
  · rw [hopen] at hbehind
    have hall : behind.takeWhile (· == '-') ++ (r ++ [']']) = behind := by
      rw [← hbehind]
      exact List.takeWhile_append_dropWhile
    have hdash : ∀ s, rest ≠ '-' :: s := fun s he => by
      obtain ⟨s', hs⟩ := hrest _ _ (by decide) he
      have hhead := List.head?_dropWhile_not (· == '-') behind
      rw [show behind.dropWhile (· == '-') = _ from hbehind, hs] at hhead
      cases hhead
    -- without dashes the class itself begins with what stands behind its head
    have hstart : behind.takeWhile (· == '-') = [] → BeginsLike rest behind := fun hnone d s hd he => by
      obtain ⟨s', hs⟩ := hrest d s hd he
      rw [hnone, hs] at hall
      exact ⟨s', hall.symm⟩
    rw [writtenHead.eq_2 _ hclose, headMembers.eq_2 _ hclose]
    refine ⟨_, _, openClass_dashes (fun d hd => eq_dash_of_mem_takeWhile hd) hdash (fun hnone s he => ?_)
      (fun hnone hneg s he => ?_), ReadsOn.refl _ _⟩
    · obtain ⟨s', hs⟩ := hstart hnone _ _ (by decide) he
      exact hclose s' hs
    · obtain ⟨s', hs⟩ := hstart hnone _ _ (by decide) he
      exact hhat hneg s' hs

theorem ne_dash_of_writtenHead {k : OpenClass} (hdash : ∀ s, behind ≠ '-' :: s)
    (hbehind : (openMembers C.flags k behind).2 = r ++ [']']) (hrest : BeginsLike rest (r ++ [']'])) (s : List Char) :
    writtenHead behind ++ rest ≠ '-' :: s := by
  rcases openMembers_cases (C := C) k behind with ⟨first, rfl, -⟩ | ⟨hclose, hopen⟩
  · simp [writtenHead]
  · rw [hopen] at hbehind
    intro he
    rw [writtenHead.eq_2 _ hclose, takeWhile_dash hdash] at he
    obtain ⟨s', hs⟩ := hrest _ _ (by decide) he
    rw [← hbehind] at hs
    exact hdash s' ((dropWhile_dash hdash).symm.trans hs)

theorem readClass_behind_letters {k : OpenClass} (ha : ∀ c ∈ a, c.isAlpha = true) (hne : a ≠ [])
    (hdash : ∀ s, behind ≠ '-' :: s) (hwritten : ∀ s, writtenHead behind ++ rest ≠ '-' :: s)
    (hend : ∀ first, behind = ']' :: first → endsMember rest = true)
    (hread : ReadsOn C ((headMembers behind).foldl OpenClass.take
      ((OpenClass.start false).addAll (a ++ sign negated))) rest k (']' :: t)) :
    readClass C.flags (a ++ (sign negated ++ (writtenHead behind ++ rest))) = some (k.close, t) := by
  have hsigned : ∀ s, sign negated ++ (writtenHead behind ++ rest) ≠ '-' :: s := by
    cases negated with
    | true => simp [sign]
    | false => exact hwritten
  have hopen : openClass C.flags (a ++ (sign negated ++ (writtenHead behind ++ rest))) =
      (.start false, a ++ (sign negated ++ (writtenHead behind ++ rest))) := by
    obtain ⟨c, a, rfl⟩ := List.exists_cons_of_ne_nil hne
    have hletter : ∀ {d : Char} {text : List Char} (s : List Char), d.isAlpha = false → c :: a ++ text ≠ d :: s :=
      fun s hd he => ne_of_isAlpha (ha c List.mem_cons_self) hd (List.cons.inj he).1
    change openClass C.flags (sign false ++ _) = _
    exact openClass_sign_append (fun _ s => hletter s (by decide)) (fun s => hletter s (by decide))
      fun s => hletter s (by decide)
  rw [addAll_append] at hread
  rw [readClass_eq, hopen]
  exact readMembers_of_readsOn ((readsOn_letters ha hsigned _).trans
    ((readsOn_sign negated hwritten _).trans ((readsOn_writtenHead hdash hend _).trans hread)))

/-- **A class without brackets inside, between letters in a class**, is read as its items with the letters before and
behind them; behind letters the sign of a complement is a member. -/
theorem readClass_spliced {set : Nested CharSet} (h : readClass C.flags cs = some (set, []))
    (hflat : ∀ i ∈ classItems ('[' :: cs) C, ¬HasBracket i.2)
    (ha : ∀ c ∈ a, c.isAlpha = true) (hb : ∀ c ∈ b, c.isAlpha = true) (hbracket : bracketApart ('[' :: cs) = true)
    (hfirst : a = [] ∨ dashFirst ('[' :: cs) = false) (hlast : b = [] ∨ dashLast ('[' :: cs) C = false) :
    ∃ ms, classMembers ('[' :: cs) = some ms ∧ ∀ t, readClass C.flags (a ++ (ms ++ (b ++ ']' :: t))) =
      some (spliced ('[' :: cs) a b C, t) := by
  obtain ⟨r, hr, -, hend, hreads⟩ := readsOn_classItems h hflat hb hlast
  obtain ⟨inner, hinner, hms⟩ := classMembers_of_readClass h fun i hi hmis => hflat i hi (.of_misread hmis)
  obtain rfl : inner = r := List.append_cancel_right (hinner.symm.trans hr)
  refine ⟨_, hms.trans (if_pos rfl), fun t => ?_⟩
  have hhat : (signed cs).1 = false → ∀ s, (signed cs).2 ≠ '^' :: s := ne_hat_of_signed
  have hrest := beginsLike_letters hb inner t
  rw [openClass_eq rfl] at hr
  have hends : ∀ first, (signed cs).2 = ']' :: first → endsMember (inner ++ (b ++ ']' :: t)) = true := by
    intro first he
    rw [he] at hr
    obtain rfl : first = inner ++ [']'] := hr
    rw [bracketApart, he] at hbracket
    exact hend hbracket t
  rw [List.append_assoc, List.append_assoc, spliced, allItems_cons, isComplement]
  rw [dashFirst] at hfirst
  generalize (signed cs).1 = negated, (signed cs).2 = behind at hr hhat hends hfirst ⊢
  by_cases hempty : a = []
  · subst hempty
    obtain ⟨k, text, hopen, hread⟩ := openClass_writtenHead hr hhat hrest hends
    have hall := readMembers_of_readsOn (hread.trans (hreads _ t))
    rw [← List.foldl_append] at hall
    rw [List.nil_append, readClass_eq, hopen, if_pos rfl]
    exact hall
  · have hdash : ∀ s, behind ≠ '-' :: s := by
      rintro s rfl
      exact absurd (hfirst.resolve_left hempty) (by simp)
    have hread := hreads ((headMembers behind).foldl OpenClass.take
      ((OpenClass.start false).addAll (a ++ sign negated))) t
    rw [← List.foldl_append] at hread
    rw [if_neg hempty]
    exact readClass_behind_letters ha hempty hdash (ne_dash_of_writtenHead hdash hr hrest) hends hread

/-! ## The characters of a class between letters -/

theorem foldl_take_negated (items : List ClassItem) (k : OpenClass) :
    (items.foldl OpenClass.take k).negated = k.negated := by
  induction items generalizing k with
  | nil => rfl
  | cons item items ih =>
    rw [List.foldl_cons, ih]
    cases item <;> rfl

theorem foldl_take_members {items : List ClassItem} (h : ∀ op, ClassItem.operator op ∉ items) (k : OpenClass) :
    (items.foldl OpenClass.take k).waiting = k.waiting ∧ ∀ c, (items.foldl OpenClass.take k).Has c ↔
      k.Has c ∨ ∃ s, .member s ∈ items ∧ s.mem c = true := by
  induction items generalizing k with
  | nil => simp
  | cons item items ih =>
    obtain ⟨hwaiting, hmem⟩ := ih (fun op hop => h op (List.mem_cons_of_mem _ hop)) (k.take item)
    rw [List.foldl_cons]
    refine ⟨hwaiting.trans ?_, fun c => (hmem c).trans ?_⟩
    · cases item with
      | operator op => exact absurd List.mem_cons_self (h op)
      | _ => rfl
    · cases item with
      | operator op => exact absurd List.mem_cons_self (h op)
      | member s => simp [OpenClass.take, has_add, or_and_right, exists_or, or_left_comm, or_assoc]
      | opening k' | closing => simp [OpenClass.take]

theorem mem_joined {items : List ClassItem} (h : ∀ op, ClassItem.operator op ∉ items) (negated : Bool)
    (before behind : List Char) (c : Char) :
    (joined negated before items behind).val.mem c = true ↔
      (negated = false ↔ c ∈ before ∨ c ∈ behind ∨ ∃ s, .member s ∈ items ∧ s.mem c = true) := by
  obtain ⟨hwaiting, hmem⟩ := foldl_take_members h ((OpenClass.start negated).addAll before)
  have hcurrent : ((items.foldl OpenClass.take ((OpenClass.start negated).addAll before)).addAll
      behind).current.val.mem c = true ↔ c ∈ before ∨ c ∈ behind ∨ ∃ s, .member s ∈ items ∧ s.mem c = true := by
    rw [mem_current (by rw [addAll_waiting, hwaiting, addAll_waiting]; rfl), has_addAll, hmem, has_addAll]
    simp only [has_start, false_or, or_assoc]
    exact or_congr_right or_comm
  rw [joined, mem_close, hcurrent, addAll_negated, foldl_take_negated, addAll_negated]
  rfl

theorem mem_spliced {source : List Char}
    (h : a = [] ∧ b = [] ∨ ∀ op, ClassItem.operator op ∉ allItems source C) (c : Char) :
    (spliced source a b C).val.mem c = true ↔
      if isComplement source = true then
        if a = [] then (spliced source [] [] C).val.mem c = true ∧ c ∉ b
        else c ∈ a ∨ c = '^' ∨ c ∈ b ∨ ¬(spliced source [] [] C).val.mem c = true
      else c ∈ a ∨ c ∈ b ∨ (spliced source [] [] C).val.mem c = true := by
  rcases h with ⟨rfl, rfl⟩ | h
  · simp
  · simp only [spliced, if_true]
    generalize isComplement source = negated
    by_cases ha : a = []
    · simp only [if_pos ha, mem_joined h]
      cases negated with
      | false => simp [ha]
      | true => simp [and_comm]
    · simp only [if_neg ha, mem_joined h]
      cases negated with
      | false => simp [sign]
      | true => simp [sign, or_assoc]

/-! ## The depth of a class between letters -/

/-- **Two classes without classes inside, read up to the same operator**: the one with letters is a level deeper at
most. -/
structure Alike (k k' : OpenClass) : Prop where
  flat : k.Flat
  flat' : k'.Flat
  waits : k.waiting.isSome = k'.waiting.isSome
  depth_le : ∀ w ∈ k.waiting, ∀ w' ∈ k'.waiting, w'.2.depth ≤ w.2.depth + 1

theorem Alike.depth_current_le {k k' : OpenClass} (h : Alike k k') : k'.current.depth ≤ k.current.depth + 1 := by
  have hrow := h.flat'.depth_row_le
  have hwaits := h.waits
  have hdepth := h.depth_le
  unfold OpenClass.current
  cases hw : k.waiting <;> cases hw' : k'.waiting
  · dsimp only
    omega
  · simp [hw, hw'] at hwaits
  · simp [hw, hw'] at hwaits
  · have hle := hdepth _ hw _ hw'
    dsimp only
    omega

theorem Alike.take {k k' : OpenClass} (h : Alike k k') (item : ClassItem) : Alike (k.take item) (k'.take item) := by
  cases item with
  | member set => exact ⟨h.flat.add set, h.flat'.add set, h.waits, h.depth_le⟩
  | operator op =>
    refine ⟨nofun, nofun, rfl, ?_⟩
    rintro w ⟨⟩ w' ⟨⟩
    exact h.depth_current_le
  | opening k₁ | closing => exact h

theorem Alike.foldl {k k' : OpenClass} (h : Alike k k') (items : List ClassItem) :
    Alike (items.foldl OpenClass.take k) (items.foldl OpenClass.take k') := by
  induction items generalizing k k' with
  | nil => exact h
  | cons item items ih => exact ih (h.take item)

/-- **Letters beside a class make it a level deeper at most**, and so does the sign of its complement. -/
theorem depth_joined_le (negated negated' : Bool) (before behind : List Char) (items : List ClassItem) :
    (joined negated' before items behind).depth ≤ (joined negated [] items []).depth + 1 := by
  have hstart : Alike (.start negated) ((OpenClass.start negated').addAll before) := by
    refine ⟨flat_start negated, (flat_start negated').addAll before, ?_, nofun⟩
    rw [addAll_waiting]
    rfl
  have halike := hstart.foldl items
  have hbehind : Alike (items.foldl OpenClass.take (.start negated))
      ((items.foldl OpenClass.take ((OpenClass.start negated').addAll before)).addAll behind) :=
    ⟨halike.flat, halike.flat'.addAll behind, by rw [addAll_waiting]; exact halike.waits,
      by rw [addAll_waiting]; exact halike.depth_le⟩
  exact Nat.succ_le_succ hbehind.depth_current_le

theorem depth_spliced_le (source before behind : List Char) :
    (spliced source before behind C).depth ≤ (spliced source [] [] C).depth + 1 := by
  unfold spliced
  split <;> exact depth_joined_le _ _ _ _ _

/-! ## Patterns -/

theorem isMatch_one {p : Pattern} {set : CharSet} (hp : p.expr = .one set) (c : Char) :
    p.isMatch (String.ofList [c]) = set.mem c := by
  rw [Pattern.isMatch, hp, String.toList_ofList]
  by_cases hc : set.mem c = true <;> simp [Expr.search, Expr.searchFrom, Expr.hits, Hit.at, hc]

theorem analyse_letters {a b : String} (ha : ∀ c ∈ a.toList, c.isAlpha = true) (hb : ∀ c ∈ b.toList, c.isAlpha = true) :
    Splice.analyse ["\\A[" ++ a, b ++ "]\\z"] = .ok ⟨["\\A[" ++ a, b ++ "]\\z"], [.charset]⟩ := by
  have hletters : ∀ {text : List Char}, (∀ c ∈ text, c.isAlpha = true) →
      Splice.Context.walk .charset text = .inside .charset := fun h => by
    rw [← escapeMembers_letters h]
    exact Splice.walk_escapeMembers _
  have hopen : Splice.Context.scan .block ("\\A[" ++ a).toList = .ok .charset := by
    rw [String.toList_append]
    exact Splice.Context.scan_eq_ok_iff.2 (hletters ha)
  have hclose : Splice.Context.scan .charset (b ++ "]\\z").toList = .ok .block := by
    rw [String.toList_append]
    exact Splice.Context.scan_eq_ok_iff.2 (Splice.Context.walk_append (hletters hb) _)
  have hcontexts : Splice.holeContexts ["\\A[" ++ a, b ++ "]\\z"] = .ok [.charset] := by
    simp only [Splice.holeContexts, List.map_cons, List.map_nil, Splice.contextsFrom, hopen, hclose]
    rfl
  rw [Splice.analyse, hcontexts]

/-- **A class in a class gives its items as they are written.**  Letters before it join the members before its first
operator, letters behind it those behind the last one, and the sign of a complement is a member behind letters.  The
pattern compiles unless that makes the class too deep or too large.  Without operators the characters of a class are
added to the letters, unless it is a complement: as such it stays one, of its own members and the letters, only if no
letters stand before it. -/
theorem isMatch_spliced {C : Compiler} {source : String} {p : Pattern}
    (hp : Pattern.compile source C.flags = some p) (hclass : isClass source.toList C = true)
    (hflat : ∀ i ∈ classItems source.toList C, ¬HasBracket i.2) (hbracket : bracketApart source.toList = true)
    {a b : String} (ha : ∀ c ∈ a.toList, c.isAlpha = true) (hb : ∀ c ∈ b.toList, c.isAlpha = true)
    (hfirst : a = "" ∨ dashFirst source.toList = false) (hlast : b = "" ∨ dashLast source.toList C = false) :
    readSyntax C.flags source.toList = some ((spliced source.toList [] [] C).map .one) ∧
    (∀ c, p.isMatch (String.ofList [c]) = (spliced source.toList [] [] C).val.mem c) ∧
    (spliced source.toList a.toList b.toList C).depth ≤ (spliced source.toList [] [] C).depth + 1 ∧
    ((∃ q, Splice.compose ["\\A[" ++ a, b ++ "]\\z"] [.pattern p] C = .ok q) ↔
      (spliced source.toList a.toList b.toList C).depth + 1 ≤ nestLimit ∧
        C.fits (anchored (.one (spliced source.toList a.toList b.toList C).val)) = true) ∧
    ∀ q, Splice.compose ["\\A[" ++ a, b ++ "]\\z"] [.pattern p] C = .ok q →
      (∀ text : String, q.isMatch text = true ↔ ∃ c, text = String.ofList [c] ∧
        (spliced source.toList a.toList b.toList C).val.mem c = true) ∧
      (a = "" ∧ b = "" ∨ (∀ op, ClassItem.operator op ∉ allItems source.toList C) → ∀ c,
        (q.isMatch (String.ofList [c]) = true ↔
          if isComplement source.toList = true then
            if a = "" then p.isMatch (String.ofList [c]) = true ∧ c ∉ b.toList
            else c ∈ a.toList ∨ c = '^' ∨ c ∈ b.toList ∨ ¬p.isMatch (String.ofList [c]) = true
          else c ∈ a.toList ∨ c ∈ b.toList ∨ p.isMatch (String.ofList [c]) = true)) := by
  have hsource := Pattern.source_of_compile hp
  obtain ⟨-, -, d, -, hread⟩ := ofChars_eq_some_iff.1 hp
  have hempty : ∀ {s : String}, s = "" ↔ s.toList = [] := by simp
  simp only [hempty] at hfirst hlast ⊢
  obtain ⟨cs, hcs⟩ : ∃ cs, source.toList = '[' :: cs := by
    unfold isClass at hclass
    split at hclass
    · exact ⟨_, by assumption⟩
    · cases hclass
  rw [hcs] at hread hclass hflat hbracket hfirst hlast ⊢
  obtain ⟨set, rest, hset⟩ := readClass_of_readSyntax hread
  obtain rfl : rest = [] := by
    rw [isClass_cons hset] at hclass
    exact List.isEmpty_iff.1 hclass
  have hexpr : p.expr = .one set.val :=
    congrArg Nested.val (Option.some.inj (hread.symm.trans (readSyntax_bracketed hset)))
  obtain ⟨_, -, hown, -⟩ := readsOn_classItems (b := []) hset hflat (by simp) (Or.inl rfl)
  obtain rfl : set = spliced ('[' :: cs) [] [] C := hown
  obtain ⟨ms, hms, hspliced⟩ := readClass_spliced hset hflat ha hb hbracket hfirst hlast
  have hs : Splice.sourceChars ⟨["\\A[" ++ a, b ++ "]\\z"], [.charset]⟩ [.pattern p] =
      .ok ('\\' :: 'A' :: '[' :: (a.toList ++ (ms ++ b.toList) ++ ']' :: ['\\', 'z'])) := by
    rw [sourceChars_eq rfl]
    simp [Splice.filled, Splice.written, hsource, hcs, hms]
  obtain ⟨hmade, hmatch⟩ := compose_bracketed (analyse_letters ha hb) hs (by
    rw [List.append_assoc, List.append_assoc]
    exact hspliced _)
  refine ⟨readSyntax_bracketed hset, isMatch_one hexpr, depth_spliced_le _ _ _, hmade,
    fun q hq => ⟨fun text => ?_, fun hitems c => ?_⟩⟩
  · rw [hmatch q hq]
    simp only [and_comm]
  · rw [hmatch q hq, isMatch_one hexpr]
    simp only [String.ofList_inj, List.cons.injEq, and_true, exists_eq_right']
    exact mem_spliced hitems c

/-- A complement with a bracket first, behind letters. -/
theorem isMatch_spliced_complement :
    ∃ p q, Pattern.compile "[^]\\-w-z]" = some p ∧
      Splice.compose ["\\A[" ++ "Ab", "m" ++ "]\\z"] [.pattern p] = .ok q ∧
      ∀ c, q.isMatch (String.ofList [c]) = true ↔
        c ∈ "Ab".toList ∨ c = '^' ∨ c ∈ "m".toList ∨ ¬p.isMatch (String.ofList [c]) = true := by
  obtain ⟨p, hp⟩ := Option.isSome_iff_exists.1
    (show (Pattern.compile "[^]\\-w-z]").isSome = true by decide +kernel)
  obtain ⟨-, -, -, hmade, hchars⟩ := isMatch_spliced (C := .basic) hp (by decide +kernel) (by decide +kernel)
    (by decide +kernel) (a := "Ab") (b := "m") (by simp) (by simp) (Or.inr (by decide +kernel))
    (Or.inr (by decide +kernel))
  obtain ⟨q, hq⟩ := hmade.2 (by decide +kernel)
  have hitems : ∀ op, ClassItem.operator op ∉ allItems "[^]\\-w-z]".toList := by
    rintro (_ | _ | _) <;> decide +kernel
  refine ⟨p, q, hp, hq, fun c => ((hchars q hq).2 (Or.inr hitems) c).trans ?_⟩
  rw [if_pos (by decide +kernel), if_neg (by decide)]

/-- Behind a letter a complement is none, and its own members are taken; and letters behind an operator are not taken
if they are not in the class before it. -/
theorem not_isMatch_spliced :
    (∃ p q, Pattern.compile "[^a]" = some p ∧ Splice.compose ["\\A[x", "]\\z"] [.pattern p] = .ok q ∧
      p.isMatch "b" = true ∧ q.isMatch "b" = false) ∧
    ∃ p q, Pattern.compile "[a-c&&b-d]" = some p ∧ Splice.compose ["\\A[", "y]\\z"] [.pattern p] = .ok q ∧
      q.isMatch "y" = false := by
  let own : CharSet := .negate (.union .empty (.single 'a'))
  let beside : CharSet := .union (.union (.union .empty (.single 'x')) (.single '^')) (.single 'a')
  let both : CharSet := .inter (.union .empty (.range 'a' 'c')) (.union .empty (.range 'b' 'd'))
  let wider : CharSet := .inter (.union .empty (.range 'a' 'c')) (.union (.union .empty (.range 'b' 'd')) (.single 'y'))
  constructor
  · refine ⟨⟨"[^a]", .one own⟩, ⟨"\\A[x^a]\\z", .cat (.look .startText) (.cat (.one beside) (.look .endText))⟩, ?_⟩
    decide +kernel
  · refine ⟨⟨"[a-c&&b-d]", .one both⟩,
      ⟨"\\A[a-c&&b-dy]\\z", .cat (.look .startText) (.cat (.one wider) (.look .endText))⟩, ?_⟩
    decide +kernel

end Packrat.Pattern
