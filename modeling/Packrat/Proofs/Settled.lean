import Packrat.Pattern.Reader
import Mathlib.Data.List.TakeDrop
import Mathlib.Data.List.TakeWhile
/-!
# Settled — what is read before a closing bracket

No escape, class, count or head of a group that is complete goes on into a bracket that closes behind it: the readers of
these take the same from a longer text (`Settled`).  Outside the extended mode this holds of each of them
(`readEscape_settled`, `readBounds_settled`, `readOpening_settled`, `readClass_settled`).
-/
namespace Packrat.Pattern

variable {α : Type} {flags : Flags}

/-- **A reader is settled** if a bracket that closes behind what it reads, and whatever comes behind it, changes
nothing. -/
def Settled (f : List Char → Option (α × List Char)) : Prop :=
  ∀ {cs : List Char} {a : α} {rest : List Char}, f cs = some (a, rest) →
    ∀ t, f (cs ++ ')' :: t) = some (a, rest ++ ')' :: t)

/-! ## Runs of characters -/

theorem ne_cons_append {d : Char} (hd : ')' ≠ d) {cs : List Char} (h : ∀ r, cs = d :: r → False) (t r : List Char) :
    cs ++ ')' :: t = d :: r → False := by
  intro he
  cases cs with
  | nil => exact hd (List.cons.inj he).1
  | cons c cs => exact h cs (by rw [(List.cons.inj he).1])

theorem ne_cons_cons_append {d e : Char} (hd : ')' ≠ d ∧ ')' ≠ e) {cs : List Char}
    (h : ∀ r, cs = d :: e :: r → False) (t r : List Char) : cs ++ ')' :: t = d :: e :: r → False := by
  intro he
  cases cs with
  | nil => exact hd.1 (List.cons.inj he).1
  | cons c cs =>
    obtain ⟨rfl, htail⟩ := List.cons.inj he
    have hcs : ∀ r, cs = e :: r → False := by
      rintro r rfl
      exact h r rfl
    exact ne_cons_append hd.2 hcs t r htail

theorem span_append {p : Char → Bool} {cs run rest : List Char} {c : Char} (h : cs.span p = (run, c :: rest))
    (t : List Char) : (cs ++ t).span p = (run, c :: rest ++ t) := by
  rw [List.span_eq_takeWhile_dropWhile, Prod.mk.injEq] at h ⊢
  obtain ⟨hrun, hrest⟩ := h
  have hcs : run ++ c :: rest = cs := by rw [← hrun, ← hrest, List.takeWhile_append_dropWhile]
  have hlen : run.length ≠ cs.length := by
    rw [← hcs, List.length_append, List.length_cons]
    omega
  rw [List.takeWhile_append, List.dropWhile_append, hrun, hrest, if_neg hlen]
  exact ⟨rfl, rfl⟩

theorem dropWhile_append_bracket {p : Char → Bool} (hp : p ')' = false) (cs t : List Char) :
    (cs ++ ')' :: t).dropWhile p = cs.dropWhile p ++ ')' :: t := by
  rw [List.dropWhile_append]
  split
  · rename_i h
    rw [List.isEmpty_iff.1 h, List.dropWhile_cons_of_neg (by simp [hp]), List.nil_append]
  · rfl

/-! ## Escapes -/

theorem readBraced_append (t : List Char) : ∀ {cs text rest : List Char} {comment : Bool},
    flags.readBraced comment cs = some (text, rest) → flags.readBraced comment (cs ++ t) = some (text, rest ++ t)
  | c :: cs, text, rest, comment, h => by
    rw [List.cons_append]
    unfold Flags.readBraced at h ⊢
    by_cases hcomment : comment = true
    · rw [if_pos hcomment] at h ⊢
      exact readBraced_append t h
    · rw [if_neg hcomment] at h ⊢
      by_cases hblank : (flags.extended && Text.isBlank c) = true
      · rw [if_pos hblank] at h ⊢
        exact readBraced_append t h
      · rw [if_neg hblank] at h ⊢
        by_cases hhash : (flags.extended && c == '#') = true
        · rw [if_pos hhash] at h ⊢
          exact readBraced_append t h
        · rw [if_neg hhash] at h ⊢
          by_cases hbrace : c = '}'
          · rw [if_pos hbrace] at h ⊢
            cases h
            rfl
          · rw [if_neg hbrace] at h ⊢
            obtain ⟨⟨text, r⟩, hr, he⟩ := Option.map_eq_some_iff.1 h
            cases he
            rw [readBraced_append t hr]
            rfl

theorem readExactly_append (hx : flags.extended = false) (t : List Char) : ∀ {n : Nat} {cs text rest : List Char},
    flags.readExactly n cs = some (text, rest) → flags.readExactly n (cs ++ t) = some (text, rest ++ t)
  | 0, cs, text, rest, h => by
    cases h
    rfl
  | n + 1, cs, text, rest, h => by
    rw [Flags.readExactly, Flags.skip_of_not_extended hx] at h ⊢
    cases cs with
    | nil => cases h
    | cons c cs =>
      obtain ⟨⟨text, r⟩, hr, he⟩ := Option.map_eq_some_iff.1 h
      cases he
      simp only [List.cons_append, readExactly_append hx t hr, Option.map_some]

theorem readNumbered_settled (hx : flags.extended = false) (width : Nat) : Settled (readNumbered flags width) := by
  intro cs a rest h t
  unfold readNumbered at h ⊢
  simp only [Flags.skip_of_not_extended hx] at h ⊢
  split at h
  · obtain ⟨⟨ds, r⟩, hds, h⟩ := Option.bind_eq_some_iff.1 h
    obtain ⟨c, hc, he⟩ := Option.bind_eq_some_iff.1 h
    cases he
    refine Option.bind_eq_some_iff.2 ⟨_, readBraced_append _ hds, ?_⟩
    exact Option.bind_eq_some_iff.2 ⟨c, hc, rfl⟩
  · rename_i hbrace
    obtain ⟨⟨ds, r⟩, hds, h⟩ := Option.bind_eq_some_iff.1 h
    obtain ⟨c, hc, h⟩ := Option.bind_eq_some_iff.1 h
    have hbrace' := ne_cons_append (by decide) hbrace t
    split at h
    · cases h
    · rename_i hbyte
      cases h
      split
      · rename_i he
        exact (hbrace' _ he).elim
      · refine Option.bind_eq_some_iff.2 ⟨_, readExactly_append hx _ hds, ?_⟩
        exact Option.bind_eq_some_iff.2 ⟨c, hc, if_neg hbyte⟩

theorem readPropertyName_settled (hx : flags.extended = false) : Settled (readPropertyName flags) := by
  intro cs name rest h t
  unfold readPropertyName at h ⊢
  simp only [Flags.skip_of_not_extended hx] at h ⊢
  split at h
  · cases h
  · cases h
  · exact readBraced_append _ h
  · rename_i c cs hslash hbrace
    cases h
    simp only [List.cons_append]

theorem readProperty_settled (hx : flags.extended = false) (negated : Bool) :
    Settled (readProperty flags negated) := by
  intro cs a rest h t
  obtain ⟨⟨name, r⟩, hname, h⟩ := Option.bind_eq_some_iff.1 h
  obtain ⟨s, hs, he⟩ := Option.bind_eq_some_iff.1 h
  cases he
  refine Option.bind_eq_some_iff.2 ⟨_, readPropertyName_settled hx hname t, ?_⟩
  exact Option.bind_eq_some_iff.2 ⟨s, hs, rfl⟩

theorem readBoundary_settled (hx : flags.extended = false) : Settled (readBoundary flags) := by
  intro cs a rest h t
  fun_cases readBoundary flags cs with
  | case1 cs hcs => simp [readBoundary, hcs] at h
  | case2 cs c more hcs hletter =>
    rw [Flags.skip_of_not_extended hx] at hcs
    subst hcs
    simp only [readBoundary, Flags.skip_of_not_extended hx, if_pos hletter, List.cons_append] at h ⊢
    obtain ⟨⟨name, r⟩, hname, h⟩ := Option.bind_eq_some_iff.1 h
    obtain ⟨w, hw, he⟩ := Option.bind_eq_some_iff.1 h
    cases he
    refine Option.bind_eq_some_iff.2 ⟨_, readBraced_append _ hname, ?_⟩
    exact Option.bind_eq_some_iff.2 ⟨w, hw, rfl⟩
  | case3 cs c more hcs hletter =>
    rw [Flags.skip_of_not_extended hx] at hcs
    subst hcs
    simp only [readBoundary, Flags.skip_of_not_extended hx, if_neg hletter, List.cons_append] at h ⊢
    cases h
    rfl
  | case4 cs hbrace =>
    rw [readBoundary.eq_2 _ _ hbrace] at h
    cases h
    rw [readBoundary.eq_2 _ _ (ne_cons_append (by decide) hbrace t)]

theorem settled_of_escapeReader? (hx : flags.extended = false) {c : Char}
    {read : List Char → Option (Atom × List Char)} (h : escapeReader? flags c = some read) : Settled read := by
  unfold escapeReader? at h
  split at h
  · cases h
    exact readNumbered_settled hx 2
  · cases h
    exact readNumbered_settled hx 4
  · cases h
    exact readNumbered_settled hx 8
  · cases h
    exact readProperty_settled hx false
  · cases h
    exact readProperty_settled hx true
  · cases h
    exact readBoundary_settled hx
  · cases h

theorem readEscape_settled (hx : flags.extended = false) : Settled (readEscape flags) := by
  intro cs a rest h t
  cases cs with
  | nil => cases h
  | cons c cs =>
    rw [List.cons_append]
    rw [readEscape] at h ⊢
    cases hread : escapeReader? flags c with
    | some read =>
      rw [hread] at h
      exact settled_of_escapeReader? hx hread h t
    | none =>
      rw [hread] at h
      obtain ⟨a, ha, he⟩ := Option.map_eq_some_iff.1 h
      cases he
      dsimp only
      rw [ha, Option.map_some]

/-! ## Repetitions -/

theorem readLazy_append (cs t : List Char) :
    readLazy (cs ++ ')' :: t) = ((readLazy cs).1, (readLazy cs).2 ++ ')' :: t) := by
  fun_cases readLazy cs with
  | case1 rest => rfl
  | case2 cs hlazy => rw [readLazy.eq_2 _ (ne_cons_append (by decide) hlazy t)]

theorem readDigits_append (hx : flags.extended = false) (t : List Char) : ∀ (cs : List Char) (n : Nat),
    readDigits flags (cs.length + n) (cs ++ ')' :: t) =
      ((readDigits flags cs.length cs).1, (readDigits flags cs.length cs).2 ++ ')' :: t)
  | [], 0 => rfl
  | [], n + 1 => by
    rw [List.length_nil, Nat.zero_add, List.nil_append, readDigits]
    rfl
  | c :: cs, n => by
    rw [List.length_cons, Nat.succ_add, List.cons_append, readDigits, readDigits,
      Flags.skip_of_not_extended hx, Flags.skip_of_not_extended hx, readDigits_append hx t cs n]
    split <;> rfl

theorem readCount_settled (hx : flags.extended = false) : Settled (readCount flags) := by
  intro cs count rest h t
  unfold readCount at h ⊢
  dsimp only at h ⊢
  rw [dropWhile_append_bracket (by decide), List.length_append, readDigits_append hx]
  generalize cs.dropWhile Text.isBlank = cs' at h ⊢
  generalize readDigits flags cs'.length cs' = digits at h ⊢
  obtain ⟨ds, rest'⟩ := digits
  cases ds with
  | nil => cases h
  | cons d ds =>
    dsimp only at h ⊢
    split at h
    · rename_i hsize
      cases h
      rw [if_pos hsize, Flags.skip_of_not_extended hx, Flags.skip_of_not_extended hx,
        dropWhile_append_bracket (by decide)]
    · cases h

theorem readBounds_settled (hx : flags.extended = false) : Settled (readBounds flags) := by
  intro cs bounds rest h t
  unfold readBounds at h ⊢
  simp only [Flags.skip_of_not_extended hx] at h ⊢
  obtain ⟨⟨low, cs⟩, hlow, h⟩ := Option.bind_eq_some_iff.1 h
  refine Option.bind_eq_some_iff.2 ⟨_, readCount_settled hx hlow t, ?_⟩
  dsimp only at h
  split at h
  · cases h
    rfl
  · rename_i rest'
    simp only [List.cons_append]
    split at h
    · cases h
      rfl
    · rename_i hclose
      obtain ⟨⟨high, cs⟩, hhigh, h⟩ := Option.bind_eq_some_iff.1 h
      split
      · rename_i heq
        exact absurd heq (ne_cons_append (by decide) hclose t _)
      · refine Option.bind_eq_some_iff.2 ⟨_, readCount_settled hx hhigh t, ?_⟩
        split at h
        · rename_i heq
          cases heq
          simp only [List.cons_append]
          split at h
          · rename_i hle
            cases h
            rw [if_pos hle]
            rfl
          · cases h
        · cases h
  · cases h

/-! ## Groups -/

theorem readFlags_append (t : List Char) {f f' : Flags} {on dash any : Bool} {seen cs rest : List Char} {c : Char}
    (h : readFlags f on dash seen cs = some (f', any, c, rest)) :
    readFlags f on dash seen (cs ++ t) = some (f', any, c, rest ++ t) := by
  fun_induction readFlags f on dash seen cs with
  | case1 => cases h
  | case2 => cases h
  | case3 f on dash seen c cs hend hdash =>
    cases h
    rw [List.cons_append, readFlags, if_pos hend, if_neg hdash]
  | case4 f dash seen cs hend ih =>
    rw [List.cons_append, readFlags, if_neg hend, if_pos rfl, if_pos rfl]
    exact ih h
  | case5 => cases h
  | case6 => cases h
  | case7 f on dash seen c cs hend hdash hseen f₁ hset ih =>
    rw [List.cons_append, readFlags, if_neg hend, if_neg hdash, if_neg hseen, hset]
    exact ih h
  | case8 => cases h

theorem readName_settled : Settled readName := by
  intro cs name rest h t
  unfold readName at h ⊢
  split at h
  · rename_i c name' rest' hspan
    split at h
    · rename_i hname
      cases h
      rw [span_append hspan]
      exact if_pos hname
    · cases h
  · cases h

theorem readOpening_settled (hx : flags.extended = false) : Settled (readOpening flags) := by
  intro cs opening rest h t
  unfold readOpening at h ⊢
  simp only [Flags.skip_of_not_extended hx] at h ⊢
  split at h
  · cases h
  · cases h
  · cases h
  · cases h
  · obtain ⟨⟨name, r⟩, hr, he⟩ := Option.map_eq_some_iff.1 h
    cases he
    simp only [List.cons_append, readName_settled hr t, Option.map_some]
  -- behind the other heads of a group it is the context that says which of them the text, now longer, does not have
  · rename_i heq hbang
    obtain ⟨⟨name, r⟩, hr, he⟩ := Option.map_eq_some_iff.1 h
    cases he
    have heq' := ne_cons_append (by decide) heq t
    have hbang' := ne_cons_append (by decide) hbang t
    rw [List.cons_append, List.cons_append]
    simp only [readName_settled hr t, Option.map_some]
  · rename_i cs heq hbang hbehind hnotBehind hlong hshort
    have heq' := ne_cons_append (by decide) heq t
    have hbang' := ne_cons_append (by decide) hbang t
    have hshort' := ne_cons_append (by decide) hshort t
    have hbehind' : ∀ r, cs ++ ')' :: t = '<' :: '=' :: r → False := fun _ => hshort' _
    have hnotBehind' : ∀ r, cs ++ ')' :: t = '<' :: '!' :: r → False := fun _ => hshort' _
    have hlong' : ∀ r, cs ++ ')' :: t = 'P' :: '<' :: r → False := ne_cons_cons_append (by decide) hlong t
    rw [List.cons_append]
    split at h
    · rename_i hr
      cases h
      simp only [readFlags_append _ hr]
    · rename_i hr
      cases h
      simp only [readFlags_append _ hr]
    · cases h
  · rename_i hplain
    cases h
    have hplain' := ne_cons_append (by decide) hplain t
    split <;> first | exact (hplain' _ (by assumption)).elim | rfl

/-! ## Classes -/

def signed : List Char → Bool × List Char
  | '^' :: rest => (true, rest)
  | cs => (false, cs)

theorem signed_append (cs t : List Char) : signed (cs ++ ')' :: t) = ((signed cs).1, (signed cs).2 ++ ')' :: t) := by
  fun_cases signed cs with
  | case1 rest => rfl
  | case2 cs hsign => rw [signed.eq_2 _ (ne_cons_append (by decide) hsign t)]

theorem readDashes_append (hx : flags.extended = false) (t : List Char) : ∀ (cs : List Char) (k : OpenClass) (n : Nat),
    readDashes flags (cs.length + n) k (cs ++ ')' :: t) =
      ((readDashes flags cs.length k cs).1, (readDashes flags cs.length k cs).2 ++ ')' :: t)
  | [], k, 0 => rfl
  | [], k, n + 1 => by
    rw [List.length_nil, Nat.zero_add, List.nil_append, readDashes.eq_2, Flags.skip_of_not_extended hx]
    rfl
  | c :: cs, k, n => by
    rw [List.length_cons, Nat.succ_add, List.cons_append, readDashes, readDashes, Flags.skip_of_not_extended hx,
      Flags.skip_of_not_extended hx]
    by_cases hc : c = '-'
    · subst hc
      exact readDashes_append hx t cs _ n
    · split
      · rename_i heq
        exact absurd (List.cons.inj heq).1 hc
      · split
        · rename_i heq
          exact absurd (List.cons.inj heq).1 hc
        · rfl

def openMembers (flags : Flags) (k : OpenClass) : List Char → OpenClass × List Char
  | '-' :: rest => readDashes flags (rest.length + 1) k ('-' :: rest)
  | ']' :: rest => (k.add (flags.span ']' ']'), rest)
  | cs => (k, cs)

theorem openClass_eq (hx : flags.extended = false) (cs : List Char) :
    openClass flags cs = openMembers flags (.start (signed cs).1) (signed cs).2 := by
  fun_cases signed cs with
  | case1 rest =>
    fun_cases openMembers flags (.start true) rest <;>
      simp only [openClass, Flags.skip_of_not_extended hx, List.length_cons, *]
  | case2 cs hsign =>
    fun_cases openMembers flags (.start false) cs <;>
      simp only [openClass, Flags.skip_of_not_extended hx, List.length_cons, *]

theorem openMembers_append (hx : flags.extended = false) (k : OpenClass) (cs t : List Char) :
    openMembers flags k (cs ++ ')' :: t) =
      ((openMembers flags k cs).1, (openMembers flags k cs).2 ++ ')' :: t) := by
  fun_cases openMembers flags k cs with
  | case1 rest =>
    rw [List.cons_append, openMembers, List.length_append, Nat.add_right_comm]
    exact readDashes_append hx t ('-' :: rest) k (t.length + 1)
  | case2 rest => rfl
  | case3 cs hdash hclose =>
    rw [openMembers.eq_3 _ _ _ (ne_cons_append (by decide) hdash t) (ne_cons_append (by decide) hclose t)]

theorem openClass_append (hx : flags.extended = false) (cs t : List Char) :
    openClass flags (cs ++ ')' :: t) = ((openClass flags cs).1, (openClass flags cs).2 ++ ')' :: t) := by
  rw [openClass_eq hx, openClass_eq hx, signed_append, openMembers_append hx]

def namedClass (flags : Flags) (negated : Bool) : List Char × List Char → Option (CharSet × List Char)
  | (name, ':' :: ']' :: rest) => do
    let s ← CharSet.ofName? (String.ofList name)
    let s := if flags.caseless then s.ignoreCase else s
    return (if negated then .negate s else s, rest)
  | _ => none

theorem readNamedClass_colon (cs : List Char) :
    readNamedClass flags (':' :: cs) = namedClass flags (signed cs).1 ((signed cs).2.span (· != ':')) := by
  fun_cases signed cs with
  | case1 cs => exact readNamedClass.eq_1 flags cs
  | case2 cs hsign => exact readNamedClass.eq_2 flags cs hsign

theorem ofName?_of_mem_bracket {name : List Char} (h : ')' ∈ name) : CharSet.ofName? (String.ofList name) = none := by
  unfold CharSet.ofName?
  split
  case h_15 => rfl
  all_goals
    rename_i heq
    have hname := congrArg String.toList heq
    rw [String.toList_ofList] at hname
    rw [hname] at h
    revert h
    decide

theorem namedClass_of_mem_bracket (negated : Bool) {name : List Char} (h : ')' ∈ name) (cs : List Char) :
    namedClass flags negated (name, cs) = none := by
  unfold namedClass
  split
  · rename_i heq
    cases heq
    rw [ofName?_of_mem_bracket h]
    rfl
  · rfl

theorem namedClass_append (negated : Bool) (name cs t : List Char) :
    namedClass flags negated (name, cs ++ ')' :: t) =
      (namedClass flags negated (name, cs)).map fun (s, rest) => (s, rest ++ ')' :: t) := by
  by_cases hcs : ∃ r, cs = ':' :: ']' :: r
  · obtain ⟨r, rfl⟩ := hcs
    rw [List.cons_append, List.cons_append, namedClass, namedClass]
    cases CharSet.ofName? (String.ofList name) <;> rfl
  · have hne : ∀ r, cs = ':' :: ']' :: r → False := fun r hr => hcs ⟨r, hr⟩
    rw [namedClass.eq_2 _ _ _ fun _ r hr => hne r (Prod.mk.inj hr).2,
      namedClass.eq_2 _ _ _ fun _ r hr => ne_cons_cons_append (by decide) hne t r (Prod.mk.inj hr).2]
    rfl

/-- **A bracket behind it makes no named class** of what is none: it would be part of the name. -/
theorem readNamedClass_append (cs t : List Char) :
    readNamedClass flags (cs ++ ')' :: t) = (readNamedClass flags cs).map fun (s, rest) => (s, rest ++ ')' :: t) := by
  by_cases hcolon : ∃ r, cs = ':' :: r
  · obtain ⟨cs, rfl⟩ := hcolon
    rw [List.cons_append, readNamedClass_colon, readNamedClass_colon, signed_append]
    generalize (signed cs).1 = negated, (signed cs).2 = cs
    obtain ⟨name, rest, hspan⟩ : ∃ name rest, cs.span (· != ':') = (name, rest) := ⟨_, _, rfl⟩
    -- without a second colon the name would go on into the bracket, and no name has one
    cases rest with
    | cons c rest =>
      rw [span_append hspan, hspan]
      exact namedClass_append negated name (c :: rest) t
    | nil =>
      have hall : cs.dropWhile (· != ':') = [] := by
        rw [List.span_eq_takeWhile_dropWhile] at hspan
        exact (Prod.mk.inj hspan).2
      have hmem : ')' ∈ (cs ++ ')' :: t).takeWhile (· != ':') := by
        rw [List.takeWhile_append_of_pos (List.dropWhile_eq_nil_iff.1 hall)]
        exact List.mem_append_right _ List.mem_cons_self
      rw [hspan, List.span_eq_takeWhile_dropWhile, namedClass_of_mem_bracket negated hmem]
      rfl
  · have hne : ∀ r, cs = ':' :: r → False := fun r hr => hcolon ⟨r, hr⟩
    rw [readNamedClass.eq_3 _ _ hne, readNamedClass.eq_3 _ _ (ne_cons_append (by decide) hne t)]
    rfl

theorem readClassAtom_settled (hx : flags.extended = false) : Settled (readClassAtom flags) := by
  intro cs a rest h t
  fun_cases readClassAtom flags cs with
  | case1 => cases h
  | case2 cs => exact readEscape_settled hx h t
  | case3 c cs hslash =>
    rw [readClassAtom.eq_3 _ _ _ hslash] at h
    cases h
    rw [List.cons_append, readClassAtom.eq_3 _ _ _ hslash]

theorem readMember_settled (hx : flags.extended = false) : Settled (readMember flags) := by
  intro cs s rest h t
  have hsingle : ∀ {low : Atom} {cs : List Char}, (low.toSet flags).bind (fun s => some (s, cs)) = some (s, rest) →
      (low.toSet flags).bind (fun s => some (s, cs ++ ')' :: t)) = some (s, rest ++ ')' :: t) := by
    intro low cs h
    obtain ⟨s, hs, he⟩ := Option.bind_eq_some_iff.1 h
    cases he
    exact Option.bind_eq_some_iff.2 ⟨s, hs, rfl⟩
  unfold readMember at h ⊢
  simp only [Flags.skip_of_not_extended hx] at h ⊢
  obtain ⟨⟨low, cs⟩, hlow, h⟩ := Option.bind_eq_some_iff.1 h
  refine Option.bind_eq_some_iff.2 ⟨_, readClassAtom_settled hx hlow t, ?_⟩
  dsimp only at h
  split at h
  · split at h
    · exact hsingle h
    · exact hsingle h
    · rename_i cs hclose hdash
      obtain ⟨⟨high, cs'⟩, hhigh, hrange⟩ := Option.bind_eq_some_iff.1 h
      have hclose' := ne_cons_append (by decide) hclose t
      have hdash' := ne_cons_append (by decide) hdash t
      rw [List.cons_append]
      simp only [readClassAtom_settled hx hhigh t, Option.bind_eq_bind, Option.bind_some]
      split at hrange
      · rename_i heq
        cases heq
        split at hrange
        · rename_i hle
          cases hrange
          exact if_pos hle
        · cases hrange
      · cases hrange
  · rename_i hdash
    have hdash' := ne_cons_append (by decide) hdash t
    simp only
    exact hsingle h

/-- **The members of a class that closes** are the same with a bracket behind it, by induction on the steps. -/
theorem readMembers_append (hx : flags.extended = false) (t : List Char) : ∀ {n m : Nat} {top : OpenClass}
    {outer : List OpenClass} {cs rest : List Char} {s : Nested CharSet}, n ≤ m →
    readMembers flags n top outer cs = some (s, rest) →
    readMembers flags m top outer (cs ++ ')' :: t) = some (s, rest ++ ')' :: t)
  | n + 1, m + 1, top, outer, cs, rest, s, hnm, h => by
    have hnm := Nat.le_of_succ_le_succ hnm
    rw [readMembers.eq_2, Flags.skip_of_not_extended hx] at h ⊢
    split at h
    · cases h
    · rw [List.cons_append]
      simp only [readNamedClass_append]
      split at h
      · rename_i hnamed
        simp only [hnamed, Option.map_some]
        exact readMembers_append hx t hnm h
      · rename_i hnamed
        simp only [hnamed, Option.map_none, openClass_append hx]
        exact readMembers_append hx t hnm h
    · split at h
      · cases h
        rfl
      · exact readMembers_append hx t hnm h
    · exact readMembers_append hx t hnm h
    · exact readMembers_append hx t hnm h
    · exact readMembers_append hx t hnm h
    · rename_i c cs hopen hclose hand hdash htilde
      have hand' : ∀ r, c = '&' → cs ++ ')' :: t = '&' :: r → False := fun r hc =>
        ne_cons_append (by decide) (fun r => hand r hc) t r
      have hdash' : ∀ r, c = '-' → cs ++ ')' :: t = '-' :: r → False := fun r hc =>
        ne_cons_append (by decide) (fun r => hdash r hc) t r
      have htilde' : ∀ r, c = '~' → cs ++ ')' :: t = '~' :: r → False := fun r hc =>
        ne_cons_append (by decide) (fun r => htilde r hc) t r
      split at h
      · rename_i hmember
        have hmember' := readMember_settled hx hmember t
        rw [List.cons_append] at hmember' ⊢
        simp only [hmember']
        exact readMembers_append hx t hnm h
      · cases h

theorem readClass_settled (hx : flags.extended = false) : Settled (readClass flags) := by
  intro cs s rest h t
  unfold readClass at h ⊢
  rw [openClass_append hx]
  generalize openClass flags cs = opened at h ⊢
  obtain ⟨k, cs⟩ := opened
  have hlen : cs.length + 1 ≤ (cs ++ ')' :: t).length + 1 := by
    rw [List.length_append]
    omega
  obtain ⟨hread, hallows⟩ := Option.filter_eq_some_iff.1 h
  exact Option.filter_eq_some_iff.2 ⟨readMembers_append hx t hlen hread, hallows⟩

end Packrat.Pattern
