import Packrat.Proofs.Settled
/-!
# ClassItems — a class read item by item

Between the brackets of a class the reader finds one item after the other: a member, an operator, the head of a class
inside, or a bracket that closes one.  The text alone says which item comes next (`nextItem?`), and the reader does
nothing else than take items (`readMembers_succ`).  An item takes a piece of the text that has one of a few forms
(`exists_itemText`): brackets stand at its ends only, or behind a backslash, except in a range up to a bare bracket.
-/
namespace Packrat.Pattern

variable {α : Type} {C : Compiler} {cs rest : List Char} {set : CharSet} {item : ClassItem}

theorem skip_flags (cs : List Char) : C.flags.skip cs = cs := rfl

/-! ## Items -/

/-- **What comes next in a class.** -/
inductive ClassItem where
  | member (set : CharSet)
  | operator (op : SetOp)
  /-- the head of a class inside -/
  | opening (k : OpenClass)
  | closing
  deriving Repr, DecidableEq

def operator? : List Char → Option (SetOp × List Char)
  | '&' :: '&' :: rest => some (.inter, rest)
  | '-' :: '-' :: rest => some (.diff, rest)
  | '~' :: '~' :: rest => some (.symDiff, rest)
  | _ => none

/-- **The item at the head of the text**, and the text behind it. -/
def nextItem? (C : Compiler) : List Char → Option (ClassItem × List Char)
  | [] => none
  | '[' :: rest =>
    match readNamedClass C.flags rest with
    | some (set, rest) => some (.member set, rest)
    | none => some (.opening (openClass C.flags rest).1, (openClass C.flags rest).2)
  | ']' :: rest => some (.closing, rest)
  | cs =>
    match operator? cs with
    | some (op, rest) => some (.operator op, rest)
    | none => (readMember C.flags cs).map fun (set, rest) => (.member set, rest)

theorem nextItem?_cons {c : Char} (hc : c ∉ ['[', ']']) (cs : List Char) :
    nextItem? C (c :: cs) = match operator? (c :: cs) with
      | some (op, rest) => some (.operator op, rest)
      | none => (readMember C.flags (c :: cs)).map fun (set, rest) => (.member set, rest) := by
  simp only [List.mem_cons, List.not_mem_nil, or_false, not_or] at hc
  exact nextItem?.eq_4 C (c :: cs) nofun (fun _ h => hc.1 (List.cons.inj h).1) fun _ h => hc.2 (List.cons.inj h).1

/-- **The reader takes an item after the other.** -/
theorem readMembers_succ (fuel : Nat) (top : OpenClass) (outer : List OpenClass) (cs : List Char) :
    readMembers C.flags (fuel + 1) top outer cs = (nextItem? C cs).bind fun
      | (.member set, rest) => readMembers C.flags fuel (top.add set) outer rest
      | (.operator op, rest) => readMembers C.flags fuel (top.operator op) outer rest
      | (.opening k, rest) => readMembers C.flags fuel k (top :: outer) rest
      | (.closing, rest) =>
        match outer with
        | [] => some (top.close, rest)
        | next :: outer => readMembers C.flags fuel (next.push top.close) outer rest := by
  rw [readMembers, skip_flags]
  split
  · rfl
  · rename_i rest
    rw [nextItem?]
    cases readNamedClass C.flags rest <;> rfl
  · rfl
  · rfl
  · rfl
  · rfl
  · rename_i c rest hopen hclose hand hdash htilde
    have hc : c ∉ ['[', ']'] := by simp_all
    have hoperator : operator? (c :: rest) = none := by
      unfold operator?
      split <;> simp_all
    rw [nextItem?_cons hc, hoperator]
    dsimp only
    cases readMember C.flags (c :: rest) <;> rfl

theorem readMembers_mono : ∀ {n m : Nat} {top : OpenClass} {outer : List OpenClass} {cs rest : List Char}
    {set : Nested CharSet}, n ≤ m → readMembers C.flags n top outer cs = some (set, rest) →
      readMembers C.flags m top outer cs = some (set, rest)
  | n + 1, m + 1, top, outer, cs, rest, set, hle, h => by
    have hle : n ≤ m := Nat.le_of_succ_le_succ hle
    rw [readMembers_succ] at h ⊢
    obtain ⟨⟨item, rest'⟩, hitem, h⟩ := Option.bind_eq_some_iff.1 h
    rw [hitem, Option.bind_some]
    cases item with
    | member s | operator op | opening k => exact readMembers_mono hle h
    | closing =>
      cases outer with
      | nil => exact h
      | cons next outer => exact readMembers_mono hle h

/-! ## Pieces of text -/

def isBracketing (c : Char) : Bool := ['\\', '[', ']'].contains c

def Plain (cs : List Char) : Prop := ∀ c ∈ cs, isBracketing c = false

theorem plain_iff : Plain cs ↔ cs.any isBracketing = false := by simp [Plain]

@[simp] theorem plain_nil : Plain [] := by simp [Plain]

@[simp] theorem plain_cons (c : Char) (cs : List Char) : Plain (c :: cs) ↔ isBracketing c = false ∧ Plain cs :=
  List.forall_mem_cons

@[simp] theorem plain_append (a b : List Char) : Plain (a ++ b) ↔ Plain a ∧ Plain b := List.forall_mem_append

/-- **A reader takes pieces of text** of a kind, each whatever comes behind it. -/
def TakesPieces (f : List Char → Option (α × List Char)) (P : List Char → Prop) : Prop :=
  ∀ {cs a rest}, f cs = some (a, rest) → ∃ piece, P piece ∧ cs = piece ++ rest ∧ ∀ t, f (piece ++ t) = some (a, t)

theorem span_eq_iff {p : Char → Bool} {run : List Char} {c : Char} :
    cs.span p = (run, c :: rest) ↔ cs = run ++ c :: rest ∧ (∀ d ∈ run, p d = true) ∧ p c = false := by
  rw [List.span_eq_takeWhile_dropWhile, Prod.mk.injEq]
  constructor
  · rintro ⟨hrun, hrest⟩
    refine ⟨?_, ?_, ?_⟩
    · rw [← hrun, ← hrest, List.takeWhile_append_dropWhile]
    · intro d hd
      rw [← hrun] at hd
      exact List.mem_takeWhile_imp hd
    · have h := List.head?_dropWhile_not p cs
      rw [hrest] at h
      simpa using h
  · rintro ⟨rfl, hrun, hc⟩
    rw [List.takeWhile_append_of_pos hrun, List.dropWhile_append_of_pos hrun]
    simp [hc]

theorem isSome_hexValue? {ds : List Char} {n : Nat} (h : hexNumber? ds = some n) :
    ds ≠ [] ∧ ∀ d ∈ ds, (Json.hexValue? d).isSome = true := by
  have hfold : ∀ (ds : List Char) (m : Nat), ds.foldlM (fun n d => (Json.hexValue? d).map (16 * n + ·)) m = some n →
      ∀ d ∈ ds, (Json.hexValue? d).isSome = true := by
    intro ds
    induction ds with
    | nil => simp
    | cons d ds ih =>
      intro m h
      rw [List.foldlM_cons] at h
      obtain ⟨v, hv, h⟩ := Option.bind_eq_some_iff.1 h
      obtain ⟨x, hx, -⟩ := Option.map_eq_some_iff.1 hv
      exact List.forall_mem_cons.2 ⟨by rw [hx]; rfl, ih v h⟩
  unfold hexNumber? at h
  split at h
  · cases h
  · rename_i hne
    exact ⟨by simpa using hne, hfold ds 0 h⟩

theorem ne_of_isSome_hexValue? {d c : Char} (hd : (Json.hexValue? d).isSome = true) (hc : Json.hexValue? c = none) :
    d ≠ c := by
  rintro rfl
  rw [hc] at hd
  cases hd

theorem plain_of_hexNumber? {ds : List Char} {n : Nat} (h : hexNumber? ds = some n) : Plain ds := by
  intro d hd
  have hhex := (isSome_hexValue? h).2 d hd
  simp only [isBracketing, List.contains_eq_mem, decide_eq_false_iff_not, List.mem_cons, List.not_mem_nil, or_false,
    not_or]
  exact ⟨ne_of_isSome_hexValue? hhex (by decide), ne_of_isSome_hexValue? hhex (by decide),
    ne_of_isSome_hexValue? hhex (by decide)⟩

theorem readBraced_eq_some_iff {cs text rest : List Char} :
    C.flags.readBraced false cs = some (text, rest) ↔ cs = text ++ '}' :: rest ∧ '}' ∉ text := by
  induction cs generalizing text with
  | nil => simp [Flags.readBraced]
  | cons c cs ih =>
    have hstep : C.flags.readBraced false (c :: cs) = if c = '}' then some ([], cs)
        else (C.flags.readBraced false cs).map (Prod.map (c :: ·) id) := rfl
    rw [hstep]
    split
    · rename_i hc
      cases text with
      | nil => simp [hc]
      | cons d text =>
        simp only [Option.some.injEq, Prod.mk.injEq, List.cons_append, List.cons.injEq, List.mem_cons]
        grind
    · rename_i hc
      cases text with
      | nil => simp [hc]
      | cons d text =>
        simp only [Option.map_eq_some_iff, Prod.exists, Prod.map_apply, id_eq, Prod.mk.injEq, List.cons.injEq,
          List.cons_append, List.mem_cons, not_or]
        grind

theorem readExactly_eq_some_iff : ∀ {n : Nat} {cs text rest : List Char},
    C.flags.readExactly n cs = some (text, rest) ↔ cs = text ++ rest ∧ text.length = n
  | 0, cs, text, rest => by
    rw [Flags.readExactly]
    cases text <;> simp
  | n + 1, [], text, rest => by
    rw [Flags.readExactly, skip_flags]
    cases text <;> simp
  | n + 1, c :: cs, text, rest => by
    rw [Flags.readExactly, skip_flags]
    cases text with
    | nil => simp
    | cons d text =>
      simp only [Option.map_eq_some_iff, Prod.exists, Prod.mk.injEq, List.cons.injEq, readExactly_eq_some_iff,
        List.cons_append, List.length_cons]
      grind

theorem plain_of_charOfDigits? {ds : List Char} {c : Char} (h : charOfDigits? ds = some c) : Plain ds ∧ ds ≠ [] := by
  obtain ⟨n, hn, -⟩ := Option.bind_eq_some_iff.1 h
  exact ⟨plain_of_hexNumber? hn, (isSome_hexValue? hn).1⟩

theorem readNumbered_takesPieces (width : Nat) : TakesPieces (readNumbered C.flags width) Plain := by
  intro cs a rest h
  unfold readNumbered at h
  rw [skip_flags] at h
  split at h
  · obtain ⟨⟨ds, r⟩, hds, h⟩ := Option.bind_eq_some_iff.1 h
    obtain ⟨c, hc, he⟩ := Option.bind_eq_some_iff.1 h
    cases he
    obtain ⟨rfl, hbrace⟩ := readBraced_eq_some_iff.1 hds
    refine ⟨'{' :: (ds ++ ['}']), ?_, by simp, fun t => ?_⟩
    · simp [plain_of_charOfDigits? hc, isBracketing]
    · have hds : C.flags.readBraced false (ds ++ ['}'] ++ t) = some (ds, t) :=
        readBraced_eq_some_iff.2 ⟨by simp, hbrace⟩
      rw [List.cons_append, readNumbered, skip_flags]
      exact Option.bind_eq_some_iff.2 ⟨_, hds, Option.bind_eq_some_iff.2 ⟨c, hc, rfl⟩⟩
  · rename_i hbrace
    obtain ⟨⟨ds, r⟩, hds, h⟩ := Option.bind_eq_some_iff.1 h
    obtain ⟨c, hc, h⟩ := Option.bind_eq_some_iff.1 h
    cases h
    obtain ⟨rfl, hlen⟩ := readExactly_eq_some_iff.1 hds
    obtain ⟨hplain, hne⟩ := plain_of_charOfDigits? hc
    refine ⟨ds, hplain, rfl, fun t => ?_⟩
    have hbrace' : ∀ r, ds ++ t = '{' :: r → False := by
      intro r he
      obtain ⟨d, ds, rfl⟩ := List.exists_cons_of_ne_nil hne
      exact hbrace (ds ++ rest) (by rw [List.cons_append, (List.cons.inj he).1])
    unfold readNumbered
    rw [skip_flags]
    split
    · rename_i he
      exact (hbrace' _ he).elim
    · exact Option.bind_eq_some_iff.2
        ⟨_, readExactly_eq_some_iff.2 ⟨rfl, hlen⟩, Option.bind_eq_some_iff.2 ⟨c, hc, rfl⟩⟩

theorem plain_of_namedSet? {negated : Bool} {name : List Char} (h : namedSet? C.flags negated name = some set) :
    Plain name := by
  obtain ⟨ranges, hranges, -⟩ := Option.map_eq_some_iff.1 h
  intro c hc
  have hplain := C.plain hranges c hc
  simpa [isBracketing] using hplain

theorem exists_nameText {name : List Char} (hname : Plain name)
    (h : readPropertyName C.flags cs = some (name, rest)) :
    ∃ piece, Plain piece ∧ cs = piece ++ rest ∧ ∀ t, readPropertyName C.flags (piece ++ t) = some (name, t) := by
  unfold readPropertyName at h
  rw [skip_flags] at h
  split at h
  · cases h
  · cases h
  · obtain ⟨rfl, hbrace⟩ := readBraced_eq_some_iff.1 h
    refine ⟨'{' :: (name ++ ['}']), by simp [hname, isBracketing], by simp, fun t => ?_⟩
    rw [List.cons_append, readPropertyName, skip_flags]
    exact readBraced_eq_some_iff.2 ⟨by simp, hbrace⟩
  · rename_i c cs hslash hbrace
    cases h
    refine ⟨[c], hname, rfl, fun t => ?_⟩
    rw [List.singleton_append, readPropertyName, skip_flags]
    split <;> simp_all

theorem readProperty_takesPieces (negated : Bool) : TakesPieces (readProperty C.flags negated) Plain := by
  intro cs a rest h
  obtain ⟨⟨name, r⟩, hname, h⟩ := Option.bind_eq_some_iff.1 h
  obtain ⟨s, hs, he⟩ := Option.bind_eq_some_iff.1 h
  cases he
  obtain ⟨piece, hpiece, rfl, ht⟩ := exists_nameText (plain_of_namedSet? hs) hname
  exact ⟨piece, hpiece, rfl, fun t => Option.bind_eq_some_iff.2 ⟨_, ht t, Option.bind_eq_some_iff.2 ⟨s, hs, rfl⟩⟩⟩

theorem isLook_of_readBoundary {flags : Flags} {a : Atom} (h : readBoundary flags cs = some (a, rest)) :
    ∃ l, a = .look l := by
  unfold readBoundary at h
  split at h
  · split at h
    · cases h
    · split at h
      · obtain ⟨_, -, h⟩ := Option.bind_eq_some_iff.1 h
        obtain ⟨w, -, he⟩ := Option.bind_eq_some_iff.1 h
        cases he
        exact ⟨_, rfl⟩
      · cases h
        exact ⟨_, rfl⟩
  · cases h
    exact ⟨_, rfl⟩

def EscapeText (cs : List Char) : Prop := ∃ c more, cs = c :: more ∧ Plain more

theorem exists_escapeText {a : Atom} (h : readEscape C.flags cs = some (a, rest)) (ha : ∀ l, a ≠ .look l) :
    ∃ piece, EscapeText piece ∧ cs = piece ++ rest ∧ ∀ t, readEscape C.flags (piece ++ t) = some (a, t) := by
  cases cs with
  | nil => cases h
  | cons c cs =>
    rw [readEscape] at h
    cases hread : escapeReader? C.flags c with
    | none =>
      rw [hread] at h
      obtain ⟨a, hshort, he⟩ := Option.map_eq_some_iff.1 h
      cases he
      refine ⟨[c], ⟨c, [], rfl, plain_nil⟩, rfl, fun t => ?_⟩
      rw [List.singleton_append, readEscape, hread]
      exact Option.map_eq_some_iff.2 ⟨a, hshort, rfl⟩
    | some read =>
      rw [hread] at h
      dsimp only at h
      have htakes : ∃ piece, Plain piece ∧ cs = piece ++ rest ∧ ∀ t, read (piece ++ t) = some (a, t) := by
        unfold escapeReader? at hread
        split at hread <;> cases hread
        · exact readNumbered_takesPieces 2 h
        · exact readNumbered_takesPieces 4 h
        · exact readNumbered_takesPieces 8 h
        · exact readProperty_takesPieces false h
        · exact readProperty_takesPieces true h
        · obtain ⟨l, rfl⟩ := isLook_of_readBoundary h
          exact absurd rfl (ha l)
      obtain ⟨piece, hplain, rfl, ht⟩ := htakes
      refine ⟨c :: piece, ⟨c, piece, rfl, hplain⟩, rfl, fun t => ?_⟩
      rw [List.cons_append, readEscape, hread]
      exact ht t

def AtomText (cs : List Char) : Prop := (∃ c, c ≠ '\\' ∧ cs = [c]) ∨ ∃ escape, EscapeText escape ∧ cs = '\\' :: escape

theorem AtomText.exists_cons (h : AtomText cs) : ∃ c more, cs = c :: more := by
  rcases h with ⟨c, -, rfl⟩ | ⟨escape, -, rfl⟩ <;> exact ⟨_, _, rfl⟩

theorem exists_atomText {a : Atom} (h : readClassAtom C.flags cs = some (a, rest)) (ha : ∀ l, a ≠ .look l) :
    ∃ piece, AtomText piece ∧ cs = piece ++ rest ∧ ∀ t, readClassAtom C.flags (piece ++ t) = some (a, t) := by
  fun_cases readClassAtom C.flags cs with
  | case1 => cases h
  | case2 cs =>
    obtain ⟨piece, hpiece, rfl, ht⟩ := exists_escapeText h ha
    exact ⟨'\\' :: piece, Or.inr ⟨piece, hpiece, rfl⟩, rfl, ht⟩
  | case3 c cs hslash =>
    rw [readClassAtom.eq_3 _ _ _ hslash] at h
    cases h
    exact ⟨[c], Or.inl ⟨c, hslash, rfl⟩, rfl, fun t => readClassAtom.eq_3 _ _ _ hslash⟩

theorem ne_look_of_toSet {flags : Flags} {a : Atom} (h : a.toSet flags = some set) (l : Look) : a ≠ .look l := by
  rintro rfl
  cases h

theorem of_ofName? {name : List Char} (h : CharSet.ofName? (String.ofList name) = some set) :
    Plain name ∧ ':' ∉ name ∧ ∃ c cs, name = c :: cs ∧ c ≠ '^' := by
  unfold CharSet.ofName? at h
  split at h
  case h_15 => cases h
  all_goals
    rename_i heq
    have hname := congrArg String.toList heq
    rw [String.toList_ofList] at hname
    rw [hname]
    exact ⟨plain_iff.2 (by decide), by decide, _, _, rfl, by decide⟩

def sign (negated : Bool) : List Char := if negated then ['^'] else []

theorem plain_sign (negated : Bool) : Plain (sign negated) := by cases negated <;> simp [sign, isBracketing]

theorem sign_append_signed (cs : List Char) : sign (signed cs).1 ++ (signed cs).2 = cs := by
  fun_cases signed cs <;> rfl

theorem signed_sign_append {negated : Bool} (h : negated = false → ∀ r, cs ≠ '^' :: r) :
    signed (sign negated ++ cs) = (negated, cs) := by
  cases negated with
  | true => rfl
  | false => exact signed.eq_2 cs (h rfl)

def NamedText (cs : List Char) : Prop := ∃ inside, Plain inside ∧ cs = inside ++ [']']

theorem readNamedClass_takesPieces : TakesPieces (readNamedClass C.flags) NamedText := by
  intro cs set rest h
  by_cases hcolon : ∃ r, cs = ':' :: r
  · obtain ⟨cs, rfl⟩ := hcolon
    rw [readNamedClass_colon] at h
    have hcs := sign_append_signed cs
    generalize (signed cs).1 = negated, (signed cs).2 = behind at h hcs
    obtain ⟨name, r, hspan⟩ : ∃ name r, behind.span (· != ':') = (name, r) := ⟨_, _, rfl⟩
    rw [hspan] at h
    unfold namedClass at h
    split at h
    · rename_i name r heq
      cases heq
      obtain ⟨s, hs, h⟩ := Option.bind_eq_some_iff.1 h
      cases h
      obtain ⟨hplain, hrun, d, ds, hname, hhat⟩ := of_ofName? hs
      obtain ⟨rfl, -, hcolon⟩ := span_eq_iff.1 hspan
      refine ⟨':' :: (sign negated ++ name ++ [':']) ++ [']'], ⟨_, ?_, rfl⟩, ?_, fun t => ?_⟩
      · simp [hplain, plain_sign, isBracketing]
      · simp [← hcs]
      · have hsigned : signed (sign negated ++ (name ++ ':' :: ']' :: t)) = (negated, name ++ ':' :: ']' :: t) := by
          refine signed_sign_append fun _ r he => ?_
          rw [hname] at he
          exact hhat (List.cons.inj he).1
        have hspan' : (name ++ ':' :: ']' :: t).span (· != ':') = (name, ':' :: ']' :: t) :=
          span_eq_iff.2 ⟨rfl, fun d hd => bne_iff_ne.2 (ne_of_mem_of_not_mem hd hrun), hcolon⟩
        have htext : ':' :: (sign negated ++ name ++ [':']) ++ [']'] ++ t =
            ':' :: (sign negated ++ (name ++ ':' :: ']' :: t)) := by simp
        rw [htext, readNamedClass_colon, hsigned, hspan', namedClass, hs]
        rfl
    · cases h
  · rw [readNamedClass.eq_3 _ _ fun r hr => hcolon ⟨r, hr⟩] at h
    cases h

/-! ## The head of a class -/

theorem readDashes_eq : ∀ (cs : List Char) (k : OpenClass), readDashes C.flags cs.length k cs =
    ((cs.takeWhile (· == '-')).foldl (fun k _ => k.add (.single '-')) k, cs.dropWhile (· == '-'))
  | [], _ => rfl
  | c :: cs, k => by
    rw [List.length_cons, readDashes, skip_flags]
    by_cases hc : c = '-'
    · subst hc
      exact readDashes_eq cs _
    · split
      · rename_i heq
        exact absurd (List.cons.inj heq).1 hc
      · simp [hc]

theorem eq_dash_of_mem_takeWhile {d : Char} (h : d ∈ cs.takeWhile (· == '-')) : d = '-' := by
  simpa using List.mem_takeWhile_imp h

theorem plain_dashes (cs : List Char) : Plain (cs.takeWhile (· == '-')) := by
  intro d hd
  rw [eq_dash_of_mem_takeWhile hd]
  rfl

theorem takeWhile_dash (h : ∀ r, cs ≠ '-' :: r) : cs.takeWhile (· == '-') = [] := by
  cases cs with
  | nil => rfl
  | cons c cs => simpa using fun hc : c = '-' => h cs (hc ▸ rfl)

theorem dropWhile_dash (h : ∀ r, cs ≠ '-' :: r) : cs.dropWhile (· == '-') = cs := by
  cases cs with
  | nil => rfl
  | cons c cs => simpa using fun hc : c = '-' => h cs (hc ▸ rfl)

theorem openMembers_cases (k : OpenClass) (cs : List Char) :
    (∃ rest, cs = ']' :: rest ∧ openMembers C.flags k cs = (k.add (.single ']'), rest)) ∨
    (∀ rest, cs ≠ ']' :: rest) ∧ openMembers C.flags k cs =
      ((cs.takeWhile (· == '-')).foldl (fun k _ => k.add (.single '-')) k, cs.dropWhile (· == '-')) := by
  fun_cases openMembers C.flags k cs with
  | case1 rest => exact Or.inr ⟨by simp, readDashes_eq ('-' :: rest) k⟩
  | case2 rest => exact Or.inl ⟨rest, rfl, rfl⟩
  | case3 cs hdash hclose =>
    refine Or.inr ⟨fun r hr => hclose r hr, ?_⟩
    rw [takeWhile_dash fun r hr => hdash r hr, dropWhile_dash fun r hr => hdash r hr]
    rfl

/-! ## Members -/

/-- A member ends here: what follows is no dash, or one that does not make it the low end of a range. -/
def endsMember : List Char → Bool
  | '-' :: ']' :: _ | '-' :: '-' :: _ => true
  | '-' :: _ => false
  | _ => true

theorem readMember_cases (h : readMember C.flags cs = some (set, rest)) :
    (∃ a, readClassAtom C.flags cs = some (a, rest) ∧ endsMember rest = true ∧ a.toSet C.flags = some set) ∨
    ∃ a b behind, readClassAtom C.flags cs = some (.char a, '-' :: behind) ∧ endsMember ('-' :: behind) = false ∧
      readClassAtom C.flags behind = some (.char b, rest) ∧ a ≤ b ∧ set = .range a b := by
  unfold readMember at h
  simp only [skip_flags] at h
  obtain ⟨⟨low, r⟩, hlow, h⟩ := Option.bind_eq_some_iff.1 h
  dsimp only at h
  split at h
  · split at h
    · obtain ⟨s, hs, he⟩ := Option.bind_eq_some_iff.1 h
      cases he
      exact Or.inl ⟨low, hlow, rfl, hs⟩
    · obtain ⟨s, hs, he⟩ := Option.bind_eq_some_iff.1 h
      cases he
      exact Or.inl ⟨low, hlow, rfl, hs⟩
    · obtain ⟨⟨high, r'⟩, hhigh, hrange⟩ := Option.bind_eq_some_iff.1 h
      split at hrange
      · rename_i heq
        cases heq
        split at hrange
        · rename_i hle
          cases hrange
          refine Or.inr ⟨_, _, _, hlow, ?_, hhigh, hle, rfl⟩
          unfold endsMember
          split <;> simp_all
        · cases hrange
      · cases hrange
  · rename_i hdash
    obtain ⟨s, hs, he⟩ := Option.bind_eq_some_iff.1 h
    cases he
    refine Or.inl ⟨low, hlow, ?_, hs⟩
    unfold endsMember
    split <;> simp_all

theorem readMember_single {a : Atom} (ha : readClassAtom C.flags cs = some (a, rest)) (hend : endsMember rest = true)
    (hset : a.toSet C.flags = some set) : readMember C.flags cs = some (set, rest) := by
  rw [readMember, ha]
  simp only [Option.bind_eq_bind, Option.bind_some, skip_flags]
  unfold endsMember at hend
  split at hend
  · simp [hset]
  · simp [hset]
  · cases hend
  · rename_i hdash
    split
    · exact absurd rfl (hdash _)
    · simp [hset]

theorem readMember_range {a b : Char} {behind : List Char} (ha : readClassAtom C.flags cs = some (.char a, '-' :: behind))
    (hopen : endsMember ('-' :: behind) = false) (hb : readClassAtom C.flags behind = some (.char b, rest)) (hle : a ≤ b) :
    readMember C.flags cs = some (.range a b, rest) := by
  rw [readMember, ha]
  simp only [Option.bind_eq_bind, Option.bind_some, skip_flags]
  split
  · cases hopen
  · cases hopen
  · rw [hb]
    simp only [Option.bind_some, if_pos hle]
    rfl

/-! ## The text of an item -/

def MemberText (cs : List Char) : Prop := AtomText cs ∧ ∀ c, cs = [c] → isBracketing c = false

/-- **The text that an item takes.** -/
inductive ItemText : ClassItem → List Char → Prop where
  | named (s : CharSet) {text : List Char} : NamedText text → ItemText (.member s) ('[' :: text)
  | opening (k : OpenClass) {text : List Char} : Plain text → ItemText (.opening k) ('[' :: text)
  /-- the head of a class with a bracket as its first member -/
  | openingBracket (k : OpenClass) (negated : Bool) : ItemText (.opening k) ('[' :: (sign negated ++ [']']))
  | closing : ItemText .closing [']']
  | operator (op : SetOp) {c : Char} : isBracketing c = false → ItemText (.operator op) [c, c]
  | single (s : CharSet) {text : List Char} : MemberText text → ItemText (.member s) text
  | range (s : CharSet) {low high : List Char} : MemberText low → MemberText high →
      ItemText (.member s) (low ++ '-' :: high)
  /-- a range up to a bare bracket -/
  | bareRange (s : CharSet) {low : List Char} : MemberText low → ItemText (.member s) (low ++ ['-', '['])

theorem ItemText.ne_nil (h : ItemText item cs) : cs ≠ [] := by
  cases h with
  | single s h =>
    obtain ⟨c, more, rfl⟩ := h.1.exists_cons
    exact List.cons_ne_nil c more
  | _ => simp

theorem operator?_takesPieces : TakesPieces operator? fun cs => ∃ c, isBracketing c = false ∧ cs = [c, c] := by
  intro cs op rest h
  unfold operator? at h
  split at h <;> cases h
  · exact ⟨_, ⟨'&', by decide, rfl⟩, rfl, fun _ => rfl⟩
  · exact ⟨_, ⟨'-', by decide, rfl⟩, rfl, fun _ => rfl⟩
  · exact ⟨_, ⟨'~', by decide, rfl⟩, rfl, fun _ => rfl⟩

theorem exists_memberText (hhead : ∀ c r, cs = c :: r → c ∉ ['[', ']'])
    (h : readMember C.flags cs = some (set, rest)) : ∃ piece, ItemText (.member set) piece ∧ cs = piece ++ rest := by
  have hatom : ∀ {cs rest : List Char} {a : Atom}, (∀ c r, cs = c :: r → c ∉ ['[', ']']) →
      readClassAtom C.flags cs = some (a, rest) → (∀ l, a ≠ .look l) →
      ∃ piece, MemberText piece ∧ cs = piece ++ rest := by
    intro cs rest a hhead h ha
    obtain ⟨piece, hpiece, rfl, -⟩ := exists_atomText h ha
    refine ⟨piece, ⟨hpiece, ?_⟩, rfl⟩
    rintro c rfl
    have hslash : c ≠ '\\' := by
      rcases hpiece with ⟨d, hd, he⟩ | ⟨escape, ⟨d, more, rfl, -⟩, he⟩
      · rw [(List.cons.inj he).1]
        exact hd
      · cases he
    have hc := hhead c rest rfl
    simp_all [isBracketing]
  rcases readMember_cases h with ⟨a, ha, -, hset⟩ | ⟨a, b, behind, ha, hopen, hb, -, -⟩
  · obtain ⟨piece, hpiece, hcs⟩ := hatom hhead ha (ne_look_of_toSet hset)
    exact ⟨piece, .single set hpiece, hcs⟩
  · obtain ⟨low, hlow, rfl⟩ := hatom hhead ha nofun
    by_cases hbare : ∃ r, behind = '[' :: r
    · obtain ⟨r, rfl⟩ := hbare
      cases hb
      exact ⟨_, .bareRange _ hlow, by simp⟩
    · have hbehind : ∀ c r, behind = c :: r → c ∉ ['[', ']'] := by
        rintro c r rfl hc
        simp only [List.mem_cons, List.not_mem_nil, or_false] at hc
        rcases hc with rfl | rfl
        · exact hbare ⟨r, rfl⟩
        · cases hopen
      obtain ⟨high, hhigh, rfl⟩ := hatom hbehind hb nofun
      exact ⟨_, .range _ hlow hhigh, by simp⟩

theorem exists_openingText (k : OpenClass) (cs : List Char) :
    ∃ piece, ItemText (.opening k) ('[' :: piece) ∧ cs = piece ++ (openClass C.flags cs).2 := by
  rw [openClass_eq rfl]
  have hcs := sign_append_signed cs
  generalize (signed cs).1 = negated, (signed cs).2 = behind at hcs ⊢
  rcases openMembers_cases (.start negated) behind with ⟨r, rfl, hopen⟩ | ⟨-, hopen⟩
  · rw [hopen]
    exact ⟨_, .openingBracket k negated, by simp [← hcs]⟩
  · rw [hopen]
    have hplain := (plain_append _ _).2 ⟨plain_sign negated, plain_dashes behind⟩
    refine ⟨sign negated ++ behind.takeWhile (· == '-'), .opening k hplain, ?_⟩
    rw [List.append_assoc, List.takeWhile_append_dropWhile, hcs]

/-- **An item takes a piece of the text**, of the form that its kind has. -/
theorem exists_itemText (h : nextItem? C cs = some (item, rest)) : ∃ piece, ItemText item piece ∧ cs = piece ++ rest := by
  fun_cases nextItem? C cs with
  | case1 => cases h
  | case2 cs set r hnamed =>
    rw [nextItem?, hnamed] at h
    cases h
    obtain ⟨piece, hpiece, rfl, -⟩ := readNamedClass_takesPieces hnamed
    exact ⟨_, .named set hpiece, rfl⟩
  | case3 cs hnamed =>
    rw [nextItem?, hnamed] at h
    cases h
    obtain ⟨piece, hpiece, hcs⟩ := exists_openingText (openClass C.flags cs).1 cs
    exact ⟨_, hpiece, by rw [List.cons_append, ← hcs]⟩
  | case4 r =>
    cases h
    exact ⟨_, .closing, rfl⟩
  | case5 cs hne hopen hclose op r hop =>
    rw [nextItem?.eq_4 C cs hne hopen hclose, hop] at h
    cases h
    obtain ⟨_, ⟨c, hc, rfl⟩, hcs, -⟩ := operator?_takesPieces hop
    exact ⟨_, .operator op hc, hcs⟩
  | case6 cs hne hopen hclose hop =>
    rw [nextItem?.eq_4 C cs hne hopen hclose, hop] at h
    obtain ⟨⟨set, r⟩, hmember, he⟩ := Option.map_eq_some_iff.1 h
    cases he
    refine exists_memberText ?_ hmember
    rintro c r rfl hc
    simp only [List.mem_cons, List.not_mem_nil, or_false] at hc
    rcases hc with rfl | rfl
    · exact hopen _ rfl
    · exact hclose _ rfl

end Packrat.Pattern
