import Packrat.Proofs.Leaves
/-!
# ProgramHoles — the holes in a value are holes of the program

A value refers to the values of a program's holes by their indices.  The scan numbers the holes of a program in order,
a terminal takes the index of the hole that it reads, and lists keep what they are made of; so if actions put no other
holes into a value than those they were given, the holes of a value stand among the entries that it was read from
(`holes_of_means`).  Main statement: the holes of a parse's value have values (`holes_of_parseWith`).
-/
namespace Packrat

namespace Value

def holes (v : Value) : List Nat := Word.holes v.leaves

def holesAll (vs : List Value) : List Nat := Word.holes (leavesAll vs)

@[simp] theorem holesAll_nil : holesAll [] = [] := rfl

@[simp] theorem holesAll_cons (v : Value) (vs : List Value) : holesAll (v :: vs) = v.holes ++ holesAll vs := by
  rw [holesAll, leavesAll, Word.holes_append]
  rfl

@[simp] theorem holesAll_singleton (v : Value) : holesAll [v] = v.holes := by
  rw [holesAll_cons, holesAll_nil, List.append_nil]

@[simp] theorem holesAll_append (vs ws : List Value) : holesAll (vs ++ ws) = holesAll vs ++ holesAll ws := by
  rw [holesAll, leavesAll_append, Word.holes_append]
  rfl

@[simp] theorem holes_list (items : List Value) : (list items).holes = holesAll items := rfl

end Value

namespace Grammar

/-- **The actions of the layers make up no hole**: what an action gives has only holes that it was given. -/
def InventNoHole (layers : List Layer) : Prop :=
  ∀ layer ∈ layers, ∀ act ∈ layer.actions, ∀ vs v, act vs = some v → v.holes ⊆ Value.holesAll vs

variable {layers : List Layer} {tokens : TokenList} {d : Definition} {φ : Phrase} {a : Answer} {t : Trail}
  {p q r : Nat} {v : Value}

def holesBetween (tokens : TokenList) (p q : Nat) : List Nat := Word.holes (between tokens p q)

@[simp] theorem holesBetween_self (tokens : TokenList) (p : Nat) : holesBetween tokens p p = [] := by
  rw [holesBetween, between_self, Word.holes_nil]

theorem holesBetween_append (hpq : p ≤ q) (hqr : q ≤ r) :
    holesBetween tokens p q ++ holesBetween tokens q r = holesBetween tokens p r := by
  rw [holesBetween, holesBetween, ← Word.holes_append, between_append hpq hqr]
  rfl

theorem subset_holesBetween (hpq : p ≤ q) (hqr : q ≤ r) {is js : List Nat} (h : is ⊆ holesBetween tokens p q)
    (h' : js ⊆ holesBetween tokens q r) : is ++ js ⊆ holesBetween tokens p r := by
  rw [← holesBetween_append hpq hqr]
  exact List.append_subset.2
    ⟨List.Subset.trans h (List.subset_append_left _ _), List.Subset.trans h' (List.subset_append_right _ _)⟩

def Phrase.holes (φ : Phrase) : List Nat := Word.holes φ.leaves

/-- **The holes of a value stand among the entries it was read from**, or in the values before it.  By induction on the
derivation. -/
theorem holes_of_means (hact : InventNoHole layers) (h : Means layers tokens d φ p a t) : d.Of layers →
    ∀ {v : Value} {q : Nat}, a = some (v, q) → v.holes ⊆ φ.holes ++ holesBetween tokens p q := by
  induction h with
  | factorFail | refuse | many1Fail | sepBy1Fail | separatorFail | dangling => intro _ v q h; cases h
  | last _ ih | first _ ih | next _ _ _ ih | once _ ih | many _ ih | many1 _ ih | bare _ ih | group _ ih | sepBy _ ih
  | sepBy1 _ ih => exact ih
  | @factorThen _ done _ _ _ w _ _ _ _ g g' ih ih' =>
    intro hd v r h
    subst h
    have hhead := ih hd rfl
    have htail : v.holes ⊆ Value.holesAll (done ++ [w]) ++ _ := ih' hd rfl
    rw [Value.holesAll_append, Value.holesAll_singleton, List.append_assoc] at htail
    have hread := subset_holesBetween (le_of_means g) (le_of_means g') hhead (List.Subset.refl _)
    exact List.Subset.trans htail (List.append_subset.2
      ⟨List.subset_append_left _ _, List.Subset.trans hread (List.subset_append_right _ _)⟩)
  | @sole _ v p =>
    intro _ v' q h
    cases h
    rw [holesBetween_self, List.append_nil]
    exact (Value.holesAll_singleton v).symm ▸ List.Subset.refl _
  | all =>
    intro _ v q h
    cases h
    exact List.subset_append_left _ _
  | @act d done i p v hv =>
    intro hd v' q h
    cases h
    obtain ⟨act, hi, hv⟩ := Option.bind_eq_some_iff.1 hv
    have hlayer : d.layer ∈ layers := hd.suffix.mem List.mem_cons_self
    exact List.Subset.trans (hact _ hlayer act (List.mem_of_getElem? hi) done _ hv) (List.subset_append_left _ _)
  | present _ ih =>
    intro hd v q h
    cases h
    rw [Value.holes_list, Value.holesAll_singleton]
    exact ih hd rfl
  | absent | itemsEnd | listNone =>
    intro _ v q h
    cases h
    exact List.nil_subset _
  | @itemsStay _ y _ _ _ _ _ ih =>
    intro hd v q h
    cases h
    rw [Value.holes_list, Value.holesAll_singleton]
    cases y <;> exact ih hd rfl
  | @itemsMore _ y _ _ _ _ _ _ _ _ g _ g' ih ih' =>
    intro hd v q h
    cases h
    rw [Value.holes_list, Value.holesAll_cons]
    cases y <;> exact subset_holesBetween (le_of_means g) (le_of_means g') (ih hd rfl) (ih' hd rfl)
  | separated g g' ih ih' =>
    intro hd v q h
    subst h
    exact List.Subset.trans (ih' hd rfl)
      (subset_holesBetween (le_of_means g) (le_of_means g') (List.nil_subset _) (List.Subset.refl _))
  | listSome g g' ih ih' =>
    intro hd v q h
    cases h
    rw [Value.holes_list, Value.holesAll_cons]
    exact subset_holesBetween (le_of_means g) (le_of_means g') (ih hd rfl) (ih' hd rfl)
  | leaf hl =>
    intro _ v q h
    subst h
    rw [Value.holes, leaves_of_leaf? hl]
    exact List.subset_append_right _ _
  | called hx _ ih =>
    intro hd v q h
    exact ih (Atom.of_target? hd hx) h

/-! ## Parses -/

variable {g : Grammar} {options : ParseOptions} {rule : String} {program : Template} {holes : List Value}
  {parse : Parse}

theorem eq_holes_of_parseWith (h : g.parseWith options rule program holes = .ok parse) :
    parse.holes = holes ∧ program.holeCount = holes.length := by
  obtain ⟨d, tokens, v, s, -, hholes, -, -, rfl⟩ := exists_runEntry_value h
  exact ⟨rfl, hholes⟩

theorem hole_mem_take {i : Nat} (h : i ∈ holesBetween tokens 0 q) : Entry.hole i ∈ tokens.entries.take q := by
  obtain ⟨word, hword, hi⟩ := List.mem_filterMap.1 h
  obtain ⟨entry, hentry, rfl⟩ := List.mem_map.1 hword
  cases entry with
  | token t => cases hi
  | hole j =>
    cases hi
    exact hentry

/-- **No hole of a value dangles**: where actions make up no hole, every hole anywhere in a parse's value is one of the
entries that the parse took.  The holes among the entries are numbered in order, up to the number of the program's
holes, and these are the holes that have a value in the parse. -/
theorem holes_of_parseWith (g : Grammar) (options : ParseOptions) (rule : String) (program : Template)
    (holes : List Value) (parse : Parse) (hact : InventNoHole g.layers)
    (h : g.parseWith options rule program holes = .ok parse) :
    parse.holes = holes ∧ program.holeCount = holes.length ∧
    (∀ i, (parse.hole? i).isSome = true ↔ i < program.holeCount) ∧
    ∃ tokens, g.scanner.scan program = .ok tokens ∧ holesOf tokens.entries = List.range program.holeCount ∧
      ∀ i ∈ parse.value.holes, Entry.hole i ∈ tokens.entries.take parse.consumed ∧ i < program.holeCount := by
  obtain ⟨hholes, hcount⟩ := eq_holes_of_parseWith h
  obtain ⟨d, tokens, hd, hs, t, hm⟩ := exists_reads h
  have hrange := Scanner.holes_of_scan hs
  refine ⟨hholes, hcount, fun i => ?_, tokens, hs, hrange, fun i hi => ?_⟩
  · rw [Parse.hole?, hholes, hcount, Option.isSome_iff_ne_none, ne_eq, List.getElem?_eq_none_iff, Nat.not_le]
  · have hentry := hole_mem_take (holes_of_means hact hm (of_lookup hd) rfl hi)
    refine ⟨hentry, ?_⟩
    rw [← List.mem_range, ← hrange]
    exact List.mem_filterMap.2 ⟨_, List.mem_of_mem_take hentry, rfl⟩

theorem inventNoHole_lists : InventNoHole lists.layers := by
  intro layer hlayer act hact vs v hv
  rcases List.mem_cons.1 hlayer with rfl | hlayer
  · cases List.mem_singleton.1 hact
    cases hv
    exact List.Subset.refl _
  · cases List.mem_singleton.1 hlayer
    cases hact

set_option maxRecDepth 10000 in
/-- A list with a list in it: its holes are those of the program, and the marks of the upper layer are on the way. -/
theorem holes_of_parseWith_lists : InventNoHole lists.layers ∧ ∃ parse,
    lists.parseWith { memoize := false } "start" ⟨"1, (", [", 2, ", "), 3"]⟩ [.null, .bool true] = .ok parse ∧
    parse.value.holes = [0, 1] ∧ ∀ i ∈ parse.value.holes, i < 2 ∧ (parse.hole? i).isSome = true := by
  have hok : (lists.parseWith { memoize := false } "start" ⟨"1, (", [", 2, ", "), 3"]⟩ [.null, .bool true]).map
      (·.value.holes) = .ok [0, 1] := by decide +kernel
  refine ⟨inventNoHole_lists, ?_⟩
  cases hp : lists.parseWith { memoize := false } "start" ⟨"1, (", [", 2, ", "), 3"]⟩ [.null, .bool true] with
  | error e => rw [hp] at hok; cases hok
  | ok parse =>
    rw [hp] at hok
    obtain ⟨-, -, hsome, tokens, -, -, hholes⟩ :=
      holes_of_parseWith lists { memoize := false } "start" _ _ parse inventNoHole_lists hp
    exact ⟨parse, rfl, Except.ok.inj hok, fun i hi => ⟨(hholes i hi).2, (hsome i).2 (hholes i hi).2⟩⟩

end Grammar

end Packrat
