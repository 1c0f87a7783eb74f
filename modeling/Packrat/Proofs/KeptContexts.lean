import Packrat.Splice.Cache
import Packrat.Proofs.ContextAutomaton
/-!
# KeptContexts — analyses that are kept cannot be told from fresh ones

The parts of a slice never change, so an analysis that was right when it was kept is right ever after: every call leaves
a cache whose entries are the contexts of their slices (`Cache.Faithful`).  Arrays of parts that stand one behind the
other make one table, of which each slice of an array is a slice too (`parts_flatten`); slices that begin in the same
place are told apart by their length.  Main statement: `analyseAll_eq_map`.
-/
namespace Packrat.Splice

/-! ## The cache -/

/-- **A faithful cache**: what is kept for a slice are the contexts of its parts. -/
def Cache.Faithful (table : List String) (cache : Cache) : Prop :=
  ∀ (slice : Slice) (contexts : List Context), cache.known[slice]? = some contexts →
    holeContexts (slice.parts table) = .ok contexts

variable {table : List String} {cache : Cache}

theorem faithful_empty (table : List String) : Cache.empty.Faithful table := fun _ _ h => by
  simp [Cache.empty] at h

theorem analyse_eq_ok_iff {parts : List String} {s : Splice} :
    analyse parts = .ok s ↔ s.parts = parts ∧ holeContexts parts = .ok s.contexts := by
  obtain ⟨sparts, contexts⟩ := s
  unfold analyse
  cases holeContexts parts with
  | error u => simp
  | ok found => simp [eq_comm]

theorem Cache.Faithful.insert (h : cache.Faithful table) {slice : Slice} {contexts : List Context}
    (hc : holeContexts (slice.parts table) = .ok contexts) :
    Cache.Faithful table ⟨cache.known.insert slice contexts⟩ := by
  intro other found hfound
  rw [Std.HashMap.getElem?_insert] at hfound
  split at hfound
  · rename_i he
    rw [← eq_of_beq he, hc, Option.some.inj hfound]
  · exact h other found hfound

/-- **One call on a faithful cache** answers as a fresh analysis does, and leaves the cache faithful. -/
theorem Cache.Faithful.analyse (h : cache.Faithful table) (slice : Slice) :
    (cache.analyse table slice).1 = Splice.analyse (slice.parts table) ∧
      (cache.analyse table slice).2.Faithful table := by
  unfold Cache.analyse
  cases hk : cache.known[slice]? with
  | some contexts => exact ⟨(analyse_eq_ok_iff.2 ⟨rfl, h slice contexts hk⟩).symm, h⟩
  | none =>
    cases ha : Splice.analyse (slice.parts table) with
    | error fault => exact ⟨rfl, h⟩
    | ok s => exact ⟨rfl, h.insert (analyse_eq_ok_iff.1 ha).2⟩

/-- **Any number of calls on a faithful cache** answer as fresh analyses do. -/
theorem Cache.Faithful.analyseAll (h : cache.Faithful table) (slices : List Slice) :
    cache.analyseAll table slices = slices.map fun slice => Splice.analyse (slice.parts table) := by
  induction slices generalizing cache with
  | nil => rfl
  | cons slice slices ih =>
    obtain ⟨hanswer, hcache⟩ := h.analyse slice
    rw [Cache.analyseAll, List.map_cons, ← hanswer, ← ih hcache]

/-! ## Arrays in one table -/

def offset (arrays : List (List String)) (i : Nat) : Nat := (arrays.take i).flatten.length

/-- **A slice of an array is a slice of the table** that the arrays make. -/
theorem parts_flatten {arrays : List (List String)} {i start length : Nat} {array : List String}
    (hi : arrays[i]? = some array) (hs : start + length ≤ array.length) :
    (Slice.mk (offset arrays i + start) length).parts arrays.flatten = (array.drop start).take length := by
  obtain ⟨hlt, rfl⟩ := List.getElem?_eq_some_iff.1 hi
  have hflat : arrays.flatten = (arrays.take i).flatten ++ (arrays[i] ++ (arrays.drop (i + 1)).flatten) := by
    rw [← List.flatten_cons, ← List.drop_eq_getElem_cons hlt, ← List.flatten_append, List.take_append_drop]
  have hroom : length ≤ (arrays[i].drop start).length := by
    rw [List.length_drop]
    omega
  rw [Slice.parts, hflat, offset, List.drop_length_add_append, List.drop_append_of_le_length (by omega),
    List.take_append_of_le_length hroom]

/-! ## Prefixes -/

variable {c : Context} {parts : List (List Char)} {contexts : List Context}

theorem walkParts_take {m k : Nat} (h : k ≤ m) : c.walkParts (parts.take m) k = c.walkParts parts k := by
  rw [Context.walkParts, List.take_take, Nat.min_eq_left h]
  rfl

theorem Records.take (h : Records c parts contexts) (m : Nat) : Records c (parts.take m) (contexts.take (m - 1)) := by
  refine ⟨fun k hk => ?_, ?_, fun k d hd => ?_⟩
  · have hk : k ≤ m ∧ k ≤ parts.length := Nat.le_min.1 (List.length_take ▸ hk)
    rw [walkParts_take hk.1]
    exact h.unbroken k hk.2
  · have := h.length
    simp only [List.length_take]
    omega
  · rw [List.getElem?_take] at hd
    split at hd
    · rw [walkParts_take (by omega)]
      exact h.standing k d hd
    · cases hd

theorem holeContexts_eq_ok_iff {parts : List String} :
    holeContexts parts = .ok contexts ↔ Records .block (parts.map String.toList) contexts := contextsFrom_eq_ok_iff

/-- **The cache cannot be seen.**  However many slices are analysed one after the other, in whatever order and however
they lie, each comes out as it does without a cache, failures included; and the table may be arrays one behind the
other, of which every slice is one of the table.  If the first parts of an array are accepted, so are any fewer, and
their contexts are the first of those. -/
theorem analyseAll_eq_map (arrays : List (List String)) :
    (∀ slices : List Slice, Cache.empty.analyseAll arrays.flatten slices =
      slices.map fun slice => analyse (slice.parts arrays.flatten)) ∧
    (∀ i array start length, arrays[i]? = some array → start + length ≤ array.length →
      (Slice.mk (offset arrays i + start) length).parts arrays.flatten = (array.drop start).take length) ∧
    ∀ (array : List String) (m n : Nat) (contexts : List Context), m ≤ n →
      holeContexts (array.take n) = .ok contexts → holeContexts (array.take m) = .ok (contexts.take (m - 1)) := by
  refine ⟨(faithful_empty _).analyseAll, fun i array start length => parts_flatten, ?_⟩
  intro array m n contexts hmn h
  have hr := (holeContexts_eq_ok_iff.1 h).take m
  rw [← List.map_take, List.take_take, Nat.min_eq_left hmn] at hr
  exact holeContexts_eq_ok_iff.2 hr

end Packrat.Splice
