import Packrat.Splice.Basic
import Std.Data.HashMap
/-!
# Cache — analyses kept by slice

Parts live in tables that do not change, and a template is a slice of a table.  An analysis that succeeded is kept
under the slice it was made of, and given again for the same slice.
-/
namespace Packrat.Splice

structure Slice where
  start : Nat
  length : Nat
  deriving Repr, DecidableEq, Hashable, Inhabited

def Slice.parts (s : Slice) (table : List String) : List String := (table.drop s.start).take s.length

structure Cache where
  known : Std.HashMap Slice (List Context)

def Cache.empty : Cache := ⟨∅⟩

/-- **Analyses a slice of the table**, or takes the analysis that is kept for it; a failure is not kept. -/
def Cache.analyse (cache : Cache) (table : List String) (slice : Slice) : Except Fault Splice × Cache :=
  match cache.known[slice]? with
  | some contexts => (.ok ⟨slice.parts table, contexts⟩, cache)
  | none =>
    match Splice.analyse (slice.parts table) with
    | .ok s => (.ok s, ⟨cache.known.insert slice s.contexts⟩)
    | .error fault => (.error fault, cache)

def Cache.analyseAll (table : List String) : Cache → List Slice → List (Except Fault Splice)
  | _, [] => []
  | cache, slice :: slices =>
    let (answer, cache) := cache.analyse table slice
    answer :: analyseAll table cache slices

end Packrat.Splice
