import Packrat.Splice.Context
/-!
# ContextWalk — contexts character by character

The chunkwise scan of a part is a walk over its characters (`scan_eq`): where a chunk ends makes no difference.  A walk
is a fold, so a walk over two texts on end is one over the first and then one over the second.
-/
namespace Packrat.Splice

/-- **Where a walk stands**: in a context, or in a class right behind a backslash. -/
inductive Standing where
  | inside (c : Context)
  | classEscape
  deriving Repr, DecidableEq

def Standing.next : Standing → Char → Standing
  | .inside .block, '\\' => .inside .backslash
  | .inside .block, '[' => .inside .charset
  | .inside .block, '{' => .inside .count
  | .inside .block, _ => .inside .block
  | .inside .backslash, _ => .inside .block
  | .inside .charset, '\\' => .classEscape
  | .inside .charset, ']' => .inside .block
  | .inside .charset, _ => .inside .charset
  | .classEscape, _ => .inside .charset
  | .inside .count, '}' => .inside .block
  | .inside .count, _ => .inside .count

/-- **The context behind a text**, or the middle of an escape in a class. -/
def Context.walk (c : Context) (cs : List Char) : Standing := cs.foldl Standing.next (.inside c)

def Standing.context? : Standing → Except (Context × List Char) Context
  | .inside c => .ok c
  | .classEscape => .error (.charset, ['\\'])

namespace Context

variable {c d : Context} {x : Char} {cs rest : List Char}

/-! ## Steps -/

theorem walk_block_cons (h : x ∉ ['\\', '[', '{']) (cs : List Char) : walk .block (x :: cs) = walk .block cs := by
  simp only [List.mem_cons, List.not_mem_nil, or_false, not_or] at h
  exact congrArg (cs.foldl Standing.next) (Standing.next.eq_4 x h.1 h.2.1 h.2.2)

theorem walk_charset_cons (h : x ∉ ['\\', ']']) (cs : List Char) : walk .charset (x :: cs) = walk .charset cs := by
  simp only [List.mem_cons, List.not_mem_nil, or_false, not_or] at h
  exact congrArg (cs.foldl Standing.next) (Standing.next.eq_8 x h.1 h.2)

theorem walk_count_cons (h : x ≠ '}') (cs : List Char) : walk .count (x :: cs) = walk .count cs :=
  congrArg (cs.foldl Standing.next) (Standing.next.eq_11 x h)

theorem walk_append (h : c.walk cs = .inside d) (rest : List Char) : c.walk (cs ++ rest) = d.walk rest := by
  rw [walk, List.foldl_append]
  exact congrArg (rest.foldl Standing.next) h

/-! ## Runs of text that stay in a context -/

theorem ne_backslash (hpair : ∀ y rest, x = '\\' → cs = y :: rest → False) (hlone : x = '\\' → cs = [] → False) :
    x ≠ '\\' := by
  rintro rfl
  cases cs with
  | nil => exact hlone rfl rfl
  | cons y cs => exact hpair y cs rfl rfl

theorem walk_skipRun_block (cs : List Char) :
    walk .block (skipRun (fun x => x == '[' || x == '{') cs) = walk .block cs := by
  fun_induction skipRun (fun x => x == '[' || x == '{') cs with
  | case1 x cs ih => exact ih
  | case2 | case3 | case5 => rfl
  | case4 x cs hpair hlone hstop ih =>
    have hx := ne_backslash hpair hlone
    rw [ih, walk_block_cons]
    simpa [hx] using hstop

theorem walk_skipRun_charset (cs : List Char) : walk .charset (skipRun (· == ']') cs) = walk .charset cs := by
  fun_induction skipRun (· == ']') cs with
  | case1 x cs ih => exact ih
  | case2 | case3 | case5 => rfl
  | case4 x cs hpair hlone hstop ih =>
    have hx := ne_backslash hpair hlone
    rw [ih, walk_charset_cons]
    simpa [hx] using hstop

theorem walk_dropWhile_count (cs : List Char) : walk .count (cs.dropWhile (· != '}')) = walk .count cs := by
  induction cs with
  | nil => rfl
  | cons x cs ih =>
    by_cases hx : x = '}'
    · rw [hx]
      rfl
    · rw [List.dropWhile_cons_of_pos (by simpa using hx), ih, walk_count_cons hx]

theorem length_skipRun_le (stop : Char → Bool) (cs : List Char) : (skipRun stop cs).length ≤ cs.length := by
  fun_induction skipRun stop cs with
  | case1 x cs ih => exact Nat.le_succ_of_le (Nat.le_succ_of_le ih)
  | case2 | case3 | case5 => exact Nat.le_refl _
  | case4 x cs _ _ _ ih => exact Nat.le_succ_of_le ih

theorem length_skipRun_lt {stop : Char → Bool} (hstop : ∀ x rest, cs = x :: rest → stop x = false) (hne : cs ≠ [])
    (hlone : cs ≠ ['\\']) : (skipRun stop cs).length < cs.length := by
  fun_cases skipRun stop cs with
  | case1 x rest => exact Nat.lt_succ_of_lt (Nat.lt_succ_of_le (length_skipRun_le stop rest))
  | case2 => exact absurd rfl hlone
  | case3 x rest _ _ h =>
    rw [hstop x rest rfl] at h
    cases h
  | case4 x rest => exact Nat.lt_succ_of_le (length_skipRun_le stop rest)
  | case5 => exact absurd rfl hne

/-! ## Chunks -/

theorem of_chunk_eq_none (h : c.chunk cs = none) : cs = [] ∨ c = .charset ∧ cs = ['\\'] := by
  unfold chunk at h
  split at h <;> simp_all

/-- **A chunk takes something, and the walk goes on behind it.** -/
theorem of_chunk_eq_some (h : c.chunk cs = some (d, rest)) : rest.length < cs.length ∧ c.walk cs = d.walk rest := by
  unfold chunk at h
  split at h <;> cases h
  case h_5 hne hbackslash hbracket hbrace =>
    refine ⟨length_skipRun_lt (fun x rest he => ?_) hne (hbackslash []), (walk_skipRun_block cs).symm⟩
    simp only [Bool.or_eq_false_iff, beq_eq_false_iff_ne]
    exact ⟨fun hx => hbracket rest (hx ▸ he), fun hx => hbrace rest (hx ▸ he)⟩
  case h_9 hne hbracket hlone =>
    refine ⟨length_skipRun_lt (fun x rest he => ?_) hne hlone, (walk_skipRun_charset cs).symm⟩
    exact beq_eq_false_iff_ne.2 fun hx => hbracket rest (hx ▸ he)
  case h_11 hne hbrace =>
    refine ⟨?_, (walk_dropWhile_count cs).symm⟩
    cases cs with
    | nil => exact absurd rfl hne
    | cons x rest =>
      have hx : x ≠ '}' := fun hx => hbrace rest (congrArg (· :: rest) hx)
      rw [List.dropWhile_cons_of_pos (by simpa using hx)]
      exact Nat.lt_succ_of_le (List.dropWhile_sublist _).length_le
  all_goals exact ⟨Nat.lt_succ_self _, rfl⟩

/-- **The scan of a part is a walk over it.** -/
theorem scan_eq (c : Context) (cs : List Char) : c.scan cs = (c.walk cs).context? := by
  fun_induction scan c cs with
  | case1 c cs h =>
    rw [List.isEmpty_iff.1 h]
    rfl
  | case2 c cs hne h =>
    rcases of_chunk_eq_none h with rfl | ⟨rfl, rfl⟩
    · exact absurd rfl hne
    · rfl
  | case3 c cs hne d rest h hlt ih => rw [ih, (of_chunk_eq_some h).2]
  | case4 c cs hne d rest h hlt => exact absurd (of_chunk_eq_some h).1 hlt

theorem scan_eq_ok_iff : c.scan cs = .ok d ↔ c.walk cs = .inside d := by
  rw [scan_eq]
  cases c.walk cs with
  | inside e => simp [Standing.context?]
  | classEscape => simp [Standing.context?]

end Context

end Packrat.Splice
