import Packrat.Proofs.ContextWalk
import Packrat.Proofs.TokenKinds
/-!
# ContextAutomaton — the contexts of parts, character by character

A chunk is the preferred match of a pattern, one for each context: a single character that leaves the context, or else
the longest run that stays in it (`chunk_eq_matched`).  Over a list of parts the chunks make no difference.  The context
before a hole is the one in which a walk over all the characters before it stands, whatever parts they come in, and the
parts cannot be scanned exactly if the walk stands behind an unpaired backslash of a class at the end of one of them
(`contextsFrom_eq_ok_iff`, `contextsFrom_eq_error_iff`).  Main statement: `holeContexts_eq_walk`.
-/
namespace Packrat.Splice

open Context Pattern Pattern.Expr

/-! ## Chunks as matches -/

/-- **The source of the chunks of a context.**  The named group takes part in a match that leaves the context. -/
def Context.chunkSource : Context → String
  | .block => "\\A(?s:(?P<exit>[\\\\\x7b\\[])|(?:[^\\\\\x7b\\[]|\\\\.)+)"
  | .backslash => "\\A(?s:(?P<exit>.))"
  | .charset => "\\A(?s:(?P<exit>\\])|(?:[^\\]\\\\]|\\\\.)+)"
  | .count => "\\A(?s:(?P<exit>\\\x7d)|[^\x7d]+)"

def Context.exit : Context → List Char → Context
  | .block, ['\\'] => .backslash
  | .block, ['['] => .charset
  | .block, _ => .count
  | .backslash, _ | .charset, _ | .count, _ => .block

/-- **The preferred match of a pattern as a chunk**: the context after it, and the text behind it. -/
def Context.matched (c : Context) (p : Pattern) (cs : List Char) : Option (Context × List Char) :=
  (p.expr.search cs).map fun (_, hit) =>
    (if hit.groups.contains "exit" then c.exit hit.place.before.reverse else c, hit.place.after)

def runItem (stop : List Char) : Splitter :=
  (Splitter.one fun c => !stop.contains c).or ((Splitter.one (· == '\\')).andThen (.one fun _ => true))

def runItemExpr (stop : List Char) : Expr :=
  .alt (.one (.negate (oneOf stop))) (.cat (.one (.single '\\')) (.one .all))

/-- **The expression of the chunks of a context.** -/
def Context.chunkExpr : Context → Expr
  | .block => .alt (.group (some "exit") (.one (oneOf ['\\', '{', '['])))
      (.times 1 none true (runItemExpr ['\\', '{', '[']))
  | .backslash => .group (some "exit") (.one .all)
  | .charset => .alt (.group (some "exit") (.one (.single ']'))) (.times 1 none true (runItemExpr [']', '\\']))
  | .count => .alt (.group (some "exit") (.one (.single '}'))) (.times 1 none true (.one (.negate (oneOf ['}']))))

theorem compile_chunkSource (c : Context) : Pattern.compile c.chunkSource =
    some ⟨c.chunkSource, .cat (.look .startText) c.chunkExpr⟩ := by
  cases c <;> rfl

/-! ### Runs -/

variable {c d e : Context} {f : Splitter} {stop : List Char} {ends : Char → Bool} {cs : List Char}

theorem takesOnly_runItem (h : '\\' ∈ stop) : (runItemExpr stop).TakesOnly (runItem stop) := by
  have hplain : ∀ c, (CharSet.negate (oneOf stop)).mem c = !stop.contains c := fun c => by rw [CharSet.mem, mem_oneOf]
  refine takesOnly_alt (takesOnly_set hplain)
    (takesOnly_cat (takesOnly_set (mem_single_eq '\\')) (takesOnly_set CharSet.mem_all)) fun cs => ?_
  cases cs with
  | nil => exact Or.inl rfl
  | cons x cs =>
    by_cases hx : x = '\\'
    · left
      simp [Splitter.one, hx, h]
    · right
      rw [andThen_one, if_neg (by simpa using hx)]

theorem shortens_runItem (stop : List Char) : (runItem stop).Shortens :=
  shortens_or (Splitter.shortens_one _)
    (shortens_andThen (Splitter.shortens_one _) fun _ _ _ h => Nat.le_of_lt (Splitter.shortens_one _ h))

theorem runItem_backslash (h : '\\' ∈ stop) (cs : List Char) :
    runItem stop ('\\' :: cs) = (Splitter.one (fun _ => true) cs).map (Lexer.prepend ['\\']) := by
  have hstop : (Splitter.one fun x => !stop.contains x) ('\\' :: cs) = none := by simp [Splitter.one, h]
  rw [runItem, Splitter.or, hstop, andThen_one]
  rfl

theorem runItem_cons {x : Char} (hx : x ≠ '\\') (cs : List Char) :
    runItem stop (x :: cs) = if x ∈ stop then none else some ([x], cs) := by
  rw [runItem, Splitter.or, andThen_one, if_neg (by simpa using hx), Option.or_none, Splitter.one]
  by_cases hs : x ∈ stop <;> simp [hs]

/-- **As many items as there are leave what a run leaves.** -/
theorem star_runItem (h : ∀ x, x ∈ stop ↔ x = '\\' ∨ ends x = true) (cs : List Char) :
    ((runItem stop).star cs).map Prod.snd = some (skipRun ends cs) := by
  have hbackslash : '\\' ∈ stop := (h _).2 (Or.inl rfl)
  have hmore : ∀ {head rest cs : List Char}, runItem stop cs = some (head, rest) →
      ((runItem stop).star cs).map Prod.snd = ((runItem stop).star rest).map Prod.snd := fun hitem => by
    rw [Splitter.star_of_some (shortens_runItem stop) hitem, Option.map_map]
    rfl
  fun_induction skipRun ends cs with
  | case1 x cs ih => rw [hmore (runItem_backslash hbackslash _), ih]
  | case2 =>
    rw [Splitter.star_of_none (runItem_backslash hbackslash _)]
    rfl
  | case3 x cs hpair hlone hends =>
    have hx := ne_backslash hpair hlone
    rw [Splitter.star_of_none (by rw [runItem_cons hx, if_pos ((h x).2 (Or.inr hends))])]
    rfl
  | case4 x cs hpair hlone hends ih =>
    have hx := ne_backslash hpair hlone
    have hplain : x ∉ stop := fun hs => ((h x).1 hs).elim hx hends
    rw [hmore (by rw [runItem_cons hx, if_neg hplain]), ih]
  | case5 => rfl

theorem andThen_star (hf : f.Shortens) (h : (f cs).isSome) : f.andThen f.star cs = f.star cs := by
  obtain ⟨⟨head, rest⟩, hr⟩ := Option.isSome_iff_exists.1 h
  rw [Splitter.andThen, Splitter.star_of_some hf hr, hr]
  rfl

/-! ### Matches -/

/-- **A match leaves the context if its first character does**, and else is a run. -/
theorem matched_alt {set : CharSet} {run : Expr} (hrun : run.Takes f) (c : Context) (source : String) (cs : List Char) :
    c.matched ⟨source, .cat (.look .startText) (.alt (.group (some "exit") (.one set)) run)⟩ cs =
      ((Splitter.one set.mem cs).map fun r => (c.exit r.1, r.2)).or ((f cs).map fun r => (c, r.2)) := by
  rw [Context.matched, search_startText, hits_alt, List.head?_append, hits_group, List.head?_map, takesOnly_one set, hrun]
  dsimp only [Hit.at]
  cases Splitter.one set.mem cs with
  | some r => simp [Hit.past]
  | none => cases f cs <;> simp [Hit.past]

theorem matched_run {set : CharSet} (ends : Char → Bool) (hstop : ∀ x, x ∈ stop ↔ x = '\\' ∨ ends x = true) (c : Context) (source : String)
    {x : Char} (hset : set.mem x = false) (hends : ends x = false) (hlone : x = '\\' → cs ≠ []) :
    c.matched ⟨source, .cat (.look .startText)
      (.alt (.group (some "exit") (.one set)) (.times 1 none true (runItemExpr stop)))⟩ (x :: cs) =
      some (c, skipRun ends (x :: cs)) := by
  have hbackslash : '\\' ∈ stop := (hstop _).2 (Or.inl rfl)
  have hitem : (runItem stop (x :: cs)).isSome := by
    by_cases hx : x = '\\'
    · obtain ⟨y, rest, rfl⟩ := List.exists_cons_of_ne_nil (hlone hx)
      rw [hx, runItem_backslash hbackslash]
      rfl
    · rw [runItem_cons hx, if_neg (by simp [hstop, hx, hends])]
      rfl
  have hnone : Splitter.one set.mem (x :: cs) = none := if_neg (by simp [hset])
  have hrun := takes_plus (takesOnly_runItem hbackslash) (shortens_runItem stop)
  rw [matched_alt hrun, hnone, andThen_star (shortens_runItem stop) hitem]
  obtain ⟨r, hr, hrest⟩ := Option.map_eq_some_iff.1 (star_runItem hstop (x :: cs))
  rw [hr, ← hrest]
  rfl

/-- **A chunk is the preferred match of the pattern of its context.** -/
theorem chunk_eq_matched (c : Context) :
    ∃ p, Pattern.compile c.chunkSource = some p ∧ ∀ cs, c.chunk cs = c.matched p cs := by
  refine ⟨_, compile_chunkSource c, fun cs => ?_⟩
  cases cs with
  | nil => cases c <;> rfl
  | cons x cs =>
    cases c with
    | block =>
      by_cases hx : x ∈ ['\\', '{', '[']
      · simp only [List.mem_cons, List.not_mem_nil, or_false] at hx
        rcases hx with rfl | rfl | rfl <;> rfl
      · simp only [List.mem_cons, List.not_mem_nil, or_false, not_or] at hx
        rw [Context.chunkExpr, matched_run fun x => x == '[' || x == '{']
        · exact Context.chunk.eq_5 _ nofun (by grind) (by grind) (by grind)
        · grind
        · rw [mem_oneOf]
          simp [hx]
        · simp [hx]
        · exact fun h => absurd h hx.1
    | backslash =>
      simp [Context.chunk, Context.matched, Context.chunkExpr, Context.exit, search_startText, hits_group,
        hits_one_cons, Hit.at, CharSet.mem_all]
    | charset =>
      by_cases hx : x = ']'
      · rw [hx]
        rfl
      · by_cases hlone : x = '\\' ∧ cs = []
        · rw [hlone.1, hlone.2]
          rfl
        · rw [Context.chunkExpr, matched_run (· == ']')]
          · exact Context.chunk.eq_9 _ nofun (by grind) (by grind)
          · grind
          · simp [mem_single_eq, hx]
          · simp [hx]
          · exact fun h h' => hlone ⟨h, h'⟩
    | count =>
      have hrun : (Expr.times 1 none true (.one (.negate (oneOf ['}'])))).Takes (Lexer.run? (· != '}')) :=
        takes_run fun c => by simp [CharSet.mem, mem_oneOf, bne, Bool.beq_eq_decide_eq]
      rw [Context.chunkExpr, matched_alt hrun]
      by_cases hx : x = '}'
      · rw [hx]
        rfl
      · rw [Context.chunk.eq_11 (x :: cs) nofun (by grind)]
        simp [Splitter.one, Lexer.run?, mem_single_eq, hx]

/-! ## Parts -/

variable {part before : List Char} {parts : List (List Char)} {contexts : List Context} {u : Unscannable} {index k : Nat}

theorem exists_of_walk_eq_classEscape (h : c.walk cs = .classEscape) :
    ∃ before, cs = before ++ ['\\'] ∧ c.walk before = .inside .charset := by
  rcases List.eq_nil_or_concat cs with rfl | ⟨before, x, rfl⟩
  · cases h
  · rw [walk, List.concat_eq_append, List.foldl_append] at h
    have hstep : ∀ s : Standing, s.next x = .classEscape → s = .inside .charset ∧ x = '\\' := by
      intro s hs
      unfold Standing.next at hs
      split at hs <;> cases hs
      exact ⟨rfl, rfl⟩
    obtain ⟨hbefore, rfl⟩ := hstep _ h
    exact ⟨before, List.concat_eq_append, hbefore⟩

/-- **Where a walk over the first parts stands**: the characters count, and not where a part ends. -/
def Context.walkParts (c : Context) (parts : List (List Char)) (k : Nat) : Standing := c.walk (parts.take k).flatten

theorem walkParts_zero (c : Context) (parts : List (List Char)) : c.walkParts parts 0 = .inside c := rfl

theorem walkParts_one (c : Context) (part : List Char) (parts : List (List Char)) :
    c.walkParts (part :: parts) 1 = c.walk part := by simp [walkParts]

theorem walkParts_succ (h : c.walk part = .inside e) (parts : List (List Char)) (k : Nat) :
    c.walkParts (part :: parts) (k + 1) = e.walkParts parts k := by
  rw [walkParts, List.take_succ_cons, List.flatten_cons, walk_append h]
  rfl

theorem contextsFrom_of_escape (h : c.walk (before ++ ['\\']) = .classEscape) :
    contextsFrom index c ((before ++ ['\\']) :: parts) = .error ⟨index, Text.byteLength before, .charset⟩ := by
  have hsize : Text.byteLength (before ++ ['\\']) - Text.byteLength ['\\'] = Text.byteLength before := by simp
  rw [contextsFrom, scan_eq, h, Standing.context?]
  dsimp only
  rw [hsize]

theorem contextsFrom_of_inside (h : c.walk part = .inside e) : contextsFrom index c (part :: parts) =
    if parts = [] then .ok [] else (contextsFrom (index + 1) e parts).map (e :: ·) := by
  rw [contextsFrom, scan_eq, h, Standing.context?]
  cases parts <;> rfl

/-- **The contexts are those in which the walk stands** behind each of the parts but the last, and behind none it stands
in the middle of an escape. -/
structure Records (c : Context) (parts : List (List Char)) (contexts : List Context) : Prop where
  unbroken : ∀ k ≤ parts.length, c.walkParts parts k ≠ .classEscape
  length : contexts.length = parts.length - 1
  standing : ∀ k d, contexts[k]? = some d → c.walkParts parts (k + 1) = .inside d

/-- **A part of the list is the first behind which the walk stands in the middle of an escape**, `before` being what
the part has before the backslash. -/
structure BreaksAt (c : Context) (parts : List (List Char)) (k : Nat) (before : List Char) : Prop where
  unbroken : ∀ j ≤ k, c.walkParts parts j ≠ .classEscape
  broken : c.walkParts parts (k + 1) = .classEscape
  part : parts[k]? = some (before ++ ['\\'])

theorem records_nil : Records c [] contexts ↔ contexts = [] := by
  constructor
  · exact fun h => List.length_eq_zero_iff.1 h.length
  · rintro rfl
    exact ⟨fun k hk => by simp [Nat.le_zero.1 hk, walkParts_zero], rfl, nofun⟩

theorem records_one (h : c.walk part = .inside e) : Records c [part] contexts ↔ contexts = [] := by
  constructor
  · exact fun h => List.length_eq_zero_iff.1 h.length
  · rintro rfl
    refine ⟨fun k hk => ?_, rfl, nofun⟩
    cases k with
    | zero => simp [walkParts_zero]
    | succ k => simp [walkParts_succ h, Nat.le_zero.1 (Nat.le_of_succ_le_succ hk), walkParts_zero]

theorem records_cons (h : c.walk part = .inside e) (hparts : parts ≠ []) :
    Records c (part :: parts) contexts ↔ ∃ others, Records e parts others ∧ e :: others = contexts := by
  have hlen : 0 < parts.length := List.length_pos_iff.2 hparts
  constructor
  · intro hr
    cases contexts with
    | nil =>
      have := hr.length
      simp at this
      omega
    | cons d others =>
      have hd := hr.standing 0 d rfl
      rw [walkParts_succ h, walkParts_zero] at hd
      cases hd
      refine ⟨others, ⟨fun k hk => ?_, ?_, fun k d hd => ?_⟩, rfl⟩
      · rw [← walkParts_succ h]
        exact hr.unbroken (k + 1) (Nat.succ_le_succ hk)
      · have := hr.length
        simp at this
        omega
      · rw [← walkParts_succ h]
        exact hr.standing (k + 1) d hd
  · rintro ⟨others, hr, rfl⟩
    refine ⟨fun k hk => ?_, ?_, fun k d hd => ?_⟩
    · cases k with
      | zero => simp [walkParts_zero]
      | succ k =>
        rw [walkParts_succ h]
        exact hr.unbroken k (Nat.le_of_succ_le_succ hk)
    · have := hr.length
      simp
      omega
    · rw [walkParts_succ h]
      cases k with
      | zero =>
        cases hd
        rfl
      | succ k => exact hr.standing k d hd

/-- **The scan of parts records the contexts of the walk.** -/
theorem contextsFrom_eq_ok_iff : ∀ {parts : List (List Char)} {index : Nat} {c : Context} {contexts : List Context},
    contextsFrom index c parts = .ok contexts ↔ Records c parts contexts
  | [], _, _, _ => by
    rw [contextsFrom, records_nil, Except.ok.injEq, eq_comm]
  | part :: parts, index, c, contexts => by
    cases hw : c.walk part with
    | classEscape =>
      obtain ⟨before, rfl, -⟩ := exists_of_walk_eq_classEscape hw
      rw [contextsFrom_of_escape hw]
      refine ⟨nofun, fun h => absurd ?_ (h.unbroken 1 (by simp))⟩
      rw [walkParts_one, hw]
    | inside e =>
      rw [contextsFrom_of_inside hw]
      by_cases hparts : parts = []
      · rw [if_pos hparts, hparts, records_one hw, Except.ok.injEq, eq_comm]
      · rw [if_neg hparts, records_cons hw hparts]
        simp only [← @contextsFrom_eq_ok_iff parts (index + 1)]
        cases contextsFrom (index + 1) e parts <;> simp [Except.map]

theorem breaksAt_cons (h : c.walk part = .inside e) :
    BreaksAt c (part :: parts) (k + 1) before ↔ BreaksAt e parts k before := by
  constructor
  · intro hb
    refine ⟨fun j hj => ?_, ?_, hb.part⟩
    · rw [← walkParts_succ h]
      exact hb.unbroken (j + 1) (Nat.succ_le_succ hj)
    · rw [← walkParts_succ h]
      exact hb.broken
  · intro hb
    refine ⟨fun j hj => ?_, ?_, hb.part⟩
    · cases j with
      | zero => simp [walkParts_zero]
      | succ j =>
        rw [walkParts_succ h]
        exact hb.unbroken j (Nat.le_of_succ_le_succ hj)
    · rw [walkParts_succ h]
      exact hb.broken

theorem breaksAt_of_escape {b : List Char} (h : c.walk (before ++ ['\\']) = .classEscape) :
    BreaksAt c ((before ++ ['\\']) :: parts) k b ↔ k = 0 ∧ b = before := by
  constructor
  · intro hb
    cases k with
    | zero => exact ⟨rfl, (List.append_cancel_right (Option.some.inj hb.part)).symm⟩
    | succ k => exact absurd ((walkParts_one c _ _).trans h) (hb.unbroken 1 (Nat.succ_le_succ (Nat.zero_le k)))
  · rintro ⟨rfl, rfl⟩
    exact ⟨fun j hj => by simp [Nat.le_zero.1 hj, walkParts_zero], (walkParts_one c _ _).trans h, rfl⟩

/-- **The scan of parts stops where the walk breaks.** -/
theorem contextsFrom_eq_error_iff : ∀ {parts : List (List Char)} {index : Nat} {c : Context} {u : Unscannable},
    contextsFrom index c parts = .error u ↔
      ∃ k before, BreaksAt c parts k before ∧ ⟨index + k, Text.byteLength before, .charset⟩ = u
  | [], _, _, _ => by
    refine ⟨nofun, ?_⟩
    rintro ⟨k, before, hb, -⟩
    cases hb.part
  | part :: parts, index, c, u => by
    cases hw : c.walk part with
    | classEscape =>
      obtain ⟨before, rfl, -⟩ := exists_of_walk_eq_classEscape hw
      rw [contextsFrom_of_escape hw]
      simp [breaksAt_of_escape hw]
    | inside e =>
      have hmore : contextsFrom index c (part :: parts) = .error u ↔ contextsFrom (index + 1) e parts = .error u := by
        rw [contextsFrom_of_inside hw]
        by_cases hparts : parts = []
        · simp [hparts, contextsFrom]
        · rw [if_neg hparts]
          cases contextsFrom (index + 1) e parts <;> simp [Except.map]
      rw [hmore, contextsFrom_eq_error_iff]
      constructor
      · rintro ⟨k, before, hb, rfl⟩
        exact ⟨k + 1, before, (breaksAt_cons hw).2 hb, by rw [Nat.add_right_comm, Nat.add_assoc]⟩
      · rintro ⟨k, before, hb, rfl⟩
        cases k with
        | zero =>
          have hbroken := hb.broken
          rw [walkParts_one, hw] at hbroken
          cases hbroken
        | succ k => exact ⟨k, before, (breaksAt_cons hw).1 hb, by rw [Nat.add_right_comm, Nat.add_assoc]⟩

/-- **The scan by chunks is a walk by characters.**  A chunk is the preferred match of the pattern of its context; and
whatever the chunks are, the contexts of parts are those in which the walk stands, and the scan fails exactly if the
walk breaks, at the first part behind which it does and the byte of the backslash. -/
theorem holeContexts_eq_walk (parts : List String) :
    (∀ c : Context, ∃ p, Pattern.compile c.chunkSource = some p ∧ ∀ cs, c.chunk cs = c.matched p cs) ∧
    (∀ contexts, holeContexts parts = .ok contexts ↔ Records .block (parts.map String.toList) contexts) ∧
    ((∃ u, holeContexts parts = .error u) ↔
      ∃ k ≤ parts.length, Context.block.walkParts (parts.map String.toList) k = .classEscape) ∧
    ∀ u, holeContexts parts = .error u ↔ u.context = .charset ∧
      ∃ before, BreaksAt .block (parts.map String.toList) u.part before ∧ u.offset = Text.byteLength before := by
  have herror : ∀ u, holeContexts parts = .error u ↔ u.context = .charset ∧
      ∃ before, BreaksAt .block (parts.map String.toList) u.part before ∧ u.offset = Text.byteLength before := by
    intro u
    rw [holeContexts, contextsFrom_eq_error_iff]
    constructor
    · rintro ⟨k, before, hb, rfl⟩
      exact ⟨rfl, before, by rwa [Nat.zero_add], rfl⟩
    · rintro ⟨hcontext, before, hb, hoffset⟩
      refine ⟨u.part, before, hb, ?_⟩
      rw [Nat.zero_add, ← hcontext, ← hoffset]
  refine ⟨chunk_eq_matched, fun contexts => contextsFrom_eq_ok_iff, ⟨?_, ?_⟩, herror⟩
  · rintro ⟨u, hu⟩
    obtain ⟨-, before, hb, -⟩ := (herror u).1 hu
    have hlt : u.part < parts.length := by simpa using (List.getElem?_eq_some_iff.1 hb.part).1
    exact ⟨u.part + 1, hlt, hb.broken⟩
  · rintro ⟨k, hk, hbroken⟩
    cases hscan : holeContexts parts with
    | error u => exact ⟨u, rfl⟩
    | ok contexts => exact absurd hbroken ((contextsFrom_eq_ok_iff.1 hscan).unbroken k (by simpa using hk))

-- the offset counts bytes, of which the letter before the bracket has two
example : holeContexts ["é[b\\", "]"] = .error ⟨0, 4, .charset⟩ := by decide +kernel

end Packrat.Splice
