import Packrat.Grammar.Parse
import Packrat.Proofs.RunEnds
/-!
# ParseMeaning — a parse gives what its rule means

A parse runs its rule over the scanned program with a fuel that is enough for every derivation (`depth_lt`).  So its
result is what the rule means at the first entry, whether outcomes are kept or not, and a failure names the furthest
position of the derivation (`runEntry_of_means`).  The result is the report of left recursion only if the rule means
nothing there, which is when no fuel at all is enough (`parseWith_iff_reads`).  Keeping outcomes therefore changes
nothing but the counts (`memo_transparent`).
-/
namespace Packrat

/-- A parse with its counts set aside: its value, the values of the holes, the entries taken, and all entries. -/
def Parse.outcome (p : Parse) : Value × List Value × Nat × Nat := (p.value, p.holes, p.consumed, p.total)

namespace Grammar

variable {g : Grammar} {tokens : TokenList} {d : Definition} {memoize : Bool} {fuel : Nat} {a b : Answer} {t : Trail}
  {rule : String} {program : Template} {holes : List Value}

/-- **What a definition means from the first entry on.** -/
def Reads (g : Grammar) (tokens : TokenList) (d : Definition) (a : Answer) : Prop :=
  ∃ t, Means g.layers tokens d (.choice d.rule.body) 0 a t

/-- **A parse comes to an end**: some fuel is enough for the run of its rule. -/
def Ends (g : Grammar) (options : ParseOptions) (rule : String) (program : Template) (holes : List Value) : Prop :=
  ∀ d tokens, g.lookup rule = some d → program.holeCount = holes.length → g.scanner.scan program = .ok tokens →
    ∃ fuel, invoke g.layers options.memoize fuel d (.start tokens.cursor) ≠ .exhausted

theorem of_lookup (h : g.lookup rule = some d) : d.Of g.layers := (of_find? h).1

theorem depth_lt_callDepth (hd : d.Of g.layers) (h : Means g.layers tokens d (.choice d.rule.body) 0 a t) :
    t.depth < g.callDepth tokens := by
  have := depth_lt h hd (Nat.zero_le _)
  have hr : g.ruleCount = ruleTotal g.layers := rfl
  rw [callDepth, hr]
  omega

theorem means_of_invoke (hd : d.Of g.layers)
    (hne : invoke g.layers memoize fuel d (.start tokens.cursor) ≠ .exhausted) : ∃ a, g.Reads tokens d a := by
  have h : (invoke g.layers memoize fuel d (.start tokens.cursor)).Fits g.layers tokens d (.choice d.rule.body)
      (.start tokens.cursor) := fits_invoke fuel hd (sound_start tokens)
  cases hr : invoke g.layers memoize fuel d (.start tokens.cursor) with
  | exhausted => exact absurd hr hne
  | value v s =>
    rw [hr] at h
    obtain ⟨t, hm, -⟩ := h
    exact ⟨_, t, hm⟩
  | fail s =>
    rw [hr] at h
    obtain ⟨t, hm, -⟩ := h
    exact ⟨_, t, hm⟩

/-- **The run of the rule, with or without keeping outcomes**: the answer of the rule at the first entry, and the
furthest position of its derivation. -/
theorem runEntry_of_means (memoize : Bool) (hd : d.Of g.layers) (hm : Means g.layers tokens d (.choice d.rule.body) 0 a t) :
    (∀ v q, a = some (v, q) → ∃ s, g.runEntry memoize d tokens = .value v s ∧ s.position = q) ∧
    (a = none → ∃ s, g.runEntry memoize d tokens = .fail s ∧ s.furthest = t.furthest) := by
  have hne : g.runEntry memoize d tokens ≠ .exhausted :=
    invoke_ne_exhausted hm hd (depth_lt_callDepth hd hm) (sound_start tokens)
  have h : (g.runEntry memoize d tokens).Fits g.layers tokens d (.choice d.rule.body) (.start tokens.cursor) :=
    fits_invoke _ hd (sound_start tokens)
  cases hr : g.runEntry memoize d tokens with
  | exhausted => exact absurd hr hne
  | value v s =>
    rw [hr] at h
    obtain ⟨u, hm', -⟩ := h
    obtain ⟨rfl, rfl⟩ := means_unique hm hm'
    exact ⟨fun v' q he => by cases he; exact ⟨s, rfl, rfl⟩, fun he => by cases he⟩
  | fail s =>
    rw [hr] at h
    obtain ⟨u, hm', ha⟩ := h
    obtain ⟨rfl, rfl⟩ := means_unique hm hm'
    exact ⟨fun v q he => by (cases he), fun _ => ⟨s, rfl, by rw [ha.furthest]; exact Nat.zero_max _⟩⟩

theorem parseWith_eq_runEntry (options : ParseOptions) (hd : g.lookup rule = some d)
    (hh : program.holeCount = holes.length) (hs : g.scanner.scan program = .ok tokens) :
    g.parseWith options rule program holes =
      match g.runEntry options.memoize d tokens with
      | .value value s => .ok ⟨value, holes, s.position, tokens.entries.length, s.stats⟩
      | .fail s => .error (.noMatch rule s.furthest tokens.entries[s.furthest]?)
      | .exhausted => .error (.leftRecursion rule) := by
  unfold parseWith
  rw [hd, hs]
  exact if_neg (not_not_intro hh)

theorem exists_run (h : (∃ p, g.parseWith options rule program holes = .ok p) ∨
    ∃ name k entry, g.parseWith options rule program holes = .error (.noMatch name k entry)) :
    ∃ d tokens, g.lookup rule = some d ∧ program.holeCount = holes.length ∧ g.scanner.scan program = .ok tokens := by
  unfold parseWith at h
  split at h
  · simp at h
  · rename_i d hd
    split at h
    · simp at h
    · rename_i hholes
      split at h
      · simp at h
      · rename_i tokens hs
        exact ⟨d, tokens, hd, not_not.1 hholes, hs⟩

theorem exists_runEntry_value {p : Parse} (h : g.parseWith options rule program holes = .ok p) :
    ∃ d tokens v s, g.lookup rule = some d ∧ program.holeCount = holes.length ∧ g.scanner.scan program = .ok tokens ∧
      g.runEntry options.memoize d tokens = .value v s ∧ p = ⟨v, holes, s.position, tokens.entries.length, s.stats⟩ := by
  obtain ⟨d, tokens, hd, hholes, hs⟩ := exists_run (.inl ⟨p, h⟩)
  rw [parseWith_eq_runEntry options hd hholes hs] at h
  cases hr : g.runEntry options.memoize d tokens with
  | exhausted | fail _ =>
    rw [hr] at h
    cases h
  | value v s =>
    rw [hr] at h
    cases h
    exact ⟨d, tokens, v, s, hd, hholes, hs, hr, rfl⟩

theorem exists_runEntry_fail {name : String} {k : Nat} {entry : Option Entry}
    (h : g.parseWith options rule program holes = .error (.noMatch name k entry)) :
    ∃ d tokens s, g.lookup rule = some d ∧ program.holeCount = holes.length ∧ g.scanner.scan program = .ok tokens ∧
      g.runEntry options.memoize d tokens = .fail s ∧ k = s.furthest ∧ entry = tokens.entries[s.furthest]? := by
  obtain ⟨d, tokens, hd, hholes, hs⟩ := exists_run (.inr ⟨name, k, entry, h⟩)
  rw [parseWith_eq_runEntry options hd hholes hs] at h
  cases hr : g.runEntry options.memoize d tokens with
  | exhausted | value _ _ =>
    rw [hr] at h
    cases h
  | fail s =>
    rw [hr] at h
    cases h
    exact ⟨d, tokens, s, hd, hholes, hs, hr, rfl, rfl⟩

theorem reads_of_runEntry {v : Value} {s : State} (hd : d.Of g.layers)
    (h : g.runEntry memoize d tokens = .value v s) : g.Reads tokens d (some (v, s.position)) := by
  have hfits : (g.runEntry memoize d tokens).Fits g.layers tokens d (.choice d.rule.body) (.start tokens.cursor) :=
    fits_invoke _ hd (sound_start tokens)
  rw [h] at hfits
  obtain ⟨t, hm, -⟩ := hfits
  exact ⟨t, hm⟩

theorem invoke_ends_iff (hd : d.Of g.layers) :
    (∃ fuel, invoke g.layers memoize fuel d (.start tokens.cursor) ≠ .exhausted) ↔ ∃ a, g.Reads tokens d a :=
  ⟨fun ⟨_, h⟩ => means_of_invoke hd h,
    fun ⟨_, _, hm⟩ => ⟨_, invoke_ne_exhausted hm hd (Nat.lt_succ_self _) (sound_start tokens)⟩⟩

theorem runEntry_eq_exhausted (hd : d.Of g.layers) (h : ¬ ∃ a, g.Reads tokens d a) :
    g.runEntry memoize d tokens = .exhausted :=
  Classical.byContradiction fun hne => h (means_of_invoke hd hne)

def lists : Grammar where
  own := ⟨[⟨"item", .orElse (.andThen (.once (.terminal .hole)) (.stop none))
      (.last (.andThen (.once (.super "item")) (.stop (some 0))))⟩], [fun values => some (.node "plain" values)]⟩
  inherited := [⟨[
    ⟨"start", .last (.andThen (.once (.rule "list")) (.andThen (.once (.terminal .eof)) (.stop none)))⟩,
    ⟨"list", .last (.andThen (.sepBy (.rule "item") (.literal ",")) (.stop none))⟩,
    ⟨"item", .orElse (.andThen (.once (.terminal .number)) (.stop none))
      (.last (.andThen (.once (.literal "(")) (.andThen (.once (.rule "list"))
        (.andThen (.once (.literal ")")) (.stop none)))))⟩], []⟩]
  literals := ["(", ")", ","]
  scanner := (Scanner.ofTokens ["(", ")", ","]).toOption.getD default

/-- **A parse gives what its rule means**: a value with the entries taken, or the failure to match; the report of left
recursion means that the rule has no answer, which is when the run ends with no fuel. -/
theorem parseWith_iff_reads (g : Grammar) (options : ParseOptions) (rule : String) (program : Template)
    (holes : List Value) (d : Definition) (tokens : TokenList) (hd : g.lookup rule = some d)
    (hh : program.holeCount = holes.length) (hs : g.scanner.scan program = .ok tokens) :
    ((∃ fuel, invoke g.layers options.memoize fuel d (.start tokens.cursor) ≠ .exhausted) ↔ ∃ a, g.Reads tokens d a) ∧
    (∀ v e, (∃ p, g.parseWith options rule program holes = .ok p ∧ p.value = v ∧ p.consumed = e) ↔
      g.Reads tokens d (some (v, e))) ∧
    ((∃ k entry, g.parseWith options rule program holes = .error (.noMatch rule k entry)) ↔ g.Reads tokens d none) ∧
    (g.parseWith options rule program holes = .error (.leftRecursion rule) ↔ ¬ ∃ a, g.Reads tokens d a) := by
  have hof := of_lookup hd
  rw [parseWith_eq_runEntry options hd hh hs]
  refine ⟨invoke_ends_iff hof, ?_⟩
  by_cases hr : ∃ a, g.Reads tokens d a
  · obtain ⟨a, t, hm⟩ := hr
    have huniq : ∀ {b}, g.Reads tokens d b → a = b := fun ⟨_, hm'⟩ => (means_unique hm hm').1
    obtain ⟨hvalue, hfail⟩ := runEntry_of_means options.memoize hof hm
    cases a with
    | none =>
      obtain ⟨s, hs, -⟩ := hfail rfl
      rw [hs]
      refine ⟨fun v e => ⟨?_, fun h => by (cases huniq h)⟩, ⟨fun _ => ⟨t, hm⟩, fun _ => ⟨_, _, rfl⟩⟩, ?_⟩
      · rintro ⟨p, hp, -⟩
        cases hp
      · exact ⟨fun h => by (cases h), fun h => absurd ⟨_, t, hm⟩ h⟩
    | some r =>
      obtain ⟨s, hs, hq⟩ := hvalue r.1 r.2 rfl
      rw [hs]
      refine ⟨fun v e => ⟨?_, fun h => ?_⟩, ⟨?_, fun h => by (cases huniq h)⟩, ?_⟩
      · rintro ⟨p, hp, rfl, rfl⟩
        cases hp
        exact ⟨t, by rw [hq]; exact hm⟩
      · cases huniq h
        exact ⟨_, rfl, rfl, hq⟩
      · rintro ⟨k, entry, hk⟩
        cases hk
      · exact ⟨fun h => by (cases h), fun h => absurd ⟨_, t, hm⟩ h⟩
  · rw [runEntry_eq_exhausted hof hr]
    refine ⟨fun v e => ⟨?_, fun h => absurd ⟨_, h⟩ hr⟩, ⟨?_, fun h => absurd ⟨_, h⟩ hr⟩, ⟨fun _ => hr, fun _ => rfl⟩⟩
    · rintro ⟨p, hp, -⟩
      cases hp
    · rintro ⟨k, entry, hk⟩
      cases hk

set_option maxRecDepth 10000 in
theorem parseWith_lists_iff_reads : ∃ d tokens, lists.lookup "start" = some d ∧
    (Template.mk "1, (2, " [")"]).holeCount = [Value.null].length ∧
    lists.scanner.scan ⟨"1, (2, ", [")"]⟩ = .ok tokens ∧
    (∀ v e, (∃ p, lists.parseWith {} "start" ⟨"1, (2, ", [")"]⟩ [.null] = .ok p ∧ p.value = v ∧ p.consumed = e) ↔
      lists.Reads tokens d (some (v, e))) := by
  obtain ⟨d, hd⟩ := Option.isSome_iff_exists.1 (by decide : (lists.lookup "start").isSome = true)
  have hok : (lists.scanner.scan ⟨"1, (2, ", [")"]⟩).isOk = true := by decide +kernel
  cases hs : lists.scanner.scan ⟨"1, (2, ", [")"]⟩ with
  | error e => rw [hs] at hok; cases hok
  | ok tokens => exact ⟨d, tokens, hd, rfl, rfl, (parseWith_iff_reads lists {} "start" _ [.null] d tokens hd rfl hs).2.1⟩

/-! ## Keeping outcomes -/

/-- **Keeping outcomes is transparent**: where the parse without it ends, the parse with it ends too, and with the same
value, holes and counts of entries, or with the same error, the furthest entry among it. -/
theorem memo_transparent (g : Grammar) (rule : String) (program : Template) (holes : List Value)
    (h : g.Ends { memoize := false } rule program holes) :
    g.Ends { memoize := true } rule program holes ∧
    g.parseWith { memoize := true } rule program holes ≠ .error (.leftRecursion rule) ∧
    (g.parseWith { memoize := true } rule program holes).map Parse.outcome =
      (g.parseWith { memoize := false } rule program holes).map Parse.outcome := by
  refine ⟨fun d tokens hd hh hs => ?_, ?_⟩
  · exact (invoke_ends_iff (of_lookup hd)).2 ((invoke_ends_iff (of_lookup hd)).1 (h d tokens hd hh hs))
  unfold parseWith
  cases hd : g.lookup rule with
  | none => exact ⟨fun h => by (cases h), rfl⟩
  | some d =>
    dsimp only
    by_cases hh : program.holeCount = holes.length
    · simp only [if_neg (not_not_intro hh)]
      cases hs : g.scanner.scan program with
      | error e => exact ⟨fun h => by (cases h), rfl⟩
      | ok tokens =>
        have hof := of_lookup hd
        obtain ⟨a, t, hm⟩ := (invoke_ends_iff hof).1 (h d tokens hd hh hs)
        obtain ⟨hvalue, hfail⟩ := runEntry_of_means true hof hm
        obtain ⟨hvalue', hfail'⟩ := runEntry_of_means false hof hm
        cases a with
        | none =>
          obtain ⟨s, hs, hf⟩ := hfail rfl
          obtain ⟨s', hs', hf'⟩ := hfail' rfl
          dsimp only
          rw [hs, hs']
          dsimp only
          rw [hf, hf']
          exact ⟨fun h => by (cases h), rfl⟩
        | some r =>
          obtain ⟨s, hs, hq⟩ := hvalue r.1 r.2 rfl
          obtain ⟨s', hs', hq'⟩ := hvalue' r.1 r.2 rfl
          dsimp only
          rw [hs, hs']
          dsimp only
          rw [hq, hq']
          exact ⟨fun h => by (cases h), rfl⟩
    · simp only [if_pos hh]
      exact ⟨fun h => by (cases h), trivial⟩

def Reply.ended {α : Type} : Reply α → Bool
  | .exhausted => false
  | .value _ _ => true
  | .fail _ => true

set_option maxRecDepth 10000 in
/-- A program whose last item is not one: the parse fails, with the same entry named. -/
theorem memo_transparent_lists : lists.Ends { memoize := false } "start" ⟨"1, (2, ", [") 3"]⟩ [.null] ∧
    (lists.parseWith { memoize := true } "start" ⟨"1, (2, ", [") 3"]⟩ [.null]).map Parse.outcome =
      (lists.parseWith { memoize := false } "start" ⟨"1, (2, ", [") 3"]⟩ [.null]).map Parse.outcome := by
  have hrun : ((lists.lookup "start").all fun d => (lists.scanner.scan ⟨"1, (2, ", [") 3"]⟩).toOption.all fun tokens =>
      (invoke lists.layers false 8 d (.start tokens.cursor)).ended) = true := by decide +kernel
  have hends : lists.Ends { memoize := false } "start" ⟨"1, (2, ", [") 3"]⟩ [.null] := by
    intro d tokens hd _ hs
    rw [hd, hs] at hrun
    have hended : (invoke lists.layers false 8 d (.start tokens.cursor)).ended = true := hrun
    refine ⟨8, fun he => ?_⟩
    rw [show invoke lists.layers false 8 d (.start tokens.cursor) = .exhausted from he] at hended
    cases hended
  exact ⟨hends, (memo_transparent lists "start" _ [.null] hends).2.2⟩

end Grammar

end Packrat
