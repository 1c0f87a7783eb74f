import Packrat.Proofs.ReadSource
import Packrat.Proofs.Settled
/-!
# SplicedSource — a source read inside a longer one

A source that is read alone is read in a group of a longer source in the same steps (`leads_source`): each step reads
what is settled, so that it is the same step with more groups open around it and a bracket behind (`step_within`).  Only
the extended mode is different: a comment that ends with the source would take in the bracket, so the mode must stay off
(`NeverExtended`).
-/
namespace Packrat.Pattern

/-! ## Steps of the reader -/

def ReaderState.repeated (s : ReaderState) (low : Nat) (high : Option Nat) (rest : List Char) : Option ReaderState :=
  (s.top.repeatLast low high (readLazy rest).1).map fun g => ⟨g, s.outer, s.names, (readLazy rest).2⟩

/-- **One step of the reader**, from a state in which there is text left. -/
def ReaderState.step (s : ReaderState) : Option ReaderState :=
  match s.top.flags.skip s.text with
  | [] => none
  | '(' :: rest =>
    (readOpening s.top.flags rest).bind fun
      | (.flags f, rest) => some ⟨s.top.setFlags f, s.outer, s.names, rest⟩
      | (.group g, rest) =>
        match g.name? with
        | none => some ⟨g, s.top :: s.outer, s.names, rest⟩
        | some name => if s.names.contains name then none else some ⟨g, s.top :: s.outer, name :: s.names, rest⟩
  | ')' :: rest =>
    match s.outer with
    | [] => none
    | next :: outer => some ⟨next.push s.top.close, outer, s.names, rest⟩
  | '|' :: rest => some ⟨s.top.nextAlternative, s.outer, s.names, rest⟩
  | '[' :: rest =>
    (readClass s.top.flags rest).map fun (set, rest) => ⟨s.top.push (set.map .one), s.outer, s.names, rest⟩
  | '?' :: rest => s.repeated 0 (some 1) rest
  | '*' :: rest => s.repeated 0 none rest
  | '+' :: rest => s.repeated 1 none rest
  | '{' :: rest =>
    (readBounds s.top.flags rest).bind fun ((low, high), rest) => s.repeated low high (s.top.flags.skip rest)
  | '\\' :: rest =>
    (readEscape s.top.flags rest).map fun (a, rest) =>
      ⟨s.top.push (.leaf (a.toExpr s.top.flags)), s.outer, s.names, rest⟩
  | c :: rest => (plainExpr s.top.flags c).map fun e => ⟨s.top.push (.leaf e), s.outer, s.names, rest⟩

/-- **The reader takes a step after the other** while there is text left. -/
theorem readItems_step (fuel : Nat) (s : ReaderState) (h : s.top.flags.skip s.text ≠ []) :
    readItems (fuel + 1) s.top s.outer s.names s.text =
      s.step.bind fun s' => readItems fuel s'.top s'.outer s'.names s'.text := by
  obtain ⟨top, outer, names, text⟩ := s
  have hrepeated : ∀ (low : Nat) (high : Option Nat) (rest : List Char),
      (do readItems fuel (← top.repeatLast low high (readLazy rest).1) outer names (readLazy rest).2) =
        (ReaderState.repeated ⟨top, outer, names, text⟩ low high rest).bind
          fun s' => readItems fuel s'.top s'.outer s'.names s'.text := by
    intro low high rest
    rw [ReaderState.repeated]
    cases top.repeatLast low high (readLazy rest).1 <;> rfl
  rw [readItems, ReaderState.step]
  generalize top.flags.skip text = cs at h ⊢
  split
  · contradiction
  · rename_i rest
    simp only
    cases readOpening top.flags rest with
    | none => rfl
    | some r =>
      obtain ⟨g | f, rest⟩ := r
      · simp only [Option.bind_eq_bind, Option.bind_some]
        cases g.name? with
        | none => rfl
        | some name =>
          simp only
          split <;> rfl
      · rfl
  · cases outer <;> rfl
  · rfl
  · rename_i rest
    simp only
    cases readClass top.flags rest <;> rfl
  · exact hrepeated 0 (some 1) _
  · exact hrepeated 0 none _
  · exact hrepeated 1 none _
  · rename_i rest
    simp only
    cases readBounds top.flags rest with
    | none => rfl
    | some r => exact hrepeated r.1.1 r.1.2 _
  · rename_i rest
    simp only
    cases readEscape top.flags rest <;> rfl
  · simp only
    cases plainExpr top.flags _ <;> rfl

/-- The state with groups open around it, and a bracket and more text behind what is left. -/
def ReaderState.within (base : List OpenGroup) (t : List Char) (s : ReaderState) : ReaderState :=
  ⟨s.top, s.outer ++ base, s.names, s.text ++ ')' :: t⟩

theorem ReaderState.repeated_within (base : List OpenGroup) (t : List Char) {s s' : ReaderState} {low : Nat}
    {high : Option Nat} {rest : List Char} (h : s.repeated low high rest = some s') :
    (s.within base t).repeated low high (rest ++ ')' :: t) = some (s'.within base t) := by
  obtain ⟨g, hg, rfl⟩ := Option.map_eq_some_iff.1 h
  rw [ReaderState.repeated, readLazy_append, ReaderState.within, hg]
  rfl

/-- **A step is the same inside a group**, as all that it reads is settled. -/
theorem ReaderState.step_within (base : List OpenGroup) (t : List Char) {s s' : ReaderState}
    (hx : s.top.flags.extended = false) (h : s.step = some s') :
    (s.within base t).step = some (s'.within base t) := by
  obtain ⟨top, outer, names, text⟩ := s
  have hx : top.flags.extended = false := hx
  unfold ReaderState.step at h
  unfold ReaderState.step ReaderState.within
  simp only [Flags.skip_of_not_extended hx] at h ⊢
  split at h
  · cases h
  · rw [List.cons_append]
    obtain ⟨⟨o, rest⟩, hopen, h⟩ := Option.bind_eq_some_iff.1 h
    simp only [readOpening_settled hx hopen t, Option.bind_some]
    cases o with
    | flags f =>
      cases h
      rfl
    | group g =>
      simp only at h ⊢
      split at h
      · cases h
        rfl
      · split at h
        · cases h
        · rename_i hnew
          cases h
          simp only [if_neg hnew]
          rfl
  · split at h
    · cases h
    · cases h
      rfl
  · cases h
    rfl
  · rw [List.cons_append]
    obtain ⟨⟨set, rest⟩, hclass, he⟩ := Option.map_eq_some_iff.1 h
    cases he
    simp only [readClass_settled hx hclass t, Option.map_some]
  · exact ReaderState.repeated_within base t h
  · exact ReaderState.repeated_within base t h
  · exact ReaderState.repeated_within base t h
  · rw [List.cons_append]
    obtain ⟨⟨⟨low, high⟩, rest⟩, hbounds, h⟩ := Option.bind_eq_some_iff.1 h
    simp only [readBounds_settled hx hbounds t, Option.bind_some]
    exact ReaderState.repeated_within base t h
  · rw [List.cons_append]
    obtain ⟨⟨a, rest⟩, hescape, he⟩ := Option.map_eq_some_iff.1 h
    cases he
    simp only [readEscape_settled hx hescape t, Option.map_some]
  · obtain ⟨e, hplain, he⟩ := Option.map_eq_some_iff.1 h
    cases he
    rw [List.cons_append]
    simp only [hplain, Option.map_some]

/-! ## The outermost group -/

def ReaderState.capture (s : ReaderState) : Option (Option String) := (s.outer.getLastD s.top).capture

theorem capture_getLastD {a b : OpenGroup} (h : a.capture = b.capture) (outer : List OpenGroup) :
    (outer.getLastD a).capture = (outer.getLastD b).capture := by
  cases outer with
  | nil => exact h
  | cons g outer => rw [List.getLastD_cons, List.getLastD_cons]

theorem ReaderState.capture_top {s : ReaderState} {g : OpenGroup} (h : g.capture = s.top.capture) (names : List String)
    (text : List Char) : ReaderState.capture ⟨g, s.outer, names, text⟩ = s.capture :=
  capture_getLastD h s.outer

theorem ReaderState.capture_repeated {s s' : ReaderState} {low : Nat} {high : Option Nat} {rest : List Char}
    (h : s.repeated low high rest = some s') : s'.capture = s.capture := by
  obtain ⟨g, hg, rfl⟩ := Option.map_eq_some_iff.1 h
  refine capture_top ?_ _ _
  unfold OpenGroup.repeatLast at hg
  split at hg
  · cases hg
    rfl
  · cases hg

theorem ReaderState.capture_step {s s' : ReaderState} (h : s.step = some s') : s'.capture = s.capture := by
  have hopen : ∀ g names text, ReaderState.capture ⟨g, s.top :: s.outer, names, text⟩ = s.capture := fun _ _ _ => by
    rw [ReaderState.capture, List.getLastD_cons, ReaderState.capture]
  unfold ReaderState.step at h
  split at h
  · cases h
  · obtain ⟨⟨o, rest⟩, -, h⟩ := Option.bind_eq_some_iff.1 h
    cases o with
    | flags f =>
      cases h
      exact capture_top (g := s.top.setFlags f) rfl _ _
    | group g =>
      simp only at h
      split at h
      · cases h
        exact hopen _ _ _
      · split at h
        · cases h
        · cases h
          exact hopen _ _ _
  · split at h
    · cases h
    · rename_i next outer houter
      cases h
      have hnext : s.capture = (outer.getLastD next).capture := by
        rw [ReaderState.capture, houter, List.getLastD_cons]
      rw [hnext]
      have hpush : (next.push s.top.close).capture = next.capture := rfl
      exact capture_getLastD hpush outer
  · cases h
    exact capture_top (g := s.top.nextAlternative) rfl _ _
  · obtain ⟨⟨set, rest⟩, -, rfl⟩ := Option.map_eq_some_iff.1 h
    exact capture_top (g := s.top.push (set.map .one)) rfl _ _
  · exact capture_repeated h
  · exact capture_repeated h
  · exact capture_repeated h
  · obtain ⟨_, -, h⟩ := Option.bind_eq_some_iff.1 h
    exact capture_repeated h
  · obtain ⟨⟨a, rest⟩, -, rfl⟩ := Option.map_eq_some_iff.1 h
    exact capture_top (g := s.top.push (.leaf (a.toExpr s.top.flags))) rfl _ _
  · obtain ⟨e, -, rfl⟩ := Option.map_eq_some_iff.1 h
    exact capture_top (g := s.top.push (.leaf e)) rfl _ _

/-! ## Sources in groups -/

def ReaderState.path : Nat → ReaderState → List ReaderState
  | 0, s => [s]
  | n + 1, s => s :: match s.step with
    | some s' => path n s'
    | none => []

/-- **The extended mode is never on** while the source is read: no flags of it, at the head of a group or for the rest
of one, have an `x` that turns it on. -/
def NeverExtended (source : List Char) (compiler : Compiler := .basic) : Prop :=
  ∀ s ∈ ReaderState.path source.length ⟨.start compiler.flags none, [], [], source⟩, s.top.flags.extended = false

instance (source : List Char) (compiler : Compiler) : Decidable (NeverExtended source compiler) :=
  inferInstanceAs (Decidable (∀ s ∈ ReaderState.path _ _, s.top.flags.extended = false))

theorem readItems_within (base : List OpenGroup) (t : List Char) : ∀ {n : Nat} {s : ReaderState} {e : Nested Expr},
    (∀ s' ∈ s.path n, s'.top.flags.extended = false) →
    readItems (n + 1) s.top s.outer s.names s.text = some e →
    ∃ k ≤ n, ∃ g names, g.capture = s.capture ∧ g.body = e ∧
      ∀ fuel, readItems (fuel + k) s.top (s.outer ++ base) s.names (s.text ++ ')' :: t) =
        readItems fuel g base names (')' :: t) := by
  intro n s e hx h
  have htop : s.top.flags.extended = false := by
    refine hx s ?_
    cases n <;> exact List.mem_cons_self
  -- at its end the source has no group open; inside, the bracket comes next
  by_cases htext : s.text = []
  · obtain ⟨top, outer, names, text⟩ := s
    obtain rfl : text = [] := htext
    rw [readItems, skip_nil] at h
    obtain ⟨houter, he⟩ : outer.isEmpty = true ∧ top.body = e := by simpa using h
    obtain rfl := List.isEmpty_iff.1 houter
    exact ⟨0, Nat.zero_le _, top, names, rfl, he, fun _ => rfl⟩
  · rw [readItems_step n s (by rwa [Flags.skip_of_not_extended htop])] at h
    obtain ⟨s', hs, h⟩ := Option.bind_eq_some_iff.1 h
    cases n with
    | zero => cases h
    | succ n =>
      have hx' : ∀ s'' ∈ s'.path n, s''.top.flags.extended = false := by
        intro s'' hmem
        refine hx s'' ?_
        rw [ReaderState.path, hs]
        exact List.mem_cons_of_mem _ hmem
      obtain ⟨k, hk, g, names, hcapture, hbody, hrun⟩ := readItems_within base t hx' h
      refine ⟨k + 1, Nat.succ_le_succ hk, g, names, hcapture.trans (ReaderState.capture_step hs), hbody,
        fun fuel => ?_⟩
      have hskip : (s.within base t).top.flags.skip (s.within base t).text ≠ [] :=
        (Flags.skip_of_not_extended htop _).trans_ne
          (List.append_ne_nil_of_right_ne_nil _ (List.cons_ne_nil _ _))
      have hstep := readItems_step (fuel + k) (s.within base t) hskip
      rw [ReaderState.step_within base t htop hs] at hstep
      exact hstep.trans (hrun fuel)

/-- **A source that is read alone is read in a group** as the same expression. -/
theorem leads_source {C : Compiler} {source : List Char} {e : Nested Expr} (hx : NeverExtended source C)
    (h : readSyntax C.flags source = some e) (base : List OpenGroup) (t : List Char) :
    ∃ g names, g.close = e.wrap id ∧
      Leads ⟨.start C.flags none, base, [], source ++ ')' :: t⟩ ⟨g, base, names, ')' :: t⟩ := by
  obtain ⟨k, hk, g, names, hcapture, hbody, hrun⟩ := readItems_within base t hx h
  refine ⟨g, names, ?_, k, ?_, hrun⟩
  · rw [close_of_no_capture hcapture, hbody]
  · rw [List.length_append]
    exact Nat.add_le_add_right hk _

/-- **A source that is read alone is read as a group** that does not capture. -/
theorem leads_unit_source {C : Compiler} {source : List Char} {e : Nested Expr} (hx : NeverExtended source C)
    (h : readSyntax C.flags source = some e) {g : OpenGroup} (hg : g.flags = C.flags) (outer : List OpenGroup)
    (t : List Char) :
    ∃ names, Leads ⟨g, outer, [], unit source ++ t⟩ ⟨g.push (e.wrap id), outer, names, t⟩ := by
  obtain ⟨g', names, hclose, hl⟩ := leads_source hx h (g :: outer) t
  refine ⟨names, ?_⟩
  rw [← hclose, unit, List.append_assoc]
  exact (leads_open hg).trans (hl.trans leads_close)

end Packrat.Pattern
