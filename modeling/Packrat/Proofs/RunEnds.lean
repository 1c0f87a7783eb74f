import Packrat.Proofs.Run
/-!
# RunEnds — runs that end

A run ends where its phrase means something: no more fuel is needed than the calls of the derivation are deep
(`run_ne_exhausted`, `invoke_ne_exhausted`), as an item of a repetition that is not the last takes an entry.
-/
namespace Packrat.Grammar

open Packrat.Grammar.Parser

variable {layers : List Layer} {tokens : TokenList} {d : Definition} {φ : Phrase} {s s' : State} {t : Trail}
  {memoize : Bool} {fuel : Nat}

theorem run_eq_value {p q : Nat} {v : Value} (hd : d.Of layers) (hs : s.Sound layers tokens)
    (hm : Means layers tokens d φ p (some (v, q)) t) (hp : s.position = p)
    (hne : φ.run (scopeOf layers memoize fuel d) s ≠ .exhausted) :
    ∃ s', φ.run (scopeOf layers memoize fuel d) s = .value v s' ∧ s'.position = q ∧ s'.Sound layers tokens := by
  have h := fits_run memoize fuel hd hs φ
  subst hp
  cases hr : φ.run (scopeOf layers memoize fuel d) s with
  | exhausted => exact absurd hr hne
  | fail s' =>
    rw [hr] at h
    obtain ⟨u, hm', -⟩ := h
    cases (means_unique hm hm').1
  | value v' s' =>
    rw [hr] at h
    obtain ⟨u, hm', ha⟩ := h
    cases (means_unique hm hm').1
    exact ⟨s', rfl, rfl, ha.sound⟩

theorem run_eq_fail {p : Nat} (hd : d.Of layers) (hs : s.Sound layers tokens) (hm : Means layers tokens d φ p none t)
    (hp : s.position = p) (hne : φ.run (scopeOf layers memoize fuel d) s ≠ .exhausted) :
    ∃ s', φ.run (scopeOf layers memoize fuel d) s = .fail s' ∧ s'.Sound layers tokens := by
  have h := fits_run memoize fuel hd hs φ
  subst hp
  cases hr : φ.run (scopeOf layers memoize fuel d) s with
  | exhausted => exact absurd hr hne
  | fail s' =>
    rw [hr] at h
    obtain ⟨u, hm', ha⟩ := h
    exact ⟨s', rfl, ha.sound⟩
  | value v' s' =>
    rw [hr] at h
    obtain ⟨u, hm', -⟩ := h
    cases (means_unique hm hm').1

theorem map_ne_exhausted {α β : Type} {f : α → β} {r : Reply α} (h : r ≠ .exhausted) : r.map f ≠ .exhausted := by
  cases r with
  | exhausted => exact absurd rfl h
  | value a s => exact fun h => by cases h
  | fail s => exact fun h => by cases h

theorem asList_ne_exhausted {p : Parser (List Value)} : asList p s ≠ .exhausted ↔ p s ≠ .exhausted := by
  unfold asList
  cases p s <;> simp [Reply.map]

theorem asList1_ne_exhausted {p : Parser (List Value)} (h : p s ≠ .exhausted) : asList1 p s ≠ .exhausted := by
  unfold asList1 Parser.andThen
  cases hr : p s with
  | exhausted => exact absurd hr h
  | fail s' => exact fun h => by cases h
  | value vs s' =>
    dsimp only
    split <;> exact fun h => by cases h

theorem manyUpTo_ne_exhausted {α : Type} {p : Parser α} :
    ∀ {n m : Nat} {s : State}, n ≤ m → manyUpTo p n s ≠ .exhausted → manyUpTo p m s ≠ .exhausted
  | 0, _, _, _, h => absurd rfl h
  | n + 1, 0, _, hnm, _ => absurd hnm (Nat.not_succ_le_zero n)
  | n + 1, m + 1, s, hnm, h => by
    unfold manyUpTo at h ⊢
    cases hr : attempt p s with
    | exhausted => rw [hr] at h; exact absurd rfl h
    | fail s' => exact fun h => by cases h
    | value a s' =>
      rw [hr] at h
      dsimp only at h ⊢
      split
      · exact fun h => by cases h
      · rename_i hq
        rw [if_neg hq] at h
        have hrest : manyUpTo p n s' ≠ .exhausted := fun he => h (by rw [he]; rfl)
        exact map_ne_exhausted (manyUpTo_ne_exhausted (Nat.le_of_succ_le_succ hnm) hrest)

theorem eat_ne_exhausted {α : Type} (f : Cursor → Option (α × Cursor)) : eat f s ≠ .exhausted := by
  unfold eat
  cases f s.cursor <;> exact fun h => by cases h

theorem ofOption_ne_exhausted {α : Type} (o : Option α) : ofOption o s ≠ .exhausted := by
  cases o <;> exact fun h => by cases h

theorem leaf_ne_exhausted {scope : Scope} {p : Nat} {a : Answer} :
    ∀ {x : Atom}, x.leaf? tokens p = some a → x.run scope s ≠ .exhausted
  | .literal _, _ => by rw [Atom.run]; exact eat_ne_exhausted _
  | .terminal .fail, _ => by rw [Atom.run]; exact fun h => by cases h
  | .terminal .number, _ | .terminal .string, _ | .terminal .ident, _ | .terminal .hole, _ | .terminal .eof, _ => by
    rw [Atom.run, Terminal.run]; exact eat_ne_exhausted _

theorem reference_run {found : Option Definition} :
    ∀ {x : Atom}, x.target? layers d = some found →
      x.run (scopeOf layers memoize fuel d) = invokeFound layers memoize fuel found
  | .rule _, h => by cases h; rw [Atom.run]; rfl
  | .super _, h => by cases h; rw [Atom.run]; rfl

theorem many_ne_exhausted {p : Parser Value} {v : Value} (hs : s.Sound layers tokens) (hs' : s'.Sound layers tokens)
    (hr : p s = .value v s') (hlt : s.position < s'.position) (hle : s'.position ≤ tokens.entries.length)
    (hrest : Parser.many p s' ≠ .exhausted) : Parser.many p s ≠ .exhausted := by
  have hfuel : s'.remaining + 1 ≤ s.remaining := by
    have h := hs.entries
    have h' := hs'.entries
    simp only [State.remaining, Cursor.size, h, h']
    omega
  rw [Parser.many, manyUpTo_of_more (attempt_of_value hr) hlt.ne']
  exact map_ne_exhausted (manyUpTo_ne_exhausted hfuel hrest)

theorem invoke_succ_ne_exhausted
    (h : d.rule.body.run (scopeOf layers memoize fuel d) s.countCall ≠ .exhausted) :
    invoke layers memoize (fuel + 1) d s ≠ .exhausted := by
  rw [invoke_succ]
  cases s.countCall.known memoize d.id with
  | some o => cases o <;> exact fun h => by cases h
  | none =>
    dsimp only
    cases hr : d.rule.body.run (scopeOf layers memoize fuel d) s.countCall with
    | exhausted => exact absurd hr h
    | fail s' => exact fun h => by cases h
    | value v s' => exact fun h => by cases h

/-- **Where a phrase means something its run ends**, if the fuel is above the depth of the derivation. -/
theorem run_ne_exhausted {p : Nat} {a : Answer} (hm : Means layers tokens d φ p a t) :
    ∀ {fuel : Nat} {s : State}, d.Of layers → t.depth ≤ fuel → s.Sound layers tokens → s.position = p →
      φ.run (scopeOf layers memoize fuel d) s ≠ .exhausted := by
  induction hm with
  | last h ih =>
    intro fuel s hd hf hs hp
    rw [Phrase.run, Choice.run]
    exact mt attempt_eq_exhausted.1 (ih hd hf hs hp)
  | first h ih =>
    intro fuel s hd hf hs hp
    obtain ⟨s', hr, -⟩ := run_eq_value hd hs h hp (ih hd hf hs hp)
    rw [Phrase.run, List.reverse_nil] at hr
    rw [Phrase.run, Choice.run]
    rw [orElse_of_value (attempt_of_value hr)]
    exact fun h => by cases h
  | next h h' ih ih' =>
    intro fuel s hd hf hs hp
    obtain ⟨ht, hu⟩ := Nat.max_le.1 hf
    obtain ⟨s', hr, hs'⟩ := run_eq_fail hd hs h hp (ih hd ht hs hp)
    rw [Phrase.run, List.reverse_nil] at hr
    rw [Phrase.run, Choice.run]
    rw [orElse_of_fail (attempt_of_fail hr)]
    exact ih' hd hu (hs'.rewind hs.entries) hp
  | factorFail h ih =>
    intro fuel s hd hf hs hp
    obtain ⟨s', hr, -⟩ := run_eq_fail hd hs h hp (ih hd hf hs hp)
    rw [Phrase.run] at hr
    rw [Phrase.run, Sequence.run]
    rw [andThen_of_fail hr]
    exact fun h => by cases h
  | factorThen h h' ih ih' =>
    intro fuel s hd hf hs hp
    obtain ⟨ht, hu⟩ := Nat.max_le.1 hf
    obtain ⟨s', hr, hp', hs'⟩ := run_eq_value hd hs h hp (ih hd ht hs hp)
    have hrest := ih' hd hu hs' hp'
    rw [Phrase.run] at hr
    rw [Phrase.run, List.reverse_append] at hrest
    rw [Phrase.run, Sequence.run]
    rw [andThen_of_value hr]
    exact hrest
  | sole | all | act | refuse =>
    intro fuel s hd hf hs hp
    rw [Phrase.run, Sequence.run]
    exact ofOption_ne_exhausted _
  | once h ih =>
    intro fuel s hd hf hs hp
    rw [Phrase.run, Factor.run]
    exact ih hd hf hs hp
  | present h ih | absent h ih =>
    intro fuel s hd hf hs hp
    have hne := ih hd hf hs hp
    rw [Phrase.run] at hne
    rw [Phrase.run, Factor.run]
    unfold Parser.orElse
    dsimp only
    cases hr : attempt _ s with
    | exhausted => exact absurd (attempt_eq_exhausted.1 hr) hne
    | value v s' => exact fun h => by cases h
    | fail s' => exact fun h => by cases h
  | many h ih | sepBy h ih =>
    intro fuel s hd hf hs hp
    rw [Phrase.run, Factor.run]
    exact ih hd hf hs hp
  | many1 h ih | many1Fail h ih =>
    intro fuel s hd hf hs hp
    rw [Phrase.run, Factor.run]
    exact asList1_ne_exhausted (asList_ne_exhausted.1 (ih hd hf hs hp))
  | sepBy1 h ih | sepBy1Fail h ih =>
    intro fuel s hd hf hs hp
    rw [Phrase.run, Factor.run]
    exact asList1_ne_exhausted (asList_ne_exhausted.1 (ih hd hf hs hp))
  | bare h ih =>
    intro fuel s hd hf hs hp
    exact ih hd hf hs hp
  | separatorFail h ih =>
    intro fuel s hd hf hs hp
    obtain ⟨s', hr, -⟩ := run_eq_fail hd hs h hp (ih hd hf hs hp)
    rw [Phrase.run] at hr
    rw [Phrase.run, itemRun]
    rw [andThen_of_fail hr]
    exact fun h => by cases h
  | separated h h' ih ih' =>
    intro fuel s hd hf hs hp
    obtain ⟨ht, hu⟩ := Nat.max_le.1 hf
    obtain ⟨s', hr, hp', hs'⟩ := run_eq_value hd hs h hp (ih hd ht hs hp)
    rw [Phrase.run] at hr
    rw [Phrase.run, itemRun]
    rw [andThen_of_value hr]
    exact ih' hd hu hs' hp'
  | itemsEnd h ih =>
    intro fuel s hd hf hs hp
    obtain ⟨s', hr, -⟩ := run_eq_fail hd hs h hp (ih hd hf hs hp)
    rw [Phrase.run] at hr
    rw [Phrase.run, asList_ne_exhausted]
    rw [Parser.many, manyUpTo_of_fail (attempt_of_fail hr)]
    exact fun h => by cases h
  | itemsStay h ih =>
    intro fuel s hd hf hs hp
    obtain ⟨s', hr, hp', -⟩ := run_eq_value hd hs h hp (ih hd hf hs hp)
    rw [Phrase.run] at hr
    rw [Phrase.run, asList_ne_exhausted]
    rw [Parser.many, manyUpTo_of_stay (attempt_of_value hr) (hp'.trans hp.symm)]
    exact fun h => by cases h
  | itemsMore h hq h' ih ih' =>
    intro fuel s hd hf hs hp
    obtain ⟨ht, hu⟩ := Nat.max_le.1 hf
    obtain ⟨s', hr, hp', hs'⟩ := run_eq_value hd hs h hp (ih hd ht hs hp)
    have hstop := stop_of_means h rfl
    rw [Phrase.run] at hr
    rw [Phrase.run, asList_ne_exhausted]
    exact many_ne_exhausted hs hs' hr (by omega) (by omega) (asList_ne_exhausted.1 (ih' hd hu hs' hp'))
  | listNone h ih =>
    intro fuel s hd hf hs hp
    obtain ⟨s', hr, -⟩ := run_eq_fail hd hs h hp (ih hd hf hs hp)
    rw [Phrase.run] at hr
    rw [Phrase.run, asList_ne_exhausted]
    rw [sepBy_of_fail (attempt_of_fail hr)]
    exact fun h => by cases h
  | listSome h h' ih ih' =>
    intro fuel s hd hf hs hp
    obtain ⟨ht, hu⟩ := Nat.max_le.1 hf
    obtain ⟨s', hr, hp', hs'⟩ := run_eq_value hd hs h hp (ih hd ht hs hp)
    rw [Phrase.run] at hr
    rw [Phrase.run, asList_ne_exhausted]
    rw [sepBy_of_value (attempt_of_value hr)]
    exact map_ne_exhausted (asList_ne_exhausted.1 (ih' hd hu hs' hp'))
  | leaf h =>
    intro fuel s hd hf hs hp
    exact leaf_ne_exhausted h
  | group h ih =>
    intro fuel s hd hf hs hp
    rw [Phrase.run, Atom.run]
    exact ih hd hf hs hp
  | dangling hx =>
    intro fuel s hd hf hs hp
    rw [Phrase.run, reference_run hx, invokeFound]
    exact ofOption_ne_exhausted _
  | called hx h ih =>
    intro fuel s hd hf hs hp
    rw [Phrase.run, reference_run hx, invokeFound]
    cases fuel with
    | zero => exact absurd hf (Nat.not_succ_le_zero _)
    | succ fuel =>
      exact invoke_succ_ne_exhausted
        (ih (Atom.of_target? hd hx) (Nat.le_of_succ_le_succ hf) ⟨hs.entries, hs.memo⟩ hp)

/-- **Where the body of a rule means something its run ends.** -/
theorem invoke_ne_exhausted {a : Answer} (hm : Means layers tokens d (.choice d.rule.body) s.position a t)
    (hd : d.Of layers) (hf : t.depth < fuel) (hs : s.Sound layers tokens) :
    invoke layers memoize fuel d s ≠ .exhausted := by
  cases fuel with
  | zero => exact absurd hf (Nat.not_lt_zero _)
  | succ fuel =>
    exact invoke_succ_ne_exhausted
      (run_ne_exhausted (s := s.countCall) hm hd (Nat.le_of_lt_succ hf) ⟨hs.entries, hs.memo⟩ rfl)

end Packrat.Grammar
