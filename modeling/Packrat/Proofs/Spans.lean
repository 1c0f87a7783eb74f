import Packrat.Proofs.FirstHit
/-!
# Spans — what an expression matches, preferences set aside

From one place of a text to another an expression spans what lies between, whatever it prefers (`Expr.Spans`): one of
two alternatives does, and of a repetition some number of iterations in its bounds.  The hits of an expression are all
the places that it spans up to, in some order of preference (`reaches_hits`).  A repetition never goes on behind an
iteration that took nothing, which loses no place, as there is nothing to go on from but where it was.
-/
namespace Packrat.Pattern

def iterated (R : Place → Place → Prop) : Nat → Place → Place → Prop
  | 0, p, q => p = q
  | n + 1, p, q => ∃ r, R p r ∧ iterated R n r q

/-- **An expression spans what lies between two places**: all of its matches, not the preferred one only. -/
def Expr.Spans : Expr → Place → Place → Prop
  | .empty, p, q => p = q
  | .one set, p, q => ∃ c, set.mem c = true ∧ p.after = c :: q.after ∧ q.before = c :: p.before
  | .look l, p, q => l.holds p = true ∧ p = q
  | .cat a b, p, q => ∃ r, a.Spans p r ∧ b.Spans r q
  | .alt a b, p, q => a.Spans p q ∨ b.Spans p q
  | .group _ e, p, q => e.Spans p q
  | .times low high _ e, p, q => ∃ n, low ≤ n ∧ (∀ m ∈ high, n ≤ max low m) ∧ iterated e.Spans n p q

variable {R S : Place → Place → Prop} {x y : Hit → List Hit} {p q r : Place} {greedy : Bool}

/-! ## Moving forward -/

def Place.Ahead (p q : Place) : Prop := ∃ taken, p.after = taken ++ q.after ∧ q.before = taken.reverse ++ p.before

theorem Place.Ahead.refl (p : Place) : p.Ahead p := ⟨[], rfl, rfl⟩

theorem Place.Ahead.trans (h : p.Ahead q) (h' : q.Ahead r) : p.Ahead r := by
  obtain ⟨t, ha, hb⟩ := h
  obtain ⟨u, ha', hb'⟩ := h'
  exact ⟨t ++ u, by rw [ha, ha', List.append_assoc], by rw [hb', hb, List.reverse_append, List.append_assoc]⟩

theorem Place.Ahead.lt_or_eq (h : p.Ahead q) : q.after.length < p.after.length ∨ p = q := by
  obtain ⟨taken, ha, hb⟩ := h
  cases taken with
  | nil =>
    obtain ⟨before, after⟩ := p
    obtain ⟨before', after'⟩ := q
    exact Or.inr (by rw [show after = after' from ha, show before' = before from hb])
  | cons c cs =>
    rw [ha, List.length_append, List.length_cons]
    exact Or.inl (by omega)

theorem Place.Ahead.eq_end {cs : List Char} (h : Place.Ahead ⟨[], cs⟩ q) (hq : q.after = []) : q = ⟨cs.reverse, []⟩ := by
  obtain ⟨taken, ha, hb⟩ := h
  obtain ⟨before, after⟩ := q
  subst hq
  have hcs : cs = taken := by simpa using ha
  subst hcs
  simpa using hb

theorem iterated_ahead (hR : ∀ {p q}, R p q → p.Ahead q) : ∀ {n p q}, iterated R n p q → p.Ahead q
  | 0, _, _, h => h ▸ .refl _
  | _ + 1, _, _, ⟨_, h, h'⟩ => (hR h).trans (iterated_ahead hR h')

theorem Expr.Spans.ahead : ∀ {e : Expr} {p q : Place}, e.Spans p q → p.Ahead q
  | .empty, _, _, h => h ▸ .refl _
  | .one _, _, _, ⟨c, _, ha, hb⟩ => ⟨[c], ha, hb⟩
  | .look _, _, _, ⟨_, h⟩ => h ▸ .refl _
  | .cat _ _, _, _, ⟨_, h, h'⟩ => h.ahead.trans h'.ahead
  | .alt _ _, _, _, h => h.elim (·.ahead) (·.ahead)
  | .group _ e, _, _, h => Expr.Spans.ahead (e := e) h
  | .times _ _ _ e, _, _, ⟨_, _, _, h⟩ => iterated_ahead (fun h => Expr.Spans.ahead (e := e) h) h

/-! ## Hits -/

/-- **The hits reach the places of a relation**, these and no others. -/
def Reaches (x : Hit → List Hit) (R : Place → Place → Prop) : Prop :=
  ∀ h q, (∃ h' ∈ x h, h'.place = q) ↔ R h.place q

theorem reaches_stay : Reaches (fun h => [h]) (· = ·) := fun h q => by simp

theorem Reaches.congr (h : Reaches x R) (hRS : ∀ p q, R p q ↔ S p q) : Reaches x S :=
  fun s q => (h s q).trans (hRS _ q)

theorem Reaches.flatMap (hx : Reaches x R) (hy : Reaches y S) :
    Reaches (fun h => (x h).flatMap y) fun p q => ∃ r, R p r ∧ S r q := by
  intro h q
  constructor
  · rintro ⟨h', hh', rfl⟩
    obtain ⟨e, he, hh'⟩ := List.mem_flatMap.1 hh'
    exact ⟨e.place, (hx h _).1 ⟨e, he, rfl⟩, (hy e _).1 ⟨h', hh', rfl⟩⟩
  · rintro ⟨r, hr, hq⟩
    obtain ⟨e, he, rfl⟩ := (hx h r).2 hr
    obtain ⟨h', hh', rfl⟩ := (hy e q).2 hq
    exact ⟨h', List.mem_flatMap.2 ⟨e, he, hh'⟩, rfl⟩

theorem Reaches.append (hx : Reaches x R) (hy : Reaches y S) :
    Reaches (fun h => x h ++ y h) fun p q => R p q ∨ S p q := by
  intro h q
  change _ ↔ R h.place q ∨ S h.place q
  rw [← hx h q, ← hy h q]
  simp only [List.mem_append, or_and_right, exists_or]

theorem mem_prefer {h : Hit} {more fewer : List Hit} : h ∈ prefer greedy more fewer ↔ h ∈ more ∨ h ∈ fewer := by
  cases greedy
  · exact List.mem_append.trans Or.comm
  · exact List.mem_append

theorem Reaches.prefer (hx : Reaches x R) (hy : Reaches y S) :
    Reaches (fun h => Pattern.prefer greedy (x h) (y h)) fun p q => R p q ∨ S p q := by
  intro h q
  refine Iff.trans ?_ (hx.append hy h q)
  simp only [mem_prefer, List.mem_append]

/-! ## Repetitions -/

theorem reaches_exactly (hx : Reaches x R) : ∀ n, Reaches (exactly x n) (iterated R n)
  | 0 => reaches_stay
  | n + 1 => hx.flatMap (reaches_exactly hx n)

theorem reaches_upTo (hx : Reaches x R) : ∀ n, Reaches (upTo x greedy n) fun p q => ∃ k ≤ n, iterated R k p q
  | 0 => reaches_stay.congr fun p q => by simp [iterated]
  | n + 1 => by
    refine ((hx.flatMap (reaches_upTo hx n)).prefer reaches_stay).congr fun p q => ?_
    constructor
    · rintro (⟨r, hr, k, hk, hq⟩ | rfl)
      · exact ⟨k + 1, Nat.succ_le_succ hk, r, hr, hq⟩
      · exact ⟨0, Nat.zero_le _, rfl⟩
    · rintro ⟨k, hk, hq⟩
      cases k with
      | zero => exact Or.inr hq
      | succ k =>
        obtain ⟨r, hr, hq⟩ := hq
        exact Or.inl ⟨r, hr, k, Nat.le_of_succ_le_succ hk, hq⟩

theorem iterated_of_onceOrMore (hx : Reaches x R) : ∀ {fuel : Nat} {h h' : Hit}, h' ∈ onceOrMore x greedy fuel h →
    ∃ n, iterated R (n + 1) h.place h'.place
  | fuel + 1, h, h', hh' => by
    obtain ⟨e, he, hh'⟩ := List.mem_flatMap.1 hh'
    have hr : R h.place e.place := (hx h _).1 ⟨e, he, rfl⟩
    split at hh'
    · rcases mem_prefer.1 hh' with hh' | hh'
      · obtain ⟨n, hn⟩ := iterated_of_onceOrMore hx hh'
        exact ⟨n + 1, e.place, hr, hn⟩
      · rw [List.mem_singleton.1 hh']
        exact ⟨0, e.place, hr, rfl⟩
    · rw [List.mem_singleton.1 hh']
      exact ⟨0, e.place, hr, rfl⟩

/-- **Iterations that took nothing are not needed**: every place that some number of iterations leads to is reached, by
induction on that number. -/
theorem exists_onceOrMore (hx : Reaches x R) (hR : ∀ {p q}, R p q → p.Ahead q) :
    ∀ {n fuel : Nat} {h : Hit} {q : Place}, h.place.after.length < fuel → iterated R (n + 1) h.place q →
      ∃ h' ∈ onceOrMore x greedy fuel h, h'.place = q
  | n, fuel + 1, h, q, hfuel, ⟨r, hr, hq⟩ => by
    obtain ⟨e, he, rfl⟩ := (hx h r).2 hr
    cases n with
    | zero =>
      refine ⟨e, List.mem_flatMap.2 ⟨e, he, ?_⟩, hq⟩
      split
      · exact mem_prefer.2 (Or.inr (List.mem_singleton.2 rfl))
      · exact List.mem_singleton.2 rfl
    | succ n =>
      -- an iteration that took nothing leads to where it started, so it can be left out
      rcases (hR hr).lt_or_eq with hlt | heq
      · obtain ⟨h', hh', hplace⟩ := exists_onceOrMore hx hR (show e.place.after.length < fuel by omega) hq
        refine ⟨h', List.mem_flatMap.2 ⟨e, he, ?_⟩, hplace⟩
        rw [if_pos hlt]
        exact mem_prefer.2 (Or.inl hh')
      · rw [← heq] at hq
        exact exists_onceOrMore hx hR hfuel hq

theorem reaches_plus (hx : Reaches x R) (hR : ∀ {p q}, R p q → p.Ahead q) :
    Reaches (plus x greedy) fun p q => ∃ n, iterated R (n + 1) p q := by
  intro h q
  constructor
  · rintro ⟨h', hh', rfl⟩
    exact iterated_of_onceOrMore hx hh'
  · rintro ⟨n, hn⟩
    exact exists_onceOrMore hx hR (Nat.lt_succ_self _) hn

theorem iterated_add : ∀ {m n : Nat} {p q : Place}, iterated R (m + n) p q ↔ ∃ r, iterated R m p r ∧ iterated R n r q
  | 0, n, p, q => by
    rw [Nat.zero_add]
    exact ⟨fun h => ⟨p, rfl, h⟩, fun ⟨r, hr, h⟩ => by rwa [show p = r from hr]⟩
  | m + 1, n, p, q => by
    rw [Nat.succ_add]
    constructor
    · rintro ⟨r, hr, h⟩
      obtain ⟨r', hr', h'⟩ := iterated_add.1 h
      exact ⟨r', ⟨r, hr, hr'⟩, h'⟩
    · rintro ⟨r', ⟨r, hr, hr'⟩, h'⟩
      exact ⟨r, hr, iterated_add.2 ⟨r', hr', h'⟩⟩

/-- **A repetition reaches the places of all numbers of iterations in its bounds.** -/
theorem reaches_repeats (hx : Reaches x R) (hR : ∀ {p q}, R p q → p.Ahead q) (low : Nat) (high : Option Nat) :
    Reaches (repeats x low high greedy) fun p q =>
      ∃ n, low ≤ n ∧ (∀ m ∈ high, n ≤ max low m) ∧ iterated R n p q := by
  cases high with
  | some m =>
    refine ((reaches_exactly hx low).flatMap (reaches_upTo hx (m - low))).congr fun p q => ?_
    constructor
    · rintro ⟨r, hr, k, hk, hq⟩
      refine ⟨low + k, Nat.le_add_right _ _, ?_, iterated_add.2 ⟨r, hr, hq⟩⟩
      rintro m' ⟨⟩
      omega
    · rintro ⟨n, hlow, hhigh, hn⟩
      have hle := hhigh m rfl
      rw [show n = low + (n - low) by omega, iterated_add] at hn
      obtain ⟨r, hr, hq⟩ := hn
      exact ⟨r, hr, n - low, by omega, hq⟩
  | none =>
    cases low with
    | zero =>
      refine ((reaches_plus hx hR).prefer reaches_stay).congr fun p q => ?_
      constructor
      · rintro (⟨n, hn⟩ | hq)
        · exact ⟨n + 1, Nat.zero_le _, by simp, hn⟩
        · exact ⟨0, Nat.zero_le _, by simp, hq⟩
      · rintro ⟨n, -, -, hn⟩
        cases n with
        | zero => exact Or.inr hn
        | succ n => exact Or.inl ⟨n, hn⟩
    | succ low =>
      refine ((reaches_exactly hx low).flatMap (reaches_plus hx hR)).congr fun p q => ?_
      constructor
      · rintro ⟨r, hr, n, hn⟩
        exact ⟨low + (n + 1), by omega, by simp, iterated_add.2 ⟨r, hr, hn⟩⟩
      · rintro ⟨n, hlow, -, hn⟩
        rw [show n = low + (n - low - 1 + 1) by omega, iterated_add] at hn
        obtain ⟨r, hr, hq⟩ := hn
        exact ⟨r, hr, n - low - 1, hq⟩

theorem reaches_one (set : CharSet) : Reaches (Expr.one set).hits (Expr.one set).Spans := by
  rintro ⟨⟨before, after⟩, groups⟩ ⟨before', after'⟩
  cases after with
  | nil => exact ⟨fun ⟨_, hh', _⟩ => (nomatch hh'), fun ⟨_, _, ha, _⟩ => (nomatch ha)⟩
  | cons c after =>
    rw [Expr.hits_one_cons]
    constructor
    · rintro ⟨h', hh', hplace⟩
      obtain ⟨hc, hh'⟩ := List.mem_ite_nil_right.1 hh'
      rw [List.mem_singleton.1 hh'] at hplace
      cases hplace
      exact ⟨c, hc, rfl, rfl⟩
    · rintro ⟨d, hd, ha, hb⟩
      obtain ⟨rfl, rfl⟩ := List.cons.inj ha
      have hb : before' = c :: before := hb
      exact ⟨_, List.mem_ite_nil_right.2 ⟨hd, List.mem_singleton.2 rfl⟩, by rw [hb]⟩

theorem reaches_look (l : Look) : Reaches (Expr.look l).hits (Expr.look l).Spans := by
  intro h q
  rw [Expr.hits_look]
  constructor
  · rintro ⟨h', hh', rfl⟩
    obtain ⟨hl, hh'⟩ := List.mem_ite_nil_right.1 hh'
    rw [List.mem_singleton.1 hh']
    exact ⟨hl, rfl⟩
  · rintro ⟨hl, rfl⟩
    exact ⟨h, List.mem_ite_nil_right.2 ⟨hl, List.mem_singleton.2 rfl⟩, rfl⟩

/-- **The hits of an expression reach all the places that it spans up to**, and no others. -/
theorem reaches_hits : ∀ e : Expr, Reaches e.hits e.Spans
  | .empty => reaches_stay
  | .one set => reaches_one set
  | .look l => reaches_look l
  | .cat a b => (reaches_hits a).flatMap (reaches_hits b)
  | .alt a b => (reaches_hits a).append (reaches_hits b)
  | .group none e => reaches_hits e
  | .group (some name) e => fun h q => by
    rw [Expr.hits_group, Expr.Spans, ← reaches_hits e h q]
    constructor
    · rintro ⟨h', hh', hplace⟩
      obtain ⟨h₁, hh₁, rfl⟩ := List.mem_map.1 hh'
      exact ⟨h₁, hh₁, hplace⟩
    · rintro ⟨h₁, hh₁, hplace⟩
      exact ⟨_, List.mem_map_of_mem hh₁, hplace⟩
  | .times low high greedy e => reaches_repeats (reaches_hits e) Expr.Spans.ahead low high

/-! ## Whole texts -/

/-- **Between the ends of the text a match is found if and only if the expression spans the whole text**, whatever it
prefers. -/
theorem isSome_search_whole (e : Expr) (cs : List Char) :
    (Expr.search (.cat (.look .startText) (.cat e (.look .endText))) cs).isSome = true ↔
      e.Spans ⟨[], cs⟩ ⟨cs.reverse, []⟩ := by
  have hwhole := reaches_hits (.cat e (.look .endText)) (.at ⟨[], cs⟩)
  rw [Expr.search_startText, Option.isSome_map, List.isSome_head?]
  constructor
  · intro h
    obtain ⟨h', hh'⟩ := List.exists_mem_of_ne_nil _ (by simpa using h)
    obtain ⟨q, hq, hend, hplace⟩ := (hwhole _).1 ⟨h', hh', rfl⟩
    rw [← hq.ahead.eq_end (List.isEmpty_iff.1 hend)]
    exact hq
  · intro h
    obtain ⟨h', hh', -⟩ := (hwhole ⟨cs.reverse, []⟩).2 ⟨_, h, rfl, rfl⟩
    simpa using List.ne_nil_of_mem hh'

end Packrat.Pattern
