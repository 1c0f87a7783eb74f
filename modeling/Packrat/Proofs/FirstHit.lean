import Packrat.Pattern.Match
/-!
# FirstHit — the preferred hit as a split of the text

A scan uses the preferred hit of an expression only, which splits the text in the head taken and the rest
(`Expr.Takes`).  Alternatives prefer the first split there is.  In a row the preferred hit of the first decides, unless
the others of its hits could still lead on (`takes_cat`).  A repetition of what has one hit at most takes as many as
there are, and every other hit of it stops before one more (`takes_star`, `retreats_star`).
-/
namespace Packrat.Pattern

/-- **A way to split a text** in a head and the rest. -/
abbrev Splitter := List Char → Option (List Char × List Char)

namespace Splitter

def one (p : Char → Bool) : Splitter
  | c :: cs => if p c then some ([c], cs) else none
  | [] => none

def atEnd : Splitter := fun cs => if cs.isEmpty then some ([], cs) else none

def andThen (f g : Splitter) : Splitter := fun cs =>
  (f cs).bind fun r => (g r.2).map fun q => (r.1 ++ q.1, q.2)

def or (f g : Splitter) : Splitter := fun cs => (f cs).or (g cs)

def opt (f : Splitter) : Splitter := fun cs => some ((f cs).getD ([], cs))

def exactly (f : Splitter) : Nat → Splitter
  | 0 => fun cs => some ([], cs)
  | n + 1 => f.andThen (exactly f n)

/-- As many heads as there are, but no more than `n`. -/
def upTo (f : Splitter) : Nat → List Char → List Char × List Char
  | 0, cs => ([], cs)
  | n + 1, cs =>
    match f cs with
    | none => ([], cs)
    | some (head, rest) => (head ++ (upTo f n rest).1, (upTo f n rest).2)

def star (f : Splitter) : Splitter := fun cs => some (f.upTo cs.length cs)

def Shortens (f : Splitter) : Prop := ∀ ⦃cs head rest : List Char⦄, f cs = some (head, rest) → rest.length < cs.length

theorem shortens_one (p : Char → Bool) : (one p).Shortens
  | c :: cs, head, rest, h => by
    rw [one] at h
    split at h
    · cases h
      exact Nat.lt_succ_self _
    · cases h

theorem upTo_eq_of_le {f : Splitter} (hf : f.Shortens) :
    ∀ {n : Nat} {cs : List Char}, cs.length ≤ n → f.upTo n cs = f.upTo cs.length cs
  | 0, cs, h => by rw [List.length_eq_zero_iff.1 (Nat.le_zero.1 h), List.length_nil]
  | n + 1, cs, h => by
    cases hs : f cs with
    | none => cases cs <;> simp only [upTo, hs, List.length_cons, List.length_nil]
    | some r =>
      have hlt : r.2.length < cs.length := hf hs
      obtain ⟨m, hm⟩ : ∃ m, cs.length = m + 1 := ⟨cs.length - 1, by omega⟩
      rw [hm, upTo, upTo, hs]
      dsimp only
      rw [upTo_eq_of_le hf (show r.2.length ≤ n by omega), upTo_eq_of_le hf (show r.2.length ≤ m by omega)]

theorem star_of_none {f : Splitter} {cs : List Char} (h : f cs = none) : f.star cs = some ([], cs) := by
  rw [star]
  cases hl : cs.length with
  | zero => rfl
  | succ n => rw [upTo, h]

theorem star_of_some {f : Splitter} (hf : f.Shortens) {cs head rest : List Char} (h : f cs = some (head, rest)) :
    f.star cs = (f.star rest).map fun q => (head ++ q.1, q.2) := by
  have hlt := hf h
  obtain ⟨m, hm⟩ : ∃ m, cs.length = m + 1 := ⟨cs.length - 1, by omega⟩
  rw [star, star, hm, upTo, h, Option.map_some]
  dsimp only
  rw [upTo_eq_of_le hf (show rest.length ≤ m by omega)]

theorem star_one (p : Char → Bool) : ∀ cs : List Char, (one p).star cs = some (cs.takeWhile p, cs.dropWhile p)
  | [] => rfl
  | c :: cs => by
    by_cases hp : p c
    · have h : one p (c :: cs) = some ([c], cs) := if_pos hp
      rw [star_of_some (shortens_one p) h, star_one p cs, List.takeWhile_cons_of_pos hp, List.dropWhile_cons_of_pos hp]
      rfl
    · have h : one p (c :: cs) = none := if_neg hp
      rw [star_of_none h, List.takeWhile_cons_of_neg hp, List.dropWhile_cons_of_neg hp]

end Splitter

open Splitter

def Hit.past (h : Hit) (r : List Char × List Char) : Hit := ⟨⟨r.1.reverse ++ h.place.before, r.2⟩, h.groups⟩

theorem Hit.past_past (h : Hit) (r q : List Char × List Char) : (h.past r).past q = h.past (r.1 ++ q.1, q.2) := by
  rw [past, past, past, List.reverse_append, List.append_assoc]

theorem Hit.past_nil (h : Hit) : h.past ([], h.place.after) = h := rfl

namespace Expr

/-- **The preferred hit is a split of the text.** -/
def Takes (e : Expr) (f : Splitter) : Prop := ∀ h : Hit, (e.hits h).head? = (f h.place.after).map h.past

def TakesOnly (e : Expr) (f : Splitter) : Prop := ∀ h : Hit, e.hits h = ((f h.place.after).map h.past).toList

/-- Where hits other than the preferred one stop, the text goes on with a head. -/
def Retreats (e : Expr) (f : Splitter) : Prop := ∀ h : Hit, ∀ h' ∈ (e.hits h).tail, (f h'.place.after).isSome

variable {a b e : Expr} {f g : Splitter}

theorem TakesOnly.takes (h : e.TakesOnly f) : e.Takes f := fun s => by
  rw [h s]
  cases (f s.place.after).map s.past <;> rfl

theorem Takes.congr (h : e.Takes f) (hfg : ∀ cs, f cs = g cs) : e.Takes g := fun s => by rw [h s, hfg]

theorem TakesOnly.congr (h : e.TakesOnly f) (hfg : ∀ cs, f cs = g cs) : e.TakesOnly g := fun s => by rw [h s, hfg]

/-! ## One character, rows and alternatives -/

theorem takesOnly_one (set : CharSet) : (Expr.one set).TakesOnly (.one set.mem)
  | ⟨⟨before, []⟩, groups⟩ => rfl
  | ⟨⟨before, c :: after⟩, groups⟩ => by
    rw [hits_one_cons, Splitter.one]
    by_cases hm : set.mem c
    · rw [if_pos hm, if_pos hm]
      rfl
    · rw [if_neg hm, if_neg hm]
      rfl

theorem takesOnly_endText : (Expr.look .endText).TakesOnly atEnd := by
  intro h
  rw [hits_look, Look.holds, Splitter.atEnd]
  by_cases he : h.place.after.isEmpty
  · rw [if_pos he, if_pos he]
    exact congrArg (fun x => [x]) (Hit.past_nil h).symm
  · rw [if_neg he, if_neg he]
    rfl

theorem takesOnly_cat (ha : a.TakesOnly f) (hb : b.TakesOnly g) : (Expr.cat a b).TakesOnly (f.andThen g) := by
  intro h
  rw [hits_cat, ha h, Splitter.andThen]
  cases f h.place.after with
  | none => rfl
  | some r =>
    rw [Option.map_some, Option.toList_some, List.flatMap_singleton, hb, Option.bind_some, Option.map_map]
    refine congrArg Option.toList (Option.map_congr fun q _ => ?_)
    exact Hit.past_past h r q

theorem takesOnly_alt (ha : a.TakesOnly f) (hb : b.TakesOnly g) (hfg : ∀ cs, f cs = none ∨ g cs = none) :
    (Expr.alt a b).TakesOnly (f.or g) := by
  intro h
  rw [hits_alt, ha h, hb h, Splitter.or]
  rcases hfg h.place.after with hn | hn
  · rw [hn]
    rfl
  · rw [hn, Option.or_none]
    exact List.append_nil _

theorem takes_alt (ha : a.Takes f) (hb : b.Takes g) : (Expr.alt a b).Takes (f.or g) := by
  intro h
  rw [hits_alt, List.head?_append, ha h, hb h, Splitter.or]
  cases f h.place.after <;> rfl

/-- **A row**: where the second part finds no head after the preferred hit of the first, it must find none after the
other hits of it. -/
theorem takes_cat (ha : a.Takes f) (hb : b.Takes g)
    (hr : ∀ (h : Hit) r, f h.place.after = some r → g r.2 = none → ∀ h' ∈ (a.hits h).tail, g h'.place.after = none) :
    (Expr.cat a b).Takes (f.andThen g) := by
  intro h
  have hfirst := ha h
  rw [hits_cat, Splitter.andThen]
  cases hhits : a.hits h with
  | nil =>
    rw [hhits] at hfirst
    rw [Option.map_eq_none_iff.1 hfirst.symm]
    rfl
  | cons h₁ others =>
    rw [hhits] at hfirst
    obtain ⟨r, hf, rfl⟩ := Option.map_eq_some_iff.1 hfirst.symm
    have hsecond := hb (h.past r)
    rw [hf, List.flatMap_cons, List.head?_append, hsecond, Option.bind_some]
    change (Option.map (h.past r).past (g r.2)).or _ = _
    cases hg : g r.2 with
    | some q => exact congrArg some (Hit.past_past h r q)
    | none =>
      have hnone : others.flatMap b.hits = [] := by
        refine List.flatMap_eq_nil_iff.2 fun h' hh' => ?_
        have hb' := hb h'
        rw [hr h r hf hg h' (by rw [hhits]; exact hh')] at hb'
        exact List.head?_eq_none_iff.1 hb'
      rw [hnone]
      rfl

theorem takes_cat_of_isSome (ha : a.Takes f) (hb : b.Takes g) (hg : ∀ {cs r}, f cs = some r → (g r.2).isSome) :
    (Expr.cat a b).Takes (f.andThen g) :=
  takes_cat ha hb fun h r hf hn => by
    have := hg hf
    rw [hn] at this
    cases this

theorem takes_cat_of_takesOnly (ha : a.TakesOnly f) (hb : b.Takes g) : (Expr.cat a b).Takes (f.andThen g) :=
  takes_cat ha.takes hb fun h r hf _ h' hh' => by
    rw [ha h, hf] at hh'
    cases hh'

/-- A row where only the preferred hit of the first part leads on. -/
theorem takesOnly_cat_of_tail (ha : a.Takes f) (hb : b.TakesOnly g)
    (hr : ∀ h : Hit, ∀ h' ∈ (a.hits h).tail, g h'.place.after = none) : (Expr.cat a b).TakesOnly (f.andThen g) := by
  intro h
  have hfirst := ha h
  rw [hits_cat, Splitter.andThen]
  cases hhits : a.hits h with
  | nil =>
    rw [hhits] at hfirst
    rw [Option.map_eq_none_iff.1 hfirst.symm]
    rfl
  | cons h₁ others =>
    rw [hhits] at hfirst
    obtain ⟨r, hf, rfl⟩ := Option.map_eq_some_iff.1 hfirst.symm
    have hnone : others.flatMap b.hits = [] := by
      refine List.flatMap_eq_nil_iff.2 fun h' hh' => ?_
      rw [hb h', hr h h' (by rw [hhits]; exact hh')]
      rfl
    rw [hf, List.flatMap_cons, hnone, List.append_nil, hb, Option.bind_some, Option.map_map]
    refine congrArg Option.toList (Option.map_congr fun q _ => ?_)
    exact Hit.past_past h r q

/-! ## Repetitions -/

theorem hits_opt (e : Expr) (h : Hit) : (Expr.times 0 (some 1) true e).hits h = e.hits h ++ [h] := by
  rw [hits_times, repeats]
  simp only [Pattern.exactly, Pattern.upTo, prefer, List.flatMap_singleton, if_true, Nat.sub_zero]
  exact congrArg (· ++ [h]) (List.flatMap_singleton' _)

theorem takes_opt (h : e.Takes f) : (Expr.times 0 (some 1) true e).Takes f.opt := by
  intro s
  rw [hits_opt, List.head?_append, h s, Splitter.opt]
  cases f s.place.after with
  | none => exact congrArg some (Hit.past_nil s).symm
  | some r => rfl

theorem takesOnly_exactly (he : e.TakesOnly f) (h : Hit) :
    ∀ n : Nat, Pattern.exactly e.hits n h = ((f.exactly n h.place.after).map h.past).toList
  | 0 => by
    rw [Pattern.exactly, Splitter.exactly]
    exact congrArg (fun x => [x]) (Hit.past_nil h).symm
  | n + 1 => by
    have hrec := fun h => takesOnly_exactly he h n
    rw [Pattern.exactly, he h, Splitter.exactly, Splitter.andThen]
    cases f h.place.after with
    | none => rfl
    | some r =>
      rw [Option.map_some, Option.toList_some, List.flatMap_singleton, hrec, Option.bind_some, Option.map_map]
      refine congrArg Option.toList (Option.map_congr fun q _ => ?_)
      exact Hit.past_past h r q

theorem takesOnly_times (he : e.TakesOnly f) (n : Nat) :
    (Expr.times n (some n) true e).TakesOnly (f.exactly n) := by
  intro h
  rw [hits_times, repeats, takesOnly_exactly he h n]
  simp only [Nat.sub_self, Pattern.upTo]
  exact List.flatMap_singleton' _

theorem hits_plus (e : Expr) (h : Hit) :
    (Expr.times 1 none true e).hits h = onceOrMore e.hits true (h.place.after.length + 1) h :=
  List.flatMap_singleton _ _

theorem onceOrMore_of_none (he : e.TakesOnly f) {h : Hit} (hf : f h.place.after = none) :
    ∀ n : Nat, onceOrMore e.hits true n h = []
  | 0 => rfl
  | n + 1 => by
    rw [onceOrMore, he h, hf]
    rfl

theorem onceOrMore_of_some (he : e.TakesOnly f) (hs : f.Shortens) {h : Hit} {r : List Char × List Char}
    (hf : f h.place.after = some r) (n : Nat) :
    onceOrMore e.hits true (n + 1) h = onceOrMore e.hits true n (h.past r) ++ [h.past r] := by
  have hlt : (h.past r).place.after.length < h.place.after.length := hs hf
  rw [onceOrMore, he h, hf, Option.map_some, Option.toList_some, List.flatMap_singleton, if_pos hlt]
  rfl

/-- **The hits of a repetition, none of them included**: the preferred one takes as much as there is, and the others
stop before one more. -/
theorem hits_onceOrMore (he : e.TakesOnly f) (hs : f.Shortens) : ∀ (n : Nat) (h : Hit), h.place.after.length ≤ n →
    (onceOrMore e.hits true n h ++ [h]).head? = (f.star h.place.after).map h.past ∧
    ∀ h' ∈ (onceOrMore e.hits true n h ++ [h]).tail, (f h'.place.after).isSome
  | n, h, hn => by
    cases hf : f h.place.after with
    | none =>
      rw [onceOrMore_of_none he hf, star_of_none hf]
      exact ⟨congrArg some (Hit.past_nil h).symm, fun h' hh' => by (cases hh')⟩
    | some r =>
      have hlt : r.2.length < h.place.after.length := hs hf
      cases n with
      | zero => omega
      | succ n =>
        obtain ⟨hhead, htail⟩ := hits_onceOrMore he hs n (h.past r) (show r.2.length ≤ n by omega)
        rw [onceOrMore_of_some he hs hf, List.head?_append, hhead, star_of_some hs hf]
        refine ⟨congrArg some (Hit.past_past h r _), fun h' hh' => ?_⟩
        rw [List.tail_append_of_ne_nil (List.append_ne_nil_of_right_ne_nil _ (List.cons_ne_nil _ _))] at hh'
        rcases List.mem_append.1 hh' with hh' | hh'
        · exact htail h' hh'
        · rw [List.mem_singleton.1 hh', hf]
          rfl

theorem takes_star (he : e.TakesOnly f) (hs : f.Shortens) : (Expr.times 0 none true e).Takes f.star :=
  fun h => (hits_onceOrMore he hs _ h (Nat.le_succ _)).1

theorem retreats_star (he : e.TakesOnly f) (hs : f.Shortens) : (Expr.times 0 none true e).Retreats f :=
  fun h => (hits_onceOrMore he hs _ h (Nat.le_succ _)).2

theorem takes_plus (he : e.TakesOnly f) (hs : f.Shortens) : (Expr.times 1 none true e).Takes (f.andThen f.star) := by
  intro h
  rw [hits_plus, Splitter.andThen]
  cases hf : f h.place.after with
  | none =>
    rw [onceOrMore_of_none he hf]
    rfl
  | some r =>
    have hlt : r.2.length < h.place.after.length := hs hf
    rw [onceOrMore_of_some he hs hf, (hits_onceOrMore he hs _ (h.past r) (Nat.le_of_lt hlt)).1, Option.bind_some,
      Option.map_map]
    exact Option.map_congr fun q _ => Hit.past_past h r q

/-! ## Searches from the start of the text -/

theorem searchFrom_startText (e : Expr) : ∀ {before after : List Char}, before ≠ [] →
    searchFrom (.cat (.look .startText) e) before after = none
  | b :: before, [], _ => rfl
  | b :: before, c :: after, _ => by
    have h : searchFrom (.cat (.look .startText) e) (c :: b :: before) after = none :=
      searchFrom_startText e (List.cons_ne_nil _ _)
    exact h

/-- **A search bound to the start of the text** gives the preferred hit there. -/
theorem search_startText (e : Expr) (cs : List Char) : search (.cat (.look .startText) e) cs =
    (e.hits (.at ⟨[], cs⟩)).head?.map fun h => (⟨[], cs⟩, h) := by
  have hhits : (Expr.cat (.look .startText) e).hits (.at ⟨[], cs⟩) = e.hits (.at ⟨[], cs⟩) :=
    List.flatMap_singleton _ _
  rw [search]
  cases cs with
  | nil =>
    rw [searchFrom, hhits]
    cases e.hits (.at ⟨[], []⟩) <;> rfl
  | cons c cs =>
    rw [searchFrom, hhits]
    cases e.hits (.at ⟨[], c :: cs⟩) with
    | nil => exact searchFrom_startText e (List.cons_ne_nil c [])
    | cons h _ => rfl

end Expr

end Packrat.Pattern
