import Packrat.Proofs.LiteralText
/-!
# Denotations — the words that an expression takes

An expression that does not look around takes the same words wherever they stand (`Expr.Denotes`): one character of a
set, a word behind another, one of two, some number of words one after the other.  So a full match of it accepts exactly
these words (`accepts_iff_denotes`).
-/
namespace Packrat.Pattern

/-- **The words of an expression**: what lies between two places that it spans, and nothing else decides that. -/
def Expr.Denotes (e : Expr) (W : List Char → Prop) : Prop :=
  ∀ p q : Place, e.Spans p q ↔ ∃ w, W w ∧ p.Between q w

namespace Expr.Denotes

variable {a b : Expr} {A B W : List Char → Prop} {set : CharSet} {p : Char → Bool}

theorem congr (h : a.Denotes A) (hAW : ∀ w, A w ↔ W w) : a.Denotes W := fun s t => by
  rw [h s t]
  exact exists_congr fun w => and_congr_left' (hAW w)

theorem one (h : ∀ c, set.mem c = p c) : (Expr.one set).Denotes fun w => ∃ c, p c = true ∧ w = [c] := by
  intro s t
  constructor
  · rintro ⟨c, hc, hafter, hbefore⟩
    exact ⟨[c], ⟨c, h c ▸ hc, rfl⟩, hafter, hbefore⟩
  · rintro ⟨_, ⟨c, hc, rfl⟩, hafter, hbefore⟩
    exact ⟨c, (h c).trans hc, hafter, hbefore⟩

theorem single (c : Char) : (Expr.one (.single c)).Denotes (· = [c]) := by
  intro s t
  rw [spans_single]
  exact ⟨fun h => ⟨_, rfl, h⟩, fun ⟨_, hw, h⟩ => hw ▸ h⟩

theorem cat (ha : a.Denotes A) (hb : b.Denotes B) :
    (Expr.cat a b).Denotes fun w => ∃ u v, A u ∧ B v ∧ w = u ++ v := by
  intro s t
  constructor
  · rintro ⟨r, hsr, hrt⟩
    obtain ⟨u, hu, hsr⟩ := (ha s r).1 hsr
    obtain ⟨v, hv, hrt⟩ := (hb r t).1 hrt
    exact ⟨u ++ v, ⟨u, v, hu, hv, rfl⟩, (between_append u v).2 ⟨r, hsr, hrt⟩⟩
  · rintro ⟨_, ⟨u, v, hu, hv, rfl⟩, h⟩
    obtain ⟨r, hsr, hrt⟩ := (between_append u v).1 h
    exact ⟨r, (ha s r).2 ⟨u, hu, hsr⟩, (hb r t).2 ⟨v, hv, hrt⟩⟩

/-- **A repetition takes words one after the other**, some number of them in its bounds. -/
theorem times (ha : a.Denotes A) (low : Nat) (high : Option Nat) (greedy : Bool) :
    (Expr.times low high greedy a).Denotes fun w => ∃ ws : List (List Char), low ≤ ws.length ∧
      (∀ m ∈ high, ws.length ≤ max low m) ∧ (∀ u ∈ ws, A u) ∧ w = ws.flatten := by
  intro s t
  constructor
  · rintro ⟨n, hlow, hhigh, h⟩
    obtain ⟨ws, rfl, hws, h⟩ := (iterated_iff_flatten ha).1 h
    exact ⟨_, ⟨ws, hlow, hhigh, hws, rfl⟩, h⟩
  · rintro ⟨_, ⟨ws, hlow, hhigh, hws, rfl⟩, h⟩
    exact ⟨ws.length, hlow, hhigh, (iterated_iff_flatten ha).2 ⟨ws, rfl, hws, h⟩⟩

theorem optional (ha : a.Denotes A) (greedy : Bool) :
    (Expr.times 0 (some 1) greedy a).Denotes fun w => w = [] ∨ A w := by
  refine (ha.times 0 (some 1) greedy).congr fun w => ?_
  constructor
  · rintro ⟨ws, -, hhigh, hws, rfl⟩
    have hlen : ws.length ≤ 1 := hhigh 1 rfl
    match ws, hlen, hws with
    | [], _, _ => exact Or.inl rfl
    | [u], _, hws => exact Or.inr (by simpa using hws u List.mem_cons_self)
  · rintro (rfl | h)
    · exact ⟨[], by simp⟩
    · exact ⟨[w], by simpa using h⟩

/-- **A repetition of characters of a set** takes the words of these characters whose lengths are in its bounds. -/
theorem characters (h : ∀ c, set.mem c = p c) (low : Nat) (high : Option Nat) (greedy : Bool) :
    (Expr.times low high greedy (.one set)).Denotes fun w => low ≤ w.length ∧ (∀ m ∈ high, w.length ≤ max low m) ∧
      ∀ c ∈ w, p c = true := by
  refine ((one h).times low high greedy).congr fun w => ?_
  constructor
  · rintro ⟨ws, hlow, hhigh, hws, rfl⟩
    have hlen : ∀ ws : List (List Char), (∀ u ∈ ws, ∃ c, p c = true ∧ u = [c]) → ws.flatten.length = ws.length := by
      intro ws hws
      induction ws with
      | nil => rfl
      | cons u ws ih =>
        obtain ⟨c, -, rfl⟩ := hws u List.mem_cons_self
        rw [List.flatten_cons, List.length_append, ih fun u hu => hws u (List.mem_cons_of_mem _ hu), List.length_cons,
          List.length_cons, List.length_nil, Nat.add_comm]
    rw [hlen ws hws]
    refine ⟨hlow, hhigh, fun c hc => ?_⟩
    obtain ⟨u, hu, hc⟩ := List.mem_flatten.1 hc
    obtain ⟨d, hd, rfl⟩ := hws u hu
    exact List.mem_singleton.1 hc ▸ hd
  · rintro ⟨hlow, hhigh, hw⟩
    refine ⟨w.map fun c => [c], by rwa [List.length_map], by rwa [List.length_map], fun u hu => ?_, ?_⟩
    · obtain ⟨c, hc, rfl⟩ := List.mem_map.1 hu
      exact ⟨c, hw c hc, rfl⟩
    · rw [← List.flatMap_def, List.flatMap_singleton']

end Expr.Denotes

theorem accepts_iff_denotes {m : FullMatch} {e : Expr} {W : List Char → Prop}
    (hm : m.pattern.expr = .cat (.look .startText) (.cat e (.look .endText))) (he : e.Denotes W) (text : String) :
    m.accepts text = true ↔ W text.toList := by
  rw [FullMatch.accepts, Pattern.isMatch, hm, isSome_search_whole, he]
  constructor
  · rintro ⟨w, hw, h⟩
    exact between_whole.1 h ▸ hw
  · exact fun h => ⟨_, h, between_whole.2 rfl⟩

end Packrat.Pattern
