import Packrat.Proofs.Definitions
import Packrat.Proofs.Meaning
import Mathlib.Data.Finset.Prod
/-!
# Depth — how deep the calls of a derivation nest

The calls that a trail records are derivations themselves (`means_of_mem_calls`), and every depth below that of a trail
is the depth of one of its calls (`exists_call_of_lt_depth`).  As a rule has one trail at a position, calls of different
depths differ in their rule or their position.  Main statement: the depth of a derivation is below the number of rules
times the number of positions (`depth_lt`).
-/
namespace Packrat.Grammar

variable {layers : List Layer} {tokens : TokenList} {d : Definition} {φ : Phrase} {p : Nat} {a : Answer} {t : Trail}

/-! ## Positions -/

theorem answerAt_eq_some {value? : Entry → Option Value} {v : Value} {q : Nat}
    (h : answerAt tokens p value? = some (v, q)) : q = p + 1 ∧ p < tokens.entries.length := by
  obtain ⟨w, hw, he⟩ := Option.map_eq_some_iff.1 h
  obtain ⟨e, he', -⟩ := Option.bind_eq_some_iff.1 hw
  cases he
  exact ⟨rfl, (List.getElem?_eq_some_iff.1 he').1⟩

theorem Atom.stop_of_leaf? {v : Value} {q : Nat} :
    ∀ {x : Atom}, x.leaf? tokens p = some (some (v, q)) → q = p ∨ p < q ∧ q ≤ tokens.entries.length
  | .literal text, h => by
    obtain ⟨rfl, hp⟩ := answerAt_eq_some (Option.some.inj h)
    exact Or.inr ⟨Nat.lt_succ_self p, hp⟩
  | .terminal .eof, h => by
    have h := Option.some.inj h
    split at h <;> cases h
    exact Or.inl rfl
  | .terminal .fail, h => by cases h
  | .terminal .number, h | .terminal .string, h | .terminal .ident, h | .terminal .hole, h => by
    obtain ⟨rfl, hp⟩ := answerAt_eq_some (Option.some.inj h)
    exact Or.inr ⟨Nat.lt_succ_self p, hp⟩

theorem stop_of_means (h : Means layers tokens d φ p a t) :
    ∀ {v : Value} {q : Nat}, a = some (v, q) → q = p ∨ p < q ∧ q ≤ tokens.entries.length := by
  induction h with
  | next _ _ _ ih | last _ ih | first _ ih | once _ ih | many _ ih | many1 _ ih | sepBy _ ih | sepBy1 _ ih | bare _ ih
  | group _ ih | called _ _ ih => exact ih
  | factorFail | refuse | many1Fail | sepBy1Fail | separatorFail | dangling => intro v q h; cases h
  | sole | all | act | absent | itemsEnd | listNone => intro v q h; cases h; exact Or.inl rfl
  | present _ ih => intro v q h; cases h; exact ih rfl
  | itemsStay => intro v q h; cases h; exact Or.inl rfl
  | factorThen _ _ ih ih' | separated _ _ ih ih' =>
    intro v q h
    have h₁ := ih rfl
    have h₂ := ih' h
    omega
  | itemsMore _ _ _ ih ih' | listSome _ _ ih ih' =>
    intro v q h
    cases h
    have h₁ := ih rfl
    have h₂ := ih' rfl
    omega
  | leaf hl => intro v q h; subst h; exact Atom.stop_of_leaf? hl

/-! ## Calls -/

def Trail.calls : Trail → List (Definition × Nat × Trail)
  | nothing | reach _ => []
  | call d start body => (d, start, body) :: body.calls
  | both a b => a.calls ++ b.calls

@[simp] theorem Trail.calls_ofLeaf (a : Answer) : (Trail.ofLeaf a).calls = [] := by cases a <;> rfl

theorem Atom.of_target? {d' : Definition} (hd : d.Of layers) :
    ∀ {x : Atom}, x.target? layers d = some (some d') → d'.Of layers
  | .rule _, h => (of_find? (Option.some.inj h)).1
  | .super _, h => hd.find?_below (Option.some.inj h)

/-- **The calls of a trail are derivations**, of definitions of the layers at positions of the entries. -/
theorem means_of_mem_calls (h : Means layers tokens d φ p a t) :
    d.Of layers → p ≤ tokens.entries.length → ∀ c ∈ t.calls, c.1.Of layers ∧ c.2.1 ≤ tokens.entries.length ∧
      ∃ b, Means layers tokens c.1 (.choice c.1.rule.body) c.2.1 b c.2.2 := by
  induction h with
  | last _ ih | first _ ih | factorFail _ ih | once _ ih | present _ ih | absent _ ih | many _ ih | many1 _ ih
  | many1Fail _ ih | sepBy _ ih | sepBy1 _ ih | sepBy1Fail _ ih | bare _ ih | separatorFail _ ih | itemsEnd _ ih
  | itemsStay _ ih | listNone _ ih | group _ ih => exact ih
  | sole | all | act | refuse | dangling => intro _ _ c hc; cases hc
  | leaf => intro _ _ c hc; simp at hc
  | next _ _ ih ih' =>
    intro hd hp c hc
    rcases List.mem_append.1 hc with hc | hc
    · exact ih hd hp c hc
    · exact ih' hd hp c hc
  | factorThen g _ ih ih' | separated g _ ih ih' | itemsMore g _ _ ih ih' | listSome g _ ih ih' =>
    intro hd hp c hc
    have hq := stop_of_means g rfl
    rcases List.mem_append.1 hc with hc | hc
    · exact ih hd hp c hc
    · exact ih' hd (by omega) c hc
  | called hx g ih =>
    intro hd hp c hc
    have hd' := Atom.of_target? hd hx
    rcases List.mem_cons.1 hc with rfl | hc
    · exact ⟨hd', hp, _, g⟩
    · exact ih hd' hp c hc

theorem exists_call_of_lt_depth : ∀ {t : Trail} {n : Nat}, n < t.depth → ∃ c ∈ t.calls, c.2.2.depth = n
  | .nothing, _, h | .reach _, _, h => by cases h
  | .call d start body, n, h => by
    simp only [Trail.depth] at h
    rcases Nat.lt_succ_iff_lt_or_eq.1 h with h | rfl
    · obtain ⟨c, hc, hn⟩ := exists_call_of_lt_depth h
      exact ⟨c, List.mem_cons_of_mem _ hc, hn⟩
    · exact ⟨(d, start, body), List.mem_cons_self, rfl⟩
  | .both t u, n, h => by
    simp only [Trail.depth] at h
    rcases Nat.lt_or_ge n t.depth with h₁ | h₁
    · obtain ⟨c, hc, hn⟩ := exists_call_of_lt_depth h₁
      exact ⟨c, List.mem_append_left _ hc, hn⟩
    · obtain ⟨c, hc, hn⟩ := exists_call_of_lt_depth (t := u) (n := n) (by omega)
      exact ⟨c, List.mem_append_right _ hc, hn⟩

/-! ## The bound -/

def places (layers : List Layer) (tokens : TokenList) : Finset (RuleId × Nat) :=
  (ruleIds layers).toFinset ×ˢ Finset.range (tokens.entries.length + 1)

theorem card_places_le (layers : List Layer) (tokens : TokenList) :
    (places layers tokens).card ≤ ruleTotal layers * (tokens.entries.length + 1) := by
  rw [places, Finset.card_product, Finset.card_range, ← length_ruleIds]
  exact Nat.mul_le_mul_right _ (List.toFinset_card_le _)

/-- **The calls of a derivation nest less deep than there are rules and positions**: the depths from that of the whole
downwards are those of different rules at different positions. -/
theorem depth_lt (h : Means layers tokens d (.choice d.rule.body) p a t) (hd : d.Of layers)
    (hp : p ≤ tokens.entries.length) : t.depth < ruleTotal layers * (tokens.entries.length + 1) := by
  have hall : ∀ n ∈ Finset.range (t.depth + 1), ∃ c : Definition × Nat × Trail, c.2.2.depth = n ∧ c.1.Of layers ∧
      c.2.1 ≤ tokens.entries.length ∧ ∃ b, Means layers tokens c.1 (.choice c.1.rule.body) c.2.1 b c.2.2 := by
    intro n hn
    rcases Nat.lt_succ_iff_lt_or_eq.1 (Finset.mem_range.1 hn) with hn | rfl
    · obtain ⟨c, hc, hcn⟩ := exists_call_of_lt_depth hn
      exact ⟨c, hcn, means_of_mem_calls h hd hp c hc⟩
    · exact ⟨(d, p, t), rfl, hd, hp, a, h⟩
  have : Nonempty (Definition × Nat × Trail) := ⟨(d, p, t)⟩
  choose! c hdepth hof hpos hmeans using hall
  have hcard := Finset.card_le_card_of_injOn (fun n => ((c n).1.id, (c n).2.1)) (s := Finset.range (t.depth + 1))
    (t := places layers tokens)
    (fun n hn => by
      simp only [places, Finset.coe_product, Set.mem_prod, Finset.mem_coe, List.mem_toFinset, Finset.mem_range]
      exact ⟨(hof n hn).id_mem, Nat.lt_succ_of_le (hpos n hn)⟩)
    (fun n hn m hm he => by
      simp only [Prod.mk.injEq] at he
      have hdef := (hof n hn).eq_of_id_eq (hof m hm) he.1
      obtain ⟨b, hb⟩ := hmeans n hn
      obtain ⟨b', hb'⟩ := hmeans m hm
      rw [hdef, he.2] at hb
      rw [← hdepth n hn, ← hdepth m hm, (means_unique hb hb').2])
  rw [Finset.card_range] at hcard
  exact Nat.lt_of_succ_le (hcard.trans (card_places_le layers tokens))

end Packrat.Grammar
