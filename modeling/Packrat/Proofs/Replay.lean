import Packrat.Proofs.RunEnds
import Packrat.Proofs.Visits
/-!
# Replay — a trail gone through again

A trail records the calls of a derivation without states, so it can be gone through again with nothing but a ledger: what
was visited, how many calls there were, and how many of them were answered from what was kept (`Trail.replay`).  Main
statement: a run does what the replay of its trail says, in its counts, in what it keeps, and in its visits
(`completes_of_means`, `invoke_completes`).
-/
namespace Packrat.Grammar

open Packrat.Grammar.Parser

structure Ledger where
  visits : List Visit
  calls : Nat
  hits : Nat

def Ledger.empty : Ledger := ⟨[], 0, 0⟩

/-- **What a run adds to the ledger**, from its trail: a rule that was visited at a position is not visited there again
if outcomes are kept. -/
def Trail.replay (memoize : Bool) : Trail → Ledger → Ledger
  | nothing, l | reach _, l => l
  | both t u, l => u.replay memoize (t.replay memoize l)
  | call d start body, l =>
    if memoize = true ∧ (d.id, start) ∈ l.visits then ⟨l.visits, l.calls + 1, l.hits + 1⟩
    else
      let l' := body.replay memoize ⟨l.visits, l.calls + 1, l.hits⟩
      ⟨l'.visits ++ [(d.id, start)], l'.calls, l'.hits⟩

/-- **A state that agrees with a ledger**: it has its counts, and keeps outcomes exactly for its visits. -/
structure State.Books (memoize : Bool) (l : Ledger) (s : State) : Prop where
  stats : s.stats = ⟨l.calls, l.hits⟩
  kept : memoize = true → ∀ x : Visit, x ∈ s.memo ↔ x ∈ l.visits

def Reply.ofAnswer : Answer → State → Reply Value
  | some (v, _), s => .value v s
  | none, s => .fail s

variable {layers : List Layer} {tokens : TokenList} {d e : Definition} {φ : Phrase} {s s' : State} {t : Trail}
  {memoize : Bool} {fuel p : Nat} {a : Answer} {l : Ledger}

/-! ## Runs and replays -/

/-- **A run that comes out with an answer**, in a state that agrees with the ledger of its trail, and with the visits
that the ledger has more. -/
structure Completes (layers : List Layer) (memoize : Bool) (fuel : Nat) (d : Definition) (φ : Phrase) (s : State)
    (a : Answer) (t : Trail) (l : Ledger) (s' : State) : Prop where
  reply : φ.run (scopeOf layers memoize fuel d) s = .ofAnswer a s'
  books : s'.Books memoize (t.replay memoize l)
  visits : (t.replay memoize l).visits =
    l.visits ++ φ.visits (scopeOf layers memoize fuel d) (referVisits layers memoize fuel d) s

theorem State.Books.keep (h : s.Books memoize l) (id : RuleId) (p : Nat) (o : Outcome) :
    (s.keep memoize id p o).Books memoize ⟨l.visits ++ [(id, p)], l.calls, l.hits⟩ := by
  cases memoize with
  | false => exact ⟨h.stats, fun hm => by cases hm⟩
  | true =>
    refine ⟨h.stats, fun hm x => ?_⟩
    change x ∈ s.memo.insert (id, p) o ↔ x ∈ l.visits ++ [(id, p)]
    rw [Std.HashMap.mem_insert, h.kept hm, List.mem_append, List.mem_singleton, beq_iff_eq, Or.comm, eq_comm]

theorem State.Books.rewind (h : s.Books memoize l) (c : Cursor) : (s.rewind c).Books memoize l := ⟨h.stats, h.kept⟩

theorem of_reply (hm : Means layers tokens d φ p a t) (hd : d.Of layers) (hs : s.Sound layers tokens)
    (hp : s.position = p) (hr : φ.run (scopeOf layers memoize fuel d) s = .ofAnswer a s') :
    s'.Sound layers tokens ∧ (∀ v q, a = some (v, q) → s'.position = q) ∧ s'.furthest = max s.furthest t.furthest := by
  have h := fits_run memoize fuel hd hs φ
  subst hp
  rw [hr] at h
  cases a with
  | none =>
    obtain ⟨u, hm', ha⟩ := h
    obtain ⟨-, rfl⟩ := means_unique hm hm'
    exact ⟨ha.sound, fun v q he => by (cases he), ha.furthest⟩
  | some r =>
    obtain ⟨v, q⟩ := r
    obtain ⟨u, hm', ha⟩ := h
    obtain ⟨he, rfl⟩ := means_unique hm hm'
    cases he
    exact ⟨ha.sound, fun v q he => by cases he; rfl, ha.furthest⟩

theorem asList_eq_value {q : Parser (List Value)} {vs : List Value} {stop : Nat}
    (h : asList q s = .ofAnswer (some (.list vs, stop)) s') : q s = .value vs s' := by
  unfold asList at h
  cases hr : q s with
  | exhausted => rw [hr] at h; cases h
  | fail s₁ => rw [hr] at h; cases h
  | value ws s₁ =>
    rw [hr] at h
    cases h
    rfl

theorem asList1_of_value {q : Parser (List Value)} {v : Value} {vs : List Value} (h : q s = .value (v :: vs) s') :
    asList1 q s = .value (.list (v :: vs)) s' := by
  rw [asList1, andThen_of_value h]
  rfl

theorem asList1_of_nil {q : Parser (List Value)} (h : q s = .value [] s') : asList1 q s = .fail s' := by
  rw [asList1, andThen_of_value h]
  rfl

/-! ## Atoms -/

@[simp] theorem replay_ofLeaf (memoize : Bool) (a : Answer) (l : Ledger) :
    (Trail.ofLeaf a).replay memoize l = l := by
  cases a <;> rfl

theorem Atom.visits_of_leaf? {scope : Scope} {refer : Reference → State → List Visit} :
    ∀ {x : Atom}, x.leaf? tokens p = some a → x.visits scope refer s = []
  | .literal _, _ | .terminal _, _ => rfl

theorem Atom.visits_of_target? {found : Option Definition} :
    ∀ {x : Atom}, x.target? layers d = some found →
      x.visits (scopeOf layers memoize fuel d) (referVisits layers memoize fuel d) s =
        found.elim [] fun e => invokeVisits layers memoize fuel e s
  | .rule _, h => by cases h; rfl
  | .super _, h => by cases h; rfl

theorem eat_books {f : Cursor → Option (Value × Cursor)} (hb : s.Books memoize l) (hr : eat f s = .ofAnswer a s') :
    s'.Books memoize l := by
  unfold eat at hr
  cases hf : f s.cursor with
  | none =>
    rw [hf] at hr
    cases a with
    | none => cases hr; exact hb
    | some r => cases hr
  | some r =>
    rw [hf] at hr
    cases a with
    | none => cases hr
    | some r =>
      obtain ⟨-, rfl⟩ := Reply.value.inj hr
      exact ⟨hb.stats, hb.kept⟩

theorem Atom.books_of_leaf? {scope : Scope} (hb : s.Books memoize l) : ∀ {x : Atom}, x.leaf? tokens p = some a →
    x.run scope s = .ofAnswer a s' → s'.Books memoize l
  | .literal _, _, hr => by
    rw [Atom.run] at hr
    exact eat_books hb hr
  | .terminal .number, _, hr | .terminal .string, _, hr | .terminal .ident, _, hr | .terminal .hole, _, hr
  | .terminal .eof, _, hr => by
    rw [Atom.run, Terminal.run] at hr
    exact eat_books hb hr
  | .terminal .fail, h, hr => by
    cases h
    cases hr
    exact hb

theorem exists_reply (memoize : Bool) (fuel : Nat) (hm : Means layers tokens d φ p a t) (hd : d.Of layers)
    (hs : s.Sound layers tokens) (hp : s.position = p) (hne : φ.run (scopeOf layers memoize fuel d) s ≠ .exhausted) :
    ∃ s', φ.run (scopeOf layers memoize fuel d) s = .ofAnswer a s' := by
  cases a with
  | none =>
    obtain ⟨s', hr, -⟩ := run_eq_fail hd hs hm hp hne
    exact ⟨s', hr⟩
  | some r =>
    obtain ⟨s', hr, -⟩ := run_eq_value hd hs hm hp hne
    exact ⟨s', hr⟩

/-! ## Rules -/

theorem invoke_completes (hm : Means layers tokens e (.choice e.rule.body) p a t) (he : e.Of layers)
    (hbody : ∀ {s : State} {l : Ledger}, s.Sound layers tokens → s.position = p → s.Books memoize l →
      ∃ s', Completes layers memoize fuel e (.choice e.rule.body) s a t l s')
    (hs : s.Sound layers tokens) (hp : s.position = p) (hb : s.Books memoize l) :
    ∃ s', invoke layers memoize (fuel + 1) e s = .ofAnswer a s' ∧
      s'.Books memoize ((Trail.call e p t).replay memoize l) ∧
      ((Trail.call e p t).replay memoize l).visits = l.visits ++ invokeVisits layers memoize (fuel + 1) e s := by
  subst hp
  have hcalled : s.countCall.Books memoize ⟨l.visits, l.calls + 1, l.hits⟩ :=
    ⟨by rw [State.countCall, hb.stats], hb.kept⟩
  rw [invoke_succ, invokeVisits]
  cases hk : s.countCall.known memoize e.id with
  | some o =>
    -- the outcome was kept, so the ledger has the visit, and the call counts as a hit in both
    have hmemo : memoize = true ∧ s.memo[(e.id, s.position)]? = some o := State.of_known hk
    obtain ⟨u, hu, -⟩ := hs.memo he hmemo.2
    obtain ⟨ha, -⟩ := means_unique hm hu
    have hmem : (e.id, s.position) ∈ l.visits := (hb.kept hmemo.1 _).1 (by
      rw [Std.HashMap.mem_iff_isSome_getElem?, hmemo.2]; rfl)
    have hreplay : (Trail.call e s.position t).replay memoize l = ⟨l.visits, l.calls + 1, l.hits + 1⟩ :=
      if_pos ⟨hmemo.1, hmem⟩
    rw [hreplay, ha]
    have hbooks : s.countCall.countHit.Books memoize ⟨l.visits, l.calls + 1, l.hits + 1⟩ :=
      ⟨by rw [State.countHit, hcalled.stats], hb.kept⟩
    cases o with
    | fail => exact ⟨_, rfl, hbooks, (List.append_nil _).symm⟩
    | value v stop => exact ⟨_, rfl, hbooks.rewind _, (List.append_nil _).symm⟩
  | none =>
    -- nothing was kept, so the ledger does not have the visit either, and the body runs
    have hnot : ¬(memoize = true ∧ (e.id, s.position) ∈ l.visits) := by
      rintro ⟨hmemo, hmem⟩
      rw [State.known, if_pos hmemo] at hk
      have hkept := Std.HashMap.mem_iff_isSome_getElem?.1 ((hcalled.kept hmemo _).2 hmem)
      rw [show s.countCall.memo[(e.id, s.position)]? = none from hk] at hkept
      cases hkept
    obtain ⟨s₁, hr, hb₁, hv⟩ := hbody (s := s.countCall) ⟨hs.entries, hs.memo⟩ rfl hcalled
    have hreplay : (Trail.call e s.position t).replay memoize l =
        ⟨(t.replay memoize ⟨l.visits, l.calls + 1, l.hits⟩).visits ++ [(e.id, s.position)],
          (t.replay memoize ⟨l.visits, l.calls + 1, l.hits⟩).calls,
          (t.replay memoize ⟨l.visits, l.calls + 1, l.hits⟩).hits⟩ := if_neg hnot
    have hvisits : ((Trail.call e s.position t).replay memoize l).visits =
        l.visits ++ (e.rule.body.visits (scopeOf layers memoize fuel e) (referVisits layers memoize fuel e) s.countCall ++
          [(e.id, s.position)]) := by
      rw [hreplay, hv, List.append_assoc]
      rfl
    rw [Phrase.run] at hr
    rw [hr]
    cases a with
    | none => exact ⟨_, rfl, hreplay ▸ (hb₁.rewind _).keep e.id s.position .fail, hvisits⟩
    | some r => exact ⟨_, rfl, hreplay ▸ hb₁.keep e.id s.position _, hvisits⟩

theorem stop_completes (tokens : TokenList) {done : List Value} {action : Option Nat}
    (hm : Means layers tokens d (.sequence done (.stop action)) p a t) (hb : s.Books memoize l) :
    ∃ s', Completes layers memoize fuel d (.sequence done (.stop action)) s a t l s' := by
  obtain ⟨rfl, rfl⟩ := means_unique hm (means_stop layers tokens d done action p)
  refine ⟨s, ?_, hb, (List.append_nil _).symm⟩
  rw [Phrase.run, Sequence.run, List.reverse_reverse, show (scopeOf layers memoize fuel d).actions = d.layer.actions from rfl]
  cases finish d.layer.actions action done <;> rfl

/-- **A run does what the replay of its trail says**, by induction on the derivation of its answer. -/
theorem completes_of_means (hm : Means layers tokens d φ p a t) :
    ∀ {fuel : Nat} {s : State} {l : Ledger}, d.Of layers → t.depth ≤ fuel → s.Sound layers tokens → s.position = p →
      s.Books memoize l → ∃ s', Completes layers memoize fuel d φ s a t l s' := by
  induction hm with
  | @last _ _ _ a _ h ih =>
    intro fuel s l hd hf hs hp hb
    obtain ⟨s₁, hr, hb₁, hv⟩ := ih hd hf hs hp hb
    cases a with
    | none => exact ⟨_, attempt_of_fail hr, hb₁.rewind _, hv⟩
    | some r => exact ⟨_, attempt_of_value hr, hb₁, hv⟩
  | first h ih =>
    intro fuel s l hd hf hs hp hb
    obtain ⟨s₁, hr, hb₁, hv⟩ := ih hd hf hs hp hb
    rw [Phrase.run, List.reverse_nil] at hr
    have ha := attempt_of_value hr
    refine ⟨s₁, ?_, hb₁, ?_⟩
    · rw [Phrase.run, Choice.run, orElse_of_value ha]
      rfl
    · rw [hv, Phrase.visits, Phrase.visits, Choice.visits, ha]
      exact congrArg _ (List.append_nil _).symm
  | next h h' ih ih' =>
    intro fuel s l hd hf hs hp hb
    obtain ⟨ht, hu⟩ := Nat.max_le.1 hf
    obtain ⟨s₁, hr, hb₁, hv⟩ := ih hd ht hs hp hb
    have hs₁ := (of_reply h hd hs hp hr).1
    obtain ⟨s₂, hr₂, hb₂, hv₂⟩ := ih' hd hu (hs₁.rewind hs.entries) hp (hb₁.rewind s.cursor)
    rw [Phrase.run, List.reverse_nil] at hr
    have ha := attempt_of_fail hr
    refine ⟨s₂, ?_, hb₂, ?_⟩
    · rw [Phrase.run, Choice.run, orElse_of_fail ha]
      exact hr₂
    · rw [Trail.replay, hv₂, hv, List.append_assoc]
      simp only [Phrase.visits]
      rw [Choice.visits, ha]
      rfl
  | factorFail h ih =>
    intro fuel s l hd hf hs hp hb
    obtain ⟨s₁, hr, hb₁, hv⟩ := ih hd hf hs hp hb
    rw [Phrase.run] at hr
    refine ⟨s₁, ?_, hb₁, ?_⟩
    · rw [Phrase.run, Sequence.run, andThen_of_fail hr]
      rfl
    · rw [hv]
      simp only [Phrase.visits]
      rw [Sequence.visits, hr]
      exact congrArg _ (List.append_nil _).symm
  | factorThen h h' ih ih' =>
    intro fuel s l hd hf hs hp hb
    obtain ⟨ht, hu⟩ := Nat.max_le.1 hf
    obtain ⟨s₁, hr, hb₁, hv⟩ := ih hd ht hs hp hb
    obtain ⟨hs₁, hq, -⟩ := of_reply h hd hs hp hr
    obtain ⟨s₂, hr₂, hb₂, hv₂⟩ := ih' hd hu hs₁ (hq _ _ rfl) hb₁
    rw [Phrase.run] at hr
    rw [Phrase.run, List.reverse_append] at hr₂
    rw [Phrase.visits, List.reverse_append] at hv₂
    refine ⟨s₂, ?_, hb₂, ?_⟩
    · rw [Phrase.run, Sequence.run, andThen_of_value hr]
      exact hr₂
    · rw [Trail.replay, hv₂, hv, List.append_assoc]
      simp only [Phrase.visits]
      rw [Sequence.visits, hr]
      rfl
  | sole => intro fuel s l hd hf hs hp hb; exact stop_completes tokens .sole hb
  | all h => intro fuel s l hd hf hs hp hb; exact stop_completes tokens (.all h) hb
  | act h => intro fuel s l hd hf hs hp hb; exact stop_completes tokens (.act h) hb
  | refuse h => intro fuel s l hd hf hs hp hb; exact stop_completes tokens (p := s.position) (.refuse h) hb
  | once h ih | many h ih | sepBy h ih | bare h ih | group h ih =>
    intro fuel s l hd hf hs hp hb
    obtain ⟨s₁, hr, hb₁, hv⟩ := ih hd hf hs hp hb
    exact ⟨s₁, hr, hb₁, hv⟩
  | present h ih =>
    intro fuel s l hd hf hs hp hb
    obtain ⟨s₁, hr, hb₁, hv⟩ := ih hd hf hs hp hb
    rw [Phrase.run] at hr
    refine ⟨s₁, ?_, hb₁, hv⟩
    rw [Phrase.run, Factor.run]
    exact orElse_of_value (by rw [attempt_of_value hr, Reply.map])
  | absent h ih =>
    intro fuel s l hd hf hs hp hb
    obtain ⟨s₁, hr, hb₁, hv⟩ := ih hd hf hs hp hb
    rw [Phrase.run] at hr
    refine ⟨s₁.rewind s.cursor, ?_, hb₁.rewind _, hv⟩
    rw [Phrase.run, Factor.run]
    exact orElse_of_fail (by rw [attempt_of_fail hr, Reply.map])
  | many1 h ih | sepBy1 h ih =>
    intro fuel s l hd hf hs hp hb
    obtain ⟨s₁, hr, hb₁, hv⟩ := ih hd hf hs hp hb
    exact ⟨s₁, asList1_of_value (asList_eq_value hr), hb₁, hv⟩
  | many1Fail h ih | sepBy1Fail h ih =>
    intro fuel s l hd hf hs hp hb
    obtain ⟨s₁, hr, hb₁, hv⟩ := ih hd hf hs hp hb
    exact ⟨s₁, asList1_of_nil (asList_eq_value hr), hb₁, hv⟩
  | separatorFail h ih =>
    intro fuel s l hd hf hs hp hb
    obtain ⟨s₁, hr, hb₁, hv⟩ := ih hd hf hs hp hb
    rw [Phrase.run] at hr
    refine ⟨s₁, ?_, hb₁, ?_⟩
    · rw [Phrase.run, itemRun, andThen_of_fail hr]
      rfl
    · rw [hv, Phrase.visits, Phrase.visits, itemVisits, thenVisits_of_fail hr]
  | separated h h' ih ih' =>
    intro fuel s l hd hf hs hp hb
    obtain ⟨ht, hu⟩ := Nat.max_le.1 hf
    obtain ⟨s₁, hr, hb₁, hv⟩ := ih hd ht hs hp hb
    obtain ⟨hs₁, hq, -⟩ := of_reply h hd hs hp hr
    obtain ⟨s₂, hr₂, hb₂, hv₂⟩ := ih' hd hu hs₁ (hq _ _ rfl) hb₁
    rw [Phrase.run] at hr
    refine ⟨s₂, ?_, hb₂, ?_⟩
    · rw [Phrase.run, itemRun, andThen_of_value hr]
      exact hr₂
    · rw [Trail.replay, hv₂, hv, List.append_assoc, Phrase.visits, Phrase.visits, Phrase.visits, itemVisits,
        thenVisits_of_value hr]
  | itemsEnd h ih =>
    intro fuel s l hd hf hs hp hb
    obtain ⟨s₁, hr, hb₁, hv⟩ := ih hd hf hs hp hb
    rw [Phrase.run] at hr
    have ha := attempt_of_fail hr
    refine ⟨s₁.rewind s.cursor, ?_, hb₁.rewind _, ?_⟩
    · rw [Phrase.run, asList, Parser.many, manyUpTo_of_fail ha]
      rfl
    · rw [hv]
      simp only [Phrase.visits]
      rw [manyVisits_of_fail ha]
  | itemsStay h ih =>
    intro fuel s l hd hf hs hp hb
    obtain ⟨s₁, hr, hb₁, hv⟩ := ih hd hf hs hp hb
    have hstay : s₁.position = s.position := ((of_reply h hd hs hp hr).2.1 _ _ rfl).trans hp.symm
    rw [Phrase.run] at hr
    have ha := attempt_of_value hr
    refine ⟨s₁, ?_, hb₁, ?_⟩
    · rw [Phrase.run, asList, Parser.many, manyUpTo_of_stay ha hstay]
      rfl
    · rw [hv]
      simp only [Phrase.visits]
      rw [manyVisits_of_stay ha hstay]
  | itemsMore h hne h' ih ih' =>
    intro fuel s l hd hf hs hp hb
    obtain ⟨ht, hu⟩ := Nat.max_le.1 hf
    obtain ⟨s₁, hr, hb₁, hv⟩ := ih hd ht hs hp hb
    obtain ⟨hs₁, hq, -⟩ := of_reply h hd hs hp hr
    obtain ⟨s₂, hr₂, hb₂, hv₂⟩ := ih' hd hu hs₁ (hq _ _ rfl) hb₁
    have hpos := hq _ _ rfl
    have hmore : s₁.position ≠ s.position := by rw [hpos, hp]; exact hne
    -- the fuel that is left is no less than what the rest of the items has of its own
    have hfuel : s₁.remaining + 1 ≤ s.remaining := by
      have hstop := stop_of_means h rfl
      have h₁ := hs.entries
      have h₂ := hs₁.entries
      simp only [State.remaining, Cursor.size, h₁, h₂]
      omega
    rw [Phrase.run] at hr
    have ha := attempt_of_value hr
    obtain ⟨hrest, hvisits⟩ := manyUpTo_of_le (itemVisits _ (referVisits _ memoize fuel _) _ _) hfuel
      (asList_eq_value hr₂) fun h => by cases h
    refine ⟨s₂, ?_, hb₂, ?_⟩
    · rw [Phrase.run, asList, Parser.many, manyUpTo_of_more ha hmore, hrest]
      rfl
    · rw [Trail.replay, hv₂, hv, List.append_assoc]
      simp only [Phrase.visits]
      rw [manyVisits_of_more ha hmore, hvisits]
  | listNone h ih =>
    intro fuel s l hd hf hs hp hb
    obtain ⟨s₁, hr, hb₁, hv⟩ := ih hd hf hs hp hb
    rw [Phrase.run] at hr
    have ha := attempt_of_fail hr
    refine ⟨s₁.rewind s.cursor, ?_, hb₁.rewind _, ?_⟩
    · rw [Phrase.run, asList, sepBy_of_fail ha]
      rfl
    · rw [hv]
      simp only [Phrase.visits]
      rw [ha]
      exact congrArg _ (List.append_nil _).symm
  | listSome h h' ih ih' =>
    intro fuel s l hd hf hs hp hb
    obtain ⟨ht, hu⟩ := Nat.max_le.1 hf
    obtain ⟨s₁, hr, hb₁, hv⟩ := ih hd ht hs hp hb
    obtain ⟨hs₁, hq, -⟩ := of_reply h hd hs hp hr
    obtain ⟨s₂, hr₂, hb₂, hv₂⟩ := ih' hd hu hs₁ (hq _ _ rfl) hb₁
    rw [Phrase.run] at hr
    have ha := attempt_of_value hr
    have hrest := asList_eq_value hr₂
    rw [itemRun] at hrest
    refine ⟨s₂, ?_, hb₂, ?_⟩
    · rw [Phrase.run, asList, sepBy_of_value ha, hrest]
      rfl
    · rw [Trail.replay, hv₂, hv, List.append_assoc]
      simp only [Phrase.visits]
      rw [ha]
      rfl
  | leaf h =>
    intro fuel s l hd hf hs hp hb
    obtain ⟨s₁, hr⟩ := exists_reply memoize fuel (.leaf h) hd hs hp (leaf_ne_exhausted h)
    refine ⟨s₁, hr, ?_, ?_⟩
    · rw [replay_ofLeaf]
      exact Atom.books_of_leaf? hb h hr
    · rw [replay_ofLeaf, Phrase.visits, Atom.visits_of_leaf? h, List.append_nil]
  | dangling hx =>
    intro fuel s l hd hf hs hp hb
    refine ⟨s, ?_, hb, ?_⟩
    · rw [Phrase.run, reference_run hx]
      rfl
    · rw [Phrase.visits, Atom.visits_of_target? hx]
      exact (List.append_nil _).symm
  | called hx h ih =>
    intro fuel s l hd hf hs hp hb
    have he := Atom.of_target? hd hx
    cases fuel with
    | zero => exact absurd hf (Nat.not_succ_le_zero _)
    | succ fuel =>
      obtain ⟨s₁, hr, hb₁, hv⟩ := invoke_completes h he
        (fun hs hp hb => ih he (Nat.le_of_succ_le_succ hf) hs hp hb) hs hp hb
      refine ⟨s₁, ?_, hb₁, ?_⟩
      · rw [Phrase.run, reference_run hx]
        exact hr
      · rw [hv, Phrase.visits, Atom.visits_of_target? hx]
        rfl

end Packrat.Grammar
