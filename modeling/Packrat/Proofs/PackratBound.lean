import Packrat.Proofs.ParseMeaning
import Packrat.Proofs.Replay
/-!
# PackratBound — every rule once at a position

A run that keeps outcomes visits what the run without them visits, each rule at a position once.  The replay of a trail
shows why: what is visited is closed under the calls of its derivations, so a call that is answered from there adds
nothing that is not there (`replayed_kept`), and no derivation calls its own rule at its own position
(`id_not_mem_visited`).  Main statement: the run that keeps outcomes runs exactly the bodies that the run without them
runs, each once, and there are no more of them than rules times positions (`memo_visits_once`).
-/
namespace Packrat.Grammar

variable {layers : List Layer} {tokens : TokenList} {d e : Definition} {φ : Phrase} {t u : Trail} {p q : Nat}
  {a b : Answer} {l l' : Ledger} {memoize : Bool}

/-! ## The calls of a trail -/

def Trail.visited (t : Trail) : List Visit := t.calls.map fun c => (c.1.id, c.2.1)

def Trail.Derives (layers : List Layer) (tokens : TokenList) (t : Trail) : Prop :=
  ∀ c ∈ t.calls, c.1.Of layers ∧ ∃ b, Means layers tokens c.1 (.choice c.1.rule.body) c.2.1 b c.2.2

theorem Trail.visited_both (t u : Trail) : (t.both u).visited = t.visited ++ u.visited := List.map_append

theorem Trail.visited_call (d : Definition) (p : Nat) (t : Trail) :
    (t.call d p).visited = (d.id, p) :: t.visited := rfl

theorem derives_call (hd : d.Of layers) (hp : p ≤ tokens.entries.length)
    (hm : Means layers tokens d (.choice d.rule.body) p a t) : (t.call d p).Derives layers tokens := by
  intro c hc
  rcases List.mem_cons.1 hc with rfl | hc
  · exact ⟨hd, a, hm⟩
  · obtain ⟨hof, -, hc⟩ := means_of_mem_calls hm hd hp c hc
    exact ⟨hof, hc⟩

theorem depth_lt_of_mem_calls : ∀ {t : Trail} {c : Definition × Nat × Trail}, c ∈ t.calls → c.2.2.depth < t.depth
  | .call d start body, c, h => by
    rcases List.mem_cons.1 h with rfl | h
    · exact Nat.lt_succ_self _
    · exact (depth_lt_of_mem_calls h).trans (Nat.lt_succ_self _)
  | .both t u, c, h => by
    rcases List.mem_append.1 h with h | h
    · exact (depth_lt_of_mem_calls h).trans_le (Nat.le_max_left _ _)
    · exact (depth_lt_of_mem_calls h).trans_le (Nat.le_max_right _ _)

/-- **No derivation calls its own rule at its own position**, as the derivation there would be itself. -/
theorem id_not_mem_visited (hd : d.Of layers) (hm : Means layers tokens d (.choice d.rule.body) p a t)
    (ht : t.Derives layers tokens) : (d.id, p) ∉ t.visited := by
  intro h
  obtain ⟨c, hc, he⟩ := List.mem_map.1 h
  obtain ⟨hof, b, hb⟩ := ht c hc
  obtain ⟨hid, rfl⟩ := Prod.mk.inj he
  cases hof.eq_of_id_eq hd hid
  have := depth_lt_of_mem_calls hc
  rw [(means_unique hb hm).2] at this
  exact Nat.lt_irrefl _ this

/-! ## Replays -/

/-- **A ledger closed under calls**: with a rule at a position, all that its derivation calls was visited. -/
def Ledger.Closed (layers : List Layer) (tokens : TokenList) (l : Ledger) : Prop :=
  ∀ {d : Definition} {p : Nat} {a : Answer} {t : Trail}, d.Of layers → (d.id, p) ∈ l.visits →
    Means layers tokens d (.choice d.rule.body) p a t → t.visited ⊆ l.visits

/-- **What a replay leaves** if outcomes are kept. -/
structure Replayed (layers : List Layer) (tokens : TokenList) (t : Trail) (l l' : Ledger) : Prop where
  closed : l'.Closed layers tokens
  mem : ∀ x : Visit, x ∈ l'.visits ↔ x ∈ l.visits ∨ x ∈ t.visited
  nodup : l.visits.Nodup → l'.visits.Nodup
  misses : l'.calls + (l.hits + l.visits.length) = l.calls + (l'.hits + l'.visits.length)
  calls : l'.calls ≤ l.calls + t.calls.length

/-- **Replays that keep outcomes**, by induction on the trail. -/
theorem replayed_kept : ∀ {t : Trail} {l : Ledger}, t.Derives layers tokens → l.Closed layers tokens →
    Replayed layers tokens t l (t.replay true l)
  | .nothing, l, _, hl | .reach _, l, _, hl =>
    ⟨hl, fun x => by simp [Trail.visited, Trail.calls, Trail.replay], id, rfl, Nat.le_refl _⟩
  | .both t u, l, ht, hl => by
    have h := replayed_kept (t := t) (fun c hc => ht c (List.mem_append_left _ hc)) hl
    have h' := replayed_kept (t := u) (fun c hc => ht c (List.mem_append_right _ hc)) h.closed
    refine ⟨h'.closed, fun x => ?_, fun hn => h'.nodup (h.nodup hn), ?_, ?_⟩
    · rw [Trail.replay, h'.mem, h.mem, Trail.visited_both, List.mem_append, or_assoc]
    · have := h.misses
      have := h'.misses
      rw [Trail.replay]
      omega
    · have := h.calls
      have := h'.calls
      rw [Trail.replay, Trail.calls, List.length_append]
      omega
  | .call d p body, l, ht, hl => by
    obtain ⟨hd, b, hm⟩ := ht _ List.mem_cons_self
    have hbody : body.Derives layers tokens := fun c hc => ht c (List.mem_cons_of_mem _ hc)
    by_cases hin : (d.id, p) ∈ l.visits
    -- a hit: what the derivation of the call visits is there already
    · rw [show (body.call d p).replay true l = ⟨l.visits, l.calls + 1, l.hits + 1⟩ from if_pos ⟨rfl, hin⟩]
      refine ⟨hl, fun x => ⟨Or.inl, fun h => ?_⟩, id, ?_, ?_⟩
      · rcases h with h | h
        · exact h
        · rw [Trail.visited_call] at h
          rcases List.mem_cons.1 h with rfl | h
          · exact hin
          · exact hl hd hin hm h
      · dsimp only
        omega
      · exact Nat.add_le_add_left (Nat.le_add_left 1 _) _
    -- a miss: the visits of the body are added first, and the call itself is not among them
    · have h := replayed_kept (t := body) (l := ⟨l.visits, l.calls + 1, l.hits⟩) hbody hl
      have hself : (d.id, p) ∉ (body.replay true ⟨l.visits, l.calls + 1, l.hits⟩).visits := fun hmem =>
        ((h.mem _).1 hmem).elim hin (id_not_mem_visited hd hm hbody)
      rw [show (body.call d p).replay true l = _ from if_neg fun h => hin h.2]
      refine ⟨?_, fun x => ?_, fun hn => ?_, ?_, ?_⟩
      · intro d' p' a' t' hd' hmem hm' x hx
        rcases List.mem_append.1 hmem with hmem | hmem
        · exact List.mem_append_left _ (h.closed hd' hmem hm' hx)
        · obtain ⟨hid, rfl⟩ := Prod.mk.inj (List.mem_singleton.1 hmem)
          cases hd'.eq_of_id_eq hd hid
          rw [(means_unique hm' hm).2] at hx
          exact List.mem_append_left _ ((h.mem x).2 (Or.inr hx))
      · rw [List.mem_append, h.mem, List.mem_singleton, Trail.visited_call, List.mem_cons, or_assoc]
        exact or_congr_right Or.comm
      · exact List.nodup_append.2 ⟨h.nodup hn, List.nodup_singleton _, fun x hx y hy he =>
          hself (by rw [← List.mem_singleton.1 hy, ← he]; exact hx)⟩
      · have := h.misses
        simp only [List.length_append, List.length_singleton]
        dsimp only at this
        omega
      · have := h.calls
        rw [Trail.calls, List.length_cons]
        dsimp only at this ⊢
        omega

theorem replay_unkept : ∀ (t : Trail) (l : Ledger), (∀ x, x ∈ (t.replay false l).visits ↔ x ∈ l.visits ∨ x ∈ t.visited) ∧
    (t.replay false l).visits.length = l.visits.length + t.calls.length ∧
    (t.replay false l).calls = l.calls + t.calls.length ∧ (t.replay false l).hits = l.hits
  | .nothing, l | .reach _, l => ⟨fun x => by simp [Trail.visited, Trail.calls, Trail.replay], rfl, rfl, rfl⟩
  | .both t u, l => by
    obtain ⟨hmem, hlength, hcalls, hhits⟩ := replay_unkept t l
    obtain ⟨hmem', hlength', hcalls', hhits'⟩ := replay_unkept u (t.replay false l)
    rw [Trail.replay, Trail.calls, List.length_append, ← Nat.add_assoc, ← Nat.add_assoc]
    refine ⟨fun x => ?_, by rw [hlength', hlength], by rw [hcalls', hcalls], hhits'.trans hhits⟩
    rw [hmem', hmem, Trail.visited_both, List.mem_append, or_assoc]
  | .call d p body, l => by
    obtain ⟨hmem, hlength, hcalls, hhits⟩ := replay_unkept body ⟨l.visits, l.calls + 1, l.hits⟩
    rw [show (body.call d p).replay false l = _ from if_neg fun h => by (cases h.1), Trail.calls, List.length_cons]
    dsimp only at hlength hcalls ⊢
    refine ⟨fun x => ?_, ?_, ?_, hhits⟩
    · rw [List.mem_append, hmem, List.mem_singleton, Trail.visited_call, List.mem_cons, or_assoc]
      exact or_congr_right Or.comm
    · rw [List.length_append, List.length_singleton, hlength, Nat.add_assoc]
    · omega

/-! ## Parses -/

variable {g : Grammar} {rule : String} {program : Template} {holes : List Value}

/-- **The visits of a parse**: the rules that its run goes through, and where. -/
def visits (g : Grammar) (memoize : Bool) (d : Definition) (tokens : TokenList) : List Visit :=
  invokeVisits g.layers memoize (g.callDepth tokens) d (.start tokens.cursor)

/-- **What the run of a parse comes out with**: the answer of its rule, the furthest position of the derivation, and the
counts and the visits of the replay. -/
theorem runEntry_completes (memoize : Bool) (hd : d.Of g.layers)
    (hm : Means g.layers tokens d (.choice d.rule.body) 0 a t) :
    ∃ s, g.runEntry memoize d tokens = .ofAnswer a s ∧ (∀ v q, a = some (v, q) → s.position = q) ∧
      s.furthest = t.furthest ∧ s.Books memoize ((t.call d 0).replay memoize .empty) ∧
      ((t.call d 0).replay memoize .empty).visits = g.visits memoize d tokens := by
  have hdepth : t.depth ≤ g.ruleCount * (tokens.entries.length + 1) :=
    Nat.le_of_lt_succ (depth_lt_callDepth hd hm)
  have hempty : (State.start tokens.cursor).Books memoize .empty :=
    ⟨rfl, fun _ x => by simp [State.start, Ledger.empty]⟩
  obtain ⟨s, hr, hb, hv⟩ := invoke_completes hm hd
    (fun hs hp hb => completes_of_means hm hd hdepth hs hp hb) (sound_start tokens) rfl hempty
  refine ⟨s, hr, ?_, ?_, hb, hv⟩
  · rintro v q rfl
    obtain ⟨s', hs', hq⟩ := (runEntry_of_means memoize hd hm).1 v q rfl
    rw [show g.runEntry memoize d tokens = .value v s from hr] at hs'
    cases hs'
    exact hq
  · have h : (g.runEntry memoize d tokens).Fits g.layers tokens d (.choice d.rule.body) (.start tokens.cursor) :=
      fits_invoke _ hd (sound_start tokens)
    rw [show g.runEntry memoize d tokens = .ofAnswer a s from hr] at h
    cases a with
    | none =>
      obtain ⟨u, hu, ha⟩ := h
      rw [ha.furthest, (means_unique hm hu).2]
      exact Nat.zero_max _
    | some r =>
      obtain ⟨u, hu, ha⟩ := h
      rw [ha.furthest, (means_unique hm hu).2]
      exact Nat.zero_max _

def Reply.state? {α : Type} : Reply α → Option State
  | .value _ s | .fail s => some s
  | .exhausted => none

theorem state?_ofAnswer (a : Answer) (s : State) : (Reply.ofAnswer a s).state? = some s := by
  cases a <;> rfl

theorem closed_empty : Ledger.empty.Closed layers tokens := fun _ h => by cases h

/-- **Every rule runs once at a position** if outcomes are kept.  Where the run without them ends, the bodies that the
run with them goes through are the same, each once; these are what it keeps outcomes for and what it counts as calls less
those answered from there, and they are at most the rules of the grammar at the positions of the program.  It calls no
more rules than the run without, which answers no call from anywhere. -/
theorem memo_visits_once (g : Grammar) (rule : String) (program : Template) (holes : List Value) (d : Definition)
    (tokens : TokenList) (hd : g.lookup rule = some d) (hh : program.holeCount = holes.length)
    (hs : g.scanner.scan program = .ok tokens) (h : g.Ends { memoize := false } rule program holes) :
    ∃ s s', (g.runEntry false d tokens).state? = some s ∧ (g.runEntry true d tokens).state? = some s' ∧
      s.stats.ruleCalls = (g.visits false d tokens).length ∧ s.stats.memoHits = 0 ∧
      (∀ x : Visit, (g.visits true d tokens).count x = if x ∈ g.visits false d tokens then 1 else 0) ∧
      (∀ x : Visit, x ∈ s'.memo ↔ x ∈ g.visits false d tokens) ∧
      s'.stats.ruleCalls = (g.visits false d tokens).toFinset.card + s'.stats.memoHits ∧
      (g.visits false d tokens).toFinset.card ≤ g.ruleCount * (tokens.entries.length + 1) ∧
      s'.stats.ruleCalls ≤ s.stats.ruleCalls := by
  have hof := of_lookup hd
  obtain ⟨a, t, hm⟩ := (invoke_ends_iff hof).1 (h d tokens hd hh hs)
  obtain ⟨s, hr, -, -, hb, hv⟩ := runEntry_completes false hof hm
  obtain ⟨s', hr', -, -, hb', hv'⟩ := runEntry_completes true hof hm
  obtain ⟨hmem, hlength, hcalls, hhits⟩ := replay_unkept (t.call d 0) .empty
  have hkept := replayed_kept (derives_call hof (Nat.zero_le _) hm) closed_empty
  have hsame : ∀ x, x ∈ g.visits true d tokens ↔ x ∈ g.visits false d tokens := fun x => by
    rw [← hv, ← hv', hkept.mem, hmem]
  have hnodup : (g.visits true d tokens).Nodup := hv' ▸ hkept.nodup List.nodup_nil
  have hset : (g.visits false d tokens).toFinset = (g.visits true d tokens).toFinset :=
    Finset.ext fun x => by rw [List.mem_toFinset, List.mem_toFinset, hsame]
  have hcard : (g.visits false d tokens).toFinset.card = (g.visits true d tokens).length := by
    rw [hset, List.toFinset_card_of_nodup hnodup]
  refine ⟨s, s', by rw [hr, state?_ofAnswer], by rw [hr', state?_ofAnswer], ?_, ?_, fun x => ?_, fun x => ?_, ?_, ?_, ?_⟩
  · rw [hb.stats, ← hv, hlength, hcalls]
    rfl
  · rw [hb.stats, hhits]
    rfl
  · rw [hnodup.count]
    exact if_congr (hsame x) rfl rfl
  · rw [hb'.kept rfl, hv', hsame]
  · have hmisses := hkept.misses
    rw [hb'.stats, hcard, ← hv']
    simp only [Ledger.empty, List.length_nil] at hmisses ⊢
    omega
  · refine (Finset.card_le_card fun x hx => ?_).trans (card_places_le g.layers tokens)
    rw [List.mem_toFinset, ← hv, hmem] at hx
    obtain ⟨c, hc, rfl⟩ := List.mem_map.1 (hx.resolve_left List.not_mem_nil)
    have hplace : c.1.Of g.layers ∧ c.2.1 ≤ tokens.entries.length := by
      rcases List.mem_cons.1 hc with rfl | hc
      · exact ⟨hof, Nat.zero_le _⟩
      · obtain ⟨hc, hp, -⟩ := means_of_mem_calls hm hof (Nat.zero_le _) c hc
        exact ⟨hc, hp⟩
    simp only [places, Finset.mem_product, List.mem_toFinset, Finset.mem_range]
    exact ⟨hplace.1.id_mem, Nat.lt_succ_of_le hplace.2⟩
  · rw [hb.stats, hb'.stats, hcalls]
    exact hkept.calls

theorem ends_of_ended {options : ParseOptions} (fuel : Nat)
    (h : ((g.lookup rule).all fun d => (g.scanner.scan program).toOption.all fun tokens =>
      (invoke g.layers options.memoize fuel d (.start tokens.cursor)).ended) = true) :
    g.Ends options rule program holes := by
  intro d tokens hd _ hs
  rw [hd, hs] at h
  have hended : (invoke g.layers options.memoize fuel d (.start tokens.cursor)).ended = true := h
  refine ⟨fuel, fun he => ?_⟩
  rw [he] at hended
  cases hended

def sums : Grammar where
  own := ⟨[
    ⟨"start", .last (.andThen (.once (.rule "sum")) (.andThen (.once (.terminal .eof)) (.stop none)))⟩,
    ⟨"sum", .orElse (.andThen (.once (.rule "term")) (.andThen (.once (.literal "+"))
        (.andThen (.once (.rule "sum")) (.stop none))))
      (.last (.andThen (.once (.rule "term")) (.stop none)))⟩,
    ⟨"term", .last (.andThen (.once (.terminal .number)) (.stop none))⟩], []⟩
  inherited := []
  literals := ["+"]
  scanner := (Scanner.ofTokens ["+"]).toOption.getD default

set_option maxRecDepth 10000 in
theorem memo_visits_once_sums : ∃ d tokens s s', sums.lookup "start" = some d ∧
    sums.scanner.scan (.literal "1 + 2 + 3") = .ok tokens ∧
    sums.Ends { memoize := false } "start" (.literal "1 + 2 + 3") [] ∧
    (sums.runEntry false d tokens).state? = some s ∧ (sums.runEntry true d tokens).state? = some s' ∧
    (∀ x : Visit, (sums.visits true d tokens).count x = if x ∈ sums.visits false d tokens then 1 else 0) ∧
    s'.stats.ruleCalls = (sums.visits false d tokens).toFinset.card + s'.stats.memoHits ∧
    s'.stats.ruleCalls ≤ s.stats.ruleCalls := by
  obtain ⟨d, hd⟩ := Option.isSome_iff_exists.1 (by decide : (sums.lookup "start").isSome = true)
  have hok : (sums.scanner.scan (.literal "1 + 2 + 3")).isOk = true := by decide +kernel
  have hends : sums.Ends { memoize := false } "start" (.literal "1 + 2 + 3") [] := ends_of_ended 8 (by decide +kernel)
  cases hs : sums.scanner.scan (.literal "1 + 2 + 3") with
  | error e => rw [hs] at hok; cases hok
  | ok tokens =>
    obtain ⟨s, s', hr, hr', -, -, hcount, -, hcalls, -, hle⟩ :=
      memo_visits_once sums "start" (.literal "1 + 2 + 3") [] d tokens hd rfl hs hends
    exact ⟨d, tokens, s, s', hd, rfl, hends, hr, hr', hcount, hcalls, hle⟩

end Packrat.Grammar
