import Packrat.Proofs.NotationWriter
import Packrat.Proofs.SeenEntries
import Packrat.Proofs.Seams
/-!
# FirstWrongEntry — a complaint names the first entry that is wrong

Whatever reading has taken before it complains can be completed: at each place where it asks for something, a few marks
close what is open there (`Opens`, by the nonterminal that is being read).  And the entry that it complains of cannot be
right: on every list with the same words up to that entry it complains there in the same way
(`rulesOf_error_of_words`).  Main statement: `parseRules_viablePrefix`.
-/
namespace Packrat

theorem Except.bind_eq_error {ε α β : Type} {x : Except ε α} {f : α → Except ε β} {e : ε} :
    x >>= f = .error e ↔ x = .error e ∨ ∃ a, x = .ok a ∧ f a = .error e := by
  cases x with
  | error e' =>
    constructor
    · intro h
      cases h
      exact Or.inl rfl
    · rintro (h | ⟨a, h, -⟩)
      · cases h
        rfl
      · cases h
  | ok a =>
    constructor
    · exact fun h => Or.inr ⟨a, rfl, h⟩
    · rintro (h | ⟨a', h, hf⟩)
      · cases h
      · cases h
        exact hf

namespace Grammar

variable {reads : String → String → Prop} {l : Lexicon} {n : Nat} {expected expected' : Expected}
  {es p p' p₀ mid rest u : List Entry} {k : Kind} {t d : Token} {name w : String}

/-! ## Sentences -/

/-- **The entries are a sentence** of the tree, whatever stands behind them. -/
def Yields (reads : String → String → Prop) (k : Kind) (x : k.Tree) (p : List Entry) : Prop :=
  ∀ rest, Derives reads k x (p ++ rest) rest

namespace Yields

variable {q : Sequence} {c : Choice} {f : Factor} {a b : Atom} {e : Token}

theorem last (hq : Yields reads .sequence q p) : Yields reads .choice (.last q) p := fun rest => .last (hq rest)

theorem orElse (hq : Yields reads .sequence q p) (ht : t.text = "/") (hc : Yields reads .choice c p') :
    Yields reads .choice (.orElse q c) (p ++ .token t :: p') := fun rest => by
  rw [List.append_assoc]
  exact .orElse (hq _) ht (hc rest)

theorem stop : Yields reads .sequence (.stop none) [] := fun _ => .stop

theorem andThen (hf : Yields reads .factor f p) (hq : Yields reads .sequence q p') :
    Yields reads .sequence (.andThen f q) (p ++ p') := fun rest => by
  rw [List.append_assoc]
  exact .andThen (hf _) (hq rest)

theorem once (ha : Yields reads .atom a p) : Yields reads .factor (.once a) p := fun rest => .once (ha rest)

theorem sepBy (ha : Yields reads .atom a p) (ht : t.text = "**") (hb : Yields reads .atom b p') :
    Yields reads .factor (.sepBy a b) (p ++ .token t :: p') := fun rest => by
  rw [List.append_assoc]
  exact .sepBy (ha _) ht (hb rest)

theorem sepBy1 (ha : Yields reads .atom a p) (ht : t.text = "++") (hb : Yields reads .atom b p') :
    Yields reads .factor (.sepBy1 a b) (p ++ .token t :: p') := fun rest => by
  rw [List.append_assoc]
  exact .sepBy1 (ha _) ht (hb rest)

theorem group (ht : t.text = "(") (hc : Yields reads .choice c p) (he : e.text = ")") :
    Yields reads .atom (.group c) (.token t :: (p ++ [.token e])) := fun rest => by
  rw [List.cons_append, List.append_assoc]
  exact .group ht (hc _) he

theorem marked {f : Atom → Factor} (ha : Yields reads .atom a p)
    (h : ∀ {es rest}, Derives reads .atom a es (.token t :: rest) → Derives reads .factor (f a) es rest) :
    Yields reads .factor (f a) (p ++ [.token t]) := fun rest => by
  rw [List.append_assoc]
  exact h (ha _)

end Yields

/-- **What a derivation has taken is a sentence**: nothing in it depends on what is left. -/
theorem Derives.yields {x : k.Tree} (h : Derives reads k x es rest) : ∃ p, es = p ++ rest ∧ Yields reads k x p := by
  induction h with
  | last _ ih =>
    obtain ⟨p, rfl, hp⟩ := ih
    exact ⟨p, rfl, hp.last⟩
  | orElse _ ht _ ih ih' =>
    obtain ⟨p', rfl, hp'⟩ := ih'
    obtain ⟨p, rfl, hp⟩ := ih
    exact ⟨_, (List.append_assoc p (_ :: p') _).symm, hp.orElse ht hp'⟩
  | stop => exact ⟨[], rfl, .stop⟩
  | action => exact ⟨[_], rfl, fun _ => .action⟩
  | andThen _ _ ih ih' =>
    obtain ⟨p', rfl, hp'⟩ := ih'
    obtain ⟨p, rfl, hp⟩ := ih
    exact ⟨_, (List.append_assoc p p' _).symm, hp.andThen hp'⟩
  | once _ ih =>
    obtain ⟨p, rfl, hp⟩ := ih
    exact ⟨p, rfl, hp.once⟩
  | optional _ ht ih =>
    obtain ⟨p, rfl, hp⟩ := ih
    exact ⟨_, (List.append_assoc p [_] _).symm, hp.marked fun h => .optional h ht⟩
  | many _ ht ih =>
    obtain ⟨p, rfl, hp⟩ := ih
    exact ⟨_, (List.append_assoc p [_] _).symm, hp.marked fun h => .many h ht⟩
  | many1 _ ht ih =>
    obtain ⟨p, rfl, hp⟩ := ih
    exact ⟨_, (List.append_assoc p [_] _).symm, hp.marked fun h => .many1 h ht⟩
  | sepBy _ ht _ ih ih' =>
    obtain ⟨p', rfl, hp'⟩ := ih'
    obtain ⟨p, rfl, hp⟩ := ih
    exact ⟨_, (List.append_assoc p (_ :: p') _).symm, hp.sepBy ht hp'⟩
  | sepBy1 _ ht _ ih ih' =>
    obtain ⟨p', rfl, hp'⟩ := ih'
    obtain ⟨p, rfl, hp⟩ := ih
    exact ⟨_, (List.append_assoc p (_ :: p') _).symm, hp.sepBy1 ht hp'⟩
  | literal ht hr => exact ⟨[_], rfl, fun _ => .literal ht hr⟩
  | super ht hd hn => exact ⟨[_, _, _], rfl, fun _ => .super ht hd hn⟩
  | terminal ht hof => exact ⟨[_], rfl, fun _ => .terminal ht hof⟩
  | rule ht hof => exact ⟨[_], rfl, fun _ => .rule ht hof⟩
  | group ht _ he ih =>
    obtain ⟨p, rfl, hp⟩ := ih
    exact ⟨_, congrArg (_ :: ·) (List.append_assoc p [_] _).symm, hp.group ht he⟩

/-! ## Completions -/

def closers : List String := ["x", "::=", ".", ")", ";"]

def closer (w : String) : Entry := .token ⟨w, default⟩

/-- **The entries open a sentence**, which closers complete. -/
def Opens (k : Kind) (p : List Entry) : Prop :=
  ∃ (ws : List String) (x : k.Tree), (∀ w ∈ ws, w ∈ closers) ∧ Yields Decodes k x (p ++ ws.map closer)

theorem Yields.opens {x : k.Tree} (h : Yields Decodes k x p) : Opens k p :=
  ⟨[], x, by simp, by rwa [List.map_nil, List.append_nil]⟩

namespace Opens

theorem last (h : Opens .sequence p) : Opens .choice p := by
  obtain ⟨ws, q, hws, hq⟩ := h
  exact ⟨ws, .last q, hws, hq.last⟩

theorem orElse {q : Sequence} (hq : Yields Decodes .sequence q p) (ht : t.text = "/") (h : Opens .choice p') :
    Opens .choice (p ++ .token t :: p') := by
  obtain ⟨ws, c, hws, hc⟩ := h
  refine ⟨ws, .orElse q c, hws, ?_⟩
  rw [List.append_assoc]
  exact hq.orElse ht hc

theorem andThen {f : Factor} (hf : Yields Decodes .factor f p) (h : Opens .sequence p') :
    Opens .sequence (p ++ p') := by
  obtain ⟨ws, q, hws, hq⟩ := h
  refine ⟨ws, .andThen f q, hws, ?_⟩
  rw [List.append_assoc]
  exact hf.andThen hq

theorem single (h : Opens .factor p) : Opens .sequence p := by
  obtain ⟨ws, f, hws, hf⟩ := h
  refine ⟨ws, .andThen f (.stop none), hws, ?_⟩
  rw [← List.append_nil (p ++ _)]
  exact hf.andThen .stop

theorem once (h : Opens .atom p) : Opens .factor p := by
  obtain ⟨ws, a, hws, ha⟩ := h
  exact ⟨ws, .once a, hws, ha.once⟩

theorem sepBy {a : Atom} (ha : Yields Decodes .atom a p) (ht : t.text = "**") (h : Opens .atom p') :
    Opens .factor (p ++ .token t :: p') := by
  obtain ⟨ws, b, hws, hb⟩ := h
  refine ⟨ws, .sepBy a b, hws, ?_⟩
  rw [List.append_assoc]
  exact ha.sepBy ht hb

theorem sepBy1 {a : Atom} (ha : Yields Decodes .atom a p) (ht : t.text = "++") (h : Opens .atom p') :
    Opens .factor (p ++ .token t :: p') := by
  obtain ⟨ws, b, hws, hb⟩ := h
  refine ⟨ws, .sepBy1 a b, hws, ?_⟩
  rw [List.append_assoc]
  exact ha.sepBy1 ht hb

theorem atom : Opens .atom [] :=
  ⟨["x"], .rule "x", by decide, fun _ => .rule (t := ⟨"x", default⟩) (by decide) (by decide)⟩

theorem super (ht : t.text = "super") : Opens .atom [.token t] :=
  ⟨[".", "x"], .super "x", by decide, fun _ =>
    .super (d := ⟨".", default⟩) (n := ⟨"x", default⟩) ht rfl (by decide)⟩

theorem superName (ht : t.text = "super") (hd : d.text = ".") : Opens .atom [.token t, .token d] :=
  ⟨["x"], .super "x", by decide, fun _ => .super (n := ⟨"x", default⟩) ht hd (by decide)⟩

theorem group (ht : t.text = "(") (h : Opens .choice p) : Opens .atom (.token t :: p) := by
  obtain ⟨ws, c, hws, hc⟩ := h
  refine ⟨ws ++ [")"], .group c, ?_, ?_⟩
  · intro w hw
    rcases List.mem_append.1 hw with hw | hw
    · exact hws w hw
    · rw [List.mem_singleton.1 hw]
      decide
  · rw [List.map_append, List.cons_append, ← List.append_assoc]
    exact hc.group (e := ⟨")", default⟩) ht rfl

end Opens

/-! ## What has been read before a complaint -/

theorem eq_of_expect_error (h : expect w expected es = .error (.unexpected expected' u)) : u = es := by
  unfold expect at h
  split at h
  · cases h
  · cases h
    rfl

theorem eq_of_expectIdent_error (h : expectIdent l expected es = .error (.unexpected expected' u)) : u = es := by
  unfold expectIdent at h
  split at h
  · split at h
    · cases h
    · cases h
      rfl
  · cases h
    rfl

/-- **What reading with some fuel has taken before it complains** opens a sentence. -/
structure OpensAll (l : Lexicon) (n : Nat) : Prop where
  choice : ∀ {es expected p u}, readChoice l n es = .error (.unexpected expected u) → es = p ++ u → Opens .choice p
  sequence : ∀ {es expected p u}, readSequence l n es = .error (.unexpected expected u) → es = p ++ u →
    Opens .sequence p
  factor : ∀ {a es expected p₀ p u}, Yields Decodes .atom a p₀ →
    readRepeat l n a es = .error (.unexpected expected u) → es = p ++ u → Opens .factor (p₀ ++ p)
  atom : ∀ {es expected p u}, readAtom l n es = .error (.unexpected expected u) → es = p ++ u → Opens .atom p

section Step

variable (hl : l.OfNotation) (ih : OpensAll l n)

include hl ih

theorem opens_readChoice (h : readChoice l (n + 1) es = .error (.unexpected expected u)) (hes : es = p ++ u) :
    Opens .choice p := by
  rw [readChoice, Except.bind_eq_error] at h
  rcases h with h | ⟨⟨q, mid⟩, hq, h⟩
  · exact (ih.sequence h hes).last
  -- the alternative before is a sentence, and what has been read behind its bar opens one
  obtain ⟨p₁, rfl, hp₁⟩ := ((sound hl n).sequence hq).yields
  dsimp only at h
  split at h
  · cases h
  rename_i mid₁ ha
  rcases Except.bind_eq_error.1 h with h | ⟨_, _, h⟩
  · obtain ⟨t, rfl, ht⟩ := accept?_eq_some_iff.1 ha
    obtain ⟨p₂, rfl⟩ := (remainders l n).choice.error h
    obtain rfl : p₁ ++ .token t :: p₂ = p := List.append_cancel_right (by simpa using hes)
    exact .orElse hp₁ ht (ih.choice h rfl)
  · cases h

theorem opens_readSequence (h : readSequence l (n + 1) es = .error (.unexpected expected u)) (hes : es = p ++ u) :
    Opens .sequence p := by
  rw [readSequence, Except.bind_eq_error] at h
  rcases h with h | ⟨⟨a, mid⟩, ha, h⟩
  · exact (ih.atom h hes).once.single
  cases a with
  | none => cases h
  | some a =>
    have ha := (sound hl n).atom ha
    rcases Except.bind_eq_error.1 h with h | ⟨⟨f, mid₁⟩, hf, h⟩
    · obtain ⟨p₁, rfl, hp₁⟩ := ha.yields
      obtain ⟨p₂, rfl⟩ := (remainders l n).factor.error h
      obtain rfl : p₁ ++ p₂ = p := List.append_cancel_right (by simpa using hes)
      exact (ih.factor hp₁ h rfl).single
    obtain ⟨p₁, rfl, hp₁⟩ := ((sound hl n).factor ha hf).yields
    rcases Except.bind_eq_error.1 h with h | ⟨_, _, h⟩
    · obtain ⟨p₂, rfl⟩ := (remainders l n).sequence.error h
      obtain rfl : p₁ ++ p₂ = p := List.append_cancel_right (by simpa using hes)
      exact .andThen hp₁ (ih.sequence h rfl)
    · cases h

/-- A separator that cannot be read opens an atom, if only one that is still to come. -/
theorem opens_readSeparator {f : Atom → Factor} (h : readSeparator l n f es = .error (.unexpected expected u))
    (hes : es = p ++ u) : Opens .atom p := by
  rcases Except.bind_eq_error.1 h with h | ⟨⟨b, rest⟩, hb, h⟩
  · exact ih.atom h hes
  cases b with
  | none =>
    cases h
    rw [(sound hl n).noAtom hb] at hes
    rw [List.self_eq_append_left.1 hes]
    exact .atom
  | some b => cases h

theorem opens_readRepeat {a : Atom} (ha : Yields Decodes .atom a p₀)
    (h : readRepeat l (n + 1) a es = .error (.unexpected expected u)) (hes : es = p ++ u) :
    Opens .factor (p₀ ++ p) := by
  match es, hes with
  | [], _ | .hole _ :: _, _ => cases h
  | .token t :: es, hes =>
    rw [readRepeat_token] at h
    split at h
    · cases h
    · cases h
    · -- only a separator is asked for
      rename_i f hmark
      obtain ⟨p', rfl⟩ := (leaves_readSeparator (remainders l n)).error h
      obtain rfl : .token t :: p' = p := List.append_cancel_right hes
      have hp' := opens_readSeparator hl ih h rfl
      rcases Repetition.of_separated hmark with ht | ht
      · exact .sepBy ha ht hp'
      · exact .sepBy1 ha ht hp'

theorem opens_readAtom (h : readAtom l (n + 1) es = .error (.unexpected expected u)) (hes : es = p ++ u) :
    Opens .atom p := by
  match es, hes with
  | [], _ | .hole _ :: _, _ => cases h
  | .token t :: es, hes =>
    rw [readAtom] at h
    by_cases hstring : l.isString t = true
    · rw [if_pos hstring, decodeLiteral] at h
      split at h <;> cases h
    rw [if_neg hstring] at h
    by_cases hsuper : (t.text == "super") = true
    · rw [if_pos hsuper] at h
      rcases Except.bind_eq_error.1 h with h | ⟨mid, hdot, h⟩
      · obtain rfl := eq_of_expect_error h
        obtain rfl : [.token t] = p := List.append_cancel_right hes
        exact .super (eq_of_beq hsuper)
      rcases Except.bind_eq_error.1 h with h | ⟨_, _, h⟩
      · obtain rfl := eq_of_expectIdent_error h
        obtain ⟨d, rfl, hd⟩ := expect_eq_ok_iff.1 hdot
        obtain rfl : [.token t, .token d] = p := List.append_cancel_right hes
        exact .superName (eq_of_beq hsuper) hd
      · cases h
    rw [if_neg hsuper] at h
    by_cases hident : l.isIdent t = true
    · rw [if_pos hident] at h
      cases h
    rw [if_neg hident] at h
    by_cases hopen : (t.text == "(") = true
    · rw [if_pos hopen] at h
      rcases Except.bind_eq_error.1 h with h | ⟨⟨c, mid⟩, hc, h⟩
      · obtain ⟨p', rfl⟩ := (remainders l n).choice.error h
        obtain rfl : .token t :: p' = p := List.append_cancel_right hes
        exact .group (eq_of_beq hopen) (ih.choice h rfl)
      rcases Except.bind_eq_error.1 h with h | ⟨_, _, h⟩
      · obtain rfl := eq_of_expect_error h
        obtain ⟨p', rfl, hp'⟩ := ((sound hl n).choice hc).yields
        obtain rfl : .token t :: p' = p := List.append_cancel_right hes
        exact .group (eq_of_beq hopen) hp'.opens
      · cases h
    rw [if_neg hopen] at h
    cases h

end Step

/-- **Whatever has been read before a complaint opens a sentence**, by induction on the fuel. -/
theorem opensAll (hl : l.OfNotation) : ∀ n : Nat, OpensAll l n
  | 0 => by
    have hnil : ∀ {p es u : List Entry} {expected},
        DefinitionError.unexpected .groupEnd es = .unexpected expected u → es = p ++ u → p = [] := by
      intro p es u expected he hes
      cases he
      exact List.self_eq_append_left.1 hes
    refine ⟨fun h hes => ?_, fun h hes => ?_, fun ha h hes => ?_, fun h hes => ?_⟩
    all_goals obtain rfl := hnil (Except.error.inj h) hes
    · exact Yields.stop.last.opens
    · exact Yields.stop.opens
    · rw [List.append_nil]
      exact ha.once.opens
    · exact .atom
  | n + 1 =>
    have ih := opensAll hl n
    ⟨opens_readChoice hl ih, opens_readSequence hl ih, opens_readRepeat hl ih, opens_readAtom hl ih⟩

/-! ## Rules -/

def OpensRules (p : List Entry) : Prop :=
  ∃ (ws : List String) (rules : List Rule), (∀ w ∈ ws, w ∈ closers) ∧ DerivesRules Decodes (p ++ ws.map closer) rules

theorem OpensRules.nil : OpensRules [] := ⟨[], [], by simp, .nil⟩

theorem OpensRules.body {m d : Token} (hm : IsName m.text) (hd : d.text = "::=") (h : Opens .choice p) :
    OpensRules (.token m :: .token d :: p) := by
  obtain ⟨ws, c, hws, hc⟩ := h
  refine ⟨ws ++ [";"], [⟨m.text, c⟩], ?_, ?_⟩
  · intro w hw
    rcases List.mem_append.1 hw with hw | hw
    · exact hws w hw
    · rw [List.mem_singleton.1 hw]
      decide
  · rw [List.map_append, List.cons_append, List.cons_append, ← List.append_assoc]
    exact .cons hm hd (hc _) (e := ⟨";", default⟩) rfl .nil

theorem OpensRules.definition {m : Token} (hm : IsName m.text) : OpensRules [.token m] :=
  ⟨["::=", ";"], [⟨m.text, .last (.stop none)⟩], by decide,
    .cons hm (d := ⟨"::=", default⟩) rfl (.last .stop) (e := ⟨";", default⟩) rfl .nil⟩

theorem opens_readRule (hl : l.OfNotation) (h : readRule l es = .error (.unexpected expected u)) (hes : es = p ++ u) :
    OpensRules p := by
  rw [readRule, Except.bind_eq_error] at h
  rcases h with h | ⟨⟨name, mid⟩, hname, h⟩
  · obtain rfl := eq_of_expectIdent_error h
    rw [List.self_eq_append_left.1 hes]
    exact .nil
  obtain ⟨m, rfl, -, hm⟩ := (expectIdent_eq_ok_iff hl).1 hname
  rcases Except.bind_eq_error.1 h with herr | ⟨mid, hdef, herr⟩
  · obtain rfl := eq_of_expect_error herr
    obtain rfl : [.token m] = p := List.append_cancel_right hes
    exact .definition hm
  obtain ⟨d, rfl, hd⟩ := expect_eq_ok_iff.1 hdef
  rcases Except.bind_eq_error.1 herr with hbody | ⟨⟨c, mid₁⟩, hc, hend⟩
  · obtain ⟨p', rfl⟩ := (remainders l _).choice.error hbody
    obtain rfl : .token m :: .token d :: p' = p := List.append_cancel_right hes
    exact .body hm hd ((opensAll hl _).choice hbody rfl)
  rcases Except.bind_eq_error.1 hend with hend | ⟨_, _, hend⟩
  · obtain rfl := eq_of_expect_error hend
    obtain ⟨p', rfl, hp'⟩ := ((sound hl _).choice hc).yields
    obtain rfl : .token m :: .token d :: p' = p := List.append_cancel_right hes
    exact .body hm hd hp'.opens
  · cases hend

theorem opens_readRules (hl : l.OfNotation) : ∀ {n : Nat} {es p : List Entry},
    readRules l n es = .error (.unexpected expected u) → es = p ++ u → OpensRules p
  | _, [], p, h, _ => by
    rw [readRules] at h
    cases h
  | 0, e :: es, p, h, hes => by
    cases h
    rw [List.self_eq_append_left.1 hes]
    exact .nil
  | n + 1, e :: es, p, h, hes => by
    rw [readRules.eq_3 _ _ _ (List.cons_ne_nil _ _), Except.bind_eq_error] at h
    rcases h with h | ⟨⟨r, mid⟩, hr, h⟩
    · exact opens_readRule hl h hes
    rcases Except.bind_eq_error.1 h with h | ⟨_, _, h⟩
    · have herr : readAll l n mid = .error (.unexpected expected u) := by
        rw [readAll, h]
        rfl
      obtain ⟨p₂, rfl⟩ := (leaves_readAll l).error herr
      obtain ⟨m, d, e', c, es₁, he, hm, hd, hc, he', -⟩ := (readRule_eq_ok_iff hl).1 hr
      obtain ⟨p₁, rfl, hp₁⟩ := hc.yields
      obtain ⟨ws, rules, hws, hrules⟩ := opens_readRules hl h rfl
      rw [he] at hes
      obtain rfl : .token m :: .token d :: (p₁ ++ .token e' :: p₂) = p := List.append_cancel_right (by simpa using hes)
      refine ⟨ws, ⟨m.text, c⟩ :: rules, hws, ?_⟩
      rw [List.cons_append, List.cons_append, List.append_assoc]
      exact .cons hm hd (hp₁ _) he' hrules
    · cases h

/-! ## Texts -/

theorem lexes_of_mem_closers (h : w ∈ closers) : Lexer.Lexes notationTokens w := by
  have hall : ∀ w ∈ closers, w ∈ marks ∨ Lexer.isIdentifier w = true := by decide
  exact (hall w h).elim lexes_mark Lexer.lexes_of_isIdentifier

theorem exists_range_of_prefix {is : List Nat} (h : is <+: List.range n) : is = List.range is.length := by
  have htake := List.prefix_iff_eq_take.1 h
  rw [List.take_range] at htake
  have hlen := h.length_le
  rw [List.length_range] at hlen
  rw [htake, List.length_range]

variable {s : Scanner} {text : Template} {tokens : TokenList}

/-- **What a text begins with and closers make a text**, each word of it apart. -/
theorem exists_scan_completed (hs : notationScanner = .ok s) (h : s.scan text = .ok tokens)
    (hp : p <+: tokens.entries) {ws : List String} (hws : ∀ w ∈ ws, w ∈ closers) :
    ∃ text' tokens', s.scan text' = .ok tokens' ∧
      tokens'.entries.map Entry.word = (p ++ ws.map closer).map Entry.word := by
  have htight : Lexer.Tight notationTokens := by decide
  have hlexical : ∀ w, .text w ∈ (p ++ ws.map closer).map Entry.word → Lexer.Lexes notationTokens w := by
    intro w hw
    obtain ⟨e, he, hew⟩ := List.mem_map.1 hw
    rcases List.mem_append.1 he with he | he
    · cases e with
      | token t =>
        cases hew
        exact Lexer.lexes_of_lexSegments htight ((Scanner.scan_eq_ok_iff hs).1 h).1 (hp.subset he)
      | hole i => cases hew
    · obtain ⟨v, hv, rfl⟩ := List.mem_map.1 he
      cases hew
      exact lexes_of_mem_closers (hws _ hv)
  have hclosers : ∀ ws : List String, holesOf (ws.map closer) = [] := fun ws => by
    induction ws with
    | nil => rfl
    | cons w ws ih => exact ih
  have hholes : Word.holes ((p ++ ws.map closer).map Entry.word) = List.range (holesOf p).length := by
    rw [holes_word, holesOf_append, hclosers, List.append_nil]
    apply exists_range_of_prefix (n := text.holeCount)
    rw [← Scanner.holes_of_scan h]
    obtain ⟨more, hmore⟩ := hp
    exact ⟨holesOf more, by rw [← hmore, holesOf_append]⟩
  obtain ⟨tokens', hscan, hwords⟩ := Scanner.exists_scan_spaced hs hlexical hholes
  exact ⟨_, tokens', hscan, hwords⟩

theorem message_eq_end_iff : (DefinitionError.unexpected expected u).message =
    "expected " ++ expected.text ++ ", found " ++ "end of grammar" ↔ u = [] := by
  have hmessage : (DefinitionError.unexpected expected u).message =
      "expected " ++ expected.text ++ ", found " ++ (u.head?.map Entry.render).getD "end of grammar" := by
    unfold DefinitionError.message
    with_reducible rfl
  rw [hmessage]
  rw [String.append_right_inj, Entry.getD_render_eq_iff rfl, List.head?_eq_none_iff]

/-- **A complaint names the first entry that is wrong.**  The entries before it begin a text that is read, and if it
names the end of the grammar, a longer one; and those entries with the one it names begin nothing that is read: on
every list of entries that begins with their words reading makes the same complaint at the same place. -/
theorem parseRules_viablePrefix (h : parseRules text = .error (.unexpected expected u)) :
    ∃ s tokens before, notationScanner = .ok s ∧ s.scan text = .ok tokens ∧ tokens.entries = before ++ u ∧
      (∃ text' tokens' rules, s.scan text' = .ok tokens' ∧ parseRules text' = .ok rules ∧
        before.map Entry.word <+: tokens'.entries.map Entry.word ∧
        (u = [] → before.length < tokens'.entries.length)) ∧
      (∀ e more, u = e :: more → ∀ es, (before ++ [e]).map Entry.word <+: es.map Entry.word →
        rulesOf ⟨es, s.lexicon⟩ = .error (.unexpected expected (es.drop before.length))) ∧
      ((DefinitionError.unexpected expected u).message =
        "expected " ++ expected.text ++ ", found " ++ "end of grammar" ↔ u = []) := by
  obtain ⟨s, hs, -⟩ := Scanner.ofTokens_eq notationTokens
  cases hscan : s.scan text with
  | error e =>
    rw [parseRules_of_scan_error hs hscan] at h
    cases h
  | ok tokens =>
    have hlexicon := Scanner.lexicon_of_scan hscan
    have hl : s.lexicon.OfNotation := Scanner.lexicon_ofNotation hs
    have herr : readRules s.lexicon tokens.entries.length tokens.entries = .error (.unexpected expected u) := by
      rw [← hlexicon, ← h, parseRules_of_scan hs hscan, rulesOf]
    have hall : readAll s.lexicon tokens.entries.length tokens.entries = .error (.unexpected expected u) := by
      rw [readAll, herr]
      rfl
    obtain ⟨before, hbefore⟩ := (leaves_readAll s.lexicon).error hall
    refine ⟨s, tokens, before, hs, hscan, hbefore.symm, ?_, ?_, message_eq_end_iff⟩
    · obtain ⟨ws, rules, hws, hrules⟩ := opens_readRules hl herr hbefore.symm
      obtain ⟨text', tokens', hscan', hwords⟩ := exists_scan_completed hs hscan ⟨u, hbefore⟩ hws
      have hok : rulesOf ⟨before ++ ws.map closer, s.lexicon⟩ = .ok rules := (rulesOf_eq_ok_iff hl).2 hrules
      have hok' : rulesOf ⟨tokens'.entries, s.lexicon⟩ = .ok rules := rulesOf_of_words hl hwords.symm hok
      have hparse : parseRules text' = .ok rules := by
        rw [parseRules_of_scan hs hscan', ← hok', ← Scanner.lexicon_of_scan hscan']
      refine ⟨text', tokens', rules, hscan', hparse, ?_, ?_⟩
      · rw [hwords, List.map_append]
        exact List.prefix_append _ _
      · rintro rfl
        have hlen := congrArg List.length hwords
        rw [List.length_map, List.length_map, List.length_append, List.length_map] at hlen
        cases ws with
        | nil =>
          -- without closers the entries themselves would be rules
          rw [List.map_nil, hbefore, rulesOf, herr] at hok
          cases hok
        | cons w ws =>
          rw [hlen]
          exact Nat.lt_add_of_pos_right (Nat.succ_pos _)
    · rintro e more rfl es ⟨more', hes⟩
      rw [List.map_append, List.append_assoc] at hes
      have hlen : (before.map Entry.word).length = before.length := List.length_map _
      have htake : before.map Entry.word = (es.take before.length).map Entry.word := by
        rw [List.map_take, ← hes, ← hlen, List.take_left]
      have hhead : SameHead (e :: more) (es.drop before.length) := by
        rw [SameHead, ← List.head?_map, ← List.head?_map, List.map_drop, ← hes, ← hlen, List.drop_left]
        rfl
      have herr' : rulesOf ⟨before ++ e :: more, s.lexicon⟩ = .error (.unexpected expected (e :: more)) := by
        rw [hbefore, rulesOf, herr]
      have hother := rulesOf_error_of_words hl htake hhead herr'
      rw [List.take_append_drop] at hother
      exact hother

set_option maxRecDepth 10000 in
/-- A separator is missing: what stands before the semicolon begins a rule. -/
theorem parseRules_viablePrefix_separator :
    parseRules (.literal "a ::= b ** ;") = .error (.unexpected .separator [.token ⟨";", 0, 11, 12⟩]) ∧
    ∃ s text tokens rules, notationScanner = .ok s ∧ s.scan text = .ok tokens ∧ parseRules text = .ok rules ∧
      [.text "a", .text "::=", .text "b", .text "**"] <+: tokens.entries.map Entry.word := by
  have herr : parseRules (.literal "a ::= b ** ;") = .error (.unexpected .separator [.token ⟨";", 0, 11, 12⟩]) := by
    decide +kernel
  have hok : (do
      let s ← notationScanner
      let l ← s.scan (.literal "a ::= b ** ;")
      return decide (l.entries.map Entry.word = [.text "a", .text "::=", .text "b", .text "**"] ++ [.text ";"])) =
      (.ok true : Except LexError Bool) := by decide +kernel
  obtain ⟨s, hs, hok⟩ := Except.bind_eq_ok.1 hok
  obtain ⟨l, hl, hok⟩ := Except.bind_eq_ok.1 hok
  have hwords := of_decide_eq_true (Except.ok.inj hok)
  obtain ⟨s', l', before, hs', hl', happ, ⟨text, tokens, rules, hscan, hrules, hbefore, -⟩, -⟩ :=
    parseRules_viablePrefix herr
  cases hs.symm.trans hs'
  cases hl.symm.trans hl'
  rw [happ, List.map_append] at hwords
  have hprefix : before.map Entry.word = [.text "a", .text "::=", .text "b", .text "**"] :=
    List.append_cancel_right hwords
  exact ⟨herr, s, text, tokens, rules, hs, hscan, hrules, hprefix ▸ hbefore⟩

end Grammar

end Packrat
