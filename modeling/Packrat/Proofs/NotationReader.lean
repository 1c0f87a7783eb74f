import Packrat.Proofs.Notation
import Packrat.Proofs.ScannerLexer
/-!
# NotationReader — reading is the notation

Reading goes down the productions of the notation, and its answer is the tree of a derivation (`sound`).  Conversely the
next entry says which production a derivation takes, so reading finds every derivation that what follows could not carry
on (`Derives.complete`).  The fuel only bounds the calls: from the given amount on, more of it changes nothing
(`enough`).  Main statement: on a text that is scanned, `parseRules` gives exactly the rules that all the entries
derive, and it gives some if the entries are well formed and their strings decode (`parseRules_exact`).
-/
namespace Packrat

/-! ## The lexicon -/

structure Lexicon.OfNotation (l : Lexicon) : Prop where
  isString : ∀ t : Token, l.isString t = Lexer.isString t.text
  isIdent : ∀ t : Token, l.isIdent t = true ↔ Grammar.IsName t.text

theorem Scanner.lexicon_ofNotation {s : Scanner} (h : Grammar.notationScanner = .ok s) : s.lexicon.OfNotation := by
  obtain ⟨-, hstring, hident, hkeywords⟩ := lexicon_of_ofTokens h
  obtain ⟨string, hstring', hstringExpr⟩ := Pattern.ofSource_class .string
  obtain ⟨ident, hident', hidentExpr⟩ := Pattern.ofSource_class .ident
  cases hstring'.symm.trans hstring
  cases hident'.symm.trans hident
  refine ⟨fun t => accepts_string hstringExpr t.text, fun t => ?_⟩
  -- the only reserved identifier is `super`
  have hreserved : Lexer.isIdentifier t.text = true → (t.text ∈ s.lexicon.keywords ↔ t.text = "super") := fun hid => by
    rw [hkeywords, accepts_ident hidentExpr]
    refine ⟨fun h => ?_, fun h => by rw [h]; decide⟩
    have hall : ∀ w ∈ Grammar.notationTokens, Lexer.isIdentifier w = true → w = "super" := by decide
    exact hall _ h.1 hid
  rw [Lexicon.isIdent, accepts_ident hidentExpr, Grammar.IsName, Bool.and_eq_true, Bool.not_eq_true',
    List.contains_eq_mem, decide_eq_false_iff_not]
  exact and_congr_right fun hid => not_congr (hreserved hid)

namespace Grammar

variable {l : Lexicon} {fuel : Nat} {es mid rest : List Entry} {text : String} {expected : Expected}

/-! ## Tokens -/

theorem accept?_eq_some_iff : accept? text es = some rest ↔ ∃ t, es = .token t :: rest ∧ t.text = text := by
  unfold accept?
  split
  · rename_i t es
    split
    · rename_i ht
      constructor
      · rintro ⟨⟩
        exact ⟨t, rfl, eq_of_beq ht⟩
      · rintro ⟨t', h, -⟩
        cases h
        rfl
    · rename_i ht
      refine ⟨fun h => by (cases h), ?_⟩
      rintro ⟨t', h, ht'⟩
      cases h
      exact absurd (beq_iff_eq.2 ht') ht
  · rename_i hes
    refine ⟨fun h => by (cases h), ?_⟩
    rintro ⟨t, rfl, -⟩
    exact absurd rfl (hes t rest)

theorem accept?_of_ne {t : Token} (h : t.text ≠ text) : accept? text (.token t :: rest) = none :=
  if_neg (by simpa using h)

theorem expect_eq_ok_iff : expect text expected es = .ok rest ↔ ∃ t, es = .token t :: rest ∧ t.text = text := by
  rw [← accept?_eq_some_iff, expect]
  cases accept? text es with
  | none => exact ⟨fun h => by (cases h), fun h => by (cases h)⟩
  | some es => exact ⟨fun h => by cases h; rfl, fun h => by cases h; rfl⟩

theorem expectIdent_eq_ok_iff (hl : l.OfNotation) {name : String} : expectIdent l expected es = .ok (name, rest) ↔
    ∃ t, es = .token t :: rest ∧ t.text = name ∧ IsName t.text := by
  unfold expectIdent
  split
  · rename_i t es
    split
    · rename_i ht
      constructor
      · rintro ⟨⟩
        exact ⟨t, rfl, rfl, (hl.isIdent t).1 ht⟩
      · rintro ⟨t', h, rfl, -⟩
        cases h
        rfl
    · rename_i ht
      refine ⟨fun h => by (cases h), ?_⟩
      rintro ⟨t', h, -, hn⟩
      cases h
      exact absurd ((hl.isIdent t).2 hn) ht
  · rename_i hes
    refine ⟨fun h => by (cases h), ?_⟩
    rintro ⟨t, rfl, -⟩
    exact absurd rfl (hes t rest)

/-! ## Soundness -/

/-- **What reading with some fuel finds**: derivations from the entries read up to those left. -/
structure Sound (l : Lexicon) (fuel : Nat) : Prop where
  choice : ∀ {es c rest}, readChoice l fuel es = .ok (c, rest) → Derives Decodes .choice c es rest
  sequence : ∀ {es q rest}, readSequence l fuel es = .ok (q, rest) → Derives Decodes .sequence q es rest
  factor : ∀ {es a mid f rest}, Derives Decodes .atom a es mid → readRepeat l fuel a mid = .ok (f, rest) →
    Derives Decodes .factor f es rest
  atom : ∀ {es a rest}, readAtom l fuel es = .ok (some a, rest) → Derives Decodes .atom a es rest
  noAtom : ∀ {es rest}, readAtom l fuel es = .ok (none, rest) → rest = es

theorem sound_readChoice (ih : Sound l fuel) {c : Choice} (h : readChoice l (fuel + 1) es = .ok (c, rest)) :
    Derives Decodes .choice c es rest := by
  rw [readChoice, Except.bind_eq_ok] at h
  obtain ⟨⟨q, es₁⟩, hq, h⟩ := h
  have hq := ih.sequence hq
  dsimp only at h
  split at h
  · cases h
    exact .last hq
  · rename_i es₂ ha
    obtain ⟨⟨c', rest'⟩, hc, h⟩ := Except.bind_eq_ok.1 h
    cases h
    obtain ⟨t, rfl, ht⟩ := accept?_eq_some_iff.1 ha
    exact .orElse hq ht (ih.choice hc)

theorem sound_readSequence (ih : Sound l fuel) {q : Sequence} (h : readSequence l (fuel + 1) es = .ok (q, rest)) :
    Derives Decodes .sequence q es rest := by
  rw [readSequence, Except.bind_eq_ok] at h
  obtain ⟨⟨a, es₁⟩, ha, h⟩ := h
  cases a with
  | none =>
    cases ih.noAtom ha
    rcases es with _ | ⟨⟨t⟩ | ⟨i⟩, es⟩
    · cases h
      exact .stop
    · cases h
      exact .stop
    · cases h
      exact .action
  | some a =>
    obtain ⟨⟨f, es₂⟩, hf, h⟩ := Except.bind_eq_ok.1 h
    obtain ⟨⟨q', rest'⟩, hq, h⟩ := Except.bind_eq_ok.1 h
    cases h
    exact .andThen (ih.factor (ih.atom ha) hf) (ih.sequence hq)

theorem sound_readRepeat (ih : Sound l fuel) {a : Atom} {f : Factor} (ha : Derives Decodes .atom a es mid)
    (h : readRepeat l (fuel + 1) a mid = .ok (f, rest)) : Derives Decodes .factor f es rest := by
  cases repeats_of_readRepeat h with
  | once => exact .once ha
  | optional hw =>
    obtain ⟨t, rfl, ht⟩ := accept?_eq_some_iff.1 hw
    exact .optional ha ht
  | many hw =>
    obtain ⟨t, rfl, ht⟩ := accept?_eq_some_iff.1 hw
    exact .many ha ht
  | many1 hw =>
    obtain ⟨t, rfl, ht⟩ := accept?_eq_some_iff.1 hw
    exact .many1 ha ht
  | sepBy hw hb =>
    obtain ⟨t, rfl, ht⟩ := accept?_eq_some_iff.1 hw
    exact .sepBy ha ht (ih.atom hb)
  | sepBy1 hw hb =>
    obtain ⟨t, rfl, ht⟩ := accept?_eq_some_iff.1 hw
    exact .sepBy1 ha ht (ih.atom hb)

theorem sound_readAtom (hl : l.OfNotation) (ih : Sound l fuel) {a : Option Atom}
    (h : readAtom l (fuel + 1) es = .ok (a, rest)) :
    a.elim (rest = es) fun a => Derives Decodes .atom a es rest := by
  match es with
  | [] | .hole _ :: _ =>
    cases h
    rfl
  | .token t :: es =>
    rw [readAtom] at h
    split at h
    · rename_i hstring
      obtain ⟨text, htext, h⟩ := Except.bind_eq_ok.1 h
      cases h
      exact .literal ((hl.isString t).symm.trans hstring) htext
    · split at h
      · rename_i hsuper
        obtain ⟨es₁, hdot, h⟩ := Except.bind_eq_ok.1 h
        obtain ⟨⟨name, es₂⟩, hname, h⟩ := Except.bind_eq_ok.1 h
        cases h
        obtain ⟨d, rfl, hd⟩ := expect_eq_ok_iff.1 hdot
        obtain ⟨n, rfl, rfl, hn⟩ := (expectIdent_eq_ok_iff hl).1 hname
        exact .super (eq_of_beq hsuper) hd hn
      · split at h
        · rename_i hident
          cases h
          have hn := (hl.isIdent t).1 hident
          unfold Atom.ofIdent
          cases hof : Terminal.ofName? t.text with
          | none => exact .rule hn hof
          | some terminal => exact .terminal hn hof
        · split at h
          · rename_i hopen
            obtain ⟨⟨c, es₁⟩, hc, h⟩ := Except.bind_eq_ok.1 h
            obtain ⟨es₂, hend, h⟩ := Except.bind_eq_ok.1 h
            cases h
            obtain ⟨e, rfl, he⟩ := expect_eq_ok_iff.1 hend
            exact .group (eq_of_beq hopen) (ih.choice hc) he
          · cases h
            rfl

/-- **Reading finds derivations**, by induction on the fuel. -/
theorem sound (hl : l.OfNotation) : ∀ fuel : Nat, Sound l fuel
  | 0 => ⟨fun h => by (cases h), fun h => by (cases h), fun _ h => by (cases h), fun h => by (cases h),
      fun h => by (cases h)⟩
  | fuel + 1 =>
    have ih := sound hl fuel
    ⟨sound_readChoice ih, sound_readSequence ih, sound_readRepeat ih, sound_readAtom hl ih, sound_readAtom hl ih⟩

/-! ## Completeness -/

def repeatMarks : List String := ["?", "*", "+", "**", "++"]

def choiceEnds : List String := [")", ";"]

def sequenceEnds : List String := "/" :: choiceEnds

theorem not_startsAtom : ∀ w ∈ repeatMarks ++ sequenceEnds, ¬StartsAtom w := by decide

def Follows (texts : List String) (es : List Entry) : Prop := ∃ t more, es = .token t :: more ∧ t.text ∈ texts

def NoRepeat (es : List Entry) : Prop := ∀ w ∈ repeatMarks, accept? w es = none

theorem Follows.mono {texts texts' : List String} (h : Follows texts es) (hsub : ∀ w ∈ texts, w ∈ texts') :
    Follows texts' es := by
  obtain ⟨t, more, rfl, ht⟩ := h
  exact ⟨t, more, rfl, hsub _ ht⟩

theorem Follows.accept?_eq_none {texts : List String} (h : Follows texts es) {w : String} (hw : w ∉ texts) :
    accept? w es = none := by
  obtain ⟨t, more, rfl, ht⟩ := h
  exact accept?_of_ne fun he => hw (he ▸ ht)

theorem Derives.noRepeat {reads : String → String → Prop} {q : Sequence} (h : Derives reads .sequence q es rest)
    (hrest : Follows sequenceEnds rest) : NoRepeat es := by
  cases h with
  | stop => exact fun w hw => hrest.accept?_eq_none (by revert w; decide)
  | action => exact fun _ _ => rfl
  | andThen hf _ =>
    obtain ⟨a, mid, ha, -⟩ := hf.atom_of_factor
    obtain ⟨t, more, rfl, ht, -⟩ := ha.starts_of_atom
    exact fun w hw => accept?_of_ne fun he => not_startsAtom w (List.mem_append_left _ hw) (he ▸ ht)

section Step

variable {t : Token} {a b : Atom}

theorem readChoice_last {q : Sequence} (hq : readSequence l fuel es = .ok (q, rest)) (h : accept? "/" rest = none) :
    readChoice l (fuel + 1) es = .ok (.last q, rest) := by
  rw [readChoice, Except.bind_eq_ok]
  refine ⟨(q, rest), hq, ?_⟩
  dsimp only
  rw [h]
  rfl

theorem readChoice_orElse {q : Sequence} {c : Choice} (hq : readSequence l fuel es = .ok (q, .token t :: mid))
    (ht : t.text = "/") (hc : readChoice l fuel mid = .ok (c, rest)) :
    readChoice l (fuel + 1) es = .ok (.orElse q c, rest) := by
  rw [readChoice, Except.bind_eq_ok]
  refine ⟨(q, .token t :: mid), hq, ?_⟩
  dsimp only
  rw [accept?_eq_some_iff.2 ⟨t, rfl, ht⟩]
  exact Except.bind_eq_ok.2 ⟨(c, rest), hc, rfl⟩

theorem readSequence_stop (h : readAtom l fuel es = .ok (none, es)) :
    readSequence l (fuel + 1) es = .ok (.stop (readAction es).1, (readAction es).2) := by
  rw [readSequence, h]
  rfl

theorem readSequence_andThen {f : Factor} {q : Sequence} {es' : List Entry}
    (ha : readAtom l fuel es = .ok (some a, mid)) (hf : readRepeat l fuel a mid = .ok (f, es'))
    (hq : readSequence l fuel es' = .ok (q, rest)) : readSequence l (fuel + 1) es = .ok (.andThen f q, rest) := by
  rw [readSequence, Except.bind_eq_ok]
  refine ⟨(some a, mid), ha, Except.bind_eq_ok.2 ⟨(f, es'), hf, ?_⟩⟩
  exact Except.bind_eq_ok.2 ⟨(q, rest), hq, rfl⟩

theorem readRepeat_once (h : NoRepeat mid) : readRepeat l (fuel + 1) a mid = .ok (.once a, mid) := by
  rw [readRepeat, h "?" (by decide), h "*" (by decide), h "+" (by decide), h "**" (by decide), h "++" (by decide)]

theorem readRepeat_optional (ht : t.text = "?") :
    readRepeat l (fuel + 1) a (.token t :: rest) = .ok (.optional a, rest) := by
  simp [readRepeat, accept?, ht]

theorem readRepeat_many (ht : t.text = "*") : readRepeat l (fuel + 1) a (.token t :: rest) = .ok (.many a, rest) := by
  simp [readRepeat, accept?, ht]

theorem readRepeat_many1 (ht : t.text = "+") : readRepeat l (fuel + 1) a (.token t :: rest) = .ok (.many1 a, rest) := by
  simp [readRepeat, accept?, ht]

theorem readRepeat_sepBy (ht : t.text = "**") (hb : readAtom l fuel mid = .ok (some b, rest)) :
    readRepeat l (fuel + 1) a (.token t :: mid) = .ok (.sepBy a b, rest) := by
  simp only [readRepeat, accept?, ht, String.reduceBEq, Bool.false_eq_true, if_false, if_true, hb]
  rfl

theorem readRepeat_sepBy1 (ht : t.text = "++") (hb : readAtom l fuel mid = .ok (some b, rest)) :
    readRepeat l (fuel + 1) a (.token t :: mid) = .ok (.sepBy1 a b, rest) := by
  simp only [readRepeat, accept?, ht, String.reduceBEq, Bool.false_eq_true, if_false, if_true, hb]
  rfl

theorem readAtom_of_not_string (hl : l.OfNotation) (ht : Lexer.isString t.text = false) :
    readAtom l (fuel + 1) (.token t :: es) =
      if t.text == "super" then do
        let rest ← expect "." .superDot es
        let (name, rest) ← expectIdent l .superName rest
        return (some (.super name), rest)
      else if l.isIdent t then .ok (some (Atom.ofIdent t.text), es)
      else if t.text == "(" then do
        let (c, rest) ← readChoice l fuel es
        return (some (.group c), ← expect ")" .groupEnd rest)
      else .ok (none, .token t :: es) := by
  rw [readAtom, hl.isString, ht, if_neg Bool.false_ne_true]

theorem readAtom_literal (hl : l.OfNotation) (ht : Lexer.isString t.text = true) (hr : Decodes t.text text) :
    readAtom l (fuel + 1) (.token t :: rest) = .ok (some (.literal text), rest) := by
  rw [readAtom, hl.isString, ht, if_pos rfl, hr]
  rfl

theorem readAtom_super (hl : l.OfNotation) {d n : Token} (ht : t.text = "super") (hd : d.text = ".")
    (hn : IsName n.text) : readAtom l (fuel + 1) (.token t :: .token d :: .token n :: rest) =
      .ok (some (.super n.text), rest) := by
  have hdot : expect "." .superDot (.token d :: .token n :: rest) = .ok (.token n :: rest) :=
    expect_eq_ok_iff.2 ⟨d, rfl, hd⟩
  have hname : expectIdent l .superName (.token n :: rest) = .ok (n.text, rest) :=
    (expectIdent_eq_ok_iff hl).2 ⟨n, rfl, rfl, hn⟩
  rw [readAtom_of_not_string hl (by rw [ht]; rfl), if_pos (beq_iff_eq.2 ht)]
  exact Except.bind_eq_ok.2 ⟨_, hdot, Except.bind_eq_ok.2 ⟨_, hname, rfl⟩⟩

theorem readAtom_name (hl : l.OfNotation) (ht : IsName t.text) :
    readAtom l (fuel + 1) (.token t :: rest) = .ok (some (Atom.ofIdent t.text), rest) := by
  rw [readAtom_of_not_string hl (isString_of_isIdentifier ht.1), if_neg (by simpa using ht.2),
    if_pos ((hl.isIdent t).2 ht)]

theorem readAtom_group (hl : l.OfNotation) {e : Token} {c : Choice} (ht : t.text = "(")
    (hc : readChoice l fuel es = .ok (c, .token e :: rest)) (he : e.text = ")") :
    readAtom l (fuel + 1) (.token t :: es) = .ok (some (.group c), rest) := by
  have hend : expect ")" .groupEnd (.token e :: rest) = .ok rest := expect_eq_ok_iff.2 ⟨e, rfl, he⟩
  have hnot : ¬l.isIdent t = true := by
    rw [hl.isIdent, ht]
    decide
  rw [readAtom_of_not_string hl (by rw [ht]; rfl), if_neg (by rw [ht]; decide), if_neg hnot,
    if_pos (beq_iff_eq.2 ht)]
  exact Except.bind_eq_ok.2 ⟨_, hc, Except.bind_eq_ok.2 ⟨_, hend, rfl⟩⟩

theorem readAtom_none (hl : l.OfNotation) (ht : ¬StartsAtom t.text) :
    readAtom l (fuel + 1) (.token t :: rest) = .ok (none, .token t :: rest) := by
  simp only [StartsAtom, not_or, Bool.not_eq_true] at ht
  obtain ⟨hstring, hsuper, hname, hopen⟩ := ht
  rw [readAtom_of_not_string hl hstring, if_neg (by simpa using hsuper), if_neg (fun h => hname ((hl.isIdent t).1 h)),
    if_neg (by simpa using hopen)]

end Step

/-- **What reading finds of a derivation**, given enough fuel and that what follows does not carry it on.  A factor is
read in two steps. -/
def Found (l : Lexicon) : (k : Kind) → k.Tree → List Entry → List Entry → Prop
  | .choice, c, es, rest => Follows choiceEnds rest → ∀ n, 3 * es.length + 3 ≤ n → readChoice l n es = .ok (c, rest)
  | .sequence, q, es, rest =>
    Follows sequenceEnds rest → ∀ n, 3 * es.length + 2 ≤ n → readSequence l n es = .ok (q, rest)
  | .factor, f, es, rest =>
    NoRepeat rest → ∃ a mid, (∀ n, 3 * es.length + 1 ≤ n → readAtom l n es = .ok (some a, mid)) ∧
      ∀ n, 3 * es.length + 1 ≤ n → readRepeat l n a mid = .ok (f, rest)
  | .atom, a, es, rest => ∀ n, 3 * es.length + 1 ≤ n → readAtom l n es = .ok (some a, rest)

theorem exists_eq_succ {m n : Nat} (h : m + 1 ≤ n) : ∃ k, n = k + 1 ∧ m ≤ k :=
  ⟨n - 1, by omega, by omega⟩

theorem Derives.complete (hl : l.OfNotation) {k : Kind} {x : k.Tree} (h : Derives Decodes k x es rest) :
    Found l k x es rest := by
  -- by induction on the derivation; each call gets one step of the fuel, and a shorter list pays for three
  induction h with
  | last hq ih =>
    intro hf n hn
    obtain ⟨m, rfl, hm⟩ := exists_eq_succ hn
    exact readChoice_last (ih (hf.mono (by decide)) m hm) (hf.accept?_eq_none (by decide))
  | @orElse q c t es mid rest hq ht hc ih ih' =>
    intro hf n hn
    obtain ⟨m, rfl, hm⟩ := exists_eq_succ hn
    have hlen := hq.suffix.length_le
    rw [List.length_cons] at hlen
    exact readChoice_orElse (ih ⟨t, mid, rfl, by rw [ht]; decide⟩ m hm) ht (ih' hf m (by omega))
  | @stop rest =>
    rintro ⟨t, more, rfl, ht⟩ n hn
    obtain ⟨m, rfl, hm⟩ := exists_eq_succ hn
    obtain ⟨m, rfl, -⟩ := exists_eq_succ hm
    exact readSequence_stop (readAtom_none hl (not_startsAtom _ (List.mem_append_right _ ht)))
  | action =>
    intro hf n hn
    obtain ⟨m, rfl, hm⟩ := exists_eq_succ hn
    obtain ⟨m, rfl, -⟩ := exists_eq_succ hm
    exact readSequence_stop rfl
  | @andThen f q es mid rest hf hq ih ih' =>
    intro hrest n hn
    obtain ⟨m, rfl, hm⟩ := exists_eq_succ hn
    obtain ⟨a, es', ha, hr⟩ := ih (hq.noRepeat hrest)
    have hlen := hf.length_lt_of_factor
    exact readSequence_andThen (ha m hm) (hr m hm) (ih' hrest m (by omega))
  | @once a es rest ha ih =>
    intro hrest
    refine ⟨a, rest, ih, fun n hn => ?_⟩
    obtain ⟨m, rfl, hm⟩ := exists_eq_succ hn
    exact readRepeat_once hrest
  | @optional a t es rest ha ht ih =>
    intro _
    refine ⟨a, _, ih, fun n hn => ?_⟩
    obtain ⟨m, rfl, hm⟩ := exists_eq_succ hn
    exact readRepeat_optional ht
  | @many a t es rest ha ht ih =>
    intro _
    refine ⟨a, _, ih, fun n hn => ?_⟩
    obtain ⟨m, rfl, hm⟩ := exists_eq_succ hn
    exact readRepeat_many ht
  | @many1 a t es rest ha ht ih =>
    intro _
    refine ⟨a, _, ih, fun n hn => ?_⟩
    obtain ⟨m, rfl, hm⟩ := exists_eq_succ hn
    exact readRepeat_many1 ht
  | @sepBy a b t es mid rest ha ht hb ih ih' =>
    intro _
    refine ⟨a, _, ih, fun n hn => ?_⟩
    obtain ⟨m, rfl, hm⟩ := exists_eq_succ hn
    have hlen := ha.length_lt_of_atom
    rw [List.length_cons] at hlen
    exact readRepeat_sepBy ht (ih' m (by omega))
  | @sepBy1 a b t es mid rest ha ht hb ih ih' =>
    intro _
    refine ⟨a, _, ih, fun n hn => ?_⟩
    obtain ⟨m, rfl, hm⟩ := exists_eq_succ hn
    have hlen := ha.length_lt_of_atom
    rw [List.length_cons] at hlen
    exact readRepeat_sepBy1 ht (ih' m (by omega))
  | literal ht hr =>
    intro n hn
    obtain ⟨m, rfl, hm⟩ := exists_eq_succ hn
    exact readAtom_literal hl ht hr
  | super ht hd hn' =>
    intro n hn
    obtain ⟨m, rfl, hm⟩ := exists_eq_succ hn
    exact readAtom_super hl ht hd hn'
  | terminal ht hof =>
    intro n hn
    obtain ⟨m, rfl, hm⟩ := exists_eq_succ hn
    rw [readAtom_name hl ht, Atom.ofIdent, hof]
  | rule ht hof =>
    intro n hn
    obtain ⟨m, rfl, hm⟩ := exists_eq_succ hn
    rw [readAtom_name hl ht, Atom.ofIdent, hof]
  | @group t e c es rest ht hc he ih =>
    intro n hn
    obtain ⟨m, rfl, hm⟩ := exists_eq_succ hn
    rw [List.length_cons] at hn
    exact readAtom_group hl ht (ih ⟨e, rest, rfl, by rw [he]; decide⟩ m (by omega)) he

/-! ## Fuel -/

theorem bind_congr_ok {ε α β : Type} {x : Except ε α} {f g : α → Except ε β} (h : ∀ a, x = .ok a → f a = g a) :
    x >>= f = x >>= g := by
  cases x with
  | error e => rfl
  | ok a => exact h a rfl

/-- **Enough fuel**: for entries that the fuel is enough for, more of it changes nothing. -/
structure Enough (l : Lexicon) (n : Nat) : Prop where
  choice : ∀ {es}, 3 * es.length + 3 ≤ n → ∀ m, n ≤ m → readChoice l m es = readChoice l n es
  sequence : ∀ {es}, 3 * es.length + 2 ≤ n → ∀ m, n ≤ m → readSequence l m es = readSequence l n es
  factor : ∀ {a es}, 3 * es.length + 1 ≤ n → ∀ m, n ≤ m → readRepeat l m a es = readRepeat l n a es
  atom : ∀ {es}, 3 * es.length + 1 ≤ n → ∀ m, n ≤ m → readAtom l m es = readAtom l n es

section Step

variable {n m : Nat}

theorem enough_readChoice (hl : l.OfNotation) (ih : Enough l n) (hn : 3 * es.length + 3 ≤ n + 1) (hm : n ≤ m) :
    readChoice l (m + 1) es = readChoice l (n + 1) es := by
  rw [readChoice, readChoice, ih.sequence (by omega) m hm]
  refine bind_congr_ok fun p hq => ?_
  obtain ⟨q, es₁⟩ := p
  have hlen := ((sound hl n).sequence hq).suffix.length_le
  dsimp only
  cases hmore : accept? "/" es₁ with
  | none => rfl
  | some es₂ =>
    obtain ⟨t, rfl, -⟩ := accept?_eq_some_iff.1 hmore
    rw [List.length_cons] at hlen
    dsimp only
    rw [ih.choice (by omega) m hm]

theorem enough_readSequence (hl : l.OfNotation) (ih : Enough l n) (hn : 3 * es.length + 2 ≤ n + 1) (hm : n ≤ m) :
    readSequence l (m + 1) es = readSequence l (n + 1) es := by
  rw [readSequence, readSequence, ih.atom (by omega) m hm]
  refine bind_congr_ok fun p ha => ?_
  obtain ⟨a, es₁⟩ := p
  cases a with
  | none => rfl
  | some a =>
    have ha := (sound hl n).atom ha
    have hlen := ha.length_lt_of_atom
    dsimp only
    rw [ih.factor (by omega) m hm]
    refine bind_congr_ok fun p hf => ?_
    obtain ⟨f, es₂⟩ := p
    have hlen' := ((sound hl n).factor ha hf).length_lt_of_factor
    dsimp only
    rw [ih.sequence (by omega) m hm]

theorem enough_readRepeat (ih : Enough l n) {a : Atom} (hn : 3 * es.length + 1 ≤ n + 1) (hm : n ≤ m) :
    readRepeat l (m + 1) a es = readRepeat l (n + 1) a es := by
  -- an atom is only read behind the token of a repetition
  have hatom : ∀ {w more}, accept? w es = some more → readAtom l m more = readAtom l n more := fun hw => by
    obtain ⟨t, rfl, -⟩ := accept?_eq_some_iff.1 hw
    rw [List.length_cons] at hn
    exact ih.atom (by omega) m hm
  rw [readRepeat, readRepeat]
  cases accept? "?" es with
  | some _ => rfl
  | none =>
  cases accept? "*" es with
  | some _ => rfl
  | none =>
  cases accept? "+" es with
  | some _ => rfl
  | none =>
  cases h₄ : accept? "**" es with
  | some es₁ =>
    dsimp only
    rw [hatom h₄]
  | none =>
  cases h₅ : accept? "++" es with
  | some es₁ =>
    dsimp only
    rw [hatom h₅]
  | none => rfl

theorem enough_readAtom (ih : Enough l n) (hn : 3 * es.length + 1 ≤ n + 1) (hm : n ≤ m) :
    readAtom l (m + 1) es = readAtom l (n + 1) es := by
  match es, hn with
  | [], _ | .hole _ :: _, _ => rfl
  | .token t :: es, hn =>
    rw [List.length_cons] at hn
    rw [readAtom, readAtom, ih.choice (by omega) m hm]

end Step

theorem enough (hl : l.OfNotation) : ∀ n : Nat, Enough l n
  | 0 => ⟨fun h => by omega, fun h => by omega, fun h => by omega, fun h => by omega⟩
  | n + 1 =>
    have ih := enough hl n
    have hsucc : ∀ {m}, n + 1 ≤ m → ∃ k, m = k + 1 ∧ n ≤ k := exists_eq_succ
    ⟨fun h m hm => by obtain ⟨k, rfl, hk⟩ := hsucc hm; exact enough_readChoice hl ih h hk,
      fun h m hm => by obtain ⟨k, rfl, hk⟩ := hsucc hm; exact enough_readSequence hl ih h hk,
      fun h m hm => by obtain ⟨k, rfl, hk⟩ := hsucc hm; exact enough_readRepeat ih h hk,
      fun h m hm => by obtain ⟨k, rfl, hk⟩ := hsucc hm; exact enough_readAtom ih h hk⟩

/-! ## Rules -/

theorem readRule_eq_ok_iff (hl : l.OfNotation) {r : Rule} : readRule l es = .ok (r, rest) ↔
    ∃ n d e c es₁, es = .token n :: .token d :: es₁ ∧ IsName n.text ∧ d.text = "::=" ∧
      Derives Decodes .choice c es₁ (.token e :: rest) ∧ e.text = ";" ∧ r = ⟨n.text, c⟩ := by
  rw [readRule, Except.bind_eq_ok]
  constructor
  · rintro ⟨⟨name, es₁⟩, hname, h⟩
    obtain ⟨es₂, hdef, h⟩ := Except.bind_eq_ok.1 h
    obtain ⟨⟨c, es₃⟩, hc, h⟩ := Except.bind_eq_ok.1 h
    obtain ⟨es₄, hend, h⟩ := Except.bind_eq_ok.1 h
    cases h
    obtain ⟨n, rfl, rfl, hn⟩ := (expectIdent_eq_ok_iff hl).1 hname
    obtain ⟨d, rfl, hd⟩ := expect_eq_ok_iff.1 hdef
    obtain ⟨e, rfl, he⟩ := expect_eq_ok_iff.1 hend
    exact ⟨n, d, e, c, es₂, rfl, hn, hd, (sound hl _).choice hc, he, rfl⟩
  · rintro ⟨n, d, e, c, es₁, rfl, hn, hd, hc, he, rfl⟩
    have hbody : readChoice l (readFuel es₁) es₁ = .ok (c, .token e :: rest) :=
      hc.complete hl ⟨e, rest, rfl, by rw [he]; decide⟩ _ (Nat.le_refl _)
    refine ⟨(n.text, .token d :: es₁), (expectIdent_eq_ok_iff hl).2 ⟨n, rfl, rfl, hn⟩, ?_⟩
    refine Except.bind_eq_ok.2 ⟨es₁, expect_eq_ok_iff.2 ⟨d, rfl, hd⟩, ?_⟩
    refine Except.bind_eq_ok.2 ⟨(c, .token e :: rest), hbody, ?_⟩
    exact Except.bind_eq_ok.2 ⟨rest, expect_eq_ok_iff.2 ⟨e, rfl, he⟩, rfl⟩

theorem length_lt_of_readRule (hl : l.OfNotation) {r : Rule} (h : readRule l es = .ok (r, rest)) :
    rest.length < es.length := by
  obtain ⟨n, d, e, c, es₁, rfl, -, -, hc, -, -⟩ := (readRule_eq_ok_iff hl).1 h
  have hlen := hc.suffix.length_le
  simp only [List.length_cons] at hlen ⊢
  omega

/-- **Reading gives the rules that the entries derive**, and no others. -/
theorem readRules_eq_ok_iff (hl : l.OfNotation) : ∀ {fuel : Nat} {es : List Entry} {rules : List Rule},
    es.length ≤ fuel → (readRules l fuel es = .ok rules ↔ DerivesRules Decodes es rules)
  | _, [], rules, _ => by
    rw [readRules]
    exact ⟨fun h => by cases h; exact .nil, fun h => by cases h; rfl⟩
  | fuel + 1, e :: es, rules, hfuel => by
    rw [readRules.eq_3 _ _ _ (List.cons_ne_nil _ _), Except.bind_eq_ok]
    constructor
    · rintro ⟨⟨r, es₁⟩, hr, h⟩
      obtain ⟨rules', hrules, h⟩ := Except.bind_eq_ok.1 h
      cases h
      have hlen := length_lt_of_readRule hl hr
      rw [List.length_cons] at hlen hfuel
      obtain ⟨n, d, e', c, es₂, he, hn, hd, hc, he', rfl⟩ := (readRule_eq_ok_iff hl).1 hr
      rw [he]
      exact .cons hn hd hc he' ((readRules_eq_ok_iff hl (by omega)).1 hrules)
    · intro h
      cases h with
      | @cons n d e' c es₂ rest rules hn hd hc he' hrules =>
        have hr : readRule l (.token n :: .token d :: es₂) = .ok (⟨n.text, c⟩, rest) :=
          (readRule_eq_ok_iff hl).2 ⟨n, d, e', c, es₂, rfl, hn, hd, hc, he', rfl⟩
        have hlen := length_lt_of_readRule hl hr
        rw [List.length_cons] at hlen hfuel
        exact ⟨_, hr, Except.bind_eq_ok.2 ⟨rules, (readRules_eq_ok_iff hl (by omega)).2 hrules, rfl⟩⟩

theorem readRules_of_le (hl : l.OfNotation) : ∀ {n m : Nat} {es : List Entry}, es.length ≤ n → n ≤ m →
    readRules l m es = readRules l n es
  | _, _, [], _, _ => by rw [readRules, readRules]
  | n + 1, m + 1, e :: es, hn, hm => by
    rw [readRules.eq_3 _ _ _ (List.cons_ne_nil _ _), readRules.eq_3 _ _ _ (List.cons_ne_nil _ _)]
    refine bind_congr_ok fun p hr => ?_
    obtain ⟨r, es₁⟩ := p
    have hlen := length_lt_of_readRule hl hr
    rw [List.length_cons] at hlen hn
    dsimp only
    rw [readRules_of_le hl (by omega) (Nat.le_of_succ_le_succ hm)]

/-! ## Texts -/

/-- **Reading does not run out of fuel** on the entries: more of it gives the same answer. -/
def ReadingEnds (tokens : TokenList) : Prop :=
  (∀ n, tokens.entries.length ≤ n → readRules tokens.lexicon n tokens.entries = rulesOf tokens) ∧
  ∀ es : List Entry, ∀ n, readFuel es ≤ n → readChoice tokens.lexicon n es = readChoice tokens.lexicon (readFuel es) es

theorem readingEnds (tokens : TokenList) (hl : tokens.lexicon.OfNotation) : ReadingEnds tokens :=
  ⟨fun _ hn => readRules_of_le hl (Nat.le_refl _) hn, fun _ n hn => (enough hl _).choice (Nat.le_refl _) n hn⟩

theorem rulesOf_eq_ok_iff {tokens : TokenList} (hl : tokens.lexicon.OfNotation) {rules : List Rule} :
    rulesOf tokens = .ok rules ↔ DerivesRules Decodes tokens.entries rules :=
  readRules_eq_ok_iff hl (Nat.le_refl _)

section

variable {s : Scanner} {text : Template} {tokens : TokenList} (hs : notationScanner = .ok s)

include hs

theorem parseRules_of_scan_error {e : LexError} (h : s.scan text = .error e) : parseRules text = .error (.lex e) := by
  rw [parseRules_eq, hs]
  change ((s.scan text).mapError .lex).bind rulesOf = _
  rw [h]
  rfl

theorem parseRules_of_scan (h : s.scan text = .ok tokens) : parseRules text = rulesOf tokens := by
  rw [parseRules_eq, hs]
  change ((s.scan text).mapError .lex).bind rulesOf = _
  rw [h]
  rfl

theorem parseRules_eq_ok_iff_of_scan (h : s.scan text = .ok tokens) {rules : List Rule} :
    parseRules text = .ok rules ↔ DerivesRules Decodes tokens.entries rules := by
  have hl : tokens.lexicon.OfNotation := Scanner.lexicon_of_scan h ▸ Scanner.lexicon_ofNotation hs
  rw [parseRules_of_scan hs h, rulesOf_eq_ok_iff hl]

end

/-- **The notation is exactly what is read.**  Of a text that is scanned, `parseRules` gives the rules that all its
entries derive, with the literals that its strings decode to, and no others; it gives some if and only if the entries
are well formed and every string among them decodes, and otherwise an error.  It never runs out of fuel. -/
theorem parseRules_exact : ∃ s, notationScanner = .ok s ∧ ∀ text : Template,
    (∃ e, s.scan text = .error e ∧ parseRules text = .error (.lex e)) ∨
    ∃ tokens, s.scan text = .ok tokens ∧
      (∀ rules, parseRules text = .ok rules ↔ DerivesRules Decodes tokens.entries rules) ∧
      ((∃ rules, parseRules text = .ok rules) ↔ WellFormed tokens.entries ∧ AllRead Decodes tokens.entries) ∧
      (¬(WellFormed tokens.entries ∧ AllRead Decodes tokens.entries) → ∃ e, parseRules text = .error e) ∧
      ReadingEnds tokens := by
  obtain ⟨s, hs, -⟩ := Scanner.ofTokens_eq notationTokens
  refine ⟨s, hs, fun text => ?_⟩
  cases hscan : s.scan text with
  | error e => exact Or.inl ⟨e, rfl, parseRules_of_scan_error hs hscan⟩
  | ok tokens =>
    have hl : tokens.lexicon.OfNotation := Scanner.lexicon_of_scan hscan ▸ Scanner.lexicon_ofNotation hs
    have hiff : ∀ rules, parseRules text = .ok rules ↔ DerivesRules Decodes tokens.entries rules :=
      fun _ => parseRules_eq_ok_iff_of_scan hs hscan
    have hsome := (exists_congr hiff).trans exists_derivesRules_iff
    refine Or.inr ⟨tokens, rfl, hiff, hsome, fun hnot => ?_, readingEnds tokens hl⟩
    cases hp : parseRules text with
    | error e => exact ⟨e, rfl⟩
    | ok rules => exact absurd (hsome.1 ⟨rules, hp⟩) hnot

end Grammar

end Packrat
