import Packrat.Proofs.NotationReader
import Packrat.Proofs.Spacing
/-!
# SeenEntries — reading looks no further than the entry it stops at

Two lists of entries with the same words up to some place, and the same word there (`SameBefore`), are read alike until
something behind that place is taken: as long as reading leaves the place unread, or fails at it or before it, it gives
the same tree, or asks for the same thing at the same place (`Seen`).  Main statements: rules are read from the words of
entries (`rulesOf_of_words`), and where reading fails it fails on every list that goes on in another way behind the
entry it has stopped at (`rulesOf_error_of_words`).
-/
namespace Packrat.Grammar

/-- **The same words up to a place**, where the one list goes on in this way and the other in that. -/
inductive SameBefore (r r' : List Entry) : List Entry → List Entry → Prop where
  | here : SameBefore r r' r r'
  | cons {e e' es es'} (hw : e.word = e'.word) (h : SameBefore r r' es es') : SameBefore r r' (e :: es) (e' :: es')

def SameHead (r r' : List Entry) : Prop := r.head?.map Entry.word = r'.head?.map Entry.word

variable {α β : Type} {l : Lexicon} {n : Nat} {r r' es es' mid mid' u : List Entry} {w : String} {expected : Expected}

/-! ## Repetitions -/

/-- **What a mark makes of the atom before it**: a factor at once, or one with a separator. -/
inductive Repetition where
  | plain (f : Atom → Factor)
  | separated (f : Atom → Atom → Factor)

def Repetition.ofMark? (w : String) : Option Repetition :=
  if w = "?" then some (.plain .optional)
  else if w = "*" then some (.plain .many)
  else if w = "+" then some (.plain .many1)
  else if w = "**" then some (.separated .sepBy)
  else if w = "++" then some (.separated .sepBy1)
  else none

theorem Repetition.of_separated {f : Atom → Atom → Factor} (h : ofMark? w = some (.separated f)) :
    w = "**" ∨ w = "++" := by
  unfold ofMark? at h
  split_ifs at h with h₁ h₂ h₃ h₄ h₅ <;> cases h
  · exact Or.inl h₄
  · exact Or.inr h₅

def readSeparator (l : Lexicon) (n : Nat) (f : Atom → Factor) (es : List Entry) :
    Except DefinitionError (Factor × List Entry) := do
  match ← readAtom l n es with
  | (some b, rest) => return (f b, rest)
  | (none, rest) => throw (.unexpected .separator rest)

theorem readRepeat_token (l : Lexicon) (n : Nat) (a : Atom) (t : Token) (es : List Entry) :
    readRepeat l (n + 1) a (.token t :: es) = match Repetition.ofMark? t.text with
      | none => .ok (.once a, .token t :: es)
      | some (.plain f) => .ok (f a, es)
      | some (.separated f) => readSeparator l n (f a) es := by
  rw [readRepeat, Repetition.ofMark?]
  simp only [accept?, beq_iff_eq]
  split_ifs <;> rfl

/-! ## What is left -/

/-- **What is left of the entries**, by an answer or by a complaint, stands at their end. -/
structure Leaves (x : Except DefinitionError (α × List Entry)) (es : List Entry) : Prop where
  ok : ∀ {a mid}, x = .ok (a, mid) → mid <:+ es
  error : ∀ {expected u}, x = .error (.unexpected expected u) → u <:+ es

namespace Leaves

variable {x : Except DefinitionError (α × List Entry)} {f : α × List Entry → Except DefinitionError (β × List Entry)}

theorem answer (a : α) (h : mid <:+ es) : Leaves (.ok (a, mid)) es where
  ok he := by
    cases he
    exact h
  error he := by cases he

theorem complaint (h : u <:+ es) : Leaves (.error (.unexpected expected u) : Except _ (α × List Entry)) es where
  ok he := by cases he
  error he := by
    cases he
    exact h

theorem mono (h : Leaves x mid) (hmid : mid <:+ es) : Leaves x es where
  ok he := (h.ok he).trans hmid
  error he := (h.error he).trans hmid

theorem bind (h : Leaves x es) (hf : ∀ {p}, Leaves (f p) p.2) : Leaves (x >>= f) es := by
  cases x with
  | error e =>
    refine ⟨fun he => by (cases he), fun he => ?_⟩
    cases he
    exact h.error rfl
  | ok p => exact (hf (p := p)).mono (h.ok rfl)

end Leaves

theorem suffix_of_accept? (h : accept? w es = some mid) : mid <:+ es := by
  obtain ⟨t, rfl, -⟩ := accept?_eq_some_iff.1 h
  exact List.suffix_cons _ _

theorem leaves_expect {f : List Entry → Except DefinitionError (β × List Entry)}
    (hf : ∀ {mid}, accept? w es = some mid → Leaves (f mid) mid) : Leaves (expect w expected es >>= f) es := by
  unfold expect
  cases h : accept? w es with
  | none => exact .complaint List.suffix_rfl
  | some mid => exact (hf h).mono (suffix_of_accept? h)

theorem leaves_expectIdent : Leaves (expectIdent l expected es) es := by
  unfold expectIdent
  split
  · split
    · exact .answer _ (List.suffix_cons _ _)
    · exact .complaint List.suffix_rfl
  · exact .complaint List.suffix_rfl

theorem leaves_decodeLiteral {text : String} {f : String → Except DefinitionError (β × List Entry)}
    (hf : ∀ {s}, Leaves (f s) es) : Leaves (decodeLiteral text >>= f) es := by
  unfold decodeLiteral
  split
  · exact hf
  · exact ⟨fun he => by (cases he), fun he => by (cases he)⟩

theorem suffix_readAction (es : List Entry) : (readAction es).2 <:+ es := by
  unfold readAction
  split
  · exact List.suffix_cons _ _
  · exact List.suffix_rfl

structure Remainders (l : Lexicon) (n : Nat) : Prop where
  choice : ∀ {es}, Leaves (readChoice l n es) es
  sequence : ∀ {es}, Leaves (readSequence l n es) es
  factor : ∀ {a es}, Leaves (readRepeat l n a es) es
  atom : ∀ {es}, Leaves (readAtom l n es) es

theorem leaves_alternatives (ih : Remainders l n) {p : Sequence × List Entry} : Leaves (match accept? "/" p.2 with
    | none => pure (Choice.last p.1, p.2)
    | some rest => do
      let (c, rest) ← readChoice l n rest
      return (.orElse p.1 c, rest)) p.2 := by
  cases h : accept? "/" p.2 with
  | none => exact .answer _ List.suffix_rfl
  | some rest => exact (ih.choice.bind (.answer _ List.suffix_rfl)).mono (suffix_of_accept? h)

theorem leaves_factors (ih : Remainders l n) {p : Option Atom × List Entry} : Leaves (match p with
    | (none, rest) => pure (Sequence.stop (readAction rest).1, (readAction rest).2)
    | (some a, rest) => do
      let (f, rest) ← readRepeat l n a rest
      let (q, rest) ← readSequence l n rest
      return (.andThen f q, rest)) p.2 := by
  obtain ⟨a, rest⟩ := p
  cases a with
  | none => exact .answer _ (suffix_readAction rest)
  | some a => exact ih.factor.bind (ih.sequence.bind (.answer _ List.suffix_rfl))

theorem leaves_separator (f : Atom → Factor) {p : Option Atom × List Entry} : Leaves (match p with
    | (some b, rest) => (pure (f b, rest) : Except DefinitionError _)
    | (none, rest) => throw (.unexpected .separator rest)) p.2 := by
  obtain ⟨b, rest⟩ := p
  cases b with
  | none => exact .complaint List.suffix_rfl
  | some b => exact .answer _ List.suffix_rfl

theorem leaves_readSeparator (ih : Remainders l n) {f : Atom → Factor} : Leaves (readSeparator l n f es) es :=
  ih.atom.bind (leaves_separator f)

theorem leaves_readChoice (ih : Remainders l n) : Leaves (readChoice l (n + 1) es) es := by
  rw [readChoice]
  exact ih.sequence.bind (leaves_alternatives ih)

theorem leaves_readSequence (ih : Remainders l n) : Leaves (readSequence l (n + 1) es) es := by
  rw [readSequence]
  exact ih.atom.bind (leaves_factors ih)

theorem leaves_readRepeat (ih : Remainders l n) {a : Atom} : Leaves (readRepeat l (n + 1) a es) es := by
  rcases es with _ | ⟨⟨t⟩ | ⟨i⟩, es⟩
  · exact .answer _ List.suffix_rfl
  · rw [readRepeat_token]
    split
    · exact .answer _ List.suffix_rfl
    · exact .answer _ (List.suffix_cons _ _)
    · exact (leaves_readSeparator ih).mono (List.suffix_cons _ _)
  · exact .answer _ List.suffix_rfl

theorem leaves_super : Leaves (do
    let rest ← expect "." .superDot es
    let (name, rest) ← expectIdent l .superName rest
    return (some (Atom.super name), rest)) es :=
  leaves_expect fun _ => leaves_expectIdent.bind (.answer _ List.suffix_rfl)

theorem leaves_closed {p : Choice × List Entry} : Leaves (do
    return (some (Atom.group p.1), ← expect ")" .groupEnd p.2)) p.2 :=
  leaves_expect fun _ => .answer _ List.suffix_rfl

theorem leaves_readAtom (ih : Remainders l n) : Leaves (readAtom l (n + 1) es) es := by
  match es with
  | [] | .hole _ :: _ => exact .answer _ List.suffix_rfl
  | .token t :: es =>
    rw [readAtom]
    by_cases hstring : l.isString t = true
    · rw [if_pos hstring]
      exact leaves_decodeLiteral (.answer _ (List.suffix_cons _ _))
    · rw [if_neg hstring]
      by_cases hsuper : (t.text == "super") = true
      · rw [if_pos hsuper]
        exact leaves_super.mono (List.suffix_cons _ _)
      · rw [if_neg hsuper]
        by_cases hident : l.isIdent t = true
        · rw [if_pos hident]
          exact .answer _ (List.suffix_cons _ _)
        · rw [if_neg hident]
          by_cases hopen : (t.text == "(") = true
          · rw [if_pos hopen]
            exact (ih.choice.bind leaves_closed).mono (List.suffix_cons _ _)
          · rw [if_neg hopen]
            exact .answer _ List.suffix_rfl

theorem remainders (l : Lexicon) : ∀ n : Nat, Remainders l n
  | 0 => ⟨.complaint List.suffix_rfl, .complaint List.suffix_rfl, .complaint List.suffix_rfl,
      .complaint List.suffix_rfl⟩
  | n + 1 =>
    have ih := remainders l n
    ⟨leaves_readChoice ih, leaves_readSequence ih, leaves_readRepeat ih, leaves_readAtom ih⟩

/-! ## Words up to a place -/

namespace SameBefore

theorem of_map_word : ∀ {p p' : List Entry}, p.map Entry.word = p'.map Entry.word → SameBefore r r' (p ++ r) (p' ++ r')
  | [], [], _ => .here
  | _ :: _, _ :: _, h => .cons (List.cons.inj h).1 (of_map_word (List.cons.inj h).2)

theorem suffix (h : SameBefore r r' es es') : r <:+ es := by
  induction h with
  | here => exact List.suffix_rfl
  | cons _ _ ih => exact ih.trans (List.suffix_cons _ _)

theorem eq_of_here (h : SameBefore r r' r es') : es' = r' := by
  generalize hes : r = es at h
  cases h with
  | here => rfl
  | cons _ h =>
    subst hes
    exact absurd h.suffix.length_le (Nat.not_succ_le_self _)

theorem head (hr : SameHead r r') (h : SameBefore r r' es es') : SameHead es es' := by
  cases h with
  | here => exact hr
  | cons hw _ => exact congrArg some hw

theorem tail {e e' : Entry} (h : SameBefore r r' (e :: es) (e' :: es')) (hs : r <:+ es) : SameBefore r r' es es' := by
  cases h with
  | here => exact absurd hs.length_le (Nat.not_succ_le_self _)
  | cons _ h => exact h

theorem nil (hr : SameHead r r') (h : SameBefore r r' [] es') : es' = [] := by
  cases es' with
  | nil => rfl
  | cons e' es' => cases h.head hr

theorem token (hr : SameHead r r') {t : Token} (h : SameBefore r r' (.token t :: es) es') :
    ∃ t' more, es' = .token t' :: more ∧ t'.text = t.text := by
  have hhead := h.head hr
  rcases es' with _ | ⟨⟨t'⟩ | ⟨i⟩, more⟩
  · cases hhead
  · exact ⟨t', more, rfl, (Word.text.inj (Option.some.inj hhead)).symm⟩
  · cases hhead

theorem hole (hr : SameHead r r') {i : Nat} (h : SameBefore r r' (.hole i :: es) es') :
    ∃ more, es' = .hole i :: more := by
  have hhead := h.head hr
  rcases es' with _ | ⟨⟨t'⟩ | ⟨j⟩, more⟩
  · cases hhead
  · cases hhead
  · cases hhead
    exact ⟨more, rfl⟩

theorem accept?_none (hr : SameHead r r') (h : SameBefore r r' es es') (ha : accept? w es = none) :
    accept? w es' = none := by
  rcases es with _ | ⟨⟨t⟩ | ⟨i⟩, es⟩
  · rw [h.nil hr]
    rfl
  · obtain ⟨t', more, rfl, ht⟩ := h.token hr
    rw [accept?] at ha ⊢
    rw [ht]
    split at ha
    · cases ha
    · exact if_neg ‹_›
  · obtain ⟨more, rfl⟩ := h.hole hr
    rfl

theorem accept?_some (hr : SameHead r r') (h : SameBefore r r' es es') (ha : accept? w es = some mid) (hs : r <:+ mid) :
    ∃ mid', accept? w es' = some mid' ∧ SameBefore r r' mid mid' := by
  obtain ⟨t, rfl, ht⟩ := accept?_eq_some_iff.1 ha
  obtain ⟨t', more, rfl, ht'⟩ := h.token hr
  exact ⟨more, accept?_eq_some_iff.2 ⟨t', rfl, ht'.trans ht⟩, h.tail hs⟩

theorem readAction (hr : SameHead r r') (h : SameBefore r r' es es') (hs : r <:+ (readAction es).2) :
    (Grammar.readAction es').1 = (Grammar.readAction es).1 ∧
      SameBefore r r' (Grammar.readAction es).2 (Grammar.readAction es').2 := by
  rcases es with _ | ⟨⟨t⟩ | ⟨i⟩, es⟩
  · cases h.nil hr
    exact ⟨rfl, h⟩
  · obtain ⟨t', more, rfl, ht⟩ := h.token hr
    exact ⟨rfl, h⟩
  · obtain ⟨more, rfl⟩ := h.hole hr
    exact ⟨rfl, h.tail hs⟩

end SameBefore

/-! ## What has been seen -/

/-- **The second is read as the first is**, if the first leaves the place unread or complains there or before. -/
structure Seen (r r' : List Entry) (x y : Except DefinitionError (α × List Entry)) : Prop where
  ok : ∀ {a mid}, x = .ok (a, mid) → r <:+ mid → ∃ mid', y = .ok (a, mid') ∧ SameBefore r r' mid mid'
  error : ∀ {expected u}, x = .error (.unexpected expected u) → r <:+ u →
    ∃ u', y = .error (.unexpected expected u') ∧ SameBefore r r' u u'

namespace Seen

variable {x y : Except DefinitionError (α × List Entry)}
  {f g : α × List Entry → Except DefinitionError (β × List Entry)}

theorem answer (a : α) (h : r <:+ mid → SameBefore r r' mid mid') : Seen r r' (.ok (a, mid)) (.ok (a, mid')) where
  ok he hs := by
    cases he
    exact ⟨mid', rfl, h hs⟩
  error he := by cases he

theorem complaint (h : SameBefore r r' es es') :
    Seen r r' (.error (.unexpected expected es) : Except _ (α × List Entry)) (.error (.unexpected expected es')) where
  ok he := by cases he
  error he _ := by
    cases he
    exact ⟨es', rfl, h⟩

/-- **Behind the place nothing is asked.** -/
theorem of_leaves (h : Leaves x mid) (hs : r <:+ mid → Seen r r' x y) : Seen r r' x y where
  ok he hr := (hs (hr.trans (h.ok he))).ok he hr
  error he hr := (hs (hr.trans (h.error he))).error he hr

theorem bind_of_ok (h : Seen r r' x y) (hl : ∀ {p}, Leaves (f p) p.2)
    (hf : ∀ {a mid mid'}, x = .ok (a, mid) → y = .ok (a, mid') → SameBefore r r' mid mid' →
      Seen r r' (f (a, mid)) (g (a, mid'))) : Seen r r' (x >>= f) (y >>= g) := by
  cases x with
  | error e =>
    refine ⟨fun he => by (cases he), fun he hs => ?_⟩
    cases he
    obtain ⟨u', rfl, hu⟩ := h.error rfl hs
    exact ⟨u', rfl, hu⟩
  | ok p =>
    -- what comes next starts where the first part stopped, which may be behind the place
    refine of_leaves (x := f p) hl fun hs => ?_
    obtain ⟨mid', rfl, hmid⟩ := h.ok rfl hs
    exact hf rfl rfl hmid

theorem bind (h : Seen r r' x y) (hl : ∀ {p}, Leaves (f p) p.2)
    (hf : ∀ {a mid mid'}, SameBefore r r' mid mid' → Seen r r' (f (a, mid)) (g (a, mid'))) :
    Seen r r' (x >>= f) (y >>= g) :=
  h.bind_of_ok hl fun _ _ => hf

theorem mark (hr : SameHead r r') (h : SameBefore r r' es es') (ha : accept? w es = some mid) (hl : Leaves x mid)
    (hf : ∀ {mid'}, accept? w es' = some mid' → SameBefore r r' mid mid' → Seen r r' x y) : Seen r r' x y :=
  of_leaves hl fun hs => by
    obtain ⟨mid', ha', hmid⟩ := h.accept?_some hr ha hs
    exact hf ha' hmid

end Seen

/-! ## Reading -/

theorem isString_congr {t t' : Token} (h : t'.text = t.text) : l.isString t' = l.isString t :=
  congrArg l.string.accepts h

theorem isIdent_congr {t t' : Token} (h : t'.text = t.text) : l.isIdent t' = l.isIdent t := by
  rw [Lexicon.isIdent, Lexicon.isIdent, h]

theorem seen_expect {f g : List Entry → Except DefinitionError (β × List Entry)} (hr : SameHead r r')
    (h : SameBefore r r' es es') (hl : ∀ {mid}, Leaves (f mid) mid)
    (hf : ∀ {mid mid'}, SameBefore r r' mid mid' → Seen r r' (f mid) (g mid')) :
    Seen r r' (expect w expected es >>= f) (expect w expected es' >>= g) := by
  cases ha : accept? w es with
  | none =>
    rw [expect, expect, ha, h.accept?_none hr ha]
    exact .complaint h
  | some mid =>
    have he : (expect w expected es >>= f) = f mid := by
      rw [expect, ha]
      rfl
    rw [he]
    refine .mark hr h ha hl fun ha' hmid => ?_
    rw [expect, ha']
    exact hf hmid

theorem seen_expectIdent (hr : SameHead r r') (h : SameBefore r r' es es') :
    Seen r r' (expectIdent l expected es) (expectIdent l expected es') := by
  rcases es with _ | ⟨⟨t⟩ | ⟨i⟩, es⟩
  · cases h.nil hr
    exact .complaint h
  · obtain ⟨t', more, rfl, ht⟩ := h.token hr
    rw [expectIdent, expectIdent, isIdent_congr ht, ht]
    by_cases hident : l.isIdent t = true
    · rw [if_pos hident, if_pos hident]
      exact .answer _ h.tail
    · rw [if_neg hident, if_neg hident]
      exact .complaint h
  · obtain ⟨more, rfl⟩ := h.hole hr
    exact .complaint h

structure SeenAll (l : Lexicon) (r r' : List Entry) (n : Nat) : Prop where
  choice : ∀ {es es'}, SameBefore r r' es es' → Seen r r' (readChoice l n es) (readChoice l n es')
  sequence : ∀ {es es'}, SameBefore r r' es es' → Seen r r' (readSequence l n es) (readSequence l n es')
  factor : ∀ {a es es'}, SameBefore r r' es es' → Seen r r' (readRepeat l n a es) (readRepeat l n a es')
  atom : ∀ {es es'}, SameBefore r r' es es' → Seen r r' (readAtom l n es) (readAtom l n es')

section Step

variable (hr : SameHead r r') (ih : SeenAll l r r' n) (h : SameBefore r r' es es')

include hr ih h

theorem seen_readChoice : Seen r r' (readChoice l (n + 1) es) (readChoice l (n + 1) es') := by
  rw [readChoice, readChoice]
  refine (ih.sequence h).bind (leaves_alternatives (remainders l n)) fun {q mid mid'} hmid => ?_
  dsimp only
  cases ha : accept? "/" mid with
  | none =>
    rw [hmid.accept?_none hr ha]
    exact .answer _ fun _ => hmid
  | some rest =>
    refine .mark hr hmid ha ((remainders l n).choice.bind (.answer _ List.suffix_rfl)) fun ha' hrest => ?_
    rw [ha']
    exact (ih.choice hrest).bind (.answer _ List.suffix_rfl) fun hend => .answer _ fun _ => hend

theorem seen_readSequence : Seen r r' (readSequence l (n + 1) es) (readSequence l (n + 1) es') := by
  rw [readSequence, readSequence]
  refine (ih.atom h).bind (leaves_factors (remainders l n)) fun {a mid mid'} hmid => ?_
  cases a with
  | none =>
    change Seen r r' (.ok (Sequence.stop (readAction mid).1, (readAction mid).2))
      (.ok (Sequence.stop (readAction mid').1, (readAction mid').2))
    refine .of_leaves (.answer _ List.suffix_rfl) fun hs => ?_
    obtain ⟨haction, hrest⟩ := hmid.readAction hr hs
    rw [haction]
    exact .answer _ fun _ => hrest
  | some a =>
    have hl := remainders l n
    refine (ih.factor hmid).bind (hl.sequence.bind (.answer _ List.suffix_rfl)) fun hf => ?_
    exact (ih.sequence hf).bind (.answer _ List.suffix_rfl) fun hend => .answer _ fun _ => hend

omit hr in
theorem seen_readSeparator {f : Atom → Factor} : Seen r r' (readSeparator l n f es) (readSeparator l n f es') := by
  refine (ih.atom h).bind (leaves_separator f) fun {b _ _} hrest => ?_
  cases b with
  | none => exact .complaint hrest
  | some b => exact .answer _ fun _ => hrest

theorem seen_readRepeat {a : Atom} : Seen r r' (readRepeat l (n + 1) a es) (readRepeat l (n + 1) a es') := by
  rcases es with _ | ⟨⟨t⟩ | ⟨i⟩, es⟩
  · cases h.nil hr
    exact .answer _ fun _ => h
  · obtain ⟨t', more, rfl, ht⟩ := h.token hr
    rw [readRepeat_token, readRepeat_token, ht]
    split
    · exact .answer _ fun _ => h
    · exact .answer _ h.tail
    · exact .of_leaves (leaves_readSeparator (remainders l n)) fun hs => seen_readSeparator ih (h.tail hs)
  · obtain ⟨more, rfl⟩ := h.hole hr
    exact .answer _ fun _ => h

theorem seen_readAtom : Seen r r' (readAtom l (n + 1) es) (readAtom l (n + 1) es') := by
  rcases es with _ | ⟨⟨t⟩ | ⟨i⟩, es⟩
  · cases h.nil hr
    exact .answer _ fun _ => h
  · obtain ⟨t', more, rfl, ht⟩ := h.token hr
    -- the text of the token says which atom it is, in both lists
    rw [readAtom, readAtom, isString_congr ht, isIdent_congr ht, ht]
    by_cases hstring : l.isString t = true
    · rw [if_pos hstring, if_pos hstring, decodeLiteral]
      split
      · exact .answer _ h.tail
      · exact ⟨fun he => by (cases he), fun he => by (cases he)⟩
    rw [if_neg hstring, if_neg hstring]
    by_cases hsuper : (t.text == "super") = true
    · rw [if_pos hsuper, if_pos hsuper]
      refine .of_leaves leaves_super fun hs => ?_
      refine seen_expect hr (h.tail hs) (leaves_expectIdent.bind (.answer _ List.suffix_rfl)) fun hdot => ?_
      exact (seen_expectIdent hr hdot).bind (.answer _ List.suffix_rfl) fun hend => .answer _ fun _ => hend
    rw [if_neg hsuper, if_neg hsuper]
    by_cases hident : l.isIdent t = true
    · rw [if_pos hident, if_pos hident]
      exact .answer _ h.tail
    rw [if_neg hident, if_neg hident]
    by_cases hopen : (t.text == "(") = true
    · rw [if_pos hopen, if_pos hopen]
      refine .of_leaves ((remainders l n).choice.bind leaves_closed) fun hs => ?_
      refine (ih.choice (h.tail hs)).bind leaves_closed fun hc => ?_
      exact seen_expect hr hc (.answer _ List.suffix_rfl) fun hend => .answer _ fun _ => hend
    rw [if_neg hopen, if_neg hopen]
    exact .answer _ fun _ => h
  · obtain ⟨more, rfl⟩ := h.hole hr
    exact .answer _ fun _ => h

end Step

/-- **Reading is the same up to the place**, by induction on the fuel. -/
theorem seenAll (l : Lexicon) (hr : SameHead r r') : ∀ n : Nat, SeenAll l r r' n
  | 0 => ⟨.complaint, .complaint, .complaint, .complaint⟩
  | n + 1 =>
    have ih := seenAll l hr n
    ⟨seen_readChoice hr ih, seen_readSequence hr ih, fun h => seen_readRepeat hr ih h,
      seen_readAtom hr ih⟩

/-! ## Rules -/

theorem leaves_body {name : String} {p : Choice × List Entry} : Leaves (do
    return (⟨name, p.1⟩, ← expect ";" .ruleEnd p.2) : Except DefinitionError (Rule × List Entry)) p.2 :=
  leaves_expect fun _ => .answer _ List.suffix_rfl

theorem leaves_definition {p : String × List Entry} : Leaves (do
    let rest ← expect "::=" .definition p.2
    let (body, rest) ← readChoice l (readFuel rest) rest
    return (⟨p.1, body⟩, ← expect ";" .ruleEnd rest) : Except DefinitionError (Rule × List Entry)) p.2 :=
  leaves_expect fun _ => (remainders l _).choice.bind leaves_body

theorem leaves_readRule : Leaves (readRule l es) es := leaves_expectIdent.bind leaves_definition

theorem seen_readRule (hl : l.OfNotation) (hr : SameHead r r') (h : SameBefore r r' es es') :
    Seen r r' (readRule l es) (readRule l es') := by
  refine (seen_expectIdent hr h).bind leaves_definition fun hname => ?_
  refine seen_expect hr hname ((remainders l _).choice.bind leaves_body) fun {mid mid'} hdef => ?_
  -- the fuel is what the entries left ask for, and more of it changes nothing
  have hfuel := (enough hl _).choice (Nat.le_refl (readFuel mid)) _ (Nat.le_max_left _ (readFuel mid'))
  have hfuel' := (enough hl _).choice (Nat.le_refl (readFuel mid')) _ (Nat.le_max_right (readFuel mid) _)
  rw [← hfuel, ← hfuel']
  refine ((seenAll l hr _).choice hdef).bind leaves_body fun hbody => ?_
  exact seen_expect hr hbody (.answer _ List.suffix_rfl) fun hend => .answer _ fun _ => hend

def readAll (l : Lexicon) (n : Nat) (es : List Entry) : Except DefinitionError (List Rule × List Entry) :=
  (readRules l n es).map (·, [])

theorem readAll_cons (l : Lexicon) (n : Nat) (e : Entry) (es : List Entry) :
    readAll l (n + 1) (e :: es) = readRule l (e :: es) >>= fun p =>
      readAll l n p.2 >>= fun q => pure (p.1 :: q.1, q.2) := by
  rw [readAll, readRules.eq_3 _ _ _ (List.cons_ne_nil _ _)]
  cases readRule l (e :: es) with
  | error error => rfl
  | ok p =>
    change (readRules l n p.2 >>= _).map _ = (readRules l n p.2).map _ >>= _
    cases readRules l n p.2 <;> rfl

theorem leaves_readAll (l : Lexicon) : ∀ {n : Nat} {es : List Entry}, Leaves (readAll l n es) es
  | _, [] => by
    rw [readAll, readRules]
    exact .answer _ List.suffix_rfl
  | 0, _ :: _ => .complaint List.suffix_rfl
  | n + 1, e :: es => by
    rw [readAll_cons]
    exact leaves_readRule.bind ((leaves_readAll l).bind (.answer _ List.suffix_rfl))

theorem seen_readAll (hl : l.OfNotation) (hr : SameHead r r') : ∀ {n : Nat} {es es' : List Entry},
    SameBefore r r' es es' → es.length ≤ n → es'.length ≤ n → Seen r r' (readAll l n es) (readAll l n es')
  | n, [], es', h, _, _ => by
    cases h.nil hr
    rw [readAll, readRules]
    exact .answer _ fun _ => h
  | n + 1, e :: es, [], h, _, _ => by cases h.head hr
  | n + 1, e :: es, e' :: es', h, hn, hn' => by
    rw [readAll_cons, readAll_cons]
    refine (seen_readRule hl hr h).bind_of_ok ((leaves_readAll l).bind (.answer _ List.suffix_rfl)) ?_
    intro rule mid mid' hrule hrule' hmid
    have hlen := length_lt_of_readRule hl hrule
    have hlen' := length_lt_of_readRule hl hrule'
    rw [List.length_cons] at hlen hlen' hn hn'
    have hmore := seen_readAll hl hr hmid (n := n) (by omega) (by omega)
    exact hmore.bind (.answer _ List.suffix_rfl) fun hend => .answer _ fun _ => hend

theorem seen_rulesOf (hl : l.OfNotation) (hr : SameHead r r') (h : SameBefore r r' es es') :
    Seen r r' ((rulesOf ⟨es, l⟩).map (·, [])) ((rulesOf ⟨es', l⟩).map (·, [])) := by
  have hseen := seen_readAll hl hr h (Nat.le_max_left es.length es'.length) (Nat.le_max_right _ _)
  rw [readAll, readAll, readRules_of_le hl (Nat.le_refl _) (Nat.le_max_left es.length es'.length),
    readRules_of_le hl (Nat.le_refl _) (Nat.le_max_right es.length es'.length)] at hseen
  exact hseen

theorem map_eq_error {ε : Type} {x : Except ε α} {f : α → β} {e : ε} (h : x.map f = .error e) : x = .error e := by
  cases x with
  | error e' =>
    cases h
    rfl
  | ok a => cases h

theorem map_eq_ok {ε : Type} {x : Except ε α} {f : α → β} {b : β} (h : x.map f = .ok b) : ∃ a, x = .ok a ∧ f a = b := by
  cases x with
  | error e => cases h
  | ok a =>
    cases h
    exact ⟨a, rfl, rfl⟩

theorem rulesOf_of_words (hl : l.OfNotation) (hw : es.map Entry.word = es'.map Entry.word) {rules : List Rule}
    (h : rulesOf ⟨es, l⟩ = .ok rules) : rulesOf ⟨es', l⟩ = .ok rules := by
  have hsame : SameBefore [] [] (es ++ []) (es' ++ []) := .of_map_word hw
  rw [List.append_nil, List.append_nil] at hsame
  have hok : (rulesOf ⟨es, l⟩).map (·, ([] : List Entry)) = .ok (rules, []) := by
    rw [h]
    rfl
  obtain ⟨mid', hok', -⟩ := (seen_rulesOf hl rfl hsame).ok hok (List.nil_suffix)
  obtain ⟨rules', hrules, he⟩ := map_eq_ok hok'
  cases he
  exact hrules

/-- **Where reading fails it fails on every list** that has the same words before and goes on with the same one. -/
theorem rulesOf_error_of_words (hl : l.OfNotation) {p p' : List Entry} (hw : p.map Entry.word = p'.map Entry.word)
    (hr : SameHead r r') (h : rulesOf ⟨p ++ r, l⟩ = .error (.unexpected expected r)) :
    rulesOf ⟨p' ++ r', l⟩ = .error (.unexpected expected r') := by
  have herr : (rulesOf ⟨p ++ r, l⟩).map (·, ([] : List Entry)) = .error (.unexpected expected r) := by
    rw [h]
    rfl
  obtain ⟨u', herr', hu⟩ := (seen_rulesOf hl hr (.of_map_word hw)).error herr List.suffix_rfl
  rw [hu.eq_of_here] at herr'
  exact map_eq_error herr'

end Packrat.Grammar
