import Packrat.Proofs.ActionHoles
import Packrat.Proofs.ParseMeaning
import Packrat.Proofs.Spacing
/-!
# Leaves — a value keeps the words it was read from

Without actions a value is made of the texts and the holes that terminals read, in lists.  What an alternative given up,
a repetition's last attempt or half of a separated pair has read is in no value: a value's leaves are the words of the
entries that it took, in order, and only the words of separators are missing (`retains_of_means`).  Main statement: so
it is for a parse, and where no list has separators its value has every word once (`leaves_of_parseWith`).
-/
namespace Packrat

namespace Value

mutual

def leaves : Value → List Word
  | .string s => [.text s]
  | .hole i => [.hole i]
  | .null | .bool _ | .number _ => []
  | .list items => leavesAll items
  | .node _ fields => leavesAll fields

def leavesAll : List Value → List Word
  | [] => []
  | v :: vs => leaves v ++ leavesAll vs

end

@[simp] theorem leavesAll_append : ∀ vs ws : List Value, leavesAll (vs ++ ws) = leavesAll vs ++ leavesAll ws
  | [], _ => rfl
  | v :: vs, ws => by
    rw [List.cons_append, leavesAll, leavesAll, leavesAll_append vs ws, List.append_assoc]

@[simp] theorem leavesAll_singleton (v : Value) : leavesAll [v] = v.leaves := by
  rw [leavesAll, leavesAll, List.append_nil]

end Value

namespace Grammar

/-! ## Trees without separators -/

mutual

def Choice.unseparated : Choice → Bool
  | .last s => s.unseparated
  | .orElse s rest => s.unseparated && rest.unseparated

def Sequence.unseparated : Sequence → Bool
  | .stop _ => true
  | .andThen f rest => f.unseparated && rest.unseparated

def Factor.unseparated : Factor → Bool
  | .once a | .optional a | .many a | .many1 a => a.unseparated
  | .sepBy _ _ | .sepBy1 _ _ => false

def Atom.unseparated : Atom → Bool
  | .literal _ | .terminal _ | .rule _ | .super _ => true
  | .group c => c.unseparated

end

def Phrase.unseparated : Phrase → Bool
  | .choice c => c.unseparated
  | .sequence _ s => s.unseparated
  | .factor f => f.unseparated
  | .atom x | .item none x | .items none x => x.unseparated
  | .item (some _) _ | .items (some _) _ | .listOf _ _ => false

/-- No rule of the layers has a list with separators. -/
def Unseparated (layers : List Layer) : Prop := ∀ layer ∈ layers, ∀ r ∈ layer.rules, r.body.unseparated = true

def Actionless (layers : List Layer) : Prop := ∀ layer ∈ layers, layer.actions = []

instance (layers : List Layer) : Decidable (Unseparated layers) :=
  inferInstanceAs (Decidable (∀ layer ∈ layers, ∀ r ∈ layer.rules, r.body.unseparated = true))

instance (layers : List Layer) : Decidable (Actionless layers) :=
  decidable_of_iff (∀ layer ∈ layers, layer.actions.isEmpty = true) (forall₂_congr fun _ _ => List.isEmpty_iff)

/-! ## Words -/

def between (tokens : TokenList) (p q : Nat) : List Word := ((tokens.entries.drop p).take (q - p)).map Entry.word

variable {tokens : TokenList} {p q r : Nat}

@[simp] theorem between_self (tokens : TokenList) (p : Nat) : between tokens p p = [] := by
  rw [between, Nat.sub_self, List.take_zero, List.map_nil]

theorem between_append (hpq : p ≤ q) (hqr : q ≤ r) : between tokens p q ++ between tokens q r = between tokens p r := by
  have hr : r - p = (q - p) + (r - q) := by omega
  rw [between, between, between, hr, List.take_add, List.drop_drop, Nat.add_sub_cancel' hpq, List.map_append]

theorem between_succ {e : Entry} (h : tokens.entries[p]? = some e) : between tokens p (p + 1) = [e.word] := by
  obtain ⟨hp, rfl⟩ := List.getElem?_eq_some_iff.1 h
  rw [between, Nat.add_sub_cancel_left, List.drop_eq_getElem_cons hp]
  rfl

/-- **Leaves that retain words**: a subsequence of them, and all of them under a condition. -/
structure Retains (all : Prop) (leaves words : List Word) : Prop where
  sublist : leaves.Sublist words
  eq_of : all → leaves = words

namespace Retains

variable {all all' : Prop} {leaves leaves' words words' : List Word}

theorem refl (leaves : List Word) : Retains all leaves leaves := ⟨List.Sublist.refl _, fun _ => rfl⟩

theorem append (h : Retains all leaves words) (h' : Retains all leaves' words') :
    Retains all (leaves ++ leaves') (words ++ words') :=
  ⟨h.sublist.append h'.sublist, fun ha => by rw [h.eq_of ha, h'.eq_of ha]⟩

theorem imp (h : Retains all leaves words) (ha : all' → all) : Retains all' leaves words :=
  ⟨h.sublist, fun ha' => h.eq_of (ha ha')⟩

theorem trans {most : List Word} (h : Retains all leaves most) (h' : Retains all most words) :
    Retains all leaves words :=
  ⟨h.sublist.trans h'.sublist, fun ha => (h.eq_of ha).trans (h'.eq_of ha)⟩

theorem lose (h : Retains all leaves words') (ha : ¬all') : Retains all' leaves (words ++ words') :=
  ⟨h.sublist.trans (List.sublist_append_right _ _), fun ha' => absurd ha' ha⟩

end Retains

/-! ## Phrases -/

variable {layers : List Layer} {d : Definition} {φ : Phrase} {a : Answer} {t : Trail} {v : Value}

theorem le_of_means (h : Means layers tokens d φ p (some (v, q)) t) : p ≤ q := by
  have := stop_of_means h rfl
  omega

/-- **A terminal's value is the word of its entry**, and the end of the entries is no word. -/
theorem leaves_of_leaf? : ∀ {x : Atom}, x.leaf? tokens p = some (some (v, q)) → v.leaves = between tokens p q
  | .literal text, h => by
    obtain ⟨w, hw, he⟩ := Option.map_eq_some_iff.1 (Option.some.inj h)
    obtain ⟨e, he', hv⟩ := Option.bind_eq_some_iff.1 hw
    cases he
    rw [between_succ he']
    cases e with
    | hole i => cases hv
    | token t =>
      obtain ⟨rfl, hv⟩ := Option.ite_none_right_eq_some.1 hv
      cases hv
      rfl
  | .terminal .eof, h => by
    obtain ⟨-, h⟩ := Option.ite_none_right_eq_some.1 (Option.some.inj h)
    cases h
    rw [between_self]
    rfl
  | .terminal .fail, h => by cases h
  | .terminal .number, h | .terminal .string, h | .terminal .ident, h | .terminal .hole, h => by
    obtain ⟨w, hw, he⟩ := Option.map_eq_some_iff.1 (Option.some.inj h)
    obtain ⟨e, he', hv⟩ := Option.bind_eq_some_iff.1 hw
    cases he
    rw [between_succ he']
    cases e with
    | hole i => cases hv <;> rfl
    | token t =>
      first
        | cases hv
        | obtain ⟨-, hv⟩ := Option.ite_none_right_eq_some.1 hv
          cases hv
          rfl

/-- The leaves of the values that stand before the rest of a sequence. -/
def Phrase.leaves : Phrase → List Word
  | .sequence done _ => Value.leavesAll done
  | _ => []

theorem Retains.between_append {all : Prop} {leaves : List Word} (hpq : p ≤ q) (hqr : q ≤ r)
    (h : Retains all leaves (between tokens p q)) :
    Retains all (leaves ++ between tokens q r) (between tokens p r) :=
  Grammar.between_append hpq hqr ▸ h.append (.refl _)

theorem Retains.cons {all : Prop} {vs : List Value} (hpq : p ≤ q) (hqr : q ≤ r)
    (h : Retains all v.leaves (between tokens p q)) (h' : Retains all (Value.list vs).leaves (between tokens q r)) :
    Retains all (Value.list (v :: vs)).leaves (between tokens p r) :=
  Grammar.between_append hpq hqr ▸ h.append h'

/-- **A value keeps the words it was read from**: those of the entries that it took, behind those of the values before
it, without the words of separators.  By induction on the derivation. -/
theorem retains_of_means (hact : Actionless layers) (h : Means layers tokens d φ p a t) : d.Of layers →
    ∀ {v : Value} {q : Nat}, a = some (v, q) →
      Retains (Unseparated layers ∧ φ.unseparated = true) v.leaves (φ.leaves ++ between tokens p q) := by
  induction h with
  | factorFail | refuse | many1Fail | sepBy1Fail | separatorFail | dangling => intro _ v q h; cases h
  | last _ ih | once _ ih | many _ ih | many1 _ ih | bare _ ih | group _ ih => exact ih
  | first _ ih =>
    intro hd v q h
    exact (ih hd h).imp fun ⟨hu, hs⟩ => ⟨hu, (Bool.and_eq_true_iff.1 hs).1⟩
  | next _ _ _ ih =>
    intro hd v q h
    exact (ih hd h).imp fun ⟨hu, hs⟩ => ⟨hu, (Bool.and_eq_true_iff.1 hs).2⟩
  | @factorThen _ done f rest p w q a t u g g' ih ih' =>
    intro hd v r h
    subst h
    have hhead : Retains (Unseparated layers ∧ (f.unseparated && rest.unseparated) = true) w.leaves
        (between tokens p q) :=
      (ih hd rfl).imp fun ⟨hu, hs⟩ => ⟨hu, (Bool.and_eq_true_iff.1 hs).1⟩
    have htail : Retains (Unseparated layers ∧ (f.unseparated && rest.unseparated) = true) v.leaves
        (Value.leavesAll (done ++ [w]) ++ between tokens q r) :=
      (ih' hd rfl).imp fun ⟨hu, hs⟩ => ⟨hu, (Bool.and_eq_true_iff.1 hs).2⟩
    simp only [Value.leavesAll_append, Value.leavesAll_singleton, List.append_assoc] at htail
    exact htail.trans ((Retains.refl _).append (hhead.between_append (le_of_means g) (le_of_means g')))
  | sole =>
    intro _ v q h
    cases h
    rw [between_self, List.append_nil, Phrase.leaves, Value.leavesAll_singleton]
    exact .refl _
  | all =>
    intro _ v q h
    cases h
    rw [between_self, List.append_nil]
    exact .refl _
  | act hv =>
    intro hd v q h
    rw [hact _ (hd.suffix.mem List.mem_cons_self)] at hv
    cases hv
  | present _ ih =>
    intro hd v q h
    cases h
    rw [Value.leaves, Value.leavesAll_singleton]
    exact ih hd rfl
  | absent | itemsEnd | listNone =>
    intro _ v q h
    cases h
    rw [between_self]
    exact .refl _
  | @itemsStay _ y _ _ _ _ _ ih =>
    intro hd v q h
    cases h
    rw [Value.leaves, Value.leavesAll_singleton]
    cases y <;> exact ih hd rfl
  | @itemsMore _ y _ _ _ _ _ _ _ _ g _ g' ih ih' =>
    intro hd v q h
    cases h
    cases y <;> exact (ih hd rfl).cons (le_of_means g) (le_of_means g') (ih' hd rfl)
  | sepBy _ ih | sepBy1 _ ih =>
    intro hd v q h
    exact (ih hd h).imp fun ⟨_, hs⟩ => nomatch hs
  | separated g g' ih ih' =>
    intro hd v q h
    subst h
    -- the words of the separator stand in front of those of the item
    rw [← between_append (le_of_means g) (le_of_means g')]
    exact (ih' hd rfl).lose fun ⟨_, hs⟩ => nomatch hs
  -- a list with separators is no unseparated phrase, so only the subsequence is left to show of its parts
  | listSome g g' ih ih' =>
    intro hd v q h
    cases h
    exact ((ih hd rfl).imp fun ⟨_, hs⟩ => nomatch hs).cons (le_of_means g) (le_of_means g')
      ((ih' hd rfl).imp fun ⟨_, hs⟩ => nomatch hs)
  | leaf hl =>
    intro _ v q h
    subst h
    rw [leaves_of_leaf? hl]
    exact .refl _
  | called hx _ ih =>
    intro hd v q h
    have hd' := Atom.of_target? hd hx
    exact (ih hd' h).imp fun ⟨hu, _⟩ => ⟨hu, hu _ (hd'.suffix.mem List.mem_cons_self) _ hd'.mem⟩

/-! ## Parses -/

variable {g : Grammar} {options : ParseOptions} {rule : String} {program : Template} {holes : List Value}
  {parse : Parse}

theorem exists_reads (h : g.parseWith options rule program holes = .ok parse) : ∃ d tokens, g.lookup rule = some d ∧
    g.scanner.scan program = .ok tokens ∧ g.Reads tokens d (some (parse.value, parse.consumed)) := by
  obtain ⟨d, tokens, v, s, hd, -, hs, hr, rfl⟩ := exists_runEntry_value h
  exact ⟨d, tokens, hd, hs, reads_of_runEntry (of_lookup hd) hr⟩

/-- **Nothing that was taken is lost, repeated or moved**: where no layer has actions, the leaves of a parse's value are
a subsequence of the words of the entries it took, and exactly these words where no rule has a list with separators. -/
theorem leaves_of_parseWith (g : Grammar) (options : ParseOptions) (rule : String) (program : Template)
    (holes : List Value) (parse : Parse) (hact : Actionless g.layers)
    (h : g.parseWith options rule program holes = .ok parse) : ∃ tokens, g.scanner.scan program = .ok tokens ∧
    parse.consumed ≤ tokens.entries.length ∧
    parse.value.leaves.Sublist ((tokens.entries.take parse.consumed).map Entry.word) ∧
    (Unseparated g.layers → parse.value.leaves = (tokens.entries.take parse.consumed).map Entry.word) := by
  obtain ⟨d, tokens, hd, hs, t, hm⟩ := exists_reads h
  have hof := of_lookup hd
  have hretains := retains_of_means hact hm hof rfl
  have hbody : Unseparated g.layers → d.rule.body.unseparated = true := fun hu =>
    hu _ (hof.suffix.mem List.mem_cons_self) _ hof.mem
  refine ⟨tokens, hs, ?_, hretains.sublist, fun hu => hretains.eq_of ⟨hu, hbody hu⟩⟩
  have := stop_of_means hm rfl
  omega

set_option maxRecDepth 10000 in
/-- Rows of names and holes: the first alternative reads them all and is given up. -/
theorem leaves_of_parseWith_rows : ∃ g parse tokens,
    compile (.literal "start ::= row \";\" / row EOF; row ::= IDENT (\",\" (IDENT / HOLE))*;") [] = .ok g ∧
    g.parseWith { memoize := false } "start" ⟨"a, b, ", [""]⟩ [.null] = .ok parse ∧
    g.scanner.scan ⟨"a, b, ", [""]⟩ = .ok tokens ∧
    parse.value.leaves = (tokens.entries.take parse.consumed).map Entry.word := by
  have hok : (do
      let g ← compile (.literal "start ::= row \";\" / row EOF; row ::= IDENT (\",\" (IDENT / HOLE))*;") []
      return decide (Actionless g.layers ∧ Unseparated g.layers) &&
        (g.parseWith { memoize := false } "start" ⟨"a, b, ", [""]⟩ [.null]).isOk) =
      (.ok true : Except DefinitionError Bool) := by decide +kernel
  obtain ⟨g, hg, hok⟩ := Except.bind_eq_ok.1 hok
  obtain ⟨hlayers, hparse⟩ := Bool.and_eq_true_iff.1 (Except.ok.inj hok)
  obtain ⟨hact, hunseparated⟩ := of_decide_eq_true hlayers
  cases hp : g.parseWith { memoize := false } "start" ⟨"a, b, ", [""]⟩ [.null] with
  | error e => rw [hp] at hparse; cases hparse
  | ok parse =>
    obtain ⟨tokens, hs, -, -, heq⟩ := leaves_of_parseWith g { memoize := false } "start" _ [.null] parse hact hp
    exact ⟨g, parse, tokens, hg, hp, hs, heq hunseparated⟩

end Grammar

end Packrat
