import Packrat.Proofs.DeclaredTokens
import Packrat.Proofs.Lookahead
import Packrat.Proofs.Resolution
/-!
# LiteralSet — every literal that a run asks for is known

The literals of a tree are collected by a walk of their own, beside the one that runs the tree.  They are the literals
that occur in it at any depth, in groups, in separators and in groups that separate (`Choice.mem_literals_iff`).  A run
stays inside the bodies of definitions: what occurs in a phrase that it comes to occurs in the body of the phrase's
definition (`Step.inBody`).  So every literal that a run asks for was collected, and every token that it goes past is of
a kind or has the text of one that was (`knownAt_of_means`).  Main statement: `literals_complete`.
-/
namespace Packrat

open Text (bytes)

def Scanner.Knows (s : Scanner) (w : String) : Prop := w ∈ s.lexicon.keywords ∨ w ∈ s.operators

def Lexicon.Classifies (l : Lexicon) (t : Token) : Prop :=
  l.isNumber t = true ∨ l.isString t = true ∨ l.isIdent t = true

theorem Scanner.knows_iff_of_ofTokens {tokens : List String} {s : Scanner} (h : ofTokens tokens = .ok s) {w : String} :
    s.Knows w ↔ w ∈ tokens ∧ w ≠ "" := by
  obtain ⟨hkeywords, hoperators⟩ := vocabularies_of_ofTokens h
  rw [Knows, hkeywords, hoperators, Text.mem_vocabulary Text.strict_byteOrder.total,
    Text.mem_vocabulary Text.strict_longestFirst.total, mem_declared, mem_declared, ← and_or_left]
  refine and_iff_left ?_
  cases s.lexicon.ident.accepts w <;> simp

namespace Grammar

/-! ## Atoms that occur in a tree -/

def Factor.atoms : Factor → List Atom
  | .once a | .optional a | .many a | .many1 a => [a]
  | .sepBy a separator | .sepBy1 a separator => [a, separator]

def Sequence.atoms : Sequence → List Atom
  | .stop _ => []
  | .andThen f rest => f.atoms ++ rest.atoms

def Choice.atoms : Choice → List Atom
  | .last s => s.atoms
  | .orElse s rest => s.atoms ++ rest.atoms

/-- **An atom occurs in another one**, at any depth: it is that atom, or it occurs in one of its group. -/
inductive Atom.OccursIn (y : Atom) : Atom → Prop where
  | self : OccursIn y y
  | group {c : Choice} {x : Atom} (hx : x ∈ c.atoms) (h : OccursIn y x) : OccursIn y (.group c)

def Atom.OccursAmong (y : Atom) (xs : List Atom) : Prop := ∃ x ∈ xs, y.OccursIn x

variable {y : Atom} {xs zs : List Atom} {text : String}

theorem Atom.OccursAmong.mono (h : y.OccursAmong xs) (hs : xs ⊆ zs) : y.OccursAmong zs := by
  obtain ⟨x, hx, hy⟩ := h
  exact ⟨x, hs hx, hy⟩

theorem Atom.occursAmong_append : y.OccursAmong (xs ++ zs) ↔ y.OccursAmong xs ∨ y.OccursAmong zs := by
  simp only [OccursAmong, List.mem_append, or_and_right, exists_or]

theorem Atom.occursAmong_singleton {x : Atom} : y.OccursAmong [x] ↔ y.OccursIn x := by
  simp only [OccursAmong, List.mem_singleton, exists_eq_left]

theorem Atom.occursAmong_pair {x z : Atom} : y.OccursAmong [x, z] ↔ y.OccursIn x ∨ y.OccursIn z := by
  rw [← List.singleton_append, occursAmong_append, occursAmong_singleton, occursAmong_singleton]

theorem Atom.literal_occursIn_group {c : Choice} :
    (Atom.literal text).OccursIn (.group c) ↔ (Atom.literal text).OccursAmong c.atoms := by
  constructor
  · intro h
    cases h with
    | group hx h => exact ⟨_, hx, h⟩
  · rintro ⟨x, hx, h⟩
    exact .group hx h

mutual

/-- **The literals of a tree are those that occur in it.** -/
theorem Choice.mem_literals_iff : ∀ {c : Choice}, text ∈ c.literals ↔ (Atom.literal text).OccursAmong c.atoms
  | .last _ => Sequence.mem_literals_iff
  | .orElse _ _ => by
    rw [Choice.literals, Choice.atoms, List.mem_append, Atom.occursAmong_append, Sequence.mem_literals_iff,
      Choice.mem_literals_iff]

theorem Sequence.mem_literals_iff : ∀ {s : Sequence}, text ∈ s.literals ↔ (Atom.literal text).OccursAmong s.atoms
  | .stop _ => ⟨nofun, nofun⟩
  | .andThen _ _ => by
    rw [Sequence.literals, Sequence.atoms, List.mem_append, Atom.occursAmong_append, Factor.mem_literals_iff,
      Sequence.mem_literals_iff]

theorem Factor.mem_literals_iff : ∀ {f : Factor}, text ∈ f.literals ↔ (Atom.literal text).OccursAmong f.atoms
  | .once _ | .optional _ | .many _ | .many1 _ => by
    rw [Factor.literals, Factor.atoms, Atom.occursAmong_singleton, Atom.mem_literals_iff]
  | .sepBy _ _ | .sepBy1 _ _ => by
    rw [Factor.literals, Factor.atoms, List.mem_append, Atom.occursAmong_pair, Atom.mem_literals_iff,
      Atom.mem_literals_iff]

theorem Atom.mem_literals_iff : ∀ {x : Atom}, text ∈ x.literals ↔ (Atom.literal text).OccursIn x
  | .literal other => by
    rw [Atom.literals, List.mem_singleton]
    exact ⟨fun h => h ▸ .self, fun h => by cases h; rfl⟩
  | .terminal _ | .rule _ | .super _ => ⟨nofun, nofun⟩
  | .group _ => by
    rw [Atom.literals, Atom.literal_occursIn_group, Choice.mem_literals_iff]

end

theorem mem_literalsIn_iff {layers : List Layer} : text ∈ literalsIn layers ↔
    ∃ layer ∈ layers, ∃ r ∈ layer.rules, (Atom.literal text).OccursAmong r.body.atoms := by
  simp only [literalsIn, List.mem_flatMap, Choice.mem_literals_iff]

/-! ## What a run comes to -/

def Phrase.atoms : Phrase → List Atom
  | .choice c => c.atoms
  | .sequence _ s => s.atoms
  | .factor f => f.atoms
  | .atom x => [x]
  | .item separator x | .items separator x => x :: separator.toList
  | .listOf separator x => [x, separator]

def Phrase.InBody (φ : Phrase) (d : Definition) : Prop :=
  ∀ y : Atom, y.OccursAmong φ.atoms → y.OccursAmong d.rule.body.atoms

variable {layers : List Layer} {memoize : Bool} {tokens : TokenList} {d : Definition} {φ ψ : Phrase} {x z : Site}
  {p k : Nat} {a : Answer} {t : Trail}

theorem Phrase.InBody.of_subset (h : ψ.InBody d) (hs : φ.atoms ⊆ ψ.atoms) : φ.InBody d :=
  fun y hy => h y (hy.mono hs)

theorem Phrase.InBody.group {c : Choice} (h : (Phrase.atom (.group c)).InBody d) : (Phrase.choice c).InBody d := by
  rintro y ⟨x, hx, hy⟩
  exact h y ⟨_, List.mem_singleton.2 rfl, .group hx hy⟩

theorem Phrase.InBody.separator {y x : Atom} (h : (Phrase.listOf y x).InBody d) : (Phrase.atom y).InBody d :=
  h.of_subset (List.subset_cons_self _ _)

theorem Phrase.InBody.leading {y x : Atom} (h : (Phrase.listOf y x).InBody d) : (Phrase.atom x).InBody d :=
  h.of_subset (List.cons_subset_cons _ (List.nil_subset _))

theorem Step.inBody (h : Step layers memoize x z) (hx : x.phrase.InBody x.definition) :
    z.phrase.InBody z.definition := by
  cases h with
  | last | once | optional | many | many1 | sepBy | sepBy1 | bare | item | more | others => exact hx
  | first | head => exact hx.of_subset (List.subset_append_left _ _)
  | next | tail => exact hx.of_subset (List.subset_append_right _ _)
  | separator => exact Phrase.InBody.separator hx
  | separated | leading => exact Phrase.InBody.leading hx
  | group => exact hx.group
  | call => exact fun _ hy => hy

theorem Comes.inBody {s : State} {fuel : Nat} (h : Comes layers memoize d s fuel x) :
    x.phrase.InBody x.definition := by
  induction h with
  | refl => exact fun _ hy => hy
  | tail _ hstep ih => exact hstep.inBody ih

theorem mem_literalsIn_of_body (hd : d.Of layers) (h : (Atom.literal text).OccursAmong d.rule.body.atoms) :
    text ∈ literalsIn layers :=
  mem_literalsIn_iff.2 ⟨d.layer, hd.suffix.mem List.mem_cons_self, d.rule, hd.mem, h⟩

/-! ## What a run takes -/

def KnownAt (layers : List Layer) (tokens : TokenList) (k : Nat) : Prop :=
  ∀ w, tokens.entries[k]? = some (.token w) → tokens.lexicon.Classifies w ∨ w.text ∈ literalsIn layers

variable {v : Value} {q : Nat} {w : Token}

theorem getElem?_of_answerAt {value? : Entry → Option Value} (h : answerAt tokens p value? = some (v, q)) (hpk : p ≤ k)
    (hkq : k < q) : ∃ e, tokens.entries[k]? = some e ∧ value? e = some v := by
  obtain ⟨rfl, -⟩ := answerAt_eq_some h
  obtain rfl : p = k := by omega
  obtain ⟨u, hu, he⟩ := Option.map_eq_some_iff.1 h
  cases he
  exact Option.bind_eq_some_iff.1 hu

theorem Terminal.classifies_of_valueOf? {l : Lexicon} : ∀ {T : Terminal}, T.valueOf? l (.token w) = some v →
    l.Classifies w
  | .number, h => .inl (Option.ite_none_right_eq_some.1 h).1
  | .string, h => .inr (.inl (Option.ite_none_right_eq_some.1 h).1)
  | .ident, h => .inr (.inr (Option.ite_none_right_eq_some.1 h).1)

theorem Atom.knownAt_of_leaf? (hpk : p ≤ k) (hkq : k < q) : ∀ {x : Atom}, x.leaf? tokens p = some (some (v, q)) →
    (∀ text, x = .literal text → text ∈ literalsIn layers) → KnownAt layers tokens k
  | .literal text, h, hx => fun w hw => by
    obtain ⟨e, he, hv⟩ := getElem?_of_answerAt (Option.some.inj h) hpk hkq
    cases he.symm.trans hw
    rw [(Option.ite_none_right_eq_some.1 hv).1]
    exact .inr (hx text rfl)
  | .terminal .eof, h, _ => by
    obtain ⟨-, h⟩ := Option.ite_none_right_eq_some.1 (Option.some.inj h)
    cases h
    omega
  | .terminal .fail, h, _ => by cases h
  | .terminal .number, h, _ | .terminal .string, h, _ | .terminal .ident, h, _ | .terminal .hole, h, _ => fun w hw => by
    obtain ⟨e, he, hv⟩ := getElem?_of_answerAt (Option.some.inj h) hpk hkq
    cases he.symm.trans hw
    exact .inl (Terminal.classifies_of_valueOf? hv)

theorem lt_furthest_both {u : Trail} (g : Means layers tokens d φ p (some (v, q)) t) (hp : p ≤ k)
    (hk : k < (t.both u).furthest) : k < t.furthest ∨ q ≤ k ∧ k < u.furthest := by
  have hq := stop_le_furthest g rfl
  simp only [Trail.furthest] at hk
  omega

/-- **Every token that a derivation went past is known**, by induction on the derivation: a literal or a terminal took
it, and that occurs in the body of a definition of the layers. -/
theorem knownAt_of_means (h : Means layers tokens d φ p a t) : d.Of layers → φ.InBody d → p ≤ k → k < t.furthest →
    KnownAt layers tokens k := by
  induction h with
  | last _ ih | once _ ih | present _ ih | absent _ ih | many _ ih | many1 _ ih | many1Fail _ ih | sepBy _ ih
  | sepBy1 _ ih | sepBy1Fail _ ih | bare _ ih | itemsEnd _ ih | itemsStay _ ih => exact ih
  | first _ ih | factorFail _ ih => exact fun hd hφ => ih hd (hφ.of_subset (List.subset_append_left _ _))
  | separatorFail _ ih => exact fun hd hφ => ih hd (Phrase.InBody.separator hφ)
  | listNone _ ih => exact fun hd hφ => ih hd hφ.leading
  | next _ _ ih ih' =>
    intro hd hφ hp hk
    rcases lt_max_iff.1 hk with hk | hk
    · exact ih hd (hφ.of_subset (List.subset_append_left _ _)) hp hk
    · exact ih' hd (hφ.of_subset (List.subset_append_right _ _)) hp hk
  -- no position is left out between two parts, as the second begins no further on than the first one reached
  | factorThen g _ ih ih' =>
    intro hd hφ hp hk
    rcases lt_furthest_both g hp hk with hk | ⟨hq, hk⟩
    · exact ih hd (hφ.of_subset (List.subset_append_left _ _)) hp hk
    · exact ih' hd (hφ.of_subset (List.subset_append_right _ _)) hq hk
  | separated g _ ih ih' =>
    intro hd hφ hp hk
    rcases lt_furthest_both g hp hk with hk | ⟨hq, hk⟩
    · exact ih hd (Phrase.InBody.separator hφ) hp hk
    · exact ih' hd (Phrase.InBody.leading hφ) hq hk
  | itemsMore g _ _ ih ih' =>
    intro hd hφ hp hk
    rcases lt_furthest_both g hp hk with hk | ⟨hq, hk⟩
    · exact ih hd hφ hp hk
    · exact ih' hd hφ hq hk
  | listSome g _ ih ih' =>
    intro hd hφ hp hk
    rcases lt_furthest_both g hp hk with hk | ⟨hq, hk⟩
    · exact ih hd hφ.leading hp hk
    · exact ih' hd hφ hq hk
  | sole | all | act | refuse | dangling => exact fun _ _ _ hk => absurd hk (Nat.not_lt_zero _)
  | @leaf d x p a hl =>
    intro hd hφ hp hk
    cases a with
    | none => exact absurd hk (Nat.not_lt_zero _)
    | some r =>
      refine Atom.knownAt_of_leaf? hp hk hl fun text hx => mem_literalsIn_of_body hd (hφ _ ?_)
      exact ⟨x, List.mem_singleton.2 rfl, hx ▸ .self⟩
  | group _ ih => exact fun hd hφ => ih hd hφ.group
  | called hx _ ih => exact fun hd _ => ih (Atom.of_target? hd hx) fun _ hy => hy

/-! ## Built grammars -/

/-- **The literals of a grammar are complete and canonical.**  They ascend strictly in the order of their bytes, and are
those that occur in the body of a rule of some layer, at any depth, whether or not the rule is defined again above.  The
scanner of programs knows them and no other words, the empty one aside.  So it knows every literal that a run of a rule
comes to, from whatever state the run starts and whether it ends or not; and over whatever entries, every token before
the furthest position of a run is of a kind or has the text of a literal. -/
theorem literals_complete (g : Grammar) (hg : Built g) :
    g.literals.Pairwise (fun v w => bytes v < bytes w) ∧
    (∀ text, text ∈ g.literals ↔
      ∃ layer ∈ g.layers, ∃ r ∈ layer.rules, (Atom.literal text).OccursAmong r.body.atoms) ∧
    (∀ text, g.scanner.Knows text ↔ text ∈ g.literals ∧ text ≠ "") ∧
    ∀ (rule : String) (d : Definition) (memoize : Bool), g.lookup rule = some d →
      (∀ s fuel x text, Comes g.layers memoize d s fuel x → x.phrase = .atom (.literal text) →
        text ∈ g.literals ∧ (text ≠ "" → g.scanner.Knows text)) ∧
      ∀ tokens k n w, g.furthest? memoize d tokens = some k → n < k → tokens.entries[n]? = some (.token w) →
        tokens.lexicon.Classifies w ∨ w.text ∈ g.literals := by
  have hknows : ∀ text, g.scanner.Knows text ↔ text ∈ g.literals ∧ text ≠ "" := fun text =>
    Scanner.knows_iff_of_ofTokens hg.scanner_eq
  refine ⟨?_, fun text => hg.mem_literals_iff.trans mem_literalsIn_iff, hknows, fun rule d memoize hd => ⟨?_, ?_⟩⟩
  · rw [hg.literals_eq]
    refine (Text.pairwise_vocabulary Text.strict_byteOrder _).imp fun {v w} h => ?_
    exact Text.bytes_lt_iff.2 (of_decide_eq_true h)
  · intro s fuel x text hx htext
    have hoccurs : (Atom.literal text).OccursAmong x.phrase.atoms := by
      rw [htext]
      exact Atom.occursAmong_singleton.2 .self
    have hmem := hg.mem_literals_iff.2
      (mem_literalsIn_of_body (hx.inside (of_lookup hd)).definition (hx.inBody _ hoccurs))
    exact ⟨hmem, fun hne => (hknows text).2 ⟨hmem, hne⟩⟩
  · intro tokens k n w hk hn hw
    obtain ⟨a, t, hm, rfl⟩ := exists_means_of_furthest? (of_lookup hd) hk
    have hknown := knownAt_of_means hm (of_lookup hd) (fun _ hy => hy) (Nat.zero_le n) hn
    exact (hknown w hw).imp_right hg.mem_literals_iff.2

set_option maxRecDepth 10000 in
/-- A literal of a group that separates, and one of a rule that is defined again above. -/
theorem literals_complete_separators : ∃ parent g d tokens x,
    compile (.literal "start ::= \"old\";") [] = .ok parent ∧
    extend parent (.literal "start ::= \"new\" ++ (\",\" \"!\"?);") [] = .ok g ∧ g.lookup "start" = some d ∧
    g.literals = ["!", ",", "new", "old"] ∧ g.literals.Pairwise (fun v w => bytes v < bytes w) ∧
    (∀ text ∈ g.literals, ∃ layer ∈ g.layers, ∃ r ∈ layer.rules, (Atom.literal text).OccursAmong r.body.atoms) ∧
    (Comes g.layers false d (State.start tokens.cursor).countCall 1 x ∧ x.phrase = .atom (.literal "new") ∧
      g.scanner.Knows "new") ∧
    g.scanner.scan (.literal "new,! new") = .ok tokens ∧ g.furthest? false d tokens = some 4 ∧
    ∀ n w, n < 4 → tokens.entries[n]? = some (.token w) → tokens.lexicon.Classifies w ∨ w.text ∈ g.literals := by
  have hok : (do
      let parent ← compile (.literal "start ::= \"old\";") []
      let g ← extend parent (.literal "start ::= \"new\" ++ (\",\" \"!\"?);") []
      return decide (g.literals = ["!", ",", "new", "old"]) && (g.lookup "start").any fun d =>
        decide (d.rule.body = .last (.andThen (.sepBy1 (.literal "new") (.group (.last (.andThen (.once (.literal ","))
          (.andThen (.optional (.literal "!")) (.stop none)))))) (.stop none))) &&
        (g.scanner.scan (.literal "new,! new")).toOption.any fun tokens =>
          decide (g.furthest? false d tokens = some 4)) = (.ok true : Except DefinitionError Bool) := by decide +kernel
  obtain ⟨parent, hp, hok⟩ := Except.bind_eq_ok.1 hok
  obtain ⟨g, hg, hok⟩ := Except.bind_eq_ok.1 hok
  obtain ⟨hliterals, hok⟩ := Bool.and_eq_true_iff.1 (Except.ok.inj hok)
  obtain ⟨d, hd, hok⟩ := (Option.any_eq_true _ _).1 hok
  obtain ⟨hbody, hok⟩ := Bool.and_eq_true_iff.1 hok
  have hliterals : g.literals = ["!", ",", "new", "old"] := of_decide_eq_true hliterals
  have hbody := of_decide_eq_true hbody
  cases hs : g.scanner.scan (.literal "new,! new") with
  | error e => rw [hs] at hok; cases hok
  | ok tokens =>
    rw [hs] at hok
    have hk : g.furthest? false d tokens = some 4 := of_decide_eq_true hok
    obtain ⟨hordered, hoccur, -, hruns⟩ := literals_complete g (.extended (.compiled hp) hg)
    obtain ⟨hasks, htakes⟩ := hruns "start" d false hd
    have hcomes : Comes g.layers false d (State.start tokens.cursor).countCall 1
        ⟨d, .atom (.literal "new"), (State.start tokens.cursor).countCall, 1⟩ := by
      rw [Comes, hbody]
      exact .head .last (.head .head (.head .sepBy1 (.single .leading)))
    refine ⟨parent, g, d, tokens, _, hp, hg, hd, hliterals, hordered, fun text htext => (hoccur text).1 htext,
      ⟨hcomes, rfl, ?_⟩, hs, hk, fun n w hn hw => htakes tokens 4 n w hk hn hw⟩
    exact (hasks _ _ _ "new" hcomes rfl).2 (by decide)

end Grammar

end Packrat
