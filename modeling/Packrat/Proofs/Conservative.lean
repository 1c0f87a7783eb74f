import Packrat.Proofs.ParseMeaning
import Packrat.Proofs.Undeclared
/-!
# Conservative — extensions that leave the rules below as they are

An extension may add rules under new names, and may hand on a rule under its own name (`Rule.Conserves`).  A name then
stands for the rule below or for a row of rules that hand it on, each of which answers what the next one answers and
reaches as far (`exists_find?_append`).  So every phrase of a rule below means in the extension what it means without
it, and the other way round (`reaches_append_iff`); the words that the extension declares do no harm if they do not occur
in the program.  Main statement: such an extension parses every program without its words as the grammar below does
(`parseWith_extends`).
-/
namespace Packrat.Grammar

/-- The body of a rule that hands on the rule of its name below it: `name ::= super.name;`. -/
def handsOn (name : String) : Choice := .last (.andThen (.once (.super name)) (.stop none))

/-- **A rule that leaves the rules of a grammar as they are**: its name is new, or it hands on the rule below. -/
def Rule.Conserves (g : Grammar) (r : Rule) : Prop := g.hasRule r.name = false ∨ r.body = handsOn r.name

instance (g : Grammar) (r : Rule) : Decidable (r.Conserves g) := inferInstanceAs (Decidable (_ ∨ _))

/-- **An extension of a grammar**, by one text or by several one over the other, with the layers that these add. -/
inductive Extends (g : Grammar) : List Layer → Grammar → Prop where
  | refl : Extends g [] g
  | extend {added : List Layer} {D D' : Grammar} {text : Template} {actions : List Action} (h : Extends g added D)
      (hx : extend D text actions = .ok D') : Extends g (D'.own :: added) D'

def Reaches (layers : List Layer) (tokens : TokenList) (d : Definition) (φ : Phrase) (p : Nat) (a : Answer) (k : Nat) :
    Prop :=
  ∃ t, Means layers tokens d φ p a t ∧ t.furthest = k

variable {g D : Grammar} {layers base added : List Layer} {tokens tokens' : TokenList} {d e e' : Definition}
  {name : String} {p k : Nat} {a : Answer}

theorem Extends.built (h : Extends g added D) (hg : Built g) : Built D := by
  induction h with
  | refl => exact hg
  | extend _ hx ih => exact .extended ih hx

theorem Extends.layers_eq (h : Extends g added D) : D.layers = added ++ g.layers := by
  induction h with
  | refl => rfl
  | @extend _ D D' _ _ _ hx ih =>
    obtain ⟨-, hi, -, -⟩ := of_build hx
    rw [layers, hi, List.cons_append, ← ih]
    rfl

theorem Extends.literals_subset (h : Extends g added D) : g.literals ⊆ D.literals := by
  induction h with
  | refl => exact List.Subset.refl _
  | @extend _ D D' _ _ _ hx ih =>
    obtain ⟨-, -, -, hl⟩ := of_build hx
    intro w hw
    rw [hl, literalsOver, Text.mem_vocabulary Text.strict_byteOrder.total]
    exact List.mem_append_left _ (ih hw)

/-! ## Rules that hand on -/

theorem reaches_reference (r : Reference) (he : r.target? layers d.below = some e) :
    Reaches layers tokens d (.atom r.atom) p a k ↔ Reaches layers tokens e (.choice e.rule.body) p a k := by
  have hx : r.atom.target? layers d = some (some e) := by rw [Reference.target?_atom, he]
  constructor
  · rintro ⟨t, hm, hk⟩
    generalize r.atom = x at hx hm
    cases hm with
    | leaf hl => rw [Atom.target?_of_leaf? hl] at hx; cases hx
    | group _ => cases hx
    | called hx' hm =>
      cases hx.symm.trans hx'
      exact ⟨_, hm, hk⟩
    | dangling hx' => cases hx.symm.trans hx'
  · rintro ⟨t, hm, hk⟩
    exact ⟨_, .called hx hm, hk⟩

theorem reaches_handsOn :
    Reaches layers tokens d (.choice (handsOn name)) p a k ↔ Reaches layers tokens d (.atom (.super name)) p a k := by
  constructor
  · rintro ⟨t, hm, hk⟩
    cases hm with
    | last hm =>
      cases hm with
      | factorFail hm =>
        cases hm with
        | once hm => exact ⟨_, hm, hk⟩
      | factorThen hm hm' =>
        cases hm with
        | once hm =>
          cases hm' with
          | sole => exact ⟨_, hm, (Nat.max_zero _).symm.trans hk⟩
          | all hne => exact absurd rfl hne
  · rintro ⟨t, hm, hk⟩
    cases a with
    | none => exact ⟨_, .last (.factorFail (.once hm)), hk⟩
    | some r => exact ⟨_, .last (.factorThen (.once hm) .sole), (Nat.max_zero _).trans hk⟩

/-- The rules of added layers have names that the layers below do not know, or hand on. -/
def Conserving (base added : List Layer) : Prop :=
  ∀ layer ∈ added, ∀ r ∈ layer.rules, find? r.name base = none ∨ r.body = handsOn r.name

structure Definition.HandsOn (base : List Layer) (d : Definition) (name : String) (more : List Layer) : Prop where
  body : d.rule.body = handsOn name
  below : d.below = more ++ base
  conserving : Conserving base more
  known : (find? name base).isSome

/-- **A known name under added layers** stands for the definition below them or for one that hands on, and this one
answers what the definition below answers, whatever the layers and the entries are. -/
theorem exists_find?_append (he : find? name base = some e) : ∀ {added : List Layer}, Conserving base added →
    ∃ e', find? name (added ++ base) = some e' ∧ (e' = e ∨ ∃ more, e'.HandsOn base name more) ∧
      ∀ {layers tokens p a k}, Reaches layers tokens e' (.choice e'.rule.body) p a k ↔
        Reaches layers tokens e (.choice e.rule.body) p a k
  | [], _ => ⟨e, he, Or.inl rfl, Iff.rfl⟩
  | layer :: added, hc => by
    have hbelow : Conserving base added := fun l hl => hc l (List.mem_cons_of_mem _ hl)
    obtain ⟨e'', he'', hkind, hreach⟩ := exists_find?_append he hbelow
    cases hr : layer.rules.find? (·.name == name) with
    | none => exact ⟨e'', by rw [List.cons_append, find?, hr]; exact he'', hkind, hreach⟩
    | some r =>
      have hname : r.name = name := by simpa using List.find?_some hr
      -- the name is known below the added layers, so that a rule of this name can only hand on
      have hbody : r.body = handsOn name := by
        rcases hc layer List.mem_cons_self r (List.mem_of_find?_eq_some hr) with hnone | hbody
        · rw [hname, he] at hnone
          cases hnone
        · rw [hbody, hname]
      refine ⟨⟨r, layer, added ++ base⟩, by rw [List.cons_append, find?, hr],
        Or.inr ⟨added, hbody, rfl, hbelow, by rw [he]; rfl⟩, fun {layers tokens p a k} => ?_⟩
      rw [hbody, reaches_handsOn, ← hreach]
      exact reaches_reference (.super name) he''

/-! ## Phrases below the added layers -/

/-- **What a rule of checked layers means** it means under conserving layers too. -/
theorem transfer_up (hb : AllChecked base) (hc : Conserving base added)
    (hleaf : ∀ (x : Atom) (p : Nat), x.leaf? tokens p = x.leaf? tokens' p) :
    Transfer base (added ++ base) tokens tokens' (·.Of base) k fun t t' => t'.furthest = t.furthest where
  refl _ := rfl
  both h h' := by rw [Trail.furthest, Trail.furthest, h, h']
  leaf _ hx := by rw [← hleaf, hx]
  called {d e ref} hd href he := by
    cases ref with
    | rule n =>
      have he : find? n base = some e := he
      obtain ⟨e', he', -, hreach⟩ := exists_find?_append he hc
      exact ⟨(of_find? he).1, fun h => (reaches_reference (.rule n) he').2 (hreach.2 h)⟩
    | super n =>
      have hbelow : find? n d.below = some e := he
      exact ⟨hd.find?_below he, fun h => (reaches_reference (.super n) hbelow).2 h⟩
  dangling hd href hn := by
    obtain ⟨e, he, -⟩ := hb.exists_target? hd href
    cases hn.symm.trans he

def Below (base : List Layer) (d : Definition) : Prop := d.Of base ∨ ∃ name more, d.HandsOn base name more

theorem below_of_find? (hc : Conserving base added) (hknown : (find? name base).isSome)
    (he : find? name (added ++ base) = some e) : Below base e := by
  obtain ⟨e₀, he₀⟩ := Option.isSome_iff_exists.1 hknown
  obtain ⟨e', he', hkind, -⟩ := exists_find?_append he₀ hc
  cases he.symm.trans he'
  rcases hkind with rfl | ⟨more, hmore⟩
  · exact Or.inl (of_find? he₀).1
  · exact Or.inr ⟨name, more, hmore⟩

theorem transfer_down (hb : AllChecked base) (hc : Conserving base added)
    (hleaf : ∀ (x : Atom) (p : Nat), x.leaf? tokens p = x.leaf? tokens' p) :
    Transfer (added ++ base) base tokens tokens' (Below base) k fun t t' => t'.furthest = t.furthest where
  refl _ := rfl
  both h h' := by rw [Trail.furthest, Trail.furthest, h, h']
  leaf _ hx := by rw [← hleaf, hx]
  called {d e ref} hd href he := by
    rcases hd with hd | ⟨name, more, hd⟩
    · obtain ⟨e₀, he₀, hof⟩ := hb.exists_target? hd href
      cases ref with
      | rule n =>
        -- a bare name may have come to stand for a rule that hands on; what is below it is what it stood for
        have he₀ : find? n base = some e₀ := he₀
        obtain ⟨e', he', -, hreach⟩ := exists_find?_append he₀ hc
        cases he.symm.trans he'
        exact ⟨below_of_find? hc (by rw [he₀]; rfl) he',
          fun h => (reaches_reference (.rule n) he₀).2 (hreach.1 h)⟩
      | super n =>
        cases he.symm.trans he₀
        have hbelow : find? n d.below = some e := he
        exact ⟨Or.inl hof, fun h => (reaches_reference (.super n) hbelow).2 h⟩
    · rw [hd.body] at href
      cases List.mem_singleton.1 href
      have hbelow : find? name d.below = some e := he
      exact ⟨below_of_find? hd.conserving hd.known (hd.below ▸ he),
        fun h => (reaches_reference (.super name) hbelow).2 h⟩
  dangling {d ref} hd href hn := by
    rcases hd with hd | ⟨name, more, hd⟩
    · obtain ⟨e₀, he₀, -⟩ := hb.exists_target? hd href
      cases ref with
      | rule n =>
        have hsome := isSome_find?_of_suffix (Option.isSome_iff_exists.2 ⟨e₀, he₀⟩) (List.suffix_append added base)
        rw [show find? n (added ++ base) = none from hn] at hsome
        cases hsome
      | super n => exact hn
    · rw [hd.body] at href
      cases List.mem_singleton.1 href
      exact hn

/-- **A rule of checked layers under conserving layers**: it answers the same and reaches as far. -/
theorem reaches_append_iff (hb : AllChecked base) (hc : Conserving base added) (he : e.Of base)
    (hleaf : ∀ (x : Atom) (p : Nat), x.leaf? tokens p = x.leaf? tokens' p) :
    Reaches (added ++ base) tokens e (.choice e.rule.body) p a k ↔ Reaches base tokens' e (.choice e.rule.body) p a k := by
  constructor
  · rintro ⟨t, hm, hk⟩
    obtain ⟨t', hm', ht⟩ := (transfer_down (k := max p t.furthest) hb hc hleaf).means hm (Or.inl he)
      (List.Subset.refl _) (Nat.le_max_left _ _) (Nat.le_max_right _ _)
    exact ⟨t', hm', ht.trans hk⟩
  · rintro ⟨t, hm, hk⟩
    obtain ⟨t', hm', ht⟩ := (transfer_up (k := max p t.furthest) hb hc fun x p => (hleaf x p).symm).means hm he
      (List.Subset.refl _) (Nat.le_max_left _ _) (Nat.le_max_right _ _)
    exact ⟨t', hm', ht.trans hk⟩

/-! ## Parses -/

variable {rule : String} {program : Template} {holes : List Value} {options : ParseOptions} {text : Template}
  {actions : List Action}

/-- **Rules that answer the same and reach as far** give the same outcome over the same entries. -/
theorem outcome_eq_of_reaches (hd : D.lookup rule = some d) (he : g.lookup rule = some e)
    (hh : program.holeCount = holes.length) (hs : D.scanner.scan program = .ok tokens)
    (hs' : g.scanner.scan program = .ok tokens') (hentries : tokens.entries = tokens'.entries)
    (h : ∀ a k, Reaches D.layers tokens d (.choice d.rule.body) 0 a k ↔
      Reaches g.layers tokens' e (.choice e.rule.body) 0 a k) :
    (D.parseWith options rule program holes).map Parse.outcome =
      (g.parseWith options rule program holes).map Parse.outcome := by
  rw [parseWith_eq_runEntry options hd hh hs, parseWith_eq_runEntry options he hh hs']
  by_cases hr : ∃ a, D.Reads tokens d a
  · obtain ⟨a, t, hm⟩ := hr
    obtain ⟨t', hm', ht⟩ := (h a t.furthest).1 ⟨t, hm, rfl⟩
    obtain ⟨hvalue, hfail⟩ := runEntry_of_means options.memoize (of_lookup hd) hm
    obtain ⟨hvalue', hfail'⟩ := runEntry_of_means options.memoize (of_lookup he) hm'
    cases a with
    | none =>
      obtain ⟨s, hs, hf⟩ := hfail rfl
      obtain ⟨s', hs', hf'⟩ := hfail' rfl
      rw [hs, hs']
      dsimp only
      rw [hf, hf', ht, hentries]
    | some r =>
      obtain ⟨s, hs, hq⟩ := hvalue r.1 r.2 rfl
      obtain ⟨s', hs', hq'⟩ := hvalue' r.1 r.2 rfl
      rw [hs, hs']
      dsimp only [Except.map, Parse.outcome]
      rw [hq, hq', hentries]
  · have hr' : ¬∃ a, g.Reads tokens' e a := by
      rintro ⟨a, t, hm⟩
      obtain ⟨t', hm', -⟩ := (h a t.furthest).2 ⟨t, hm, rfl⟩
      exact hr ⟨a, t', hm'⟩
    rw [runEntry_eq_exhausted (of_lookup hd) hr, runEntry_eq_exhausted (of_lookup he) hr']

theorem Extends.sameWords (h : Extends g added D) {segment : String}
    (hw : ∀ w ∈ D.literals, w ∉ g.literals → w ≠ "" → ¬w.toList <:+: segment.toList) :
    SameWords D.literals g.literals segment.toList := by
  intro w hne hin
  constructor
  · intro hD
    by_contra hg
    exact hw w hD hg hne hin
  · exact fun hg => h.literals_subset hg

/-- **An extension that leaves the rules below as they are is conservative**: where the words that it declares on top do
not occur in a program, a rule of the grammar below gives the same value, takes the same of the same entries, or fails
with the same error in both. -/
theorem parseWith_extends (g : Grammar) (added : List Layer) (D : Grammar) (hg : Built g) (hD : Extends g added D)
    (hrules : ∀ layer ∈ added, ∀ r ∈ layer.rules, r.Conserves g) (options : ParseOptions) (rule : String)
    (hrule : g.hasRule rule = true) (program : Template) (holes : List Value)
    (hwords : ∀ segment ∈ program.segments, ∀ w ∈ D.literals, w ∉ g.literals → w ≠ "" →
      ¬w.toList <:+: segment.toList) :
    (D.parseWith options rule program holes).map Parse.outcome =
      (g.parseWith options rule program holes).map Parse.outcome := by
  have hc : Conserving g.layers added := fun layer hl r hr =>
    (hrules layer hl r hr).imp_left fun h => Option.not_isSome_iff_eq_none.1 (Bool.eq_false_iff.1 h)
  obtain ⟨e, he⟩ := Option.isSome_iff_exists.1 hrule
  obtain ⟨d, hd, -, hreach⟩ := exists_find?_append he hc
  have hlookup : D.lookup rule = some d := by rw [lookup, hD.layers_eq, hd]
  by_cases hh : program.holeCount = holes.length
  · rcases Scanner.scan_of_sameWords (hD.built hg).scanner_eq hg.scanner_eq
      fun segment hseg => hD.sameWords (hwords segment hseg) with ⟨error, hs, hs'⟩ | ⟨l, l', hs, hs', hentries, halike⟩
    · rw [parseWith, parseWith, hlookup, he, hs, hs']
    · have hleaf : ∀ (x : Atom) (p : Nat), x.leaf? l p = x.leaf? l' p := fun x p => by
        refine Atom.leaf?_of_alike ?_ x
        rw [← hentries]
        cases hp : l.entries[p]? with
        | none => exact .none
        | some entry => exact .some (halike entry (List.mem_of_getElem? hp))
      refine outcome_eq_of_reaches hlookup he hh hs hs' hentries fun a k => ?_
      rw [hreach, hD.layers_eq]
      exact reaches_append_iff hg.checked hc (of_lookup he) hleaf
  · rw [parseWith, parseWith, hlookup, he]
    simp only [if_pos hh]

set_option maxRecDepth 10000 in
/-- Sums, and over them a binding with words of its own, which hands on the rule for sums. -/
theorem parseWith_extends_sums : ∃ g D,
    compile (.literal "start ::= NUMBER ** \"+\";") [] = .ok g ∧
    extend g (.literal "start ::= super.start; binding ::= \"let\" IDENT \"+=\" start;") [] = .ok D ∧
    (∀ r ∈ D.own.rules, r.Conserves g) ∧
    (∀ w ∈ D.literals, w ∉ g.literals → w ≠ "" → ¬w.toList <:+: "1 + 2".toList) ∧
    (D.parseWith {} "start" (.literal "1 + 2") []).map Parse.outcome =
      (g.parseWith {} "start" (.literal "1 + 2") []).map Parse.outcome := by
  have hok : (do
      let g ← compile (.literal "start ::= NUMBER ** \"+\";") []
      let D ← extend g (.literal "start ::= super.start; binding ::= \"let\" IDENT \"+=\" start;") []
      return g.hasRule "start" && decide (∀ r ∈ D.own.rules, r.Conserves g) &&
        decide (∀ w ∈ D.literals, w ∉ g.literals → w ≠ "" → ¬w.toList <:+: "1 + 2".toList)) =
      (.ok true : Except DefinitionError Bool) := by decide +kernel
  obtain ⟨g, hg, hok⟩ := Except.bind_eq_ok.1 hok
  obtain ⟨D, hD, hok⟩ := Except.bind_eq_ok.1 hok
  have hall := Except.ok.inj hok
  simp only [Bool.and_eq_true, decide_eq_true_eq] at hall
  obtain ⟨⟨hrule, hrules⟩, hwords⟩ := hall
  refine ⟨g, D, hg, hD, hrules, hwords, parseWith_extends g [D.own] D (.compiled hg) (.extend .refl hD) ?_ {} "start"
    hrule (.literal "1 + 2") [] ?_⟩
  · intro layer hl
    rw [List.mem_singleton.1 hl]
    exact hrules
  · intro segment hseg
    rw [List.mem_singleton.1 hseg]
    exact hwords

end Packrat.Grammar
