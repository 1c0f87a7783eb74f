import Packrat.Proofs.Built
import Packrat.Proofs.NotationReader
/-!
# DefinitionChecks — when a grammar can be defined

A grammar can be defined if there is an action for each hole, the text is rules of the notation (`IsText`), and the
rules may stand over the layers below them (`Definable`): none has the name of a terminal or of another one, and every
reference, however deep it occurs, has a definition where it is looked up.  Main statement: `compile` and `extend`
succeed then and only then (`defines_exactly`).
-/
namespace Packrat.Grammar

/-! ## Occurrences -/

inductive Occurs (ref : Reference) : (k : Kind) → k.Tree → Prop where
  | last {q} (h : Occurs ref .sequence q) : Occurs ref .choice (.last q)
  | alternative {q c} (h : Occurs ref .sequence q) : Occurs ref .choice (.orElse q c)
  | orElse {q c} (h : Occurs ref .choice c) : Occurs ref .choice (.orElse q c)
  | factor {f q} (h : Occurs ref .factor f) : Occurs ref .sequence (.andThen f q)
  | andThen {f q} (h : Occurs ref .sequence q) : Occurs ref .sequence (.andThen f q)
  | once {a} (h : Occurs ref .atom a) : Occurs ref .factor (.once a)
  | optional {a} (h : Occurs ref .atom a) : Occurs ref .factor (.optional a)
  | many {a} (h : Occurs ref .atom a) : Occurs ref .factor (.many a)
  | many1 {a} (h : Occurs ref .atom a) : Occurs ref .factor (.many1 a)
  | sepBy {a b} (h : Occurs ref .atom a) : Occurs ref .factor (.sepBy a b)
  | separator {a b} (h : Occurs ref .atom b) : Occurs ref .factor (.sepBy a b)
  | sepBy1 {a b} (h : Occurs ref .atom a) : Occurs ref .factor (.sepBy1 a b)
  | separator1 {a b} (h : Occurs ref .atom b) : Occurs ref .factor (.sepBy1 a b)
  | rule {n} (h : ref = .rule n) : Occurs ref .atom (.rule n)
  | super {n} (h : ref = .super n) : Occurs ref .atom (.super n)
  | group {c} (h : Occurs ref .choice c) : Occurs ref .atom (.group c)

def Kind.references : (k : Kind) → k.Tree → List Reference
  | .choice => Choice.references
  | .sequence => Sequence.references
  | .factor => Factor.references
  | .atom => Atom.references

theorem Occurs.mem {ref : Reference} {k : Kind} {x : k.Tree} (h : Occurs ref k x) : ref ∈ k.references x := by
  induction h with
  | last _ ih | once _ ih | optional _ ih | many _ ih | many1 _ ih | group _ ih => exact ih
  | alternative _ ih | factor _ ih | sepBy _ ih | sepBy1 _ ih => exact List.mem_append_left _ ih
  | orElse _ ih | andThen _ ih | separator _ ih | separator1 _ ih => exact List.mem_append_right _ ih
  | rule h | super h => exact List.mem_singleton.2 h

mutual

theorem Choice.occurs {ref : Reference} : ∀ c : Choice, ref ∈ c.references → Occurs ref .choice c
  | .last q, h => .last (q.occurs h)
  | .orElse q c, h => (List.mem_append.1 h).elim (fun h => .alternative (q.occurs h)) fun h => .orElse (c.occurs h)

theorem Sequence.occurs {ref : Reference} : ∀ q : Sequence, ref ∈ q.references → Occurs ref .sequence q
  | .stop _, h => by cases h
  | .andThen f q, h => (List.mem_append.1 h).elim (fun h => .factor (f.occurs h)) fun h => .andThen (q.occurs h)

theorem Factor.occurs {ref : Reference} : ∀ f : Factor, ref ∈ f.references → Occurs ref .factor f
  | .once a, h => .once (a.occurs h)
  | .optional a, h => .optional (a.occurs h)
  | .many a, h => .many (a.occurs h)
  | .many1 a, h => .many1 (a.occurs h)
  | .sepBy a b, h => (List.mem_append.1 h).elim (fun h => .sepBy (a.occurs h)) fun h => .separator (b.occurs h)
  | .sepBy1 a b, h => (List.mem_append.1 h).elim (fun h => .sepBy1 (a.occurs h)) fun h => .separator1 (b.occurs h)

theorem Atom.occurs {ref : Reference} : ∀ a : Atom, ref ∈ a.references → Occurs ref .atom a
  | .literal _, h | .terminal _, h => by cases h
  | .rule _, h => .rule (List.mem_singleton.1 h)
  | .super _, h => .super (List.mem_singleton.1 h)
  | .group c, h => .group (c.occurs h)

end

theorem mem_references_iff {ref : Reference} {c : Choice} : ref ∈ c.references ↔ Occurs ref .choice c :=
  ⟨c.occurs, Occurs.mem⟩

/-! ## Names -/

def Defines (g : Grammar) (name : String) : Prop := ∃ layer ∈ g.layers, ∃ r ∈ layer.rules, r.name = name

theorem isSome_find?_iff {name : String} : ∀ {layers : List Layer},
    (find? name layers).isSome ↔ ∃ layer ∈ layers, ∃ r ∈ layer.rules, r.name = name
  | [] => by
    refine ⟨fun h => by (cases h), ?_⟩
    rintro ⟨_, h, -⟩
    cases h
  | layer :: below => by
    rw [find?]
    cases hr : layer.rules.find? (·.name == name) with
    | some r =>
      have hname : r.name = name := by simpa using List.find?_some hr
      exact ⟨fun _ => ⟨layer, List.mem_cons_self, r, List.mem_of_find?_eq_some hr, hname⟩, fun _ => rfl⟩
    | none =>
      -- no rule of the topmost layer has the name
      have hnot : ∀ r ∈ layer.rules, r.name ≠ name := fun r hmem hname =>
        List.find?_eq_none.1 hr r hmem (beq_iff_eq.2 hname)
      rw [isSome_find?_iff]
      constructor
      · rintro ⟨l, hl, h⟩
        exact ⟨l, List.mem_cons_of_mem _ hl, h⟩
      · rintro ⟨l, hl, r, hmem, hname⟩
        rcases List.mem_cons.1 hl with rfl | hl
        · exact absurd hname (hnot r hmem)
        · exact ⟨l, hl, r, hmem, hname⟩

theorem exists_mem_layersOf_iff {parent : Option Grammar} {name : String} :
    (∃ layer ∈ layersOf parent, ∃ r ∈ layer.rules, r.name = name) ↔ ∃ g, parent = some g ∧ g.Defines name := by
  cases parent with
  | none =>
    constructor
    · rintro ⟨_, h, -⟩
      cases h
    · rintro ⟨_, h, -⟩
      cases h
  | some g =>
    refine ⟨fun h => ⟨g, rfl, h⟩, ?_⟩
    rintro ⟨g', hg, h⟩
    cases hg
    exact h

theorem ofName?_eq_none_iff {name : String} : Terminal.ofName? name = none ↔ ∀ t : Terminal, name ≠ t.name := by
  refine ⟨fun h t ht => ?_, fun h => ?_⟩
  · rw [ht, Terminal.ofName?_name] at h
    cases h
  · unfold Terminal.ofName?
    split
    · exact absurd rfl (h .number)
    · exact absurd rfl (h .string)
    · exact absurd rfl (h .ident)
    · exact absurd rfl (h .hole)
    · exact absurd rfl (h .eof)
    · exact absurd rfl (h .fail)
    · rfl

/-! ## Definability -/

/-- **The text is rules of the notation**: it is scanned, and all its entries derive them. -/
def IsText (text : Template) (rules : List Rule) : Prop :=
  ∃ s tokens, notationScanner = .ok s ∧ s.scan text = .ok tokens ∧ DerivesRules Decodes tokens.entries rules

/-- **The rules may stand over another grammar**, or over none. -/
structure Definable (parent : Option Grammar) (rules : List Rule) : Prop where
  not_terminal : ∀ r ∈ rules, ∀ t : Terminal, r.name ≠ t.name
  nodup : (rules.map Rule.name).Nodup
  rule : ∀ r ∈ rules, ∀ n, Occurs (.rule n) .choice r.body →
    (∃ r' ∈ rules, r'.name = n) ∨ ∃ g, parent = some g ∧ g.Defines n
  super : ∀ r ∈ rules, ∀ n, Occurs (.super n) .choice r.body → ∃ g, parent = some g ∧ g.Defines n

theorem isText_iff {text : Template} {rules : List Rule} : IsText text rules ↔ parseRules text = .ok rules := by
  constructor
  · rintro ⟨s, tokens, hs, hscan, h⟩
    exact (parseRules_eq_ok_iff_of_scan hs hscan).2 h
  · intro h
    obtain ⟨s, hs, tokens, hscan, -⟩ := parseRules_eq_ok_iff.1 h
    exact ⟨s, tokens, hs, hscan, (parseRules_eq_ok_iff_of_scan hs hscan).1 h⟩

variable {parent : Option Grammar} {rules : List Rule} {actions : List Action} {text : Template}

theorem isSome_target?_rule_iff {n : String} :
    ((Reference.rule n).target? (⟨rules, actions⟩ :: layersOf parent) (layersOf parent)).isSome ↔
      (∃ r' ∈ rules, r'.name = n) ∨ ∃ g, parent = some g ∧ g.Defines n := by
  rw [Reference.target?, isSome_find?_iff, ← exists_mem_layersOf_iff]
  simp only [List.mem_cons, exists_eq_or_imp]

theorem isSome_target?_super_iff {n : String} :
    ((Reference.super n).target? (⟨rules, actions⟩ :: layersOf parent) (layersOf parent)).isSome ↔
      ∃ g, parent = some g ∧ g.Defines n := by
  rw [Reference.target?, isSome_find?_iff, exists_mem_layersOf_iff]

/-- **The checks are that the rules are definable.** -/
theorem definable_iff (actions : List Action) : Definable parent rules ↔
    checkNames [] rules = .ok () ∧ checkReferences ⟨rules, actions⟩ (layersOf parent) = .ok () := by
  rw [checkNames_eq_ok_iff, checkReferences_eq_ok_iff]
  constructor
  · intro h
    refine ⟨⟨fun r hr => ⟨ofName?_eq_none_iff.2 (h.not_terminal r hr), List.not_mem_nil⟩, h.nodup⟩,
      fun r hr ref href => ?_⟩
    cases ref with
    | rule n => exact isSome_target?_rule_iff.2 (h.rule r hr n (mem_references_iff.1 href))
    | super n => exact isSome_target?_super_iff.2 (h.super r hr n (mem_references_iff.1 href))
  · rintro ⟨⟨hnames, hnodup⟩, hrefs⟩
    exact ⟨fun r hr => ofName?_eq_none_iff.1 (hnames r hr).1, hnodup,
      fun r hr n hn => isSome_target?_rule_iff.1 (hrefs r hr _ (mem_references_iff.2 hn)),
      fun r hr n hn => isSome_target?_super_iff.1 (hrefs r hr _ (mem_references_iff.2 hn))⟩

theorem exists_ofRules_iff (actions : List Action) : (∃ g, ofRules parent rules actions = .ok g) ↔ Definable parent rules := by
  obtain ⟨scanner, hscanner, -⟩ := Scanner.ofTokens_eq (literalsOver parent rules)
  rw [definable_iff actions]
  constructor
  · rintro ⟨g, hg⟩
    obtain ⟨hn, hr, -⟩ := ofRules_eq_ok_iff.1 hg
    exact ⟨hn, hr⟩
  · rintro ⟨hn, hr⟩
    exact ⟨_, ofRules_eq_ok_iff.2 ⟨hn, hr, scanner, hscanner, rfl⟩⟩

theorem exists_build_iff : (∃ g, build parent text actions = .ok g) ↔
    text.holeCount = actions.length ∧ ∃ rules, IsText text rules ∧ Definable parent rules := by
  simp only [build_eq_ok_iff, isText_iff, ← exists_ofRules_iff actions]
  constructor
  · rintro ⟨g, hcount, rules, hrules, hg⟩
    exact ⟨hcount, rules, hrules, g, hg⟩
  · rintro ⟨hcount, rules, hrules, g, hg⟩
    exact ⟨g, hcount, rules, hrules, hg⟩

/-- **A grammar is defined exactly if it can be**: alone, or over another one. -/
theorem defines_exactly (text : Template) (actions : List Action) :
    ((∃ g, compile text actions = .ok g) ↔
      text.holeCount = actions.length ∧ ∃ rules, IsText text rules ∧ Definable none rules) ∧
    ∀ parent : Grammar, (∃ g, extend parent text actions = .ok g) ↔
      text.holeCount = actions.length ∧ ∃ rules, IsText text rules ∧ Definable (some parent) rules :=
  ⟨exists_build_iff, fun _ => exists_build_iff⟩

end Packrat.Grammar
