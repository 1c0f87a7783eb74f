import Packrat.Grammar.Build
import Packrat.Proofs.ActionHoles
import Packrat.Proofs.Definitions
import Packrat.Proofs.Vocabulary
/-!
# Built — what is known of a grammar built from text

Building checks a layer over the layers below it: its rules have names of their own, every reference has a definition,
and its actions are the holes of its text in order (`Layer.Checked`).  So every layer of a built grammar is checked
(`Built.checked`).  The literals of a built grammar are the vocabulary of all its layers (`Built.literals_eq`), and its
scanner is the one of these literals (`Built.scanner_eq`).
-/
namespace Packrat.Grammar

inductive Built : Grammar → Prop where
  | compiled {text : Template} {actions : List Action} {g : Grammar} (h : compile text actions = .ok g) : Built g
  | extended {parent : Grammar} {text : Template} {actions : List Action} {g : Grammar} (hp : Built parent)
      (h : extend parent text actions = .ok g) : Built g

/-! ## Checks -/

theorem checkNames_eq_ok_iff : ∀ {seen : List String} {rules : List Rule}, checkNames seen rules = .ok () ↔
    (∀ r ∈ rules, Terminal.ofName? r.name = none ∧ r.name ∉ seen) ∧ (rules.map Rule.name).Nodup
  | _, [] => ⟨fun _ => ⟨fun r hr => by (cases hr), List.nodup_nil⟩, fun _ => rfl⟩
  | seen, r :: rules => by
    rw [checkNames, List.map_cons, List.nodup_cons]
    cases ht : Terminal.ofName? r.name with
    | some t =>
      refine ⟨fun h => by (cases h), fun h => ?_⟩
      have := (h.1 r List.mem_cons_self).1
      rw [ht] at this
      cases this
    | none =>
      by_cases hs : r.name ∈ seen
      · rw [if_neg (by simp), if_pos (by simpa using hs)]
        exact ⟨fun h => by (cases h), fun h => absurd hs (h.1 r List.mem_cons_self).2⟩
      · rw [if_neg (by simp), if_neg (by simpa using hs), checkNames_eq_ok_iff]
        constructor
        · rintro ⟨h, hn⟩
          refine ⟨fun r' hr' => ?_, fun hm => ?_, hn⟩
          · rcases List.mem_cons.1 hr' with rfl | hr'
            · exact ⟨ht, hs⟩
            · exact ⟨(h r' hr').1, fun hm => (h r' hr').2 (List.mem_cons_of_mem _ hm)⟩
          · obtain ⟨r', hr', he⟩ := List.mem_map.1 hm
            exact (h r' hr').2 (he ▸ List.mem_cons_self)
        · rintro ⟨h, hm, hn⟩
          refine ⟨fun r' hr' => ⟨(h r' (List.mem_cons_of_mem _ hr')).1, fun hr => ?_⟩, hn⟩
          rcases List.mem_cons.1 hr with he | hr
          · exact hm (he ▸ List.mem_map_of_mem hr')
          · exact (h r' (List.mem_cons_of_mem _ hr')).2 hr

/-- What a reference stands for in a rule over the layers below: a bare name is looked up in all layers. -/
def Reference.target? (layers below : List Layer) : Reference → Option Definition
  | .rule name => find? name layers
  | .super name => find? name below

theorem Reference.fault?_eq_none_iff {rule : String} {layer : Layer} {below : List Layer} :
    ∀ {r : Reference}, r.fault? rule layer below = none ↔ (r.target? (layer :: below) below).isSome
  | .rule name => by
    rw [fault?.eq_1, target?]
    by_cases h : (find? name (layer :: below)).isSome
    · rw [if_pos h]
      exact ⟨fun _ => h, fun _ => rfl⟩
    · rw [if_neg h]
      split <;> exact ⟨fun h => by (cases h), fun h' => absurd h' h⟩
  | .super name => by
    rw [fault?.eq_2, target?]
    cases below with
    | nil => exact ⟨fun h => by (cases h), fun h => by (cases h)⟩
    | cons top under =>
      rw [List.isEmpty_cons, if_neg Bool.false_ne_true]
      by_cases h : (find? name (top :: under)).isSome
      · rw [if_pos h]
        exact ⟨fun _ => h, fun _ => rfl⟩
      · rw [if_neg h]
        exact ⟨fun h => by (cases h), fun h' => absurd h' h⟩

theorem checkReferences_eq_ok_iff {layer : Layer} {below : List Layer} : checkReferences layer below = .ok () ↔
    ∀ r ∈ layer.rules, ∀ ref ∈ r.body.references, (ref.target? (layer :: below) below).isSome := by
  have hnone : ∀ r ∈ layer.rules, ((∀ ref ∈ r.body.references, (ref.target? (layer :: below) below).isSome) ↔
      r.body.references.findSome? (Reference.fault? r.name layer below) = none) := fun r _ => by
    rw [List.findSome?_eq_none_iff]
    exact forall₂_congr fun ref _ => Reference.fault?_eq_none_iff.symm
  rw [forall₂_congr hnone, ← List.findSome?_eq_none_iff, checkReferences]
  split
  · rename_i e he
    rw [he]
    exact ⟨fun h => by (cases h), fun h => by (cases h)⟩
  · rename_i he
    exact ⟨fun _ => he, fun _ => rfl⟩

structure Layer.Checked (layer : Layer) (below : List Layer) : Prop where
  names : checkNames [] layer.rules = .ok ()
  references : checkReferences layer below = .ok ()
  actions : actionsOf layer.rules = List.range layer.actions.length

def AllChecked (layers : List Layer) : Prop :=
  ∀ {layer : Layer} {below : List Layer}, layer :: below <:+ layers → layer.Checked below

/-! ## Building -/

theorem ofRules_eq_ok_iff {parent : Option Grammar} {rules : List Rule} {actions : List Action} {g : Grammar} :
    ofRules parent rules actions = .ok g ↔
      checkNames [] rules = .ok () ∧ checkReferences ⟨rules, actions⟩ (layersOf parent) = .ok () ∧
      ∃ scanner, Scanner.ofTokens (literalsOver parent rules) = .ok scanner ∧
        g = ⟨⟨rules, actions⟩, layersOf parent, literalsOver parent rules, scanner⟩ := by
  unfold ofRules
  rw [Except.bind_eq_ok]
  constructor
  · rintro ⟨⟨⟩, hn, h⟩
    obtain ⟨⟨⟩, hr, h⟩ := Except.bind_eq_ok.1 h
    refine ⟨hn, hr, ?_⟩
    dsimp only at h
    split at h
    · rename_i scanner hs
      cases h
      exact ⟨scanner, hs, rfl⟩
    · cases h
  · rintro ⟨hn, hr, scanner, hs, rfl⟩
    refine ⟨(), hn, Except.bind_eq_ok.2 ⟨(), hr, ?_⟩⟩
    dsimp only
    rw [hs]
    rfl

theorem build_eq_ok_iff {parent : Option Grammar} {text : Template} {actions : List Action} {g : Grammar} :
    build parent text actions = .ok g ↔
      text.holeCount = actions.length ∧ ∃ rules, parseRules text = .ok rules ∧ ofRules parent rules actions = .ok g := by
  unfold build
  split
  · rename_i h
    rw [Except.bind_eq_ok]
    exact ⟨fun h' => ⟨h, h'⟩, fun h' => h'.2⟩
  · rename_i h
    exact ⟨fun h' => by (cases h'), fun h' => absurd h'.1 h⟩

def literalsIn (layers : List Layer) : List String := layers.flatMap fun l => l.rules.flatMap fun r => r.body.literals

variable {parent : Option Grammar} {text : Template} {actions : List Action} {g : Grammar}

/-- **What building adds**: a checked layer on top of the layers of the parent, and its literals to theirs. -/
theorem of_build (h : build parent text actions = .ok g) :
    g.own.Checked g.inherited ∧ g.inherited = layersOf parent ∧ Scanner.ofTokens g.literals = .ok g.scanner ∧
    g.literals = literalsOver parent g.own.rules := by
  obtain ⟨hc, rules, hrules, h⟩ := build_eq_ok_iff.1 h
  obtain ⟨hn, hr, scanner, hs, rfl⟩ := ofRules_eq_ok_iff.1 h
  exact ⟨⟨hn, hr, by rw [← hc]; exact actions_of_parseRules hrules⟩, rfl, hs, rfl⟩

theorem Built.checked (hg : Built g) : AllChecked g.layers := by
  induction hg with
  | compiled h =>
    intro layer below hs
    obtain ⟨hc, hi, -, -⟩ := of_build h
    rcases List.suffix_cons_iff.1 hs with he | hs
    · cases he
      exact hc
    · rw [hi] at hs
      cases List.suffix_nil.1 hs
  | extended _ h ih =>
    intro layer below hs
    obtain ⟨hc, hi, -, -⟩ := of_build h
    rcases List.suffix_cons_iff.1 hs with he | hs
    · cases he
      exact hc
    · rw [hi] at hs
      exact ih hs

theorem Built.scanner_eq (hg : Built g) : Scanner.ofTokens g.literals = .ok g.scanner := by
  cases hg with
  | compiled h | extended _ h => exact (of_build h).2.2.1

theorem Built.literals_eq (hg : Built g) : g.literals = Text.vocabulary Text.byteOrder (literalsIn g.layers) := by
  induction hg with
  | compiled h =>
    obtain ⟨-, hi, -, hl⟩ := of_build h
    rw [hl, layers, hi]
    refine Text.vocabulary_eq_of_mem_iff Text.strict_byteOrder fun x => ?_
    simp [literalsIn, layersOf]
  | @extended parent _ _ g _ h ih =>
    obtain ⟨-, hi, -, hl⟩ := of_build h
    have hmem : ∀ x, x ∈ parent.literals ↔ x ∈ literalsIn parent.layers := fun x => by
      rw [ih, Text.mem_vocabulary Text.strict_byteOrder.total]
    rw [hl, layers, hi]
    refine Text.vocabulary_eq_of_mem_iff Text.strict_byteOrder fun x => ?_
    change x ∈ parent.literals ++ _ ↔ x ∈ g.own.rules.flatMap _ ++ literalsIn parent.layers
    rw [List.mem_append, List.mem_append, hmem, Or.comm]

theorem Built.mem_literals_iff (hg : Built g) {text : String} : text ∈ g.literals ↔ text ∈ literalsIn g.layers := by
  rw [hg.literals_eq, Text.mem_vocabulary Text.strict_byteOrder.total]

/-! ## Layers of built grammars -/

variable {layers below : List Layer} {layer : Layer} {r : Rule}

theorem AllChecked.tail (h : AllChecked (layer :: below)) : AllChecked below :=
  fun hs => h (hs.trans (List.suffix_cons _ _))

theorem Layer.Checked.nodup (h : layer.Checked below) : (layer.rules.map Rule.name).Nodup :=
  (checkNames_eq_ok_iff.1 h.names).2

theorem Layer.Checked.ofName? (h : layer.Checked below) (hr : r ∈ layer.rules) : Terminal.ofName? r.name = none :=
  ((checkNames_eq_ok_iff.1 h.names).1 r hr).1

theorem Layer.Checked.target? (h : layer.Checked below) (hr : r ∈ layer.rules) {ref : Reference}
    (href : ref ∈ r.body.references) : (ref.target? (layer :: below) below).isSome :=
  checkReferences_eq_ok_iff.1 h.references r hr ref href

theorem Layer.Checked.lt_length (h : layer.Checked below) (hr : r ∈ layer.rules) {i : Nat} (hi : i ∈ r.body.actions) :
    i < layer.actions.length := by
  rw [← List.mem_range, ← h.actions]
  exact List.mem_flatMap.2 ⟨r, hr, hi⟩

theorem isSome_find?_of_suffix {name : String} (h : (find? name below).isSome) :
    ∀ {layers : List Layer}, below <:+ layers → (find? name layers).isSome
  | [], hs => by rwa [List.suffix_nil.1 hs] at h
  | top :: under, hs => by
    rcases List.suffix_cons_iff.1 hs with rfl | hs
    · exact h
    · rw [find?]
      split
      · rfl
      · exact isSome_find?_of_suffix h hs

/-- **The references of a definition of checked layers lead to their definitions.** -/
theorem AllChecked.exists_target? (h : AllChecked layers) {d : Definition} (hd : d.Of layers) {ref : Reference}
    (href : ref ∈ d.rule.body.references) : ∃ e, ref.target? layers d.below = some e ∧ e.Of layers := by
  have hs := (h hd.suffix).target? hd.mem href
  cases ref with
  | rule n =>
    obtain ⟨e, he⟩ := Option.isSome_iff_exists.1 (isSome_find?_of_suffix hs hd.suffix)
    exact ⟨e, he, (of_find? he).1⟩
  | super n =>
    obtain ⟨e, he⟩ := Option.isSome_iff_exists.1 hs
    exact ⟨e, he, hd.find?_below he⟩

theorem AllChecked.definition (h : AllChecked layers) (hs : layer :: below <:+ layers) (hr : r ∈ layer.rules) :
    Definition.Of ⟨r, layer, below⟩ layers :=
  ⟨hs, find?_eq_some_of_nodup (h hs).nodup hr⟩

end Packrat.Grammar
