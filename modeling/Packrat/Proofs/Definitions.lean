import Packrat.Grammar.Basic
/-!
# Definitions — what a name can stand for

Looking a name up in layers, or in the layers below a definition of theirs, gives a definition of these layers
(`of_find?`, `Definition.Of.find?_below`).  Among the definitions of layers the number of layers below and the name tell
one from another (`Definition.Of.eq_of_id_eq`), and there are no more of them than rules (`Definition.Of.id_mem`).
-/
namespace Packrat.Grammar

/-- **A definition of the layers**: it is the first of its name in one of them. -/
structure Definition.Of (d : Definition) (layers : List Layer) : Prop where
  suffix : d.layer :: d.below <:+ layers
  first : d.layer.rules.find? (·.name == d.rule.name) = some d.rule

/-- The rules of layers, counted with those that are defined again above. -/
def ruleTotal (layers : List Layer) : Nat := (layers.flatMap Layer.rules).length

def ruleIds : List Layer → List RuleId
  | [] => []
  | layer :: below => layer.rules.map (fun r => ⟨below.length, r.name⟩) ++ ruleIds below

theorem length_ruleIds : ∀ layers : List Layer, (ruleIds layers).length = ruleTotal layers
  | [] => rfl
  | layer :: below => by
    simp only [ruleIds, List.length_append, List.length_map, length_ruleIds below]
    simp only [ruleTotal, List.flatMap_cons, List.length_append]

theorem find?_eq_some_of_nodup {r : Rule} : ∀ {rules : List Rule}, (rules.map Rule.name).Nodup → r ∈ rules →
    rules.find? (·.name == r.name) = some r
  | r' :: rules, hn, hr => by
    rw [List.map_cons, List.nodup_cons] at hn
    rcases List.mem_cons.1 hr with rfl | hr
    · exact List.find?_cons_of_pos (beq_self_eq_true _)
    · have hne : r'.name ≠ r.name := fun he => hn.1 (he ▸ List.mem_map_of_mem hr)
      exact (List.find?_cons_of_neg (by simpa using hne)).trans (find?_eq_some_of_nodup hn.2 hr)

variable {layers : List Layer} {name : String} {d d' : Definition}

theorem of_find? : ∀ {layers : List Layer}, find? name layers = some d → d.Of layers ∧ d.rule.name = name
  | [], h => by cases h
  | layer :: below, h => by
    rw [find?] at h
    cases hr : layer.rules.find? (·.name == name) with
    | some rule =>
      rw [hr] at h
      cases h
      have hn : rule.name = name := by simpa using List.find?_some hr
      exact ⟨⟨List.suffix_rfl, by rw [hn]; exact hr⟩, hn⟩
    | none =>
      rw [hr] at h
      obtain ⟨⟨hs, hf⟩, hn⟩ := of_find? h
      exact ⟨⟨hs.trans (List.suffix_cons layer below), hf⟩, hn⟩

theorem Definition.Of.mem (h : d.Of layers) : d.rule ∈ d.layer.rules := List.mem_of_find?_eq_some h.first

theorem Definition.Of.find?_below (h : d.Of layers) (hf : find? name d.below = some d') : d'.Of layers := by
  obtain ⟨⟨hs, hr⟩, -⟩ := of_find? hf
  exact ⟨(hs.trans (List.suffix_cons _ _)).trans h.suffix, hr⟩

/-- **The id tells the definitions of layers apart.** -/
theorem Definition.Of.eq_of_id_eq (h : d.Of layers) (h' : d'.Of layers) (hid : d.id = d'.id) : d = d' := by
  obtain ⟨rule, layer, below⟩ := d
  obtain ⟨rule', layer', below'⟩ := d'
  obtain ⟨hs, hr⟩ := h
  obtain ⟨hs', hr'⟩ := h'
  simp only [Definition.id, RuleId.mk.injEq] at hid hs hs' hr hr'
  have hl : layer :: below = layer' :: below' := by
    rw [List.suffix_iff_eq_drop] at hs hs'
    rw [hs, hs', List.length_cons, List.length_cons, hid.1]
  cases hl
  rw [hid.2, hr'] at hr
  cases hr
  rfl

theorem id_mem_ruleIds {rule : Rule} {layer : Layer} {below : List Layer} (hr : rule ∈ layer.rules) :
    ∀ {layers : List Layer}, layer :: below <:+ layers → (⟨below.length, rule.name⟩ : RuleId) ∈ ruleIds layers
  | [], hs => by simp at hs
  | top :: under, hs => by
    rcases List.suffix_cons_iff.1 hs with he | hs
    · cases he
      exact List.mem_append_left _ (List.mem_map.2 ⟨rule, hr, rfl⟩)
    · exact List.mem_append_right _ (id_mem_ruleIds hr hs)

theorem Definition.Of.id_mem (h : d.Of layers) : d.id ∈ ruleIds layers := id_mem_ruleIds h.mem h.suffix

end Packrat.Grammar
