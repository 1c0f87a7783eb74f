import Packrat.Proofs.DefinitionChecks
/-!
# ActionChecks — no action is missing and none is left over

A walk over the bodies of rules meets references and the actions of sequences, in the order of the text, and may stop
at a reference without a definition or at an action that was not given (`Choice.check`).  Where no action is missing the
walk finds what is wrong with the references alone, and the same fault first (`check_eq`).  In the rules of a text no
action is missing once there are as many actions as holes, so building with the walk is building (`buildByWalk_eq`).
Main statement: `actions_attached`.
-/
namespace Packrat.Grammar

def Layer.action (layer : Layer) (i : Nat) : Except DefinitionError Action :=
  match layer.actions[i]? with
  | some act => .ok act
  | none => .error (.actionCount (i + 1) layer.actions.length)

def failWith : Option DefinitionError → Except DefinitionError Unit
  | some e => .error e
  | none => .ok ()

section

variable (rule : String) (layer : Layer) (below : List Layer)

mutual

/-- **The walk over a body**: alternatives and factors in their order, an item before its separator, and the action of a
sequence behind its factors. -/
def Choice.check : Choice → Except DefinitionError Unit
  | .last s => s.check
  | .orElse s rest => do
    s.check
    rest.check

def Sequence.check : Sequence → Except DefinitionError Unit
  | .stop none => .ok ()
  | .stop (some i) => do
    let _ ← layer.action i
    return ()
  | .andThen f rest => do
    f.check
    rest.check

def Factor.check : Factor → Except DefinitionError Unit
  | .once a | .optional a | .many a | .many1 a => a.check
  | .sepBy a separator | .sepBy1 a separator => do
    a.check
    separator.check

def Atom.check : Atom → Except DefinitionError Unit
  | .literal _ | .terminal _ => .ok ()
  | .rule name => failWith (Reference.fault? rule layer below (.rule name))
  | .super name => failWith (Reference.fault? rule layer below (.super name))
  | .group c => c.check

end

def checkBodies : List Rule → Except DefinitionError Unit
  | [] => .ok ()
  | r :: rules => do
    r.body.check r.name layer below
    checkBodies rules

end

def buildByWalk (parent : Option Grammar) (text : Template) (actions : List Action) : Except DefinitionError Grammar :=
  if text.holeCount = actions.length then do
    let rules ← parseRules text
    checkNames [] rules
    checkBodies ⟨rules, actions⟩ (layersOf parent) rules
    match Scanner.ofTokens (literalsOver parent rules) with
    | .ok scanner => return ⟨⟨rules, actions⟩, layersOf parent, literalsOver parent rules, scanner⟩
    | .error e => throw (.lex e)
  else .error (.actionCount text.holeCount actions.length)

/-! ## The walk without missing actions -/

variable {rule : String} {layer : Layer} {below : List Layer}

theorem action_eq_ok {i : Nat} (hi : i < layer.actions.length) : layer.action i = .ok layer.actions[i] := by
  rw [Layer.action, List.getElem?_eq_getElem hi]

theorem failWith_append (f : Reference → Option DefinitionError) (a b : List Reference) :
    failWith ((a ++ b).findSome? f) = (do
      failWith (a.findSome? f)
      failWith (b.findSome? f)) := by
  rw [List.findSome?_append]
  cases a.findSome? f <;> rfl

theorem failWith_singleton (f : Reference → Option DefinitionError) (r : Reference) :
    failWith ([r].findSome? f) = failWith (f r) := by
  rw [List.findSome?_singleton]

mutual

/-- **Where no action is missing, the walk stops at the first reference that is wrong.** -/
theorem check_eq : ∀ c : Choice, (∀ i ∈ c.actions, i < layer.actions.length) →
    c.check rule layer below = failWith (c.references.findSome? (Reference.fault? rule layer below))
  | .last s, h => Sequence.check_eq s h
  | .orElse s rest, h => by
    rw [Choice.check, Choice.references, failWith_append,
      Sequence.check_eq s fun i hi => h i (List.mem_append_left _ hi),
      check_eq rest fun i hi => h i (List.mem_append_right _ hi)]

theorem Sequence.check_eq : ∀ s : Sequence, (∀ i ∈ s.actions, i < layer.actions.length) →
    s.check rule layer below = failWith (s.references.findSome? (Reference.fault? rule layer below))
  | .stop none, _ => rfl
  | .stop (some i), h => by
    rw [Sequence.check, action_eq_ok (h i List.mem_cons_self)]
    rfl
  | .andThen f rest, h => by
    rw [Sequence.check, Sequence.references, failWith_append,
      Factor.check_eq f fun i hi => h i (List.mem_append_left _ hi),
      Sequence.check_eq rest fun i hi => h i (List.mem_append_right _ hi)]

theorem Factor.check_eq : ∀ f : Factor, (∀ i ∈ f.actions, i < layer.actions.length) →
    f.check rule layer below = failWith (f.references.findSome? (Reference.fault? rule layer below))
  | .once a, h | .optional a, h | .many a, h | .many1 a, h => Atom.check_eq a h
  | .sepBy a b, h | .sepBy1 a b, h => by
    rw [Factor.check, Factor.references, failWith_append,
      Atom.check_eq a fun i hi => h i (List.mem_append_left _ hi),
      Atom.check_eq b fun i hi => h i (List.mem_append_right _ hi)]

theorem Atom.check_eq : ∀ a : Atom, (∀ i ∈ a.actions, i < layer.actions.length) →
    a.check rule layer below = failWith (a.references.findSome? (Reference.fault? rule layer below))
  | .literal _, _ | .terminal _, _ => rfl
  | .rule _, _ | .super _, _ => (failWith_singleton _ _).symm
  | .group c, h => check_eq c h

end

theorem checkBodies_eq : ∀ {rules : List Rule}, (∀ r ∈ rules, ∀ i ∈ r.body.actions, i < layer.actions.length) →
    checkBodies layer below rules =
      failWith (rules.findSome? fun r => r.body.references.findSome? (Reference.fault? r.name layer below))
  | [], _ => rfl
  | r :: rules, h => by
    rw [checkBodies, check_eq r.body (h r List.mem_cons_self),
      checkBodies_eq fun r' hr' => h r' (List.mem_cons_of_mem _ hr'), List.findSome?_cons]
    cases r.body.references.findSome? (Reference.fault? r.name layer below) <;> rfl

theorem fault?_ne_actionCount (ref : Reference) (holes given : Nat) :
    ref.fault? rule layer below ≠ some (.actionCount holes given) := by
  cases ref with
  | rule n =>
    rw [Reference.fault?]
    split
    · intro h
      cases h
    · split <;> intro h <;> cases h
  | super n =>
    rw [Reference.fault?]
    split
    · intro h
      cases h
    · split <;> intro h <;> cases h

/-! ## Texts with an action for each hole -/

variable {parent : Option Grammar} {text : Template} {rules : List Rule} {actions : List Action}

theorem lt_length_of_parseRules (h : parseRules text = .ok rules) (hcount : text.holeCount = actions.length) :
    ∀ r ∈ rules, ∀ i ∈ r.body.actions, i < actions.length :=
  fun _ hr _ hi => hcount ▸ lt_holeCount_of_parseRules h hr hi

/-- **The walk over the rules of a text never misses an action.** -/
theorem check_ne_actionCount (h : parseRules text = .ok rules) (hcount : text.holeCount = actions.length) {r : Rule}
    (hr : r ∈ rules) (holes given : Nat) :
    r.body.check r.name ⟨rules, actions⟩ below ≠ .error (.actionCount holes given) := by
  rw [check_eq r.body (lt_length_of_parseRules h hcount r hr)]
  intro herror
  cases hfault : r.body.references.findSome? (Reference.fault? r.name ⟨rules, actions⟩ below) with
  | none =>
    rw [hfault] at herror
    cases herror
  | some e =>
    rw [hfault] at herror
    cases herror
    obtain ⟨ref, -, href⟩ := List.exists_of_findSome?_eq_some hfault
    exact fault?_ne_actionCount ref holes given href

/-- **Building with the walk is building.** -/
theorem buildByWalk_eq (parent : Option Grammar) (text : Template) (actions : List Action) :
    buildByWalk parent text actions = build parent text actions := by
  unfold buildByWalk build
  by_cases hcount : text.holeCount = actions.length
  · rw [if_pos hcount, if_pos hcount]
    cases h : parseRules text with
    | error e => rfl
    | ok rules =>
      have hwalk : checkBodies ⟨rules, actions⟩ (layersOf parent) rules =
          checkReferences ⟨rules, actions⟩ (layersOf parent) := by
        rw [checkBodies_eq (lt_length_of_parseRules h hcount), checkReferences]
        dsimp only
        cases rules.findSome? fun r => r.body.references.findSome?
          (Reference.fault? r.name ⟨rules, actions⟩ (layersOf parent)) <;> rfl
      change (checkNames [] rules >>= fun _ => checkBodies ⟨rules, actions⟩ (layersOf parent) rules >>= _) = _
      rw [hwalk]
      rfl
  · rw [if_neg hcount, if_neg hcount]

theorem checkNames_ne_actionCount (holes given : Nat) (seen : List String) (rules : List Rule) :
    checkNames seen rules ≠ .error (.actionCount holes given) := by
  induction rules generalizing seen with
  | nil =>
    intro h
    cases h
  | cons r rules ih =>
    rw [checkNames]
    split
    · intro h
      cases h
    · split
      · intro h
        cases h
      · exact ih (r.name :: seen)

/-- **Building fails for the number of actions only where this is not the number of holes.** -/
theorem build_ne_actionCount (h : parseRules text = .ok rules) (hcount : text.holeCount = actions.length)
    (holes given : Nat) : build parent text actions ≠ .error (.actionCount holes given) := by
  rw [build, if_pos hcount, h]
  change ofRules parent rules actions ≠ _
  unfold ofRules
  cases hnames : checkNames [] rules with
  | error e =>
    rintro ⟨⟩
    exact checkNames_ne_actionCount holes given [] rules hnames
  | ok _ =>
    cases hfault : rules.findSome? fun r =>
      r.body.references.findSome? (Reference.fault? r.name ⟨rules, actions⟩ (layersOf parent)) with
    | some e =>
      have hreferences : checkReferences ⟨rules, actions⟩ (layersOf parent) = .error e := by
        rw [checkReferences, hfault]
      rw [hreferences]
      rintro ⟨⟩
      obtain ⟨r, -, hr⟩ := List.exists_of_findSome?_eq_some hfault
      obtain ⟨ref, -, href⟩ := List.exists_of_findSome?_eq_some hr
      exact fault?_ne_actionCount ref holes given href
    | none =>
      have hreferences : checkReferences ⟨rules, actions⟩ (layersOf parent) = .ok () := by
        rw [checkReferences, hfault]
      obtain ⟨scanner, hscanner, -⟩ := Scanner.ofTokens_eq (literalsOver parent rules)
      rw [hreferences]
      dsimp only [bind, Except.bind]
      rw [hscanner]
      intro h
      cases h

/-- **Every action belongs to one sequence, the one whose hole it fills.**  The actions of the rules of a text, in the
order of the text, are its holes in order, each derived as the end of its own sequence.  So with as many actions as
holes the walk over the bodies, with which building is the same, finds the action of each sequence; no action is left
over or taken twice; and nothing fails for the number of actions any more. -/
theorem actions_attached {text : Template} {rules : List Rule} (h : parseRules text = .ok rules) :
    actionsOf rules = List.range text.holeCount ∧ IsText text rules ∧
    ∀ (parent : Option Grammar) (actions : List Action), text.holeCount = actions.length →
      (∀ r ∈ rules, ∀ i ∈ r.body.actions, ∃ act, actions[i]? = some act ∧
        Layer.action ⟨rules, actions⟩ i = .ok act) ∧
      (∀ i < actions.length, (actionsOf rules).count i = 1) ∧
      buildByWalk parent text actions = build parent text actions ∧
      ∀ holes given,
        (∀ r ∈ rules, r.body.check r.name ⟨rules, actions⟩ (layersOf parent) ≠ .error (.actionCount holes given)) ∧
        build parent text actions ≠ .error (.actionCount holes given) := by
  have hactions := actions_of_parseRules h
  refine ⟨hactions, isText_iff.2 h, fun parent actions hcount => ⟨fun r hr i hi => ?_, fun i hi => ?_,
    buildByWalk_eq parent text actions, fun holes given => ⟨fun r hr => check_ne_actionCount h hcount hr holes given,
      build_ne_actionCount h hcount holes given⟩⟩⟩
  · have hlt := lt_length_of_parseRules h hcount r hr i hi
    exact ⟨actions[i], List.getElem?_eq_getElem hlt, action_eq_ok hlt⟩
  · rw [hactions, hcount]
    exact List.count_eq_one_of_mem List.nodup_range (List.mem_range.2 hi)

set_option maxRecDepth 10000 in
/-- A list whose items and separators are groups with actions of their own, and a rule that is an action alone. -/
theorem actions_attached_groups : ∃ rules,
    parseRules ⟨"list ::= (NUMBER ", [" / HOLE ", ") ** (\",\" ", ") ", "; none ::= ", ";"]⟩ = .ok rules ∧
    actionsOf rules = [0, 1, 2, 3, 4] ∧ ∀ act : Action, ∀ i < 5, (actionsOf rules).count i = 1 ∧
      ∃ r ∈ rules, i ∈ r.body.actions ∧ Layer.action ⟨rules, List.replicate 5 act⟩ i = .ok act := by
  have hok : (do
      let rules ← parseRules ⟨"list ::= (NUMBER ", [" / HOLE ", ") ** (\",\" ", ") ", "; none ::= ", ";"]⟩
      return actionsOf rules) = .ok [0, 1, 2, 3, 4] := by decide +kernel
  obtain ⟨rules, h, -⟩ := Except.bind_eq_ok.1 hok
  obtain ⟨hactions, -, hattached⟩ := actions_attached h
  refine ⟨rules, h, hactions, fun act i hi => ?_⟩
  obtain ⟨hgiven, hcount, -⟩ := hattached none (List.replicate 5 act) rfl
  have hmem : i ∈ actionsOf rules := List.count_pos_iff.1 (by rw [hcount i hi]; exact Nat.one_pos)
  obtain ⟨r, hr, hir⟩ := List.mem_flatMap.1 hmem
  obtain ⟨act', hact', hlayer⟩ := hgiven r hr i hir
  cases List.eq_of_mem_replicate (List.mem_of_getElem? hact')
  exact ⟨hcount i hi, r, hr, hir, hlayer⟩

end Packrat.Grammar
