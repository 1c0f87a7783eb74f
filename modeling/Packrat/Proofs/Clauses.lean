import Packrat.Grammar.Parse
import Packrat.Proofs.DefinitionChecks
import Packrat.Proofs.Flatten
/-!
# Clauses — rules with their actions, in any order

A clause is a rule and the actions of its own sequences, numbered in the order of its text.  In a list of clauses the
actions of each stand behind those of the clauses before it, so that another order numbers all of them anew
(`Clause.ruleAt`).  Whether the rules may stand over another grammar does not depend on the order (`definable_allRules`).
What a name stands for in two orders is one clause at its two places (`twins_find?`), whose bodies agree, and so do all
runs (`agree_twins`).  So the grammars of two orders parse alike (`parseWith_ofRules_perm`).
-/
namespace Packrat.Grammar

/-- **A clause**: a rule, and the actions of its sequences in the order of its text. -/
structure Clause where
  rule : Rule
  actions : List Action
  numbered : rule.body.actions = List.range actions.length

namespace Clause

/-- The rule of the clause with its actions at the places from an offset on. -/
def ruleAt (c : Clause) (offset : Nat) : Rule := ⟨c.rule.name, c.rule.body.relink id (offset + ·)⟩

def allActions (cs : List Clause) : List Action := cs.flatMap actions

theorem allActions_cons (c : Clause) (cs : List Clause) : allActions (c :: cs) = c.actions ++ allActions cs :=
  List.flatMap_cons

def rulesFrom (offset : Nat) : List Clause → List Rule
  | [] => []
  | c :: cs => c.ruleAt offset :: rulesFrom (offset + c.actions.length) cs

def allRules (cs : List Clause) : List Rule := rulesFrom 0 cs

def layer (cs : List Clause) : Layer := ⟨allRules cs, allActions cs⟩

/-- The clause stands among the others with its actions from the offset on. -/
def At (c : Clause) (offset : Nat) (cs : List Clause) : Prop :=
  ∃ before after, cs = before ++ c :: after ∧ offset = (allActions before).length

variable {c : Clause} {cs cs' : List Clause} {offset offset' i : Nat} {r : Rule} {name : String}

/-! ## A clause at its place -/

theorem exists_at (h : c ∈ cs) : ∃ offset, c.At offset cs := by
  obtain ⟨before, after, he⟩ := List.append_of_mem h
  exact ⟨_, before, after, he, rfl⟩

theorem At.getElem? (h : c.At offset cs) (hi : i < c.actions.length) :
    (allActions cs)[offset + i]? = c.actions[i]? := by
  obtain ⟨before, after, rfl, rfl⟩ := h
  rw [allActions, List.flatMap_append, List.flatMap_cons]
  change (allActions before ++ (c.actions ++ allActions after))[(allActions before).length + i]? = _
  rw [List.getElem?_append_right (Nat.le_add_right _ _), Nat.add_sub_cancel_left, List.getElem?_append_left hi]

theorem references_ruleAt (c : Clause) (offset : Nat) :
    (c.ruleAt offset).body.references = c.rule.body.references :=
  (references_relink _ _ _).trans (List.map_id _)

theorem literals_ruleAt (c : Clause) (offset : Nat) : (c.ruleAt offset).body.literals = c.rule.body.literals :=
  literals_relink _ _ _

theorem actions_ruleAt (c : Clause) (offset : Nat) :
    (c.ruleAt offset).body.actions = List.range' offset c.actions.length := by
  rw [ruleAt, actions_relink, c.numbered, List.range_eq_range', List.map_add_range', Nat.add_zero]

theorem relink_ruleAt (c : Clause) (offset offset' : Nat) :
    (c.ruleAt offset).body.relink id (fun i => i - offset + offset') = (c.ruleAt offset').body := by
  rw [ruleAt, relink_relink]
  refine congrArg (c.rule.body.relink id) (funext fun i => ?_)
  change offset + i - offset + offset' = offset' + i
  omega

/-- A rule whose actions are numbered from the offset on is a clause at its place. -/
theorem exists_ruleAt {actions : List Action} (h : r.body.actions = List.range' offset actions.length) :
    ∃ c : Clause, c.actions = actions ∧ c.rule = ⟨r.name, r.body.relink id (· - offset)⟩ ∧ c.ruleAt offset = r := by
  refine ⟨⟨⟨r.name, r.body.relink id (· - offset)⟩, actions, ?_⟩, rfl, rfl, ?_⟩
  · change (r.body.relink id (· - offset)).actions = _
    rw [actions_relink, h, List.map_sub_range' (Nat.le_refl _), Nat.sub_self, List.range_eq_range']
  · have hself : (r.body.relink id (· - offset)).relink id (offset + ·) = r.body := by
      rw [relink_relink]
      refine relink_self r.body fun i hi => ?_
      rw [h, List.mem_range'_1] at hi
      exact Nat.add_sub_cancel' hi.1
    exact congrArg (Rule.mk r.name) hself

/-! ## The rules of clauses -/

theorem rulesFrom_append (offset : Nat) : ∀ before after : List Clause, rulesFrom offset (before ++ after) =
    rulesFrom offset before ++ rulesFrom (offset + (allActions before).length) after
  | [], _ => rfl
  | c :: before, after => by
    rw [List.cons_append, rulesFrom, rulesFrom, rulesFrom_append _ before after, allActions_cons, List.length_append,
      Nat.add_assoc]
    rfl

theorem map_name_rulesFrom : ∀ (cs : List Clause) (offset : Nat),
    (rulesFrom offset cs).map Rule.name = cs.map fun c => c.rule.name
  | [], _ => rfl
  | c :: cs, _ => congrArg (c.rule.name :: ·) (map_name_rulesFrom cs _)

theorem At.ruleAt_mem (h : c.At offset cs) : c.ruleAt offset ∈ allRules cs := by
  obtain ⟨before, after, rfl, rfl⟩ := h
  rw [allRules, rulesFrom_append, rulesFrom, Nat.zero_add]
  exact List.mem_append_right _ List.mem_cons_self

theorem exists_of_mem_rulesFrom : ∀ {cs : List Clause} {offset : Nat}, r ∈ rulesFrom offset cs →
    ∃ c ∈ cs, ∃ offset', r = c.ruleAt offset'
  | c :: cs, offset, h => by
    rcases List.mem_cons.1 h with rfl | h
    · exact ⟨c, List.mem_cons_self, offset, rfl⟩
    · obtain ⟨c', hp', offset', hr⟩ := exists_of_mem_rulesFrom h
      exact ⟨c', List.mem_cons_of_mem _ hp', offset', hr⟩

theorem At.find? (hn : (cs.map fun c => c.rule.name).Nodup) (h : c.At offset cs) :
    (allRules cs).find? (·.name == c.rule.name) = some (c.ruleAt offset) :=
  find?_eq_some_of_nodup (by rwa [allRules, map_name_rulesFrom]) h.ruleAt_mem

theorem find?_eq_none (h : ∀ c ∈ cs, c.rule.name ≠ name) : (allRules cs).find? (·.name == name) = none := by
  refine List.find?_eq_none.2 fun r hr => ?_
  obtain ⟨c, hp, offset, rfl⟩ := exists_of_mem_rulesFrom hr
  exact fun he => h c hp (beq_iff_eq.1 he)

/-! ## Another order -/

theorem exists_mem_allRules (hp : cs.Perm cs') (hr : r ∈ allRules cs) :
    ∃ r' ∈ allRules cs', r'.name = r.name ∧ r'.body.references = r.body.references ∧
      r'.body.literals = r.body.literals := by
  obtain ⟨c, hmem, offset, rfl⟩ := exists_of_mem_rulesFrom hr
  obtain ⟨offset', h'⟩ := exists_at (hp.subset hmem)
  exact ⟨_, h'.ruleAt_mem, rfl, (references_ruleAt c _).trans (references_ruleAt c _).symm,
    (literals_ruleAt c _).trans (literals_ruleAt c _).symm⟩

theorem definable_allRules {parent : Option Grammar} (hp : cs.Perm cs') (h : Definable parent (allRules cs)) :
    Definable parent (allRules cs') where
  not_terminal r hr := by
    obtain ⟨r', hr', hname, -⟩ := exists_mem_allRules hp.symm hr
    exact hname ▸ h.not_terminal r' hr'
  nodup := by
    have hn := h.nodup
    rw [allRules, map_name_rulesFrom] at hn ⊢
    exact (hp.map _).nodup_iff.1 hn
  rule r hr n hn := by
    obtain ⟨r', hr', -, href, -⟩ := exists_mem_allRules hp.symm hr
    rw [← mem_references_iff, ← href, mem_references_iff] at hn
    refine (h.rule r' hr' n hn).imp_left ?_
    rintro ⟨target, ht, rfl⟩
    obtain ⟨target', ht', hname, -⟩ := exists_mem_allRules hp ht
    exact ⟨target', ht', hname⟩
  super r hr n hn := by
    obtain ⟨r', hr', -, href, -⟩ := exists_mem_allRules hp.symm hr
    rw [← mem_references_iff, ← href, mem_references_iff] at hn
    exact h.super r' hr' n hn

theorem literalsOver_allRules (parent : Option Grammar) (hp : cs.Perm cs') :
    literalsOver parent (allRules cs) = literalsOver parent (allRules cs') := by
  have hmem : ∀ {cs cs' : List Clause}, cs.Perm cs' → ∀ {x},
      x ∈ (allRules cs).flatMap (fun r => r.body.literals) → x ∈ (allRules cs').flatMap fun r => r.body.literals := by
    intro cs cs' hp x hx
    obtain ⟨r, hr, hx⟩ := List.mem_flatMap.1 hx
    obtain ⟨r', hr', -, -, hl⟩ := exists_mem_allRules hp hr
    exact List.mem_flatMap.2 ⟨r', hr', hl ▸ hx⟩
  refine Text.vocabulary_eq_of_mem_iff Text.strict_byteOrder fun x => ?_
  rw [List.mem_append, List.mem_append]
  exact or_congr_right ⟨hmem hp, hmem hp.symm⟩

/-! ## Runs -/

/-- **Definitions that two orders take for each other** over the same layers: one of these layers and itself, or a
clause at its two places. -/
inductive Twins (cs cs' : List Clause) (below : List Layer) : Definition → Definition → Prop where
  | inherited (d : Definition) : Twins cs cs' below d d
  | own {c : Clause} {offset offset' : Nat} (h : c.At offset cs) (h' : c.At offset' cs') :
      Twins cs cs' below ⟨c.ruleAt offset, layer cs, below⟩ ⟨c.ruleAt offset', layer cs', below⟩

variable {below : List Layer} {d d' : Definition}

theorem Twins.id_eq (h : Twins cs cs' below d d') : d.id = d'.id := by
  cases h with
  | inherited | own => rfl

/-- **What a name stands for in two orders are twins.** -/
theorem twins_find? (hp : cs.Perm cs') (hn : (cs.map fun c => c.rule.name).Nodup) (name : String) :
    Option.Rel (Twins cs cs' below) (find? name (layer cs :: below)) (find? name (layer cs' :: below)) := by
  rw [find?, find?, layer, layer]
  dsimp only
  by_cases h : ∃ c ∈ cs, c.rule.name = name
  · obtain ⟨c, hmem, rfl⟩ := h
    obtain ⟨offset, hat⟩ := exists_at hmem
    obtain ⟨offset', hat'⟩ := exists_at (hp.subset hmem)
    rw [hat.find? hn, hat'.find? ((hp.map _).nodup_iff.1 hn)]
    exact .some (.own hat hat')
  · have hnone : ∀ c ∈ cs, c.rule.name ≠ name := fun c hmem he => h ⟨c, hmem, he⟩
    rw [find?_eq_none hnone, find?_eq_none fun c hmem => hnone c (hp.symm.subset hmem)]
    dsimp only
    cases find? name below with
    | none => exact .none
    | some d => exact .some (.inherited d)

theorem Twins.target? (hp : cs.Perm cs') (hn : (cs.map fun c => c.rule.name).Nodup) (h : Twins cs cs' below d d') :
    ∀ ref : Reference, Option.Rel (Twins cs cs' below) (ref.target? (layer cs :: below) d.below)
      (ref.target? (layer cs' :: below) d'.below)
  | .rule name => twins_find? hp hn name
  | .super name => by
    have hbelow : d.below = d'.below := by
      cases h with
      | inherited | own => rfl
    rw [Reference.target?, Reference.target?, hbelow]
    cases find? name d'.below with
    | none => exact .none
    | some e => exact .some (.inherited e)

/-- **The bodies of twins agree** in scopes where references lead to runs that agree. -/
theorem Twins.agree_body (h : Twins cs cs' below d d') {scope scope' : Scope}
    (hcalls : ∀ ref, Parser.Agree Eq (scope.refer ref) (scope'.refer ref)) (ha : scope.actions = d.layer.actions)
    (ha' : scope'.actions = d'.layer.actions) : Parser.Agree Eq (d.rule.body.run scope) (d'.rule.body.run scope') := by
  cases h with
  | inherited =>
    have hbody : Parser.Agree Eq (d.rule.body.run scope) ((d.rule.body.relink id id).run scope') :=
      agree_choice d.rule.body ⟨fun ref _ => hcalls ref, fun i _ => by rw [ha, ha']; rfl⟩
    have hself : d.rule.body.relink id id = d.rule.body := relink_self d.rule.body fun _ _ => rfl
    rwa [hself] at hbody
  | @own c offset offset' hat hat' =>
    rw [← relink_ruleAt c offset offset']
    refine agree_choice (c.ruleAt offset).body ⟨fun ref _ => hcalls ref, fun i hi => ?_⟩
    rw [actions_ruleAt, List.mem_range'_1] at hi
    obtain ⟨j, rfl⟩ := Nat.exists_eq_add_of_le hi.1
    have hj : j < c.actions.length := Nat.lt_of_add_lt_add_left hi.2
    rw [ha, ha', Nat.add_sub_cancel_left, Nat.add_comm j]
    exact (hat.getElem? hj).trans (hat'.getElem? hj).symm

/-- **Runs of twins agree**, by induction on the fuel. -/
theorem agree_twins (hp : cs.Perm cs') (hn : (cs.map fun c => c.rule.name).Nodup) (memoize : Bool) :
    ∀ (fuel : Nat) {d d' : Definition}, Twins cs cs' below d d' → Parser.Agree Eq
      (invoke (layer cs :: below) memoize fuel d) (invoke (layer cs' :: below) memoize fuel d')
  | 0, _, _, _ => fun _ _ _ => .exhausted
  | fuel + 1, d, d', h => by
    refine agree_invoke (fun {i i' j j'} hi hj => by rw [hi, hj]) h.id_eq (h.agree_body (fun ref => ?_) rfl rfl)
    rw [refer_scopeOf, refer_scopeOf]
    have htarget := h.target? hp hn ref
    generalize ref.target? (layer cs :: below) d.below = e at htarget ⊢
    generalize ref.target? (layer cs' :: below) d'.below = e' at htarget ⊢
    cases htarget with
    | none => exact agree_ofOption none
    | some h => exact agree_twins hp hn memoize fuel h

/-! ## Grammars -/

variable {parent : Option Grammar} {g g' : Grammar}

theorem exists_ofRules_perm (parent : Option Grammar) (hp : cs.Perm cs') :
    (∃ g, ofRules parent (allRules cs) (allActions cs) = .ok g) ↔
      ∃ g', ofRules parent (allRules cs') (allActions cs') = .ok g' := by
  rw [exists_ofRules_iff, exists_ofRules_iff]
  exact ⟨definable_allRules hp, definable_allRules hp.symm⟩

theorem of_ofRules (h : ofRules parent (allRules cs) (allActions cs) = .ok g) :
    g.layers = layer cs :: layersOf parent ∧ (cs.map fun c => c.rule.name).Nodup ∧
    g.ruleNames = cs.map (fun c => c.rule.name) ∧ g.literals = literalsOver parent (allRules cs) ∧
    Scanner.ofTokens g.literals = .ok g.scanner := by
  obtain ⟨hn, -, scanner, hs, rfl⟩ := ofRules_eq_ok_iff.1 h
  have hnodup := (checkNames_eq_ok_iff.1 hn).2
  have hnames := map_name_rulesFrom cs 0
  rw [allRules, hnames] at hnodup
  exact ⟨rfl, hnodup, hnames, rfl, hs⟩

theorem callDepth_perm (hp : cs.Perm cs') (hg : g.layers = layer cs :: layersOf parent)
    (hg' : g'.layers = layer cs' :: layersOf parent) (tokens : TokenList) :
    g.callDepth tokens = g'.callDepth tokens := by
  have hlen : ∀ cs : List Clause, (allRules cs).length = cs.length := fun cs => by
    rw [← List.length_map (f := Rule.name), allRules, map_name_rulesFrom, List.length_map]
  rw [callDepth, callDepth, ruleCount, ruleCount, hg, hg', List.flatMap_cons, List.flatMap_cons, List.length_append,
    List.length_append, layer, layer, hlen, hlen, hp.length_eq]

/-- **The grammars of two orders have the same literals and the same scanner, and parse alike.** -/
theorem parseWith_ofRules_perm (hp : cs.Perm cs') (h : ofRules parent (allRules cs) (allActions cs) = .ok g)
    (h' : ofRules parent (allRules cs') (allActions cs') = .ok g') : g.literals = g'.literals ∧ g.scanner = g'.scanner ∧
    ∀ (options : ParseOptions) (rule : String) (program : Template) (holes : List Value),
      g.parseWith options rule program holes = g'.parseWith options rule program holes := by
  obtain ⟨hg, hn, -, hl, hs⟩ := of_ofRules h
  obtain ⟨hg', -, -, hl', hs'⟩ := of_ofRules h'
  have hliterals : g.literals = g'.literals := by rw [hl, hl', literalsOver_allRules parent hp]
  have hscanner : g.scanner = g'.scanner := by
    rw [hliterals, hs'] at hs
    exact (Except.ok.inj hs).symm
  refine ⟨hliterals, hscanner, fun options rule program holes => ?_⟩
  have hfound : Option.Rel (Twins cs cs' (layersOf parent)) (g.lookup rule) (g'.lookup rule) := by
    rw [lookup, lookup, hg, hg']
    exact twins_find? hp hn rule
  cases hd : g.lookup rule with
  | none =>
    rw [hd] at hfound
    have hd' : g'.lookup rule = none := by
      generalize g'.lookup rule = e at hfound
      cases hfound
      rfl
    rw [parseWith, parseWith, hd, hd']
  | some d =>
    rw [hd] at hfound
    obtain ⟨d', hd', htwins⟩ : ∃ d', g'.lookup rule = some d' ∧ Twins cs cs' (layersOf parent) d d' := by
      generalize g'.lookup rule = e at hfound
      cases hfound with
      | some htwins => exact ⟨_, rfl, htwins⟩
    have hruns : ∀ tokens, (g.runEntry options.memoize d tokens).Agree Eq (g'.runEntry options.memoize d' tokens) := by
      intro tokens
      rw [runEntry, runEntry, hg, hg', callDepth_perm hp hg hg']
      exact agree_twins hp hn options.memoize _ htwins _ _ (State.Agree.start _)
    exact parseWith_eq_of_agree hd hd' hscanner hruns program holes

end Clause

end Packrat.Grammar
