import Packrat.Grammar.Parse
import Packrat.Proofs.Agreement
import Packrat.Proofs.Built
import Mathlib.Algebra.Order.BigOperators.Group.List
import Mathlib.Algebra.Ring.Nat
/-!
# Flatten — layers as one layer

All rules of the layers of a grammar fit into one layer: what a name stands for from the top keeps it, the rules that
are defined again above get names of their own, and `super` becomes the name of the rule that it stands for.  Bare names
stay as they are, and actions move with their rules.  The one layer passes the same checks (`checked_flatLayer`), and
runs of a definition and of its flat form agree (`agree_flat`).  Main statement: the flat grammar of a built grammar
exists, has its literals, and parses every program as it does (`parseWith_flatten`).
-/
namespace Packrat.Grammar

/-- **Names for all rules of layers in one layer**: what a name stands for from the top keeps it, no two rules have the
same, and none has that of a terminal. -/
structure Naming (layers : List Layer) (name : RuleId → String) : Prop where
  keeps : ∀ {n : String} {d : Definition}, find? n layers = some d → name d.id = n
  distinct : ∀ {i j : RuleId}, i ∈ ruleIds layers → j ∈ ruleIds layers → name i = name j → i = j
  plain : ∀ {i : RuleId}, i ∈ ruleIds layers → Terminal.ofName? (name i) = none

def flatRefer (name : RuleId → String) (below : List Layer) : Reference → Reference
  | .rule n => .rule n
  | .super n =>
    match find? n below with
    | some d => .rule (name d.id)
    | none => .super n

def flatActions : List Layer → List Action
  | [] => []
  | layer :: below => flatActions below ++ layer.actions

def flatRule (name : RuleId → String) (below : List Layer) (r : Rule) : Rule :=
  ⟨name ⟨below.length, r.name⟩, r.body.relink (flatRefer name below) ((flatActions below).length + ·)⟩

/-- **The rules of layers in one layer**, from the lowest. -/
def flatRules (name : RuleId → String) : List Layer → List Rule
  | [] => []
  | layer :: below => flatRules name below ++ layer.rules.map (flatRule name below)

def flatLayer (name : RuleId → String) (layers : List Layer) : Layer := ⟨flatRules name layers, flatActions layers⟩

def Definition.flat (d : Definition) (name : RuleId → String) (layers : List Layer) : Definition :=
  ⟨flatRule name d.below d.rule, flatLayer name layers, []⟩

variable {name : RuleId → String} {layers below : List Layer} {layer : Layer} {r : Rule} {d e : Definition}

/-! ## Rules and ids -/

theorem mem_flatRules (hr : r ∈ layer.rules) :
    ∀ {layers : List Layer}, layer :: below <:+ layers → flatRule name below r ∈ flatRules name layers
  | [], hs => by simp at hs
  | top :: under, hs => by
    rcases List.suffix_cons_iff.1 hs with he | hs
    · cases he
      exact List.mem_append_right _ (List.mem_map_of_mem hr)
    · exact List.mem_append_left _ (mem_flatRules hr hs)

theorem exists_of_mem_flatRules : ∀ {layers : List Layer}, r ∈ flatRules name layers →
    ∃ layer below r₀, layer :: below <:+ layers ∧ r₀ ∈ layer.rules ∧ r = flatRule name below r₀
  | top :: under, h => by
    rcases List.mem_append.1 h with h | h
    · obtain ⟨layer, below, r₀, hs, hr, he⟩ := exists_of_mem_flatRules h
      exact ⟨layer, below, r₀, hs.trans (List.suffix_cons _ _), hr, he⟩
    · obtain ⟨r₀, hr, he⟩ := List.mem_map.1 h
      exact ⟨top, under, r₀, List.suffix_rfl, hr, he.symm⟩

theorem perm_names_flatRules (name : RuleId → String) :
    ∀ layers : List Layer, ((flatRules name layers).map Rule.name).Perm ((ruleIds layers).map name)
  | [] => List.Perm.nil
  | layer :: below => by
    have hl : (layer.rules.map (flatRule name below)).map Rule.name =
        (layer.rules.map fun r => (⟨below.length, r.name⟩ : RuleId)).map name := by
      rw [List.map_map, List.map_map]
      rfl
    rw [flatRules, ruleIds, List.map_append, List.map_append, hl]
    exact ((perm_names_flatRules name below).append_right _).trans List.perm_append_comm

theorem length_flatRules (name : RuleId → String) (layers : List Layer) :
    (flatRules name layers).length = ruleTotal layers := by
  have h := (perm_names_flatRules name layers).length_eq
  rwa [List.length_map, List.length_map, length_ruleIds] at h

theorem depth_lt_length : ∀ {layers : List Layer} {i : RuleId}, i ∈ ruleIds layers → i.depth < layers.length
  | layer :: below, i, h => by
    rcases List.mem_append.1 h with h | h
    · obtain ⟨r, -, rfl⟩ := List.mem_map.1 h
      exact Nat.lt_succ_self _
    · exact (depth_lt_length h).trans (Nat.lt_succ_self _)

theorem nodup_ruleIds : ∀ {layers : List Layer}, AllChecked layers → (ruleIds layers).Nodup
  | [], _ => List.nodup_nil
  | layer :: below, h => by
    rw [ruleIds, List.nodup_append]
    refine ⟨?_, nodup_ruleIds h.tail, fun i hi j hj he => ?_⟩
    · refine List.Nodup.of_map RuleId.name ?_
      rw [List.map_map]
      exact (h List.suffix_rfl).nodup
    · obtain ⟨r, -, rfl⟩ := List.mem_map.1 hi
      have := depth_lt_length hj
      rw [← he] at this
      exact Nat.lt_irrefl _ this

theorem nodup_names_flatRules (h : AllChecked layers) (hn : Naming layers name) :
    ((flatRules name layers).map Rule.name).Nodup :=
  (perm_names_flatRules name layers).nodup_iff.2
    ((nodup_ruleIds h).map_on fun _ hi _ hj he => hn.distinct hi hj he)

/-! ## What names stand for -/

theorem find?_flat (h : AllChecked layers) (hn : Naming layers name) (hd : d.Of layers) :
    find? (name d.id) [flatLayer name layers] = some (d.flat name layers) := by
  have hf : (flatRules name layers).find? (·.name == name d.id) = some (flatRule name d.below d.rule) :=
    find?_eq_some_of_nodup (nodup_names_flatRules h hn) (mem_flatRules hd.mem hd.suffix)
  rw [find?, show (flatLayer name layers).rules.find? (·.name == name d.id) = _ from hf]
  rfl

/-- **The references of a flat rule lead to the flat forms** of what the rule's references lead to. -/
theorem exists_target?_flat (h : AllChecked layers) (hn : Naming layers name) (hd : d.Of layers) {ref : Reference}
    (href : ref ∈ d.rule.body.references) : ∃ e, ref.target? layers d.below = some e ∧ e.Of layers ∧
      (flatRefer name d.below ref).target? [flatLayer name layers] [] = some (e.flat name layers) := by
  obtain ⟨e, he, hof⟩ := h.exists_target? hd href
  refine ⟨e, he, hof, ?_⟩
  cases ref with
  | rule n =>
    have hname := hn.keeps he
    rw [← find?_flat h hn hof, hname]
    rfl
  | super n =>
    have he : find? n d.below = some e := he
    rw [flatRefer, he]
    exact find?_flat h hn hof

/-! ## The checks -/

theorem actionsOf_append (a b : List Rule) : actionsOf (a ++ b) = actionsOf a ++ actionsOf b := List.flatMap_append

theorem actionsOf_map_flatRule (name : RuleId → String) (below : List Layer) :
    ∀ rules : List Rule, actionsOf (rules.map (flatRule name below)) =
      (actionsOf rules).map ((flatActions below).length + ·)
  | [] => rfl
  | r :: rules => by
    have ih := actionsOf_map_flatRule name below rules
    rw [actionsOf, List.map_cons, List.flatMap_cons, flatRule, actions_relink, actionsOf, List.flatMap_cons,
      List.map_append]
    exact congrArg _ ih

theorem actionsOf_flatRules (name : RuleId → String) : ∀ {layers : List Layer}, AllChecked layers →
    actionsOf (flatRules name layers) = List.range (flatActions layers).length
  | [], _ => rfl
  | layer :: below, h => by
    rw [flatRules, actionsOf_append, actionsOf_flatRules name h.tail, actionsOf_map_flatRule,
      (h List.suffix_rfl).actions, flatActions, List.length_append, List.range_add]

theorem checked_flatLayer (h : AllChecked layers) (hn : Naming layers name) : (flatLayer name layers).Checked [] where
  names := by
    refine checkNames_eq_ok_iff.2 ⟨fun r hr => ⟨?_, List.not_mem_nil⟩, nodup_names_flatRules h hn⟩
    obtain ⟨layer, below, r₀, hs, hr₀, rfl⟩ := exists_of_mem_flatRules hr
    exact hn.plain (id_mem_ruleIds hr₀ hs)
  references := by
    refine checkReferences_eq_ok_iff.2 fun r hr ref href => ?_
    obtain ⟨layer, below, r₀, hs, hr₀, rfl⟩ := exists_of_mem_flatRules hr
    rw [flatRule, references_relink] at href
    obtain ⟨ref₀, href₀, rfl⟩ := List.mem_map.1 href
    obtain ⟨e, -, -, he⟩ := exists_target?_flat h hn (h.definition hs hr₀) href₀
    exact Option.isSome_iff_exists.2 ⟨_, he⟩
  actions := actionsOf_flatRules name h

theorem mem_literals_flatRules {x : String} : ∀ {layers : List Layer},
    x ∈ (flatRules name layers).flatMap (fun r => r.body.literals) ↔ x ∈ literalsIn layers
  | [] => Iff.rfl
  | layer :: below => by
    have hl : (layer.rules.map (flatRule name below)).flatMap (fun r => r.body.literals) =
        layer.rules.flatMap fun r => r.body.literals := by
      rw [List.flatMap_map]
      exact List.flatMap_congr fun r _ => literals_relink _ _ r.body
    rw [flatRules, List.flatMap_append, List.mem_append, mem_literals_flatRules, hl, Or.comm]
    exact List.mem_append.symm

/-! ## Runs -/

def FlatPairs (name : RuleId → String) (layers : List Layer) (i i' : RuleId) : Prop :=
  i ∈ ruleIds layers ∧ i' = ⟨0, name i⟩

theorem oneToOne_flatPairs (hn : Naming layers name) : OneToOne (FlatPairs name layers) := by
  rintro i i' j j' ⟨hi, rfl⟩ ⟨hj, rfl⟩
  constructor
  · rintro rfl
    rfl
  · intro he
    exact hn.distinct hi hj (RuleId.mk.inj he).2

theorem prefix_flatActions : ∀ {layers : List Layer}, below <:+ layers → flatActions below <+: flatActions layers
  | [], hs => by rw [List.suffix_nil.1 hs]
  | top :: under, hs => by
    rcases List.suffix_cons_iff.1 hs with rfl | hs
    · exact List.prefix_rfl
    · exact (prefix_flatActions hs).trans (List.prefix_append _ _)

theorem getElem?_flatActions (hs : layer :: below <:+ layers) {i : Nat} (hi : i < layer.actions.length) :
    layer.actions[i]? = (flatActions layers)[(flatActions below).length + i]? := by
  obtain ⟨more, hmore⟩ := prefix_flatActions hs
  rw [← hmore, flatActions, List.append_assoc, List.getElem?_append_right (Nat.le_add_right _ _),
    Nat.add_sub_cancel_left, List.getElem?_append_left hi]

theorem refer_scopeOf (layers : List Layer) (memoize : Bool) (fuel : Nat) (d : Definition) :
    ∀ ref : Reference, (scopeOf layers memoize fuel d).refer ref =
      invokeFound layers memoize fuel (ref.target? layers d.below)
  | .rule _ | .super _ => rfl

/-- **Runs of a definition and of its flat form agree**, by induction on the fuel. -/
theorem agree_flat (h : AllChecked layers) (hn : Naming layers name) (memoize : Bool) :
    ∀ (fuel : Nat) {d : Definition}, d.Of layers → Parser.Agree (FlatPairs name layers) (invoke layers memoize fuel d)
      (invoke [flatLayer name layers] memoize fuel (d.flat name layers))
  | 0, _, _ => fun _ _ _ => .exhausted
  | fuel + 1, d, hd => by
    refine agree_invoke (oneToOne_flatPairs hn) ⟨hd.id_mem, rfl⟩ (agree_choice d.rule.body ⟨fun ref href => ?_, ?_⟩)
    · obtain ⟨e, he, hof, hflat⟩ := exists_target?_flat h hn hd href
      have hcall : (scopeOf [flatLayer name layers] memoize fuel (d.flat name layers)).refer
          (flatRefer name d.below ref) = invoke [flatLayer name layers] memoize fuel (e.flat name layers) := by
        rw [refer_scopeOf]
        change invokeFound _ _ _ ((flatRefer name d.below ref).target? [flatLayer name layers] []) = _
        rw [hflat]
        rfl
      rw [refer_scopeOf, he, hcall]
      exact agree_flat h hn memoize fuel hof
    · exact fun i hi => getElem?_flatActions hd.suffix ((h hd.suffix).lt_length hd.mem hi)

/-! ## Names of their own -/

theorem ofName?_eq_none_of_length {n : String} (h : 7 ≤ n.length) : Terminal.ofName? n = none := by
  unfold Terminal.ofName?
  split <;> first | rfl | exact absurd h (by decide)

def nameWidth (layers : List Layer) : Nat := ((ruleIds layers).map fun i => i.name.length).sum + 7

theorem length_lt_nameWidth {i : RuleId} (hi : i ∈ ruleIds layers) : i.name.length < nameWidth layers := by
  have : i.name.length ≤ ((ruleIds layers).map fun i => i.name.length).sum :=
    List.le_sum_of_mem (List.mem_map.2 ⟨i, hi, rfl⟩)
  unfold nameWidth
  omega

def freshName (layers : List Layer) (i : RuleId) : String :=
  String.ofList (List.replicate (nameWidth layers + (ruleIds layers).idxOf i) '_')

theorem length_freshName (layers : List Layer) (i : RuleId) :
    (freshName layers i).length = nameWidth layers + (ruleIds layers).idxOf i := by
  rw [freshName, String.length_ofList, List.length_replicate]

/-- The name of a rule if the name stands for it from the top, and else one of its own. -/
def ownName (layers : List Layer) (i : RuleId) : String :=
  if (find? i.name layers).map Definition.id = some i then i.name else freshName layers i

/-- **The rules of checked layers have names for one layer.** -/
theorem naming_ownName (h : AllChecked layers) : Naming layers (ownName layers) where
  keeps {n d} hd := by
    have hn : d.id.name = n := (of_find? hd).2
    rw [ownName, hn, hd]
    exact if_pos rfl
  distinct {i j} hi hj he := by
    have hli := length_lt_nameWidth hi
    have hlj := length_lt_nameWidth hj
    have hfi := length_freshName layers i
    have hfj := length_freshName layers j
    unfold ownName at he
    by_cases hti : (find? i.name layers).map Definition.id = some i
    · by_cases htj : (find? j.name layers).map Definition.id = some j
      · rw [if_pos hti, if_pos htj] at he
        rw [he, htj] at hti
        exact (Option.some.inj hti).symm
      · rw [if_pos hti, if_neg htj] at he
        rw [he] at hli
        omega
    · by_cases htj : (find? j.name layers).map Definition.id = some j
      · rw [if_neg hti, if_pos htj] at he
        rw [← he] at hlj
        omega
      · rw [if_neg hti, if_neg htj] at he
        refine (List.idxOf_inj hi).1 ?_
        rw [he] at hfi
        omega
  plain {i} hi := by
    unfold ownName
    split
    · rename_i ht
      obtain ⟨d, hd, rfl⟩ := Option.map_eq_some_iff.1 ht
      have hof := (of_find? hd).1
      exact (h hof.suffix).ofName? hof.mem
    · refine ofName?_eq_none_of_length ?_
      rw [length_freshName, nameWidth]
      omega

/-! ## The flat grammar -/

variable {g : Grammar} {rule : String} {tokens : TokenList}

theorem runEntry_flat (hg : AllChecked g.layers) (hn : Naming g.layers name) (memoize : Bool) (hd : d.Of g.layers)
    {F : Grammar} (hF : F.layers = [flatLayer name g.layers]) :
    (g.runEntry memoize d tokens).Agree (FlatPairs name g.layers)
      (F.runEntry memoize (d.flat name g.layers) tokens) := by
  have hdepth : F.callDepth tokens = g.callDepth tokens := by
    have hF' : F.ruleCount = ruleTotal g.layers := by
      rw [← length_flatRules name, ruleCount, hF, List.flatMap_singleton]
      rfl
    rw [callDepth, callDepth, hF']
    rfl
  rw [runEntry, runEntry, hdepth, hF]
  exact agree_flat hg hn memoize _ hd _ _ (State.Agree.start _)

/-- **A built grammar and its flat form**: for all names of the rules in one layer there is the flat grammar, which any
text with the flat rules gives too; it has the same literals, and parses every program from every rule of the grammar
with the same result, counts included, or with the same error. -/
theorem parseWith_flatten (hg : Built g) : (∃ name, Naming g.layers name) ∧ ∀ name, Naming g.layers name →
    ∃ F, ofRules none (flatRules name g.layers) (flatActions g.layers) = .ok F ∧
      (∀ text, parseRules text = .ok (flatRules name g.layers) → compile text (flatActions g.layers) = .ok F) ∧
      F.literals = g.literals ∧
      ∀ (options : ParseOptions) (rule : String) (program : Template) (holes : List Value), g.hasRule rule = true →
        F.parseWith options rule program holes = g.parseWith options rule program holes := by
  refine ⟨⟨_, naming_ownName hg.checked⟩, fun name hn => ?_⟩
  have hc := checked_flatLayer hg.checked hn
  have hlit : literalsOver none (flatRules name g.layers) = g.literals := by
    rw [hg.literals_eq]
    exact Text.vocabulary_eq_of_mem_iff Text.strict_byteOrder fun x => mem_literals_flatRules
  have hF : ofRules none (flatRules name g.layers) (flatActions g.layers) =
      .ok ⟨flatLayer name g.layers, [], g.literals, g.scanner⟩ :=
    ofRules_eq_ok_iff.2 ⟨hc.names, hc.references, g.scanner, by rw [hlit, hg.scanner_eq], by rw [hlit]; rfl⟩
  refine ⟨_, hF, fun text htext => build_eq_ok_iff.2 ⟨?_, _, htext, hF⟩, rfl, ?_⟩
  · have hholes := actions_of_parseRules htext
    rw [actionsOf_flatRules name hg.checked] at hholes
    simpa using (congrArg List.length hholes).symm
  · intro options rule program holes hrule
    obtain ⟨d, hd⟩ := Option.isSome_iff_exists.1 hrule
    have hof : d.Of g.layers := (of_find? hd).1
    have hflat : lookup ⟨flatLayer name g.layers, [], g.literals, g.scanner⟩ rule = some (d.flat name g.layers) := by
      rw [← hn.keeps hd]
      exact find?_flat hg.checked hn hof
    exact (parseWith_eq_of_agree hd hflat rfl
      (fun tokens => runEntry_flat hg.checked hn options.memoize hof rfl) program holes).symm

set_option maxRecDepth 10000 in
/-- An item rule over another one that it refers to, and a list rule below that takes the upper one. -/
theorem parseWith_flatten_items : ∃ parent g name F,
    compile (.literal "start ::= item ** \",\"; item ::= NUMBER;") [] = .ok parent ∧
    extend parent ⟨"item ::= HOLE / super.item ", [";"]⟩ [fun values => some (.node "plain" values)] = .ok g ∧
    Naming g.layers name ∧ ofRules none (flatRules name g.layers) (flatActions g.layers) = .ok F ∧
    F.literals = g.literals ∧ F.parseWith {} "item" (.literal "7") [] = g.parseWith {} "item" (.literal "7") [] := by
  have hok : (do
      let parent ← compile (.literal "start ::= item ** \",\"; item ::= NUMBER;") []
      let g ← extend parent ⟨"item ::= HOLE / super.item ", [";"]⟩ [fun values => some (.node "plain" values)]
      return g.hasRule "item") = (.ok true : Except DefinitionError Bool) := by decide +kernel
  obtain ⟨parent, hp, hok⟩ := Except.bind_eq_ok.1 hok
  obtain ⟨g, hg, hrule⟩ := Except.bind_eq_ok.1 hok
  obtain ⟨⟨name, hn⟩, h⟩ := parseWith_flatten (.extended (.compiled hp) hg)
  obtain ⟨F, hF, -, hl, hparse⟩ := h name hn
  exact ⟨parent, g, name, F, hp, hg, hn, hF, hl, hparse {} "item" _ [] (Except.ok.inj hrule)⟩

end Packrat.Grammar
