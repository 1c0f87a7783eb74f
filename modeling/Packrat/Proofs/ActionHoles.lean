import Packrat.Grammar.Reader
/-!
# ActionHoles — every hole of a grammar's text is the action of one sequence

The actions of rules, in the order of their text, are the holes of the entries that the rules were read from: reading
leaves no hole out and uses none twice (`holes_of_reads`).  The holes of a scanned text are numbered in order
(`holes_of_scan`), so the actions of its rules are 0, 1 and so on up to the number of holes
(`actions_of_parseRules`).
-/
namespace Packrat

theorem Except.bind_eq_ok {ε α β : Type} {x : Except ε α} {f : α → Except ε β} {b : β} :
    x >>= f = .ok b ↔ ∃ a, x = .ok a ∧ f a = .ok b := by
  cases x with
  | error e => exact ⟨fun h => by (cases h), fun h => by (obtain ⟨_, h, -⟩ := h; cases h)⟩
  | ok a => exact ⟨fun h => ⟨a, rfl, h⟩, fun ⟨_, ha, h⟩ => by cases ha; exact h⟩

theorem Except.mapError_eq_ok {ε ε' α : Type} {x : Except ε α} {f : ε → ε'} {a : α} :
    x.mapError f = .ok a ↔ x = .ok a := by
  cases x with
  | error e => exact ⟨fun h => by (cases h), fun h => by cases h⟩
  | ok b => exact ⟨fun h => by cases h; rfl, fun h => by cases h; rfl⟩

def holesOf (entries : List Entry) : List Nat := entries.filterMap Entry.asHole?

@[simp] theorem holesOf_token (t : Token) (entries : List Entry) : holesOf (.token t :: entries) = holesOf entries := rfl

@[simp] theorem holesOf_hole (i : Nat) (entries : List Entry) : holesOf (.hole i :: entries) = i :: holesOf entries := rfl

@[simp] theorem holesOf_append (a b : List Entry) : holesOf (a ++ b) = holesOf a ++ holesOf b := List.filterMap_append

namespace Grammar

mutual

def Choice.actions : Choice → List Nat
  | .last s => s.actions
  | .orElse s rest => s.actions ++ rest.actions

def Sequence.actions : Sequence → List Nat
  | .stop action => action.toList
  | .andThen f rest => f.actions ++ rest.actions

def Factor.actions : Factor → List Nat
  | .once x | .optional x | .many x | .many1 x => x.actions
  | .sepBy x y | .sepBy1 x y => x.actions ++ y.actions

def Atom.actions : Atom → List Nat
  | .literal _ | .terminal _ | .rule _ | .super _ => []
  | .group c => c.actions

end

def actionsOf (rules : List Rule) : List Nat := rules.flatMap fun r => r.body.actions

/-! ## Reading -/

theorem holes_of_accept? {text : String} {entries rest : List Entry} (h : accept? text entries = some rest) :
    holesOf entries = holesOf rest := by
  unfold accept? at h
  split at h
  · split at h
    · cases h; rfl
    · cases h
  · cases h

theorem holes_of_expect {text : String} {expected : Expected} {entries rest : List Entry}
    (h : expect text expected entries = .ok rest) : holesOf entries = holesOf rest := by
  unfold expect at h
  split at h
  · rename_i ha
    cases h
    exact holes_of_accept? ha
  · cases h

theorem holes_of_expectIdent {lexicon : Lexicon} {expected : Expected} {entries rest : List Entry} {name : String}
    (h : expectIdent lexicon expected entries = .ok (name, rest)) : holesOf entries = holesOf rest := by
  unfold expectIdent at h
  split at h
  · split at h
    · cases h; rfl
    · cases h
  · cases h

theorem holes_of_readAction (entries : List Entry) :
    holesOf entries = (readAction entries).1.toList ++ holesOf (readAction entries).2 := by
  unfold readAction
  split <;> rfl

theorem actions_ofIdent (name : String) : (Atom.ofIdent name).actions = [] := by
  unfold Atom.ofIdent
  split <;> rfl

/-- **What a repetition read behind an atom is**, by the token that stands there. -/
inductive Repeats (lexicon : Lexicon) (fuel : Nat) (x : Atom) (entries : List Entry) : Factor → List Entry → Prop where
  | once : Repeats lexicon fuel x entries (.once x) entries
  | optional {rest} (h : accept? "?" entries = some rest) : Repeats lexicon fuel x entries (.optional x) rest
  | many {rest} (h : accept? "*" entries = some rest) : Repeats lexicon fuel x entries (.many x) rest
  | many1 {rest} (h : accept? "+" entries = some rest) : Repeats lexicon fuel x entries (.many1 x) rest
  | sepBy {mid y rest} (h : accept? "**" entries = some mid) (hy : readAtom lexicon fuel mid = .ok (some y, rest)) :
      Repeats lexicon fuel x entries (.sepBy x y) rest
  | sepBy1 {mid y rest} (h : accept? "++" entries = some mid) (hy : readAtom lexicon fuel mid = .ok (some y, rest)) :
      Repeats lexicon fuel x entries (.sepBy1 x y) rest

theorem repeats_of_readRepeat {lexicon : Lexicon} {fuel : Nat} {x : Atom} {entries rest : List Entry} {f : Factor}
    (h : readRepeat lexicon (fuel + 1) x entries = .ok (f, rest)) : Repeats lexicon fuel x entries f rest := by
  rw [readRepeat] at h
  cases h₁ : accept? "?" entries with
  | some _ => rw [h₁] at h; cases h; exact .optional h₁
  | none =>
  cases h₂ : accept? "*" entries with
  | some _ => rw [h₁, h₂] at h; cases h; exact .many h₂
  | none =>
  cases h₃ : accept? "+" entries with
  | some _ => rw [h₁, h₂, h₃] at h; cases h; exact .many1 h₃
  | none =>
  cases h₄ : accept? "**" entries with
  | some mid =>
    rw [h₁, h₂, h₃, h₄] at h
    obtain ⟨⟨y, rest'⟩, hy, h⟩ := Except.bind_eq_ok.1 h
    cases y with
    | none => cases h
    | some y => cases h; exact .sepBy h₄ hy
  | none =>
  cases h₅ : accept? "++" entries with
  | some mid =>
    rw [h₁, h₂, h₃, h₄, h₅] at h
    obtain ⟨⟨y, rest'⟩, hy, h⟩ := Except.bind_eq_ok.1 h
    cases y with
    | none => cases h
    | some y => cases h; exact .sepBy1 h₅ hy
  | none => rw [h₁, h₂, h₃, h₄, h₅] at h; cases h; exact .once

/-- What reading with some fuel takes: the holes of the entries are the actions read, and then the holes left. -/
structure KeepsHoles (lexicon : Lexicon) (fuel : Nat) : Prop where
  choice : ∀ {entries c rest}, readChoice lexicon fuel entries = .ok (c, rest) →
    holesOf entries = c.actions ++ holesOf rest
  sequence : ∀ {entries q rest}, readSequence lexicon fuel entries = .ok (q, rest) →
    holesOf entries = q.actions ++ holesOf rest
  factor : ∀ {x entries f rest}, readRepeat lexicon fuel x entries = .ok (f, rest) →
    x.actions ++ holesOf entries = f.actions ++ holesOf rest
  atom : ∀ {entries x rest}, readAtom lexicon fuel entries = .ok (x, rest) →
    holesOf entries = x.elim [] Atom.actions ++ holesOf rest

section Step

variable {lexicon : Lexicon} {fuel : Nat}

theorem holes_of_readChoice (ih : KeepsHoles lexicon fuel) {entries rest : List Entry} {c : Choice}
    (h : readChoice lexicon (fuel + 1) entries = .ok (c, rest)) : holesOf entries = c.actions ++ holesOf rest := by
  rw [readChoice, Except.bind_eq_ok] at h
  obtain ⟨⟨q, entries₁⟩, hq, h⟩ := h
  rw [ih.sequence hq]
  dsimp only at h
  split at h
  · cases h
    rfl
  · rename_i entries₂ ha
    obtain ⟨⟨c', rest'⟩, hc, h⟩ := Except.bind_eq_ok.1 h
    cases h
    rw [holes_of_accept? ha, ih.choice hc, Choice.actions, List.append_assoc]

theorem holes_of_readSequence (ih : KeepsHoles lexicon fuel) {entries rest : List Entry} {q : Sequence}
    (h : readSequence lexicon (fuel + 1) entries = .ok (q, rest)) : holesOf entries = q.actions ++ holesOf rest := by
  rw [readSequence, Except.bind_eq_ok] at h
  obtain ⟨⟨x, entries₁⟩, hx, h⟩ := h
  rw [ih.atom hx]
  cases x with
  | none =>
    cases h
    exact holes_of_readAction entries₁
  | some x =>
    obtain ⟨⟨f, entries₂⟩, hf, h⟩ := Except.bind_eq_ok.1 h
    obtain ⟨⟨q', rest'⟩, hq, h⟩ := Except.bind_eq_ok.1 h
    cases h
    rw [Option.elim_some, ih.factor hf, ih.sequence hq, Sequence.actions, List.append_assoc]

theorem holes_of_readRepeat (ih : KeepsHoles lexicon fuel) {x : Atom} {entries rest : List Entry} {f : Factor}
    (h : readRepeat lexicon (fuel + 1) x entries = .ok (f, rest)) :
    x.actions ++ holesOf entries = f.actions ++ holesOf rest := by
  cases repeats_of_readRepeat h with
  | once => rfl
  | optional ha | many ha | many1 ha => exact congrArg _ (holes_of_accept? ha)
  | sepBy ha hy | sepBy1 ha hy =>
    rw [holes_of_accept? ha, ih.atom hy, Factor.actions, List.append_assoc, Option.elim_some]

theorem holes_of_readAtom (ih : KeepsHoles lexicon fuel) {entries rest : List Entry} {x : Option Atom}
    (h : readAtom lexicon (fuel + 1) entries = .ok (x, rest)) :
    holesOf entries = x.elim [] Atom.actions ++ holesOf rest := by
  match entries with
  | [] | .hole _ :: _ =>
    cases h
    rfl
  | .token t :: entries =>
    rw [readAtom] at h
    split at h
    · obtain ⟨text, -, h⟩ := Except.bind_eq_ok.1 h
      cases h
      rfl
    · split at h
      · obtain ⟨entries₁, hdot, h⟩ := Except.bind_eq_ok.1 h
        obtain ⟨⟨name, entries₂⟩, hname, h⟩ := Except.bind_eq_ok.1 h
        cases h
        exact (holes_of_expect hdot).trans (holes_of_expectIdent hname)
      · split at h
        · cases h
          rw [Option.elim_some, actions_ofIdent]
          rfl
        · split at h
          · obtain ⟨⟨c, entries₁⟩, hc, h⟩ := Except.bind_eq_ok.1 h
            obtain ⟨entries₂, hend, h⟩ := Except.bind_eq_ok.1 h
            cases h
            rw [Option.elim_some, Atom.actions, ← holes_of_expect hend]
            exact (holesOf_token t entries).trans (ih.choice hc)
          · cases h
            rfl

end Step

/-- **Reading keeps the holes in order**, by induction on the fuel. -/
theorem keepsHoles (lexicon : Lexicon) : ∀ fuel : Nat, KeepsHoles lexicon fuel
  | 0 => ⟨fun h => by (cases h), fun h => by (cases h), fun h => by (cases h), fun h => by (cases h)⟩
  | fuel + 1 =>
    have ih := keepsHoles lexicon fuel
    ⟨holes_of_readChoice ih, holes_of_readSequence ih, holes_of_readRepeat ih, holes_of_readAtom ih⟩

theorem holes_of_readRule {lexicon : Lexicon} {entries rest : List Entry} {r : Rule}
    (h : readRule lexicon entries = .ok (r, rest)) : holesOf entries = r.body.actions ++ holesOf rest := by
  rw [readRule, Except.bind_eq_ok] at h
  obtain ⟨⟨name, entries₁⟩, hname, h⟩ := h
  obtain ⟨entries₂, hdef, h⟩ := Except.bind_eq_ok.1 h
  obtain ⟨⟨c, entries₃⟩, hc, h⟩ := Except.bind_eq_ok.1 h
  obtain ⟨entries₄, hend, h⟩ := Except.bind_eq_ok.1 h
  cases h
  rw [holes_of_expectIdent hname, holes_of_expect hdef, (keepsHoles _ _).choice hc, holes_of_expect hend]

theorem holes_of_readRules {lexicon : Lexicon} :
    ∀ {fuel : Nat} {entries : List Entry} {rules : List Rule}, readRules lexicon fuel entries = .ok rules →
      holesOf entries = actionsOf rules
  | fuel, [], rules, h => by
    rw [readRules] at h
    cases h
    rfl
  | fuel + 1, e :: entries, rules, h => by
    rw [readRules.eq_3 _ _ _ (by simp)] at h
    obtain ⟨⟨r, entries₁⟩, hr, h⟩ := Except.bind_eq_ok.1 h
    obtain ⟨rules', hrules, h⟩ := Except.bind_eq_ok.1 h
    cases h
    rw [holes_of_readRule hr, holes_of_readRules hrules]
    rfl

end Grammar

/-! ## Scanning -/

namespace Scanner

theorem holes_of_scanFrom {s : Scanner} {segment start : Nat} {cs : List Char} :
    ∀ {entries : List Entry}, s.scanFrom segment start cs = .ok entries → holesOf entries = [] := by
  fun_induction scanFrom s segment start cs with
  | case1 => intro entries h; cases h; rfl
  | case2 | case3 | case4 => intro entries h; cases h
  | case5 =>
    rename_i ih
    intro entries h
    obtain ⟨more, hmore, he⟩ := Except.bind_eq_ok.1 h
    cases he
    split
    · exact ih hmore
    · rw [holesOf_token]
      exact ih hmore

/-- The holes of segments from an index on stand before each of them but the first of all. -/
theorem holes_of_scanSegments {s : Scanner} :
    ∀ {segments : List String} {index : Nat} {entries : List Entry},
      s.scanSegments (index + 1) segments = .ok entries → holesOf entries = List.range' index segments.length
  | [], _, _, h => by
    cases h
    rfl
  | segment :: segments, index, _, h => by
    rw [scanSegments, Except.bind_eq_ok] at h
    obtain ⟨entries, hseg, h⟩ := h
    obtain ⟨more, hmore, h⟩ := Except.bind_eq_ok.1 h
    cases h
    rw [if_neg (Nat.succ_ne_zero index), List.cons_append, holesOf_hole, holesOf_append, holes_of_scanFrom hseg,
      holes_of_scanSegments hmore, List.nil_append, List.length_cons, List.range'_succ, Nat.add_sub_cancel]

theorem lexicon_of_scan {s : Scanner} {t : Template} {tokens : TokenList} (h : s.scan t = .ok tokens) :
    tokens.lexicon = s.lexicon := by
  obtain ⟨entries, -, he⟩ := Except.bind_eq_ok.1 h
  cases he
  rfl

/-- **The holes of a scanned template are all its holes, in order.** -/
theorem holes_of_scan {s : Scanner} {t : Template} {tokens : TokenList} (h : s.scan t = .ok tokens) :
    holesOf tokens.entries = List.range t.holeCount := by
  rw [scan, Except.bind_eq_ok] at h
  obtain ⟨entries, hseg, h⟩ := h
  cases h
  rw [Template.segments, scanSegments, Except.bind_eq_ok] at hseg
  obtain ⟨first, hfirst, hseg⟩ := hseg
  obtain ⟨more, hmore, hseg⟩ := Except.bind_eq_ok.1 hseg
  cases hseg
  rw [if_pos rfl, holesOf_append, holes_of_scanFrom hfirst, holes_of_scanSegments hmore, List.nil_append,
    List.range_eq_range']
  rfl

end Scanner

namespace Grammar

theorem parseRules_eq (text : Template) : parseRules text =
    (notationScanner.mapError .lex).bind fun s => ((s.scan text).mapError .lex).bind rulesOf := by
  rw [parseRules]
  generalize notationScanner = scanner
  cases scanner with
  | error e => rfl
  | ok s =>
    dsimp only [Except.mapError, Except.bind]
    cases s.scan text <;> rfl

theorem parseRules_eq_ok_iff {text : Template} {rules : List Rule} : parseRules text = .ok rules ↔
    ∃ s, notationScanner = .ok s ∧ ∃ tokens, s.scan text = .ok tokens ∧ rulesOf tokens = .ok rules := by
  rw [parseRules_eq]
  refine Except.bind_eq_ok.trans (exists_congr fun s => and_congr Except.mapError_eq_ok ?_)
  exact Except.bind_eq_ok.trans (exists_congr fun tokens => and_congr Except.mapError_eq_ok Iff.rfl)

/-- **The actions of the rules of a text are its holes, in order.** -/
theorem actions_of_parseRules {text : Template} {rules : List Rule} (h : parseRules text = .ok rules) :
    actionsOf rules = List.range text.holeCount := by
  obtain ⟨s, -, tokens, hscan, hrules⟩ := parseRules_eq_ok_iff.1 h
  rw [← Scanner.holes_of_scan hscan, ← holes_of_readRules hrules]

theorem lt_holeCount_of_parseRules {text : Template} {rules : List Rule} (h : parseRules text = .ok rules) {r : Rule}
    (hr : r ∈ rules) {i : Nat} (hi : i ∈ r.body.actions) : i < text.holeCount := by
  rw [← List.mem_range, ← actions_of_parseRules h]
  exact List.mem_flatMap.2 ⟨r, hr, hi⟩

end Grammar

end Packrat
