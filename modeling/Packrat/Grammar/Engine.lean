import Packrat.Grammar.Basic
import Packrat.Token.Cursor
import Std.Data.HashMap
/-!
# Engine — running rules over entries

The state of a run is a cursor, the furthest position that a terminal reached, the outcomes kept for rules at positions,
and two counts.  A parser takes a state to a value or a failure, with the state after it; a failure leaves the cursor
where it is, and whoever tries an alternative puts it back.  Rules call each other through their names; how deep the
calls may nest is the fuel of a run.
-/
namespace Packrat.Grammar

/-- **Counts of one run**: the rules called, and those among them answered from what was kept. -/
structure Stats where
  ruleCalls : Nat
  memoHits : Nat
  deriving Repr, DecidableEq, Inhabited

inductive Outcome where
  | fail
  | value (v : Value) (stop : Nat)
  deriving Repr, Inhabited

structure State where
  cursor : Cursor
  furthest : Nat
  memo : Std.HashMap (RuleId × Nat) Outcome
  stats : Stats

namespace State

def start (cursor : Cursor) : State := ⟨cursor, 0, ∅, ⟨0, 0⟩⟩

def position (s : State) : Nat := s.cursor.position

def remaining (s : State) : Nat := s.cursor.size - s.position

def rewind (s : State) (cursor : Cursor) : State := { s with cursor }

def countCall (s : State) : State := { s with stats := { s.stats with ruleCalls := s.stats.ruleCalls + 1 } }

def countHit (s : State) : State := { s with stats := { s.stats with memoHits := s.stats.memoHits + 1 } }

def record (s : State) (id : RuleId) (position : Nat) (o : Outcome) : State :=
  { s with memo := s.memo.insert (id, position) o }

end State

/-- **What a parser gives**: a value or a failure with the state after it, or nothing because the fuel ran out. -/
inductive Reply (α : Type) where
  | value (a : α) (s : State)
  | fail (s : State)
  | exhausted

def Reply.map {α β : Type} (f : α → β) : Reply α → Reply β
  | .value a s => .value (f a) s
  | .fail s => .fail s
  | .exhausted => .exhausted

abbrev Parser (α : Type) := State → Reply α

namespace Parser

variable {α β : Type}

def andThen (p : Parser α) (q : α → Parser β) : Parser β := fun s =>
  match p s with
  | .value a s => q a s
  | .fail s => .fail s
  | .exhausted => .exhausted

def attempt (p : Parser α) : Parser α := fun s =>
  let start := s.cursor
  match p s with
  | .fail s' => .fail (s'.rewind start)
  | r => r

def orElse (p q : Parser α) : Parser α := fun s =>
  match p s with
  | .fail s' => q s'
  | r => r

def ofOption : Option α → Parser α
  | some a => fun s => .value a s
  | none => fun s => .fail s

/-- **A step of the cursor**; where it succeeds counts for the furthest position. -/
def eat (f : Cursor → Option (α × Cursor)) : Parser α := fun s =>
  match f s.cursor with
  | some (a, cursor) => .value a { s with cursor, furthest := max s.furthest cursor.position }
  | none => .fail s

/-- The items of a repetition; an item that took nothing is kept and ends it.  The fuel bounds the items. -/
def manyUpTo (item : Parser α) : Nat → Parser (List α)
  | 0, _ => .exhausted
  | fuel + 1, s =>
    let start := s.position
    match attempt item s with
    | .exhausted => .exhausted
    | .fail s' => .value [] s'
    | .value a s' =>
      if s'.position = start then .value [a] s' else (manyUpTo item fuel s').map (a :: ·)

def many (item : Parser α) : Parser (List α) := fun s => manyUpTo item (s.remaining + 1) s

/-- The items behind separators.  Where no item follows a separator, the cursor is put back before it; an item that took
nothing together with its separator is kept and ends the loop.  The fuel bounds the items. -/
def sepUpTo (item separator : Parser α) : Nat → Parser (List α)
  | 0, _ => .exhausted
  | fuel + 1, s =>
    let start := s.cursor
    match separator s with
    | .exhausted => .exhausted
    | .fail s' => .value [] (s'.rewind start)
    | .value _ s' =>
      match item s' with
      | .exhausted => .exhausted
      | .fail s' => .value [] (s'.rewind start)
      | .value a s' =>
        if s'.position = s.position then .value [a] s' else (sepUpTo item separator fuel s').map (a :: ·)

/-- **Items with separators between them**, whose values are dropped; a separator without an item behind it is not
taken. -/
def sepBy (item separator : Parser α) : Parser (List α) := fun s =>
  match attempt item s with
  | .exhausted => .exhausted
  | .fail s' => .value [] s'
  | .value a s' => (sepUpTo item separator (s'.remaining + 1) s').map (a :: ·)

def asList (p : Parser (List Value)) : Parser Value := fun s => (p s).map .list

def asList1 (p : Parser (List Value)) : Parser Value := p.andThen fun vs =>
  if vs.isEmpty then ofOption none else ofOption (some (.list vs))

/-! ### How a combinator comes out, by how its first part does -/

section

variable {p : Parser α} {a : α} {s s' : State}

theorem andThen_of_value {q : α → Parser β} (h : p s = .value a s') : p.andThen q s = q a s' := by
  unfold andThen
  rw [h]

theorem andThen_of_fail {q : α → Parser β} (h : p s = .fail s') : p.andThen q s = .fail s' := by
  unfold andThen
  rw [h]

theorem attempt_of_value (h : p s = .value a s') : attempt p s = .value a s' := by
  unfold attempt
  rw [h]

theorem attempt_of_fail (h : p s = .fail s') : attempt p s = .fail (s'.rewind s.cursor) := by
  unfold attempt
  rw [h]

theorem orElse_of_value {q : Parser α} (h : p s = .value a s') : p.orElse q s = .value a s' := by
  unfold orElse
  rw [h]

theorem orElse_of_fail {q : Parser α} (h : p s = .fail s') : p.orElse q s = q s' := by
  unfold orElse
  rw [h]

theorem manyUpTo_of_fail {n : Nat} (h : attempt p s = .fail s') : manyUpTo p (n + 1) s = .value [] s' := by
  rw [manyUpTo, h]

theorem manyUpTo_of_stay {n : Nat} (h : attempt p s = .value a s') (hp : s'.position = s.position) :
    manyUpTo p (n + 1) s = .value [a] s' := by
  rw [manyUpTo, h]
  exact if_pos hp

theorem manyUpTo_of_more {n : Nat} (h : attempt p s = .value a s') (hp : s'.position ≠ s.position) :
    manyUpTo p (n + 1) s = (manyUpTo p n s').map (a :: ·) := by
  rw [manyUpTo, h]
  exact if_neg hp

theorem sepBy_of_fail {separator : Parser α} (h : attempt p s = .fail s') : sepBy p separator s = .value [] s' := by
  unfold sepBy
  rw [h]

/-- **The loop over separators and items** is the loop over items that are each a separator and an item. -/
theorem sepUpTo_eq (item separator : Parser α) : ∀ (n : Nat) (s : State),
    sepUpTo item separator n s = manyUpTo (separator.andThen fun _ => item) n s
  | 0, _ => rfl
  | n + 1, s => by
    rw [sepUpTo, manyUpTo, attempt, andThen]
    cases separator s with
    | value b t =>
      dsimp only
      cases item t with
      | value a t' =>
        dsimp only
        rw [sepUpTo_eq item separator n t']
      | fail t' => rfl
      | exhausted => rfl
    | fail t => rfl
    | exhausted => rfl

/-- **Items with separators between them** are an item, and a repetition of a separator and an item. -/
theorem sepBy_eq (item separator : Parser α) (s : State) : sepBy item separator s =
    match attempt item s with
    | .exhausted => .exhausted
    | .fail s' => .value [] s'
    | .value a s' => (many (separator.andThen fun _ => item) s').map (a :: ·) := by
  unfold sepBy
  cases attempt item s with
  | value a s' =>
    dsimp only
    rw [sepUpTo_eq, many]
  | fail s' => rfl
  | exhausted => rfl

theorem sepBy_of_value {separator : Parser α} (h : attempt p s = .value a s') :
    sepBy p separator s = (many (separator.andThen fun _ => p) s').map (a :: ·) := by
  rw [sepBy_eq, h]

end

end Parser

open Packrat.Grammar.Parser

/-! ## Trees as parsers -/

structure Scope where
  call : String → Parser Value
  super : String → Parser Value
  actions : List Action

/-- The value of a sequence without an action: that of its only factor, or the list of all. -/
def defaultValue : List Value → Value
  | [v] => v
  | vs => .list vs

def finish (actions : List Action) (action : Option Nat) (values : List Value) : Option Value :=
  match action with
  | none => some (defaultValue values)
  | some i =>
    match actions[i]? with
    | some act => act values
    | none => none

def textValue (t : Token) : Value := .string t.text

def Terminal.run : Terminal → Parser Value
  | .number => eat fun c => c.eatNumber.map fun (t, c) => (textValue t, c)
  | .string => eat fun c => c.eatString.map fun (t, c) => (textValue t, c)
  | .ident => eat fun c => c.eatIdent.map fun (t, c) => (textValue t, c)
  | .hole => eat fun c => c.eatHole.map fun (i, c) => (.hole i, c)
  | .eof => eat fun c => c.eatEnd.map fun (_, c) => (.null, c)
  | .fail => ofOption none

mutual

def Choice.run (scope : Scope) : Choice → Parser Value
  | .last s => attempt (s.run scope [])
  | .orElse s rest => orElse (attempt (s.run scope [])) (rest.run scope)

/-- **The factors in turn**; the values of those before are in `done`, the latest first. -/
def Sequence.run (scope : Scope) (done : List Value) : Sequence → Parser Value
  | .stop action => ofOption (finish scope.actions action done.reverse)
  | .andThen f rest => (f.run scope).andThen fun v => rest.run scope (v :: done)

def Factor.run (scope : Scope) : Factor → Parser Value
  | .once a => a.run scope
  | .optional a => orElse (fun s => (attempt (a.run scope) s).map fun v => .list [v]) (ofOption (some (.list [])))
  | .many a => asList (many (a.run scope))
  | .many1 a => asList1 (many (a.run scope))
  | .sepBy a separator => asList (sepBy (a.run scope) (separator.run scope))
  | .sepBy1 a separator => asList1 (sepBy (a.run scope) (separator.run scope))

def Atom.run (scope : Scope) : Atom → Parser Value
  | .literal text => eat fun c => (c.eatLiteral text).map fun (t, c) => (textValue t, c)
  | .terminal t => t.run
  | .rule name => scope.call name
  | .super name => scope.super name
  | .group c => c.run scope

end

/-! ## Rules -/

def State.known (s : State) (memoize : Bool) (id : RuleId) : Option Outcome :=
  if memoize then s.memo[(id, s.position)]? else none

def State.keep (s : State) (memoize : Bool) (id : RuleId) (position : Nat) (o : Outcome) : State :=
  if memoize then s.record id position o else s

/-- **Runs a rule at the position of the state.**  A bare name in its body is looked up in the layers of the grammar
that is parsed with, `super` in those below the rule's own.  If outcomes are kept, a rule runs once at a position. -/
def invoke (layers : List Layer) (memoize : Bool) : Nat → Definition → Parser Value
  | 0, _, _ => .exhausted
  | fuel + 1, d, s =>
    let start := s.cursor
    let called := s.countCall
    match called.known memoize d.id with
    | some .fail => .fail called.countHit
    | some (.value v stop) => .value v (called.countHit.rewind (start.setPosition stop))
    | none =>
      let bind (found : Option Definition) : Parser Value :=
        match found with
        | some d => invoke layers memoize fuel d
        | none => ofOption none
      let scope : Scope :=
        ⟨fun name => bind (find? name layers), fun name => bind (find? name d.below), d.layer.actions⟩
      match d.rule.body.run scope called with
      | .exhausted => .exhausted
      | .fail s' => .fail ((s'.rewind start).keep memoize d.id start.position .fail)
      | .value v s' => .value v (s'.keep memoize d.id start.position (.value v s'.position))

end Packrat.Grammar
