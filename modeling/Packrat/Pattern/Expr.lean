import Packrat.Pattern.CharSet
/-!
# Expr — regular expressions as trees

A tree has its flags resolved: whether a dot takes a line feed, whether a letter stands for both cases and whether a
repetition is greedy is written in it.
-/
namespace Packrat.Pattern

inductive WordLook where
  | boundary
  | notBoundary
  | start
  | stop
  /-- no word goes on before the place -/
  | startHalf
  /-- no word goes on behind the place -/
  | stopHalf
  deriving Repr, DecidableEq, Inhabited

inductive Look where
  | startText
  | endText
  | startLine
  | endLine
  /-- as `startLine`, where a carriage return ends a line too, with the line feed behind it or alone -/
  | startLineCRLF
  | endLineCRLF
  /-- words are those of ASCII if `ascii` -/
  | word (ascii : Bool) (w : WordLook)
  deriving Repr, DecidableEq, Inhabited

inductive Expr where
  /-- takes nothing -/
  | empty
  /-- takes one character of the set -/
  | one (set : CharSet)
  | look (l : Look)
  | cat (a b : Expr)
  /-- the first is preferred -/
  | alt (a b : Expr)
  /-- a capture group, with its name if it has one -/
  | group (name : Option String) (e : Expr)
  /-- at least `low` and at most `high` times; more is preferred when `greedy`, fewer when not -/
  | times (low : Nat) (high : Option Nat) (greedy : Bool) (e : Expr)
  deriving Repr, DecidableEq, Inhabited

namespace Expr

def catAll : List Expr → Expr
  | [] => .empty
  | [e] => e
  | e :: es => .cat e (catAll es)

def altAll : List Expr → Expr
  | [] => .empty
  | [e] => e
  | e :: es => .alt e (altAll es)

def groupCount : Expr → Nat
  | .empty | .one _ | .look _ => 0
  | .cat a b | .alt a b => a.groupCount + b.groupCount
  | .group _ e => e.groupCount + 1
  | .times _ _ _ e => e.groupCount

/-- The number of single steps when every repetition is written out. -/
def weight : Expr → Nat
  | .empty | .one _ | .look _ => 1
  | .cat a b | .alt a b => a.weight + b.weight
  | .group _ e => e.weight + 1
  | .times low high _ e => (max 1 (high.getD low)) * e.weight

/-- No repetition with a count takes more than `limit` steps when it is written out. -/
def countsWithin (limit : Nat) : Expr → Bool
  | .empty | .one _ | .look _ => true
  | .cat a b | .alt a b => a.countsWithin limit && b.countsWithin limit
  | .group _ e => e.countsWithin limit
  | .times low high greedy e =>
    (decide (high.getD low ≤ 1) || decide ((Expr.times low high greedy e).weight ≤ limit)) && e.countsWithin limit

variable {limit : Nat}

theorem countsWithin_catAll : ∀ {es : List Expr}, (∀ e ∈ es, e.countsWithin limit = true) →
    (catAll es).countsWithin limit = true
  | [], _ => rfl
  | [e], h => h e List.mem_cons_self
  | e :: e' :: es, h => by
    obtain ⟨he, hes⟩ := List.forall_mem_cons.1 h
    rw [catAll, countsWithin, he, countsWithin_catAll hes]
    · rfl
    · exact List.cons_ne_nil _ _

theorem countsWithin_altAll : ∀ {es : List Expr}, (∀ e ∈ es, e.countsWithin limit = true) →
    (altAll es).countsWithin limit = true
  | [], _ => rfl
  | [e], h => h e List.mem_cons_self
  | e :: e' :: es, h => by
    obtain ⟨he, hes⟩ := List.forall_mem_cons.1 h
    rw [altAll, countsWithin, he, countsWithin_altAll hes]
    · rfl
    · exact List.cons_ne_nil _ _

end Expr

end Packrat.Pattern
