import Packrat.Proofs.Run
import Packrat.Proofs.SeparatedLists
/-!
# PutBack — where a failure leaves the cursor

A sequence that fails leaves the cursor where it failed.  Whoever runs it puts the cursor back: a choice tries every
alternative from where it began, a repetition does not fail and drops the item that did, and a rule goes back to where
it was called.  So a choice, a factor, an atom or a rule that fails leaves the cursor where it was
(`cursor_of_fail`, `invoke_cursor_of_fail`).
-/
namespace Packrat.Grammar

open Packrat.Grammar.Parser

variable {α : Type} {p q : Parser α} {s s' : State} {layers : List Layer} {memoize : Bool} {n : Nat} {d : Definition}

/-! ## Repetitions -/

/-- **A parser that collects items**: it does not fail, and leaves the cursor where it was if it gives none. -/
structure Collects (p : Parser (List α)) : Prop where
  ne_fail : ∀ s s', p s ≠ .fail s'
  cursor : ∀ {s s'}, p s = .value [] s' → s'.cursor = s.cursor

theorem collects_many (p : Parser α) : Collects (many p) := by
  refine ⟨fun s => manyUpTo_ne_fail p _ s, fun {s s'} h => ?_⟩
  unfold Parser.many at h
  cases ha : attempt p s with
  | exhausted =>
    rw [manyUpTo, ha] at h
    cases h
  | fail t =>
    rw [manyUpTo_of_fail ha] at h
    cases h
    exact attempt_cursor ha
  | value a t =>
    by_cases ht : t.position = s.position
    · rw [manyUpTo_of_stay ha ht] at h
      cases h
    · rw [manyUpTo_of_more ha ht] at h
      cases hm : manyUpTo p s.remaining t with
      | exhausted | fail _ | value _ _ =>
        rw [hm] at h
        cases h

theorem collects_sepBy (p q : Parser α) : Collects (sepBy p q) := by
  refine ⟨fun s s' h => ?_, fun {s s'} h => ?_⟩
  · cases ha : attempt p s with
    | exhausted =>
      rw [Parser.sepBy, ha] at h
      cases h
    | fail t =>
      rw [sepBy_of_fail ha] at h
      cases h
    | value a t =>
      rw [sepBy_of_value ha] at h
      cases hm : many (q.andThen fun _ => p) t with
      | exhausted | value _ _ =>
        rw [hm] at h
        cases h
      | fail t' => exact (collects_many _).ne_fail t t' hm
  · cases ha : attempt p s with
    | exhausted =>
      rw [Parser.sepBy, ha] at h
      cases h
    | fail t =>
      rw [sepBy_of_fail ha] at h
      cases h
      exact attempt_cursor ha
    | value a t =>
      rw [sepBy_of_value ha] at h
      cases hm : many (q.andThen fun _ => p) t with
      | exhausted | fail _ | value _ _ =>
        rw [hm] at h
        cases h

namespace Collects

variable {p : Parser (List Value)}

theorem asList_ne_fail (h : Collects p) (s s' : State) : asList p s ≠ .fail s' := by
  intro hr
  unfold asList at hr
  cases hp : p s with
  | exhausted | value _ _ =>
    rw [hp] at hr
    cases hr
  | fail t => exact h.ne_fail s t hp

theorem asList1_cursor (h : Collects p) (hr : asList1 p s = .fail s') : s'.cursor = s.cursor := by
  cases hp : p s with
  | exhausted =>
    rw [asList1, Parser.andThen, hp] at hr
    cases hr
  | fail t => exact absurd hp (h.ne_fail s t)
  | value vs t =>
    rw [asList1, andThen_of_value hp] at hr
    cases vs with
    | nil =>
      cases hr
      exact h.cursor hp
    | cons v vs => cases hr

end Collects

/-! ## Rules and trees -/

/-- **A rule that fails leaves the cursor where it was.** -/
theorem invoke_cursor_of_fail (h : invoke layers memoize n d s = .fail s') : s'.cursor = s.cursor := by
  cases n with
  | zero => cases h
  | succ n =>
    rw [invoke_succ] at h
    cases hk : s.countCall.known memoize d.id with
    | some o =>
      rw [hk] at h
      cases o with
      | fail =>
        cases h
        rfl
      | value v stop => cases h
    | none =>
      rw [hk] at h
      dsimp only at h
      cases hr : d.rule.body.run (scopeOf layers memoize n d) s.countCall with
      | exhausted | value _ _ =>
        rw [hr] at h
        cases h
      | fail t =>
        rw [hr] at h
        cases h
        exact State.keep_cursor ..

theorem Choice.cursor_of_fail (scope : Scope) : ∀ (c : Choice) {s s' : State}, c.run scope s = .fail s' →
    s'.cursor = s.cursor
  | .last q, s, s', h => by
    rw [Choice.run] at h
    exact attempt_cursor h
  | .orElse q rest, s, s', h => by
    rw [Choice.run] at h
    cases ha : attempt (q.run scope []) s with
    | exhausted =>
      rw [Parser.orElse, ha] at h
      cases h
    | value v t =>
      rw [orElse_of_value ha] at h
      cases h
    | fail t =>
      rw [orElse_of_fail ha] at h
      exact (cursor_of_fail scope rest h).trans (attempt_cursor ha)

theorem eat_of_fail {f : Cursor → Option (α × Cursor)} (h : eat f s = .fail s') : s' = s := by
  unfold eat at h
  split at h <;> cases h
  rfl

theorem invokeFound_cursor_of_fail {found : Option Definition} (h : invokeFound layers memoize n found s = .fail s') :
    s'.cursor = s.cursor := by
  cases found with
  | none =>
    cases h
    rfl
  | some d => exact invoke_cursor_of_fail h

theorem Atom.cursor_of_fail : ∀ (a : Atom), a.run (scopeOf layers memoize n d) s = .fail s' → s'.cursor = s.cursor
  | .literal _, h => by
    rw [Atom.run] at h
    rw [eat_of_fail h]
  | .terminal k, h => by
    rw [Atom.run] at h
    cases k with
    | fail =>
      cases h
      rfl
    | _ =>
      rw [Terminal.run] at h
      rw [eat_of_fail h]
  | .rule _, h => by
    rw [Atom.run] at h
    exact invokeFound_cursor_of_fail h
  | .super _, h => by
    rw [Atom.run] at h
    exact invokeFound_cursor_of_fail h
  | .group c, h => by
    rw [Atom.run] at h
    exact c.cursor_of_fail _ h

theorem Factor.cursor_of_fail : ∀ (f : Factor), f.run (scopeOf layers memoize n d) s = .fail s' → s'.cursor = s.cursor
  | .once a, h => by
    rw [Factor.run] at h
    exact a.cursor_of_fail h
  | .optional a, h => by
    rw [Factor.run, Parser.orElse] at h
    split at h
    · cases h
    · rename_i hr
      exact (hr _ h).elim
  | .many _, h => absurd h ((collects_many _).asList_ne_fail _ _)
  | .many1 _, h => (collects_many _).asList1_cursor h
  | .sepBy _ _, h => absurd h ((collects_sepBy _ _).asList_ne_fail _ _)
  | .sepBy1 _ _, h => (collects_sepBy _ _).asList1_cursor h

end Packrat.Grammar
