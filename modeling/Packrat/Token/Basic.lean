import Packrat.Text.Quoted
import Packrat.Template
/-!
# Token — scanned text

A scanned template is a list of entries: tokens with their places, and holes.
-/
namespace Packrat

/-- **The place of a token**: its segment, and the bytes from `start` up to `after` of it. -/
structure Pos where
  segment : Nat
  start : Nat
  after : Nat
  deriving Repr, DecidableEq, Inhabited

def Pos.render (p : Pos) : String :=
  "#" ++ toString p.segment ++ "@" ++ toString p.start ++ ":" ++ toString p.after

structure Token where
  text : String
  pos : Pos
  deriving Repr, DecidableEq, Inhabited

def Token.render (t : Token) : String := Text.quoted t.text ++ " at " ++ t.pos.render

inductive Entry where
  | token (t : Token)
  | hole (index : Nat)
  deriving Repr, DecidableEq, Inhabited

namespace Entry

def render : Entry → String
  | .token t => t.render
  | .hole i => "hole " ++ Template.showHole i

/-- What is said where there is no entry, if it begins as `end` does, is said of no entry. -/
theorem getD_render_eq_iff {text : String} (h : text.toList.head? = some 'e') (entry : Option Entry) :
    (entry.map render).getD text = text ↔ entry = none := by
  cases entry with
  | none => simp
  | some e =>
    refine ⟨fun he => ?_, nofun⟩
    rw [← he] at h
    change e.render.toList.head? = some 'e' at h
    cases e with
    | token t =>
      rw [render, Token.render, String.toList_append, String.toList_append, Text.quoted, String.toList_ofList] at h
      cases h
    | hole i =>
      rw [render, String.toList_append] at h
      cases h

def text : Entry → String
  | .token t => t.text
  | .hole i => Template.showHole i

def asToken? : Entry → Option Token
  | .token t => some t
  | .hole _ => none

def asHole? : Entry → Option Nat
  | .hole i => some i
  | .token _ => none

end Entry

end Packrat
