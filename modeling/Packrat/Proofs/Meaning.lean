import Packrat.Grammar.Basic
/-!
# Meaning — what the rules of a grammar mean

The meaning of a rule's body has no state: a phrase of the body at a position of the entries either fails or gives a
value and the position behind it (`Means`).  A bare name is looked up in all layers of the grammar that is parsed with,
`super` in the layers below the definition that says it.  Beside the answer stands the trail, which records what the
derivation did: the positions that terminals reached and the rules that were called, each with the trail of its body.
Main statement: a phrase has one answer at a position, and one trail (`means_unique`).
-/
namespace Packrat.Grammar

/-- **An answer**: none is FAIL, else the value and the position behind it. -/
abbrev Answer := Option (Value × Nat)

inductive Trail where
  | nothing
  /-- a terminal succeeded and stopped here -/
  | reach (stop : Nat)
  /-- a definition was called at a position -/
  | call (d : Definition) (start : Nat) (body : Trail)
  /-- the one and then the other -/
  | both (a b : Trail)

namespace Trail

def furthest : Trail → Nat
  | nothing => 0
  | reach stop => stop
  | call _ _ body => body.furthest
  | both a b => max a.furthest b.furthest

def depth : Trail → Nat
  | nothing => 0
  | reach _ => 0
  | call _ _ body => body.depth + 1
  | both a b => max a.depth b.depth

def ofLeaf : Answer → Trail
  | some (_, stop) => reach stop
  | none => nothing

end Trail

/-! ## Terminals -/

def Terminal.valueOf? (lexicon : Lexicon) : Terminal → Entry → Option Value
  | .number, .token t => if lexicon.isNumber t then some (.string t.text) else none
  | .string, .token t => if lexicon.isString t then some (.string t.text) else none
  | .ident, .token t => if lexicon.isIdent t then some (.string t.text) else none
  | .hole, .hole i => some (.hole i)
  | _, _ => none

def literalValue? (text : String) : Entry → Option Value
  | .token t => if t.text = text then some (.string text) else none
  | .hole _ => none

def answerAt (tokens : TokenList) (p : Nat) (value? : Entry → Option Value) : Answer :=
  (tokens.entries[p]?.bind value?).map fun v => (v, p + 1)

def Atom.leaf? (tokens : TokenList) (p : Nat) : Atom → Option Answer
  | .literal text => some (answerAt tokens p (literalValue? text))
  | .terminal .eof => some (if tokens.entries.length ≤ p then some (.null, p) else none)
  | .terminal .fail => some none
  | .terminal t => some (answerAt tokens p (t.valueOf? tokens.lexicon))
  | .rule _ | .super _ | .group _ => none

/-- **What a reference stands for** in a definition: a bare name is looked up in all layers, `super` below the
definition. -/
def Atom.target? (layers : List Layer) (d : Definition) : Atom → Option (Option Definition)
  | .rule name => some (find? name layers)
  | .super name => some (find? name d.below)
  | .literal _ | .terminal _ | .group _ => none

/-! ## Phrases -/

inductive Phrase where
  | choice (c : Choice)
  /-- the rest of a sequence, with the values of the factors before it -/
  | sequence (done : List Value) (s : Sequence)
  | factor (f : Factor)
  | atom (x : Atom)
  /-- one item of a repetition, behind its separator if there is one -/
  | item (separator : Option Atom) (x : Atom)
  /-- items as long as they succeed and take something -/
  | items (separator : Option Atom) (x : Atom)
  /-- the items of a list, the first without a separator -/
  | listOf (separator x : Atom)

/-- **The meaning of a phrase** of a definition's body: its answer at a position, and the trail of what was done. -/
inductive Means (layers : List Layer) (tokens : TokenList) : Definition → Phrase → Nat → Answer → Trail → Prop where
  -- the first alternative that succeeds
  | last {d s p a t} (h : Means layers tokens d (.sequence [] s) p a t) :
      Means layers tokens d (.choice (.last s)) p a t
  | first {d s rest p r t} (h : Means layers tokens d (.sequence [] s) p (some r) t) :
      Means layers tokens d (.choice (.orElse s rest)) p (some r) t
  | next {d s rest p a t u} (h : Means layers tokens d (.sequence [] s) p none t)
      (h' : Means layers tokens d (.choice rest) p a u) :
      Means layers tokens d (.choice (.orElse s rest)) p a (t.both u)
  -- the factors in turn, and the value of all
  | factorFail {d done f rest p t} (h : Means layers tokens d (.factor f) p none t) :
      Means layers tokens d (.sequence done (.andThen f rest)) p none t
  | factorThen {d done f rest p v q a t u} (h : Means layers tokens d (.factor f) p (some (v, q)) t)
      (h' : Means layers tokens d (.sequence (done ++ [v]) rest) q a u) :
      Means layers tokens d (.sequence done (.andThen f rest)) p a (t.both u)
  | sole {d v p} : Means layers tokens d (.sequence [v] (.stop none)) p (some (v, p)) .nothing
  | all {d done p} (h : done.length ≠ 1) :
      Means layers tokens d (.sequence done (.stop none)) p (some (.list done, p)) .nothing
  | act {d done i p v} (h : (d.layer.actions[i]?.bind fun f => f done) = some v) :
      Means layers tokens d (.sequence done (.stop (some i))) p (some (v, p)) .nothing
  | refuse {d done i p} (h : (d.layer.actions[i]?.bind fun f => f done) = none) :
      Means layers tokens d (.sequence done (.stop (some i))) p none .nothing
  -- one atom, or a list
  | once {d x p a t} (h : Means layers tokens d (.atom x) p a t) : Means layers tokens d (.factor (.once x)) p a t
  | present {d x p v q t} (h : Means layers tokens d (.atom x) p (some (v, q)) t) :
      Means layers tokens d (.factor (.optional x)) p (some (.list [v], q)) t
  | absent {d x p t} (h : Means layers tokens d (.atom x) p none t) :
      Means layers tokens d (.factor (.optional x)) p (some (.list [], p)) t
  | many {d x p a t} (h : Means layers tokens d (.items none x) p a t) :
      Means layers tokens d (.factor (.many x)) p a t
  | many1 {d x p v vs q t} (h : Means layers tokens d (.items none x) p (some (.list (v :: vs), q)) t) :
      Means layers tokens d (.factor (.many1 x)) p (some (.list (v :: vs), q)) t
  | many1Fail {d x p q t} (h : Means layers tokens d (.items none x) p (some (.list [], q)) t) :
      Means layers tokens d (.factor (.many1 x)) p none t
  | sepBy {d x y p a t} (h : Means layers tokens d (.listOf y x) p a t) :
      Means layers tokens d (.factor (.sepBy x y)) p a t
  | sepBy1 {d x y p v vs q t} (h : Means layers tokens d (.listOf y x) p (some (.list (v :: vs), q)) t) :
      Means layers tokens d (.factor (.sepBy1 x y)) p (some (.list (v :: vs), q)) t
  | sepBy1Fail {d x y p q t} (h : Means layers tokens d (.listOf y x) p (some (.list [], q)) t) :
      Means layers tokens d (.factor (.sepBy1 x y)) p none t
  -- items; one that took nothing is kept and is the last
  | bare {d x p a t} (h : Means layers tokens d (.atom x) p a t) : Means layers tokens d (.item none x) p a t
  | separatorFail {d y x p t} (h : Means layers tokens d (.atom y) p none t) :
      Means layers tokens d (.item (some y) x) p none t
  | separated {d y x p v q a t u} (h : Means layers tokens d (.atom y) p (some (v, q)) t)
      (h' : Means layers tokens d (.atom x) q a u) : Means layers tokens d (.item (some y) x) p a (t.both u)
  | itemsEnd {d y x p t} (h : Means layers tokens d (.item y x) p none t) :
      Means layers tokens d (.items y x) p (some (.list [], p)) t
  | itemsStay {d y x p v t} (h : Means layers tokens d (.item y x) p (some (v, p)) t) :
      Means layers tokens d (.items y x) p (some (.list [v], p)) t
  | itemsMore {d y x p v q vs e t u} (h : Means layers tokens d (.item y x) p (some (v, q)) t) (hq : q ≠ p)
      (h' : Means layers tokens d (.items y x) q (some (.list vs, e)) u) :
      Means layers tokens d (.items y x) p (some (.list (v :: vs), e)) (t.both u)
  | listNone {d y x p t} (h : Means layers tokens d (.atom x) p none t) :
      Means layers tokens d (.listOf y x) p (some (.list [], p)) t
  | listSome {d y x p v q vs e t u} (h : Means layers tokens d (.atom x) p (some (v, q)) t)
      (h' : Means layers tokens d (.items (some y) x) q (some (.list vs, e)) u) :
      Means layers tokens d (.listOf y x) p (some (.list (v :: vs), e)) (t.both u)
  -- atoms
  | leaf {d x p a} (h : x.leaf? tokens p = some a) : Means layers tokens d (.atom x) p a (.ofLeaf a)
  | group {d c p a t} (h : Means layers tokens d (.choice c) p a t) : Means layers tokens d (.atom (.group c)) p a t
  | called {d d' x p a t} (hx : x.target? layers d = some (some d'))
      (h : Means layers tokens d' (.choice d'.rule.body) p a t) : Means layers tokens d (.atom x) p a (.call d' p t)
  | dangling {d x p} (hx : x.target? layers d = some none) : Means layers tokens d (.atom x) p none .nothing

variable {layers : List Layer} {tokens : TokenList}

theorem Atom.target?_of_leaf? {p : Nat} {a : Answer} {d : Definition} :
    ∀ {x : Atom}, x.leaf? tokens p = some a → x.target? layers d = none
  | .literal _, _ => rfl
  | .terminal _, _ => rfl

/-- **A phrase has one answer at a position, and one trail.** -/
theorem means_unique {d : Definition} {φ : Phrase} {p : Nat} {a : Answer} {t : Trail}
    (h : Means layers tokens d φ p a t) :
    ∀ {b : Answer} {u : Trail}, Means layers tokens d φ p b u → a = b ∧ t = u := by
  induction h with
  | last _ ih =>
    intro b u g
    cases g with
    | last g => exact ih g
  | first _ ih =>
    intro b u g
    cases g with
    | first g => exact ih g
    | next g _ => cases (ih g).1
  | next _ _ ih ih' =>
    intro b u g
    cases g with
    | first g => cases (ih g).1
    | next g g' =>
      obtain ⟨-, rfl⟩ := ih g
      obtain ⟨rfl, rfl⟩ := ih' g'
      exact ⟨rfl, rfl⟩
  | factorFail _ ih =>
    intro b u g
    cases g with
    | factorFail g => exact ih g
    | factorThen g _ => cases (ih g).1
  | factorThen _ _ ih ih' =>
    intro b u g
    cases g with
    | factorFail g => cases (ih g).1
    | factorThen g g' =>
      obtain ⟨ha, rfl⟩ := ih g
      cases ha
      obtain ⟨rfl, rfl⟩ := ih' g'
      exact ⟨rfl, rfl⟩
  | sole =>
    intro b u g
    cases g with
    | sole => exact ⟨rfl, rfl⟩
    | all hne => exact absurd rfl hne
  | all hne =>
    intro b u g
    cases g with
    | sole => exact absurd rfl hne
    | all _ => exact ⟨rfl, rfl⟩
  | act hv =>
    intro b u g
    cases g with
    | act hv' =>
      rw [hv] at hv'
      cases hv'
      exact ⟨rfl, rfl⟩
    | refuse hn => rw [hv] at hn; cases hn
  | refuse hn =>
    intro b u g
    cases g with
    | act hv => rw [hn] at hv; cases hv
    | refuse _ => exact ⟨rfl, rfl⟩
  | once _ ih =>
    intro b u g
    cases g with
    | once g => exact ih g
  | present _ ih =>
    intro b u g
    cases g with
    | present g =>
      obtain ⟨ha, rfl⟩ := ih g
      cases ha
      exact ⟨rfl, rfl⟩
    | absent g => cases (ih g).1
  | absent _ ih =>
    intro b u g
    cases g with
    | present g => cases (ih g).1
    | absent g => exact ⟨rfl, (ih g).2⟩
  | many _ ih =>
    intro b u g
    cases g with
    | many g => exact ih g
  | many1 _ ih =>
    intro b u g
    cases g with
    | many1 g => exact ih g
    | many1Fail g => cases (ih g).1
  | many1Fail _ ih =>
    intro b u g
    cases g with
    | many1 g => cases (ih g).1
    | many1Fail g => exact ⟨rfl, (ih g).2⟩
  | sepBy _ ih =>
    intro b u g
    cases g with
    | sepBy g => exact ih g
  | sepBy1 _ ih =>
    intro b u g
    cases g with
    | sepBy1 g => exact ih g
    | sepBy1Fail g => cases (ih g).1
  | sepBy1Fail _ ih =>
    intro b u g
    cases g with
    | sepBy1 g => cases (ih g).1
    | sepBy1Fail g => exact ⟨rfl, (ih g).2⟩
  | bare _ ih =>
    intro b u g
    cases g with
    | bare g => exact ih g
  | separatorFail _ ih =>
    intro b u g
    cases g with
    | separatorFail g => exact ih g
    | separated g _ => cases (ih g).1
  | separated _ _ ih ih' =>
    intro b u g
    cases g with
    | separatorFail g => cases (ih g).1
    | separated g g' =>
      obtain ⟨ha, rfl⟩ := ih g
      cases ha
      obtain ⟨rfl, rfl⟩ := ih' g'
      exact ⟨rfl, rfl⟩
  | itemsEnd _ ih =>
    intro b u g
    cases g with
    | itemsEnd g => exact ⟨rfl, (ih g).2⟩
    | itemsStay g => cases (ih g).1
    | itemsMore g _ _ => cases (ih g).1
  | itemsStay _ ih =>
    intro b u g
    cases g with
    | itemsEnd g => cases (ih g).1
    | itemsStay g =>
      obtain ⟨ha, rfl⟩ := ih g
      cases ha
      exact ⟨rfl, rfl⟩
    | itemsMore g hq _ =>
      cases (ih g).1
      exact absurd rfl hq
  | itemsMore _ hq _ ih ih' =>
    intro b u g
    cases g with
    | itemsEnd g => cases (ih g).1
    | itemsStay g =>
      cases (ih g).1
      exact absurd rfl hq
    | itemsMore g _ g' =>
      obtain ⟨ha, rfl⟩ := ih g
      cases ha
      obtain ⟨hb, rfl⟩ := ih' g'
      cases hb
      exact ⟨rfl, rfl⟩
  | listNone _ ih =>
    intro b u g
    cases g with
    | listNone g => exact ⟨rfl, (ih g).2⟩
    | listSome g _ => cases (ih g).1
  | listSome _ _ ih ih' =>
    intro b u g
    cases g with
    | listNone g => cases (ih g).1
    | listSome g g' =>
      obtain ⟨ha, rfl⟩ := ih g
      cases ha
      obtain ⟨hb, rfl⟩ := ih' g'
      cases hb
      exact ⟨rfl, rfl⟩
  | leaf hl =>
    intro b u g
    cases g with
    | leaf hl' =>
      rw [hl] at hl'
      cases hl'
      exact ⟨rfl, rfl⟩
    | group _ => cases hl
    | called hx _ => rw [Atom.target?_of_leaf? hl] at hx; cases hx
    | dangling hx => rw [Atom.target?_of_leaf? hl] at hx; cases hx
  | group _ ih =>
    intro b u g
    cases g with
    | leaf hl => cases hl
    | group g => exact ih g
    | called hx _ => cases hx
    | dangling hx => cases hx
  | called hx _ ih =>
    intro b u g
    cases g with
    | leaf hl => rw [Atom.target?_of_leaf? hl] at hx; cases hx
    | group _ => cases hx
    | called hx' g =>
      rw [hx] at hx'
      cases hx'
      obtain ⟨rfl, rfl⟩ := ih g
      exact ⟨rfl, rfl⟩
    | dangling hx' => rw [hx] at hx'; cases hx'
  | dangling hx =>
    intro b u g
    cases g with
    | leaf hl => rw [Atom.target?_of_leaf? hl] at hx; cases hx
    | group _ => cases hx
    | called hx' _ => rw [hx] at hx'; cases hx'
    | dangling _ => exact ⟨rfl, rfl⟩

end Packrat.Grammar
