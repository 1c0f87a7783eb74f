import Packrat.Proofs.ActionHoles
/-!
# Relink — a body moved to another layer

A body that moves to another layer refers to rules under other names and to actions at other places, and is the same
tree otherwise.  Its literals stay (`literals_relink`), its references and its actions are the replaced ones in the
same order (`references_relink`, `actions_relink`).  To move twice is to move once (`relink_relink`), and a body that
keeps its references and its places is the same (`relink_self`).
-/
namespace Packrat.Grammar

def Reference.atom : Reference → Atom
  | .rule name => .rule name
  | .super name => .super name

mutual

/-- **The choice with other references and actions** in the places of its own. -/
def Choice.relink (refer : Reference → Reference) (place : Nat → Nat) : Choice → Choice
  | .last s => .last (s.relink refer place)
  | .orElse s rest => .orElse (s.relink refer place) (rest.relink refer place)

def Sequence.relink (refer : Reference → Reference) (place : Nat → Nat) : Sequence → Sequence
  | .stop action => .stop (action.map place)
  | .andThen f rest => .andThen (f.relink refer place) (rest.relink refer place)

def Factor.relink (refer : Reference → Reference) (place : Nat → Nat) : Factor → Factor
  | .once x => .once (x.relink refer place)
  | .optional x => .optional (x.relink refer place)
  | .many x => .many (x.relink refer place)
  | .many1 x => .many1 (x.relink refer place)
  | .sepBy x y => .sepBy (x.relink refer place) (y.relink refer place)
  | .sepBy1 x y => .sepBy1 (x.relink refer place) (y.relink refer place)

def Atom.relink (refer : Reference → Reference) (place : Nat → Nat) : Atom → Atom
  | .literal text => .literal text
  | .terminal t => .terminal t
  | .rule name => (refer (.rule name)).atom
  | .super name => (refer (.super name)).atom
  | .group c => .group (c.relink refer place)

end

variable (refer : Reference → Reference) (place : Nat → Nat)

theorem Reference.literals_atom : ∀ r : Reference, r.atom.literals = []
  | .rule _ | .super _ => rfl

theorem Reference.references_atom : ∀ r : Reference, r.atom.references = [r]
  | .rule _ | .super _ => rfl

theorem Reference.actions_atom : ∀ r : Reference, r.atom.actions = []
  | .rule _ | .super _ => rfl

mutual

theorem literals_relink : ∀ c : Choice, (c.relink refer place).literals = c.literals
  | .last s => Sequence.literals_relink s
  | .orElse s rest => by
    rw [Choice.relink, Choice.literals, Choice.literals, Sequence.literals_relink, literals_relink]

theorem Sequence.literals_relink : ∀ s : Sequence, (s.relink refer place).literals = s.literals
  | .stop _ => rfl
  | .andThen f rest => by
    rw [Sequence.relink, Sequence.literals, Sequence.literals, Factor.literals_relink, Sequence.literals_relink]

theorem Factor.literals_relink : ∀ f : Factor, (f.relink refer place).literals = f.literals
  | .once x | .optional x | .many x | .many1 x => Atom.literals_relink x
  | .sepBy x y | .sepBy1 x y => by
    rw [Factor.relink, Factor.literals, Factor.literals, Atom.literals_relink, Atom.literals_relink]

theorem Atom.literals_relink : ∀ x : Atom, (x.relink refer place).literals = x.literals
  | .literal _ | .terminal _ => rfl
  | .rule _ | .super _ => Reference.literals_atom _
  | .group c => Grammar.literals_relink c

end

mutual

theorem references_relink : ∀ c : Choice, (c.relink refer place).references = c.references.map refer
  | .last s => Sequence.references_relink s
  | .orElse s rest => by
    rw [Choice.relink, Choice.references, Choice.references, Sequence.references_relink, references_relink,
      List.map_append]

theorem Sequence.references_relink : ∀ s : Sequence, (s.relink refer place).references = s.references.map refer
  | .stop _ => rfl
  | .andThen f rest => by
    rw [Sequence.relink, Sequence.references, Sequence.references, Factor.references_relink,
      Sequence.references_relink, List.map_append]

theorem Factor.references_relink : ∀ f : Factor, (f.relink refer place).references = f.references.map refer
  | .once x | .optional x | .many x | .many1 x => Atom.references_relink x
  | .sepBy x y | .sepBy1 x y => by
    rw [Factor.relink, Factor.references, Factor.references, Atom.references_relink, Atom.references_relink,
      List.map_append]

theorem Atom.references_relink : ∀ x : Atom, (x.relink refer place).references = x.references.map refer
  | .literal _ | .terminal _ => rfl
  | .rule _ | .super _ => Reference.references_atom _
  | .group c => Grammar.references_relink c

end

mutual

theorem actions_relink : ∀ c : Choice, (c.relink refer place).actions = c.actions.map place
  | .last s => Sequence.actions_relink s
  | .orElse s rest => by
    rw [Choice.relink, Choice.actions, Choice.actions, Sequence.actions_relink, actions_relink, List.map_append]

theorem Sequence.actions_relink : ∀ s : Sequence, (s.relink refer place).actions = s.actions.map place
  | .stop none | .stop (some _) => rfl
  | .andThen f rest => by
    rw [Sequence.relink, Sequence.actions, Sequence.actions, Factor.actions_relink, Sequence.actions_relink,
      List.map_append]

theorem Factor.actions_relink : ∀ f : Factor, (f.relink refer place).actions = f.actions.map place
  | .once x | .optional x | .many x | .many1 x => Atom.actions_relink x
  | .sepBy x y | .sepBy1 x y => by
    rw [Factor.relink, Factor.actions, Factor.actions, Atom.actions_relink, Atom.actions_relink, List.map_append]

theorem Atom.actions_relink : ∀ x : Atom, (x.relink refer place).actions = x.actions.map place
  | .literal _ | .terminal _ => rfl
  | .rule _ | .super _ => Reference.actions_atom _
  | .group c => Grammar.actions_relink c

end

/-! ## Moving twice, and not at all -/

section

variable {refer : Reference → Reference} {place : Nat → Nat} {refer' : Reference → Reference} {place' : Nat → Nat}

theorem Reference.relink_atom : ∀ r : Reference, r.atom.relink refer place = (refer r).atom
  | .rule _ | .super _ => rfl

mutual

theorem relink_relink : ∀ c : Choice,
    (c.relink refer place).relink refer' place' = c.relink (refer' ∘ refer) (place' ∘ place)
  | .last s => congrArg Choice.last (Sequence.relink_relink s)
  | .orElse s rest => by
    rw [Choice.relink, Choice.relink, Choice.relink, Sequence.relink_relink, relink_relink]

theorem Sequence.relink_relink : ∀ s : Sequence,
    (s.relink refer place).relink refer' place' = s.relink (refer' ∘ refer) (place' ∘ place)
  | .stop none | .stop (some _) => rfl
  | .andThen f rest => by
    rw [Sequence.relink, Sequence.relink, Sequence.relink, Factor.relink_relink, Sequence.relink_relink]

theorem Factor.relink_relink : ∀ f : Factor,
    (f.relink refer place).relink refer' place' = f.relink (refer' ∘ refer) (place' ∘ place)
  | .once x => congrArg Factor.once (Atom.relink_relink x)
  | .optional x => congrArg Factor.optional (Atom.relink_relink x)
  | .many x => congrArg Factor.many (Atom.relink_relink x)
  | .many1 x => congrArg Factor.many1 (Atom.relink_relink x)
  | .sepBy x y | .sepBy1 x y => by
    rw [Factor.relink, Factor.relink, Factor.relink, Atom.relink_relink, Atom.relink_relink]

theorem Atom.relink_relink : ∀ x : Atom,
    (x.relink refer place).relink refer' place' = x.relink (refer' ∘ refer) (place' ∘ place)
  | .literal _ | .terminal _ => rfl
  | .rule _ | .super _ => Reference.relink_atom _
  | .group c => congrArg Atom.group (Grammar.relink_relink c)

end

mutual

theorem relink_self : ∀ c : Choice, (∀ i ∈ c.actions, place i = i) → c.relink id place = c
  | .last s, h => congrArg Choice.last (Sequence.relink_self s h)
  | .orElse s rest, h => by
    rw [Choice.relink, Sequence.relink_self s fun i hi => h i (List.mem_append_left _ hi),
      relink_self rest fun i hi => h i (List.mem_append_right _ hi)]

theorem Sequence.relink_self : ∀ s : Sequence, (∀ i ∈ s.actions, place i = i) → s.relink id place = s
  | .stop none, _ => rfl
  | .stop (some i), h => congrArg (Sequence.stop ∘ some) (h i List.mem_cons_self)
  | .andThen f rest, h => by
    rw [Sequence.relink, Factor.relink_self f fun i hi => h i (List.mem_append_left _ hi),
      Sequence.relink_self rest fun i hi => h i (List.mem_append_right _ hi)]

theorem Factor.relink_self : ∀ f : Factor, (∀ i ∈ f.actions, place i = i) → f.relink id place = f
  | .once x, h => congrArg Factor.once (Atom.relink_self x h)
  | .optional x, h => congrArg Factor.optional (Atom.relink_self x h)
  | .many x, h => congrArg Factor.many (Atom.relink_self x h)
  | .many1 x, h => congrArg Factor.many1 (Atom.relink_self x h)
  | .sepBy x y, h | .sepBy1 x y, h => by
    rw [Factor.relink, Atom.relink_self x fun i hi => h i (List.mem_append_left _ hi),
      Atom.relink_self y fun i hi => h i (List.mem_append_right _ hi)]

theorem Atom.relink_self : ∀ x : Atom, (∀ i ∈ x.actions, place i = i) → x.relink id place = x
  | .literal _, _ | .terminal _, _ | .rule _, _ | .super _, _ => rfl
  | .group c, h => congrArg Atom.group (Grammar.relink_self c h)

end

end

end Packrat.Grammar
