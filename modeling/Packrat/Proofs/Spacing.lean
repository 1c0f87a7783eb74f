import Packrat.Proofs.Lexer
/-!
# Spacing — words with single spaces between them

A template may be written as a row of words, each the text of a token or a hole, with a single space between each two.
If every text is a lexeme as soon as a space or the end comes behind it (`Lexes`), the lexer finds exactly these words
(`lex_spaced`): the space before a text only moves its places (`lexFrom_blanks_append`).
-/
namespace Packrat

/-- **What stands between spaces**: the text of a token, or a hole by its index. -/
inductive Word where
  | text (w : String)
  | hole (i : Nat)
  deriving Repr, DecidableEq

namespace Word

def hole? : Word → Option Nat
  | .text _ => none
  | .hole i => some i

def holes (ws : List Word) : List Nat := ws.filterMap hole?

@[simp] theorem holes_nil : holes [] = [] := rfl

@[simp] theorem holes_text (w : String) (ws : List Word) : holes (.text w :: ws) = holes ws := rfl

@[simp] theorem holes_append (ws ws' : List Word) : holes (ws ++ ws') = holes ws ++ holes ws' := List.filterMap_append

end Word

def Entry.word : Entry → Word
  | .token t => .text t.text
  | .hole i => .hole i

namespace Template

/-- **The template that words make**, one right behind the other.  Its holes are numbered by their places. -/
def ofWords : List Word → Template
  | [] => ⟨"", []⟩
  | .text w :: ws => ⟨w ++ (ofWords ws).first, (ofWords ws).rest⟩
  | .hole _ :: ws => ⟨"", (ofWords ws).segments⟩

def spaced (ws : List Word) : Template := ofWords (ws.intersperse (.text " "))

end Template

namespace Lexer

variable {tokens : List String} {w : String} {ws : List Word} {cs : List Char} {segment index size start : Nat}

/-! ## Blanks -/

theorem lexFrom_dropWhile (start : Nat) (cs : List Char) : lexFrom tokens segment size start cs =
    lexFrom tokens segment size (start + Text.byteLength (cs.takeWhile Text.isBlank)) (cs.dropWhile Text.isBlank) := by
  cases hblanks : blanks? cs with
  | none =>
    have hnil : cs.takeWhile Text.isBlank = [] := by
      unfold blanks? run? at hblanks
      split at hblanks
      · rename_i h
        exact List.isEmpty_iff.1 h
      · cases hblanks
    have hdrop := List.takeWhile_append_dropWhile (p := Text.isBlank) (l := cs)
    rw [hnil, List.nil_append] at hdrop
    rw [hnil, hdrop]
    rfl
  | some s =>
    have hs : s = (cs.takeWhile Text.isBlank, cs.dropWhile Text.isBlank) := by
      unfold blanks? run? at hblanks
      split at hblanks
      · cases hblanks
      · exact (Option.some.inj hblanks).symm
    have hlex : lexeme? tokens cs = some ⟨cs.takeWhile Text.isBlank, true, cs.dropWhile Text.isBlank⟩ := by
      rw [lexeme?, hblanks, hs]
      rfl
    rw [lexFrom_of_some hlex]
    dsimp only
    cases lexFrom tokens segment size (start + Text.byteLength (cs.takeWhile Text.isBlank))
      (cs.dropWhile Text.isBlank) <;> rfl

/-- **Blanks before a text only move its places.** -/
theorem lexFrom_blanks_append {ws : List Char} (hws : ∀ c ∈ ws, Text.isBlank c = true) (start : Nat) (cs : List Char) :
    lexFrom tokens segment size start (ws ++ cs) =
      lexFrom tokens segment size (start + Text.byteLength ws) cs := by
  rw [lexFrom_dropWhile, lexFrom_dropWhile _ cs, List.takeWhile_append_of_pos hws, List.dropWhile_append_of_pos hws,
    Text.byteLength_append, Nat.add_assoc]

/-! ## Words and spaces -/

def AtGap (cs : List Char) : Prop := cs = [] ∨ ∃ more, cs = ' ' :: more

/-- **The text is a lexeme**, kept and taken as a whole, wherever a gap comes behind it. -/
def Lexes (tokens : List String) (w : String) : Prop :=
  ∀ cs, AtGap cs → lexeme? tokens (w.toList ++ cs) = some ⟨w.toList, false, cs⟩

theorem lexFrom_space :
    lexFrom tokens segment size start (' ' :: cs) = lexFrom tokens segment size (start + 1) cs :=
  have hblank : ∀ c ∈ [' '], Text.isBlank c = true := List.forall_mem_singleton.2 (by decide)
  lexFrom_blanks_append hblank start cs

theorem lexFrom_word (h : Lexes tokens w) (hcs : AtGap cs) : lexFrom tokens segment size start (w.toList ++ cs) =
    (lexFrom tokens segment size (start + Text.byteLength w.toList) cs).map
      (.token ⟨w, ⟨segment, start, start + Text.byteLength w.toList⟩⟩ :: ·) := by
  rw [lexFrom_of_some (h cs hcs)]
  simp only [Bool.false_eq_true, if_false, String.ofList_toList]

/-! ## Templates -/

def lexHoles (tokens : List String) (index : Nat) : List String → Except LexError (List Entry)
  | [] => .ok []
  | next :: more => (lexSegments tokens (index + 1) next more).map (.hole index :: ·)

theorem lexSegments_of_parts {first : String} {rest : List String} {es es' : List Entry}
    (h : lexFrom tokens index (Text.byteLength first.toList) 0 first.toList = .ok es)
    (h' : lexHoles tokens index rest = .ok es') : lexSegments tokens index first rest = .ok (es ++ es') := by
  cases rest with
  | nil =>
    cases h'
    rw [lexSegments, h, List.append_nil]
  | cons next more =>
    rw [lexSegments, h]
    change (lexSegments tokens (index + 1) next more >>= _) = _
    rw [lexHoles] at h'
    cases hmore : lexSegments tokens (index + 1) next more with
    | error e =>
      rw [hmore] at h'
      cases h'
    | ok es'' =>
      rw [hmore] at h'
      cases h'
      rfl

/-- **The lexer finds the words of the template**, its first segment being read from some byte on. -/
structure Finds (tokens : List String) (index : Nat) (t : Template) (ws : List Word) : Prop where
  parts : ∀ size start, ∃ es es', lexFrom tokens index size start t.first.toList = .ok es ∧
    lexHoles tokens index t.rest = .ok es' ∧ (es ++ es').map Entry.word = ws

theorem Finds.lexSegments {t : Template} (h : Finds tokens index t ws) :
    ∃ es, Lexer.lexSegments tokens index t.first t.rest = .ok es ∧ es.map Entry.word = ws := by
  obtain ⟨es, es', hfirst, hrest, hws⟩ := h.parts (Text.byteLength t.first.toList) 0
  exact ⟨es ++ es', lexSegments_of_parts hfirst hrest, hws⟩

theorem Finds.nil : Finds tokens index ⟨"", []⟩ [] :=
  ⟨fun _ _ => ⟨[], [], by rw [lexFrom]; rfl, rfl, rfl⟩⟩

theorem Finds.space {t : Template} (h : Finds tokens index t ws) : Finds tokens index ⟨" " ++ t.first, t.rest⟩ ws where
  parts size start := by
    obtain ⟨es, es', hes, hes', hws⟩ := h.parts size (start + 1)
    refine ⟨es, es', ?_, hes', hws⟩
    rw [String.toList_append]
    exact lexFrom_space.trans hes

theorem Finds.text {t : Template} (h : Finds tokens index t ws) (hw : Lexes tokens w) (hgap : AtGap t.first.toList) :
    Finds tokens index ⟨w ++ t.first, t.rest⟩ (.text w :: ws) where
  parts size start := by
    obtain ⟨es, es', hes, hes', hws⟩ := h.parts size (start + Text.byteLength w.toList)
    refine ⟨.token ⟨w, ⟨index, start, start + Text.byteLength w.toList⟩⟩ :: es, es', ?_, hes',
      congrArg (Word.text w :: ·) hws⟩
    rw [String.toList_append, lexFrom_word hw hgap, hes]
    rfl

theorem Finds.hole {t : Template} (h : Finds tokens (index + 1) t ws) :
    Finds tokens index ⟨"", t.segments⟩ (.hole index :: ws) where
  parts size start := by
    obtain ⟨es, hes, hws⟩ := h.lexSegments
    refine ⟨[], .hole index :: es, by rw [lexFrom]; rfl, ?_, congrArg (Word.hole index :: ·) hws⟩
    rw [Template.segments, lexHoles, hes]
    rfl

theorem finds_spaced : ∀ (ws : List Word) (index n : Nat), (∀ w, .text w ∈ ws → Lexes tokens w) →
    Word.holes ws = List.range' index n → Finds tokens index (Template.spaced ws) ws
  | [], _, _, _, _ => .nil
  | [.text w], _, _, h, _ => Finds.nil.text (h w List.mem_cons_self) (Or.inl rfl)
  | [.hole i], index, n, _, hholes => by
    match n, hholes with
    | n + 1, hholes =>
      obtain ⟨rfl, -⟩ := List.cons.inj hholes
      exact Finds.nil.hole
  -- behind a word comes the space, which is passed
  | .text w :: w' :: ws, index, n, h, hholes => by
    have hmore : ∀ w, .text w ∈ w' :: ws → Lexes tokens w := fun w hw => h w (List.mem_cons_of_mem _ hw)
    have hspace := (finds_spaced (w' :: ws) index n hmore hholes).space
    exact hspace.text (h w List.mem_cons_self) (Or.inr ⟨_, String.toList_append⟩)
  | .hole i :: w' :: ws, index, n, h, hholes => by
    have hmore : ∀ w, .text w ∈ w' :: ws → Lexes tokens w := fun w hw => h w (List.mem_cons_of_mem _ hw)
    match n, hholes with
    | n + 1, hholes =>
      obtain ⟨rfl, hholes⟩ := List.cons.inj hholes
      exact (finds_spaced (w' :: ws) (i + 1) n hmore hholes).space.hole

/-- **The lexer finds the words that were spaced**, if the texts among them are lexemes and the holes are numbered. -/
theorem lex_spaced {n : Nat} (h : ∀ w, .text w ∈ ws → Lexes tokens w) (hholes : Word.holes ws = List.range n) :
    ∃ es, lex tokens (Template.spaced ws) = .ok es ∧ es.map Entry.word = ws := by
  rw [List.range_eq_range'] at hholes
  exact (finds_spaced ws 0 n h hholes).lexSegments

end Lexer

end Packrat
