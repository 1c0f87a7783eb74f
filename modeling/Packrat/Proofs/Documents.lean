import Packrat.Proofs.NotationWriter
/-!
# Documents — data as compact text

A document is null, a boolean, a text, or an array or a record of documents.  Its compact text is its words one right
behind the other: the keywords, the texts as JSON strings, the brackets, and the commas and colons between.  No word
goes on where the next one starts, so the lexer finds exactly the words again.  Main statement: `lex_compact`.
-/
namespace Packrat

/-- **A document** without numbers.  The keys of a record are any texts in any order, and may be repeated. -/
inductive Document where
  | null
  | bool (b : Bool)
  | text (s : String)
  | array (items : List Document)
  | record (fields : List (String × Document))

namespace Document

theorem induct {P : Document → Prop} (null : P .null) (bool : ∀ b, P (.bool b)) (text : ∀ s, P (.text s))
    (array : ∀ items, (∀ d ∈ items, P d) → P (.array items))
    (record : ∀ fields, (∀ f ∈ fields, P f.2) → P (.record fields)) (d : Document) : P d :=
  @Document.rec P (fun items => ∀ d ∈ items, P d) (fun fields => ∀ f ∈ fields, P f.2) (fun f => P f.2)
    null bool text array record (fun _ h => nomatch h) (fun _ _ hd hds => List.forall_mem_cons.2 ⟨hd, hds⟩)
    (fun _ h => nomatch h) (fun _ _ hf hfs => List.forall_mem_cons.2 ⟨hf, hfs⟩) (fun _ _ h => h) d

/-! ## Words -/

def quoted (s : String) : String := String.ofList (Json.encode s.toList)

def listed (parts : List (List String)) : List String := [","].intercalate parts

mutual

def words : Document → List String
  | .null => ["null"]
  | .bool b => [if b then "true" else "false"]
  | .text s => [quoted s]
  | .array items => "[" :: listed (itemWords items) ++ ["]"]
  | .record fields => "\x7b" :: listed (fieldsWords fields) ++ ["\x7d"]
termination_by structural d => d

def itemWords : List Document → List (List String)
  | [] => []
  | d :: items => words d :: itemWords items
termination_by structural items => items

def fieldsWords : List (String × Document) → List (List String)
  | [] => []
  | f :: fields => fieldWords f :: fieldsWords fields
termination_by structural fields => fields

def fieldWords : String × Document → List String
  | (key, d) => quoted key :: ":" :: words d
termination_by structural f => f

end

theorem itemWords_eq : ∀ items : List Document, itemWords items = items.map words
  | [] => rfl
  | d :: items => by rw [itemWords, itemWords_eq items, List.map_cons]

theorem fieldsWords_eq : ∀ fields : List (String × Document), fieldsWords fields = fields.map fieldWords
  | [] => rfl
  | f :: fields => by rw [fieldsWords, fieldsWords_eq fields, List.map_cons]

@[simp] theorem words_array (items : List Document) :
    words (.array items) = "[" :: listed (items.map words) ++ ["]"] := by
  rw [words, itemWords_eq]

@[simp] theorem words_record (fields : List (String × Document)) :
    words (.record fields) = "\x7b" :: listed (fields.map fieldWords) ++ ["\x7d"] := by
  rw [words, fieldsWords_eq]

def compact (d : Document) : String := String.join d.words

example : compact (.array [.null, .record [("a", .bool true), ("a", .text "\"")], .array []]) =
    "[null,\x7b\"a\":true,\"a\":\"\\\"\"\x7d,[]]" := by
  decide +kernel

def others (parts : List (List String)) : List String := parts.flatMap ("," :: ·)

theorem others_cons (part : List String) (parts : List (List String)) :
    others (part :: parts) = "," :: (part ++ others parts) := rfl

theorem listed_cons (part : List String) (parts : List (List String)) :
    listed (part :: parts) = part ++ others parts := by
  induction parts generalizing part with
  | nil => exact List.intercalate_singleton.trans (List.append_nil part).symm
  | cons next parts ih =>
    rw [listed, List.intercalate_cons_cons, ← listed, ih, List.append_assoc, others_cons, List.singleton_append]

/-! ## Lexemes -/

open Lexer

def literals : List String := [",", ":", "[", "]", "false", "null", "true", "\x7b", "\x7d"]

/-- **The lexer finds these words** in the rest of a segment. -/
def Lexed (cs : List Char) (ws : List String) : Prop :=
  ∀ segment size start, ∃ es, lexFrom literals segment size start cs = .ok es ∧ es.map Entry.word = ws.map .text

variable {cs : List Char} {w : String} {ws : List String}

theorem Lexed.nil : Lexed [] [] := fun _ _ _ => ⟨[], by rw [lexFrom]; rfl, rfl⟩

theorem Lexed.cons (h : lexeme? literals (w.toList ++ cs) = some ⟨w.toList, false, cs⟩) (hcs : Lexed cs ws) :
    Lexed (w.toList ++ cs) (w :: ws) := by
  intro segment size start
  obtain ⟨es, hes, hws⟩ := hcs segment size (start + Text.byteLength w.toList)
  refine ⟨.token ⟨w, ⟨segment, start, start + Text.byteLength w.toList⟩⟩ :: es, ?_, congrArg (Word.text w :: ·) hws⟩
  rw [lexFrom_of_some h, hes]
  simp only [Except.map, Bool.false_eq_true, if_false, String.ofList_toList]

/-- **Words that stay apart**: before a break they are found, whatever is found behind. -/
def Apart (row : List String) : Prop :=
  ∀ cs ws, AtBreak cs → Lexed cs ws → Lexed (row.flatMap String.toList ++ cs) (row ++ ws)

theorem Apart.nil : Apart [] := fun _ _ _ h => h

def marks : List String := [",", ":", "[", "]", "\x7b", "\x7d"]

theorem lexeme?_mark (hw : w ∈ marks) (cs : List Char) :
    lexeme? literals (w.toList ++ cs) = some ⟨w.toList, false, cs⟩ := by
  simp only [marks, List.mem_cons, List.not_mem_nil, or_false] at hw
  rcases hw with rfl | rfl | rfl | rfl | rfl | rfl <;> rfl

theorem atBreak_mark (hw : w ∈ marks) (cs : List Char) : AtBreak (w.toList ++ cs) := by
  simp only [marks, List.mem_cons, List.not_mem_nil, or_false] at hw
  rcases hw with rfl | rfl | rfl | rfl | rfl | rfl <;> rintro c ⟨⟩ <;> rfl

theorem Apart.mark {row : List String} (hw : w ∈ marks) (h : Apart row) : Apart (w :: row) := by
  intro cs ws hcs hws
  rw [List.flatMap_cons, List.append_assoc]
  exact (h cs ws hcs hws).cons (lexeme?_mark hw _)

theorem Apart.quoted {row : List String} (s : String) (h : Apart row) : Apart (quoted s :: row) := by
  intro cs ws hcs hws
  rw [List.flatMap_cons, List.append_assoc]
  refine (h cs ws hcs hws).cons ?_
  rw [Document.quoted, String.toList_ofList]
  exact lexeme?_encode _ _

theorem apart_keyword (hw : isIdentifier w = true) : Apart [w] := by
  intro cs ws hcs hws
  rw [List.flatMap_cons, List.flatMap_nil, List.append_nil]
  exact hws.cons (lexeme?_of_isIdentifier hw hcs)

theorem Apart.upTo {row row' : List String} (h : Apart row) (hw : w ∈ marks) (h' : Apart row') :
    Apart (row ++ w :: row') := by
  intro cs ws hcs hws
  have hmark := h'.mark hw cs ws hcs hws
  rw [List.flatMap_append, List.append_assoc, List.append_assoc]
  refine h _ _ ?_ hmark
  rw [List.flatMap_cons, List.append_assoc]
  exact atBreak_mark hw _

theorem Apart.listed (hw : w ∈ marks) : ∀ {parts : List (List String)}, (∀ part ∈ parts, Apart part) →
    Apart (listed parts ++ [w])
  | [], _ => Apart.nil.mark hw
  | part :: parts, h => by
    rw [listed_cons]
    -- every part ends at a mark: at the comma before the next part, and the last one at `w`
    induction parts generalizing part with
    | nil =>
      rw [List.append_assoc]
      exact (h part List.mem_cons_self).upTo hw .nil
    | cons next parts ih =>
      have hpart := h part List.mem_cons_self
      have hmore := ih next fun p hp => h p (List.mem_cons_of_mem _ hp)
      rw [others_cons, List.append_assoc, List.cons_append]
      exact hpart.upTo List.mem_cons_self hmore

/-- **The words of a document stay apart.** -/
theorem apart_words (d : Document) : Apart d.words := by
  induction d using induct with
  | null => exact apart_keyword (by decide)
  | bool b => cases b <;> exact apart_keyword (by decide)
  | text s => exact Apart.nil.quoted s
  | array items ih =>
    rw [words_array, List.cons_append]
    refine (Apart.listed (by decide) fun part hpart => ?_).mark (by decide)
    obtain ⟨d, hd, rfl⟩ := List.mem_map.1 hpart
    exact ih d hd
  | record fields ih =>
    rw [words_record, List.cons_append]
    refine (Apart.listed (by decide) fun part hpart => ?_).mark (by decide)
    obtain ⟨⟨key, d⟩, hf, rfl⟩ := List.mem_map.1 hpart
    exact ((ih (key, d) hf).mark (by decide)).quoted key

/-- **The lexer finds the words of a document** in its compact text. -/
theorem lex_compact (d : Document) :
    ∃ es, lex literals (.literal d.compact) = .ok es ∧ es.map Entry.word = d.words.map .text := by
  have hlexed := apart_words d [] [] (fun c hc => nomatch hc) .nil
  rw [List.append_nil, List.append_nil] at hlexed
  rw [lex, Template.literal, lexSegments, compact, String.toList_join]
  exact hlexed _ _ _

end Document

end Packrat
