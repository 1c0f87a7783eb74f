import Mathlib.Data.List.TakeWhile
import Packrat.Proofs.JsonStrings
import Packrat.Proofs.NotationReader
import Packrat.Proofs.Spacing
/-!
# NotationWriter — rules as text

Rules are written as the words of the notation with single spaces between them: a literal as a JSON string, an action as
a hole.  Every word is a lexeme before a space (`lexes_of_mem_words`), so the scanner finds the words again, and the
words of a tree derive it (`Choice.derives`).  Main statement: what was written is read back, whatever the literals and
the nesting are (`parseRules_written`).
-/
namespace Packrat

namespace Lexer

variable {tokens : List String} {w : String} {cs : List Char}

/-! ## Lexemes before a gap -/

theorem of_isIdentStart {c : Char} (h : isIdentStart c = true) :
    Text.isBlank c = false ∧ c.isDigit = false ∧ c ≠ '"' := by
  have hall : ∀ n < 128, isIdentStart (Char.ofNat n) = true →
      Text.isBlank (Char.ofNat n) = false ∧ (Char.ofNat n).isDigit = false ∧ Char.ofNat n ≠ '"' := by decide
  have hc := hall c.toNat (Pattern.toNat_lt_of_isIdentChar (Bool.or_eq_true_iff.2 (Or.inl h)))
  rw [Char.ofNat_toNat] at hc
  exact hc h

theorem number?_of_not_digit {c : Char} (h : c.isDigit = false) : number? (c :: cs) = none := by
  rw [number?, digits?, run?_cons_eq_none_iff.2 h]
  rfl

def AtBreak (cs : List Char) : Prop := ∀ c ∈ cs.head?, isIdentChar c = false

theorem AtGap.atBreak (h : AtGap cs) : AtBreak cs := by
  rcases h with rfl | ⟨more, rfl⟩
  · exact fun c hc => nomatch hc
  · rintro c ⟨⟩
    rfl

theorem ident?_of_isIdentifier (h : isIdentifier w = true) (hcs : AtBreak cs) :
    ident? (w.toList ++ cs) = some (w.toList, cs) := by
  have hgap : cs.takeWhile isIdentChar = [] ∧ cs.dropWhile isIdentChar = cs := by
    cases cs with
    | nil => exact ⟨rfl, rfl⟩
    | cons c cs =>
      have hc : ¬isIdentChar c = true := by
        rw [hcs c rfl]
        exact Bool.false_ne_true
      exact ⟨List.takeWhile_cons_of_neg hc, List.dropWhile_cons_of_neg hc⟩
  unfold isIdentifier at h
  match hw : w.toList with
  | [] =>
    rw [hw] at h
    cases h
  | c :: more =>
    rw [hw, ident?] at h
    split at h
    · rename_i hc
      have hmore : ∀ d ∈ more, isIdentChar d = true :=
        List.dropWhile_eq_nil_iff.1 (List.isEmpty_iff.1 h)
      rw [List.cons_append, ident?, if_pos hc, List.takeWhile_append_of_pos hmore, List.dropWhile_append_of_pos hmore,
        hgap.1, hgap.2, List.append_nil]
    · cases h

theorem lexeme?_of_isIdentifier (h : isIdentifier w = true) (hcs : AtBreak cs) :
    lexeme? tokens (w.toList ++ cs) = some ⟨w.toList, false, cs⟩ := by
  have hident := ident?_of_isIdentifier h hcs
  obtain ⟨c, more, hw⟩ : ∃ c more, w.toList = c :: more :=
    List.exists_cons_of_ne_nil fun hnil => by
      rw [isIdentifier, hnil] at h
      cases h
  have hc : isIdentStart c = true := by
    by_contra hc
    rw [hw, List.cons_append, ident?, if_neg hc] at hident
    cases hident
  obtain ⟨hblank, hdigit, hquote⟩ := of_isIdentStart hc
  have hstring : string? (w.toList ++ cs) = none := by
    rw [hw, List.cons_append, string?.eq_2 _ (by simpa using hquote)]
  have hblanks : blanks? (w.toList ++ cs) = none := by
    rw [hw]
    exact run?_cons_eq_none_iff.2 hblank
  have hnumber : number? (w.toList ++ cs) = none := by
    rw [hw]
    exact number?_of_not_digit hdigit
  rw [lexeme?, hblanks, hnumber, hstring, hident]
  rfl

theorem lexes_of_isIdentifier (h : isIdentifier w = true) : Lexes tokens w := fun _ hcs =>
  lexeme?_of_isIdentifier h hcs.atBreak

theorem lexeme?_encode (text cs : List Char) :
    lexeme? tokens (Json.encode text ++ cs) = some ⟨Json.encode text, false, cs⟩ := by
  have hstring := Json.string?_encode text cs
  have hblanks : blanks? (Json.encode text ++ cs) = none := run?_cons_eq_none_iff.2 (by decide)
  have hnumber : number? (Json.encode text ++ cs) = none := number?_of_not_digit rfl
  rw [lexeme?, hblanks, hnumber, hstring]
  rfl

theorem lexes_encode (text : List Char) : Lexes tokens (String.ofList (Json.encode text)) := fun cs _ => by
  rw [String.toList_ofList]
  exact lexeme?_encode text cs

end Lexer

/-- **Words that were spaced are scanned**, if the texts among them are lexemes and the holes are numbered. -/
theorem Scanner.exists_scan_spaced {s : Scanner} {tokens : List String} (hs : ofTokens tokens = .ok s) {ws : List Word}
    {n : Nat} (h : ∀ w, .text w ∈ ws → Lexer.Lexes tokens w) (hholes : Word.holes ws = List.range n) :
    ∃ l, s.scan (Template.spaced ws) = .ok l ∧ l.entries.map Entry.word = ws := by
  obtain ⟨es, hes, hwords⟩ := Lexer.lex_spaced h hholes
  exact ⟨⟨es, s.lexicon⟩, (scan_eq_ok_iff hs).2 ⟨hes, rfl⟩, hwords⟩

theorem holes_word : ∀ es : List Entry, Word.holes (es.map Entry.word) = holesOf es
  | [] => rfl
  | .token _ :: es => holes_word es
  | .hole i :: es => congrArg (i :: ·) (holes_word es)

namespace Grammar

def marks : List String := ["::=", "/", ";", "*", "+", "?", "**", "++", "(", ")", "."]

theorem lexes_mark {w : String} (h : w ∈ marks) : Lexer.Lexes notationTokens w := by
  simp only [marks, List.mem_cons, List.not_mem_nil, or_false] at h
  rcases h with rfl | rfl | rfl | rfl | rfl | rfl | rfl | rfl | rfl | rfl | rfl <;>
    rintro cs (rfl | ⟨more, rfl⟩) <;> rfl

/-! ## The words of a tree -/

mutual

def Choice.words : Choice → List Word
  | .last s => s.words
  | .orElse s rest => s.words ++ .text "/" :: rest.words

def Sequence.words : Sequence → List Word
  | .stop none => []
  | .stop (some i) => [.hole i]
  | .andThen f rest => f.words ++ rest.words

def Factor.words : Factor → List Word
  | .once a => a.words
  | .optional a => a.words ++ [.text "?"]
  | .many a => a.words ++ [.text "*"]
  | .many1 a => a.words ++ [.text "+"]
  | .sepBy a separator => a.words ++ .text "**" :: separator.words
  | .sepBy1 a separator => a.words ++ .text "++" :: separator.words

def Atom.words : Atom → List Word
  | .literal text => [.text (String.ofList (Json.encode text.toList))]
  | .terminal t => [.text t.name]
  | .rule name => [.text name]
  | .super name => [.text "super", .text ".", .text name]
  | .group c => .text "(" :: c.words ++ [.text ")"]

end

def Rule.words (r : Rule) : List Word := .text r.name :: .text "::=" :: r.body.words ++ [.text ";"]

/-- **The text of rules in the notation**, its words with single spaces between them. -/
def written (rules : List Rule) : Template := Template.spaced (rules.flatMap Rule.words)

def Reference.Named : Reference → Prop
  | .rule name => IsName name ∧ Terminal.ofName? name = none
  | .super name => IsName name

instance : (r : Reference) → Decidable r.Named
  | .rule _ => inferInstanceAs (Decidable (_ ∧ _))
  | .super name => inferInstanceAs (Decidable (IsName name))

def AllNamed (refs : List Reference) : Prop := ∀ ref ∈ refs, ref.Named

instance (refs : List Reference) : Decidable (AllNamed refs) := inferInstanceAs (Decidable (∀ ref ∈ refs, ref.Named))

theorem AllNamed.left {refs refs' : List Reference} (h : AllNamed (refs ++ refs')) : AllNamed refs :=
  fun ref hr => h ref (List.mem_append_left _ hr)

theorem AllNamed.right {refs refs' : List Reference} (h : AllNamed (refs ++ refs')) : AllNamed refs' :=
  fun ref hr => h ref (List.mem_append_right _ hr)

/-- **The names of the rule can be read**: its own, and those it refers to. -/
def Rule.Named (r : Rule) : Prop := IsName r.name ∧ AllNamed r.body.references

instance (r : Rule) : Decidable r.Named := inferInstanceAs (Decidable (_ ∧ _))

theorem isName_name (t : Terminal) : IsName t.name := by cases t <;> decide

/-! ## Scanning what was written -/

def Lexical (ws : List Word) : Prop := ∀ w, .text w ∈ ws → Lexer.Lexes notationTokens w

theorem Lexical.nil : Lexical [] := fun _ h => by cases h

theorem Lexical.hole {i : Nat} : Lexical [.hole i] := fun _ h => by cases List.mem_singleton.1 h

theorem Lexical.cons {w : String} {ws : List Word} (hw : Lexer.Lexes notationTokens w) (h : Lexical ws) :
    Lexical (.text w :: ws) := fun v hv => by
  rcases List.mem_cons.1 hv with he | hv
  · cases he
    exact hw
  · exact h v hv

theorem Lexical.append {ws ws' : List Word} (h : Lexical ws) (h' : Lexical ws') : Lexical (ws ++ ws') :=
  fun w hw => (List.mem_append.1 hw).elim (h w) (h' w)

theorem Lexical.mark {w : String} {ws : List Word} (hw : w ∈ marks) (h : Lexical ws) : Lexical (.text w :: ws) :=
  h.cons (lexes_mark hw)

theorem Lexical.name {w : String} {ws : List Word} (hw : IsName w) (h : Lexical ws) : Lexical (.text w :: ws) :=
  h.cons (Lexer.lexes_of_isIdentifier hw.1)

mutual

theorem Choice.lexical : ∀ c : Choice, AllNamed c.references → Lexical c.words
  | .last s, h => s.lexical h
  | .orElse s rest, h => (s.lexical h.left).append ((rest.lexical h.right).mark (by decide))

theorem Sequence.lexical : ∀ s : Sequence, AllNamed s.references → Lexical s.words
  | .stop none, _ => Lexical.nil
  | .stop (some _), _ => Lexical.hole
  | .andThen f rest, h => (f.lexical h.left).append (rest.lexical h.right)

theorem Factor.lexical : ∀ f : Factor, AllNamed f.references → Lexical f.words
  | .once a, h => a.lexical h
  | .optional a, h | .many a, h | .many1 a, h => (a.lexical h).append (Lexical.nil.mark (by decide))
  | .sepBy a b, h | .sepBy1 a b, h => (a.lexical h.left).append ((b.lexical h.right).mark (by decide))

theorem Atom.lexical : ∀ a : Atom, AllNamed a.references → Lexical a.words
  | .literal _, _ => Lexical.nil.cons (Lexer.lexes_encode _)
  | .terminal t, _ => Lexical.nil.name (isName_name t)
  | .rule _, h => Lexical.nil.name (h _ List.mem_cons_self).1
  | .super n, h =>
    have hn : IsName n := h (.super n) List.mem_cons_self
    ((Lexical.nil.name hn).mark (by decide)).cons (Lexer.lexes_of_isIdentifier (by decide))
  | .group c, h => ((c.lexical h).append (Lexical.nil.mark (by decide))).mark (by decide)

end

mutual

theorem Choice.holes_words : ∀ c : Choice, Word.holes c.words = c.actions
  | .last s => s.holes_words
  | .orElse s rest => by
    rw [Choice.words, Choice.actions, Word.holes_append, Word.holes_text, s.holes_words, rest.holes_words]

theorem Sequence.holes_words : ∀ s : Sequence, Word.holes s.words = s.actions
  | .stop none | .stop (some _) => rfl
  | .andThen f rest => by rw [Sequence.words, Sequence.actions, Word.holes_append, f.holes_words, rest.holes_words]

theorem Factor.holes_words : ∀ f : Factor, Word.holes f.words = f.actions
  | .once a => a.holes_words
  | .optional a | .many a | .many1 a => by
    rw [Factor.words, Factor.actions, Word.holes_append, a.holes_words, Word.holes_text, Word.holes_nil, List.append_nil]
  | .sepBy a b | .sepBy1 a b => by
    rw [Factor.words, Factor.actions, Word.holes_append, Word.holes_text, a.holes_words, b.holes_words]

theorem Atom.holes_words : ∀ a : Atom, Word.holes a.words = a.actions
  | .literal _ | .terminal _ | .rule _ | .super _ => rfl
  | .group c => by
    rw [Atom.words, Atom.actions, List.cons_append, Word.holes_text, Word.holes_append, c.holes_words, Word.holes_text,
      Word.holes_nil, List.append_nil]

end

theorem Rule.lexical {r : Rule} (h : r.Named) : Lexical r.words :=
  (((r.body.lexical h.2).append (Lexical.nil.mark (by decide))).mark (by decide)).name h.1

theorem Rule.holes_words (r : Rule) : Word.holes r.words = r.body.actions := by
  simp [Rule.words, r.body.holes_words]

theorem lexical_rules {rules : List Rule} (h : ∀ r ∈ rules, r.Named) : Lexical (rules.flatMap Rule.words) :=
  fun w hw => by
    obtain ⟨r, hr, hw⟩ := List.mem_flatMap.1 hw
    exact Rule.lexical (h r hr) w hw

theorem holes_rules : ∀ rules : List Rule, Word.holes (rules.flatMap Rule.words) = actionsOf rules
  | [] => rfl
  | r :: rules => by
    rw [List.flatMap_cons, Word.holes_append, r.holes_words, holes_rules rules]
    rfl

/-! ## Reading what was written -/

variable {es rest : List Entry} {more : List Word}

theorem exists_token {w : String} (h : es.map Entry.word = .text w :: more) :
    ∃ t rest, es = .token t :: rest ∧ t.text = w ∧ rest.map Entry.word = more := by
  match es, h with
  | .token t :: rest, h =>
    obtain ⟨hw, hmore⟩ := List.cons.inj h
    exact ⟨t, rest, rfl, Word.text.inj hw, hmore⟩
  | .hole _ :: _, h => cases (List.cons.inj h).1

theorem exists_hole {i : Nat} (h : es.map Entry.word = .hole i :: more) :
    ∃ rest, es = .hole i :: rest ∧ rest.map Entry.word = more := by
  match es, h with
  | .hole j :: rest, h =>
    obtain ⟨hi, hmore⟩ := List.cons.inj h
    exact ⟨rest, by rw [Word.hole.inj hi], hmore⟩
  | .token _ :: _, h => cases (List.cons.inj h).1

theorem decodes_encode (text : String) : Decodes (String.ofList (Json.encode text.toList)) text := by
  rw [Decodes, decodeLiteral, String.toList_ofList, Json.decode_encode]
  exact congrArg Except.ok String.ofList_toList

mutual

theorem Choice.derives : ∀ (c : Choice) {es more}, AllNamed c.references →
    es.map Entry.word = c.words ++ more → ∃ rest, Derives Decodes .choice c es rest ∧ rest.map Entry.word = more
  | .last s, _, _, h, hes => by
    obtain ⟨rest, hs, hrest⟩ := s.derives h hes
    exact ⟨rest, .last hs, hrest⟩
  | .orElse s c, _, _, h, hes => by
    rw [Choice.words, List.append_assoc] at hes
    obtain ⟨mid, hs, hmid⟩ := s.derives h.left hes
    obtain ⟨t, mid, rfl, ht, hmid⟩ := exists_token hmid
    obtain ⟨rest, hc, hrest⟩ := c.derives h.right hmid
    exact ⟨rest, .orElse hs ht hc, hrest⟩

theorem Sequence.derives : ∀ (s : Sequence) {es more}, AllNamed s.references →
    es.map Entry.word = s.words ++ more → ∃ rest, Derives Decodes .sequence s es rest ∧ rest.map Entry.word = more
  | .stop none, es, _, _, hes => ⟨es, .stop, hes⟩
  | .stop (some i), _, _, _, hes => by
    obtain ⟨rest, rfl, hrest⟩ := exists_hole hes
    exact ⟨rest, .action, hrest⟩
  | .andThen f s, _, _, h, hes => by
    rw [Sequence.words, List.append_assoc] at hes
    obtain ⟨mid, hf, hmid⟩ := f.derives h.left hes
    obtain ⟨rest, hs, hrest⟩ := s.derives h.right hmid
    exact ⟨rest, .andThen hf hs, hrest⟩

theorem Factor.derives : ∀ (f : Factor) {es more}, AllNamed f.references →
    es.map Entry.word = f.words ++ more → ∃ rest, Derives Decodes .factor f es rest ∧ rest.map Entry.word = more
  | .once a, _, _, h, hes => by
    obtain ⟨rest, ha, hrest⟩ := a.derives h hes
    exact ⟨rest, .once ha, hrest⟩
  | .optional a, _, _, h, hes => by
    rw [Factor.words, List.append_assoc] at hes
    obtain ⟨mid, ha, hmid⟩ := a.derives h hes
    obtain ⟨t, rest, rfl, ht, hrest⟩ := exists_token hmid
    exact ⟨rest, .optional ha ht, hrest⟩
  | .many a, _, _, h, hes => by
    rw [Factor.words, List.append_assoc] at hes
    obtain ⟨mid, ha, hmid⟩ := a.derives h hes
    obtain ⟨t, rest, rfl, ht, hrest⟩ := exists_token hmid
    exact ⟨rest, .many ha ht, hrest⟩
  | .many1 a, _, _, h, hes => by
    rw [Factor.words, List.append_assoc] at hes
    obtain ⟨mid, ha, hmid⟩ := a.derives h hes
    obtain ⟨t, rest, rfl, ht, hrest⟩ := exists_token hmid
    exact ⟨rest, .many1 ha ht, hrest⟩
  | .sepBy a b, _, _, h, hes => by
    rw [Factor.words, List.append_assoc] at hes
    obtain ⟨mid, ha, hmid⟩ := a.derives h.left hes
    obtain ⟨t, mid, rfl, ht, hmid⟩ := exists_token hmid
    obtain ⟨rest, hb, hrest⟩ := b.derives h.right hmid
    exact ⟨rest, .sepBy ha ht hb, hrest⟩
  | .sepBy1 a b, _, _, h, hes => by
    rw [Factor.words, List.append_assoc] at hes
    obtain ⟨mid, ha, hmid⟩ := a.derives h.left hes
    obtain ⟨t, mid, rfl, ht, hmid⟩ := exists_token hmid
    obtain ⟨rest, hb, hrest⟩ := b.derives h.right hmid
    exact ⟨rest, .sepBy1 ha ht hb, hrest⟩

theorem Atom.derives : ∀ (a : Atom) {es more}, AllNamed a.references →
    es.map Entry.word = a.words ++ more → ∃ rest, Derives Decodes .atom a es rest ∧ rest.map Entry.word = more
  | .literal text, _, _, _, hes => by
    obtain ⟨t, rest, rfl, ht, hrest⟩ := exists_token hes
    have hstring : Lexer.isString t.text = true := by
      rw [ht]
      exact Json.isString_encode _
    have hreads : Decodes t.text text := by
      rw [ht]
      exact decodes_encode text
    exact ⟨rest, .literal hstring hreads, hrest⟩
  | .terminal terminal, _, _, _, hes => by
    obtain ⟨t, rest, rfl, ht, hrest⟩ := exists_token hes
    have hname : IsName t.text := by
      rw [ht]
      exact isName_name terminal
    exact ⟨rest, .terminal hname (by rw [ht, Terminal.ofName?_name]), hrest⟩
  | .rule n, _, _, h, hes => by
    obtain ⟨t, rest, rfl, rfl, hrest⟩ := exists_token hes
    have hn : IsName t.text ∧ Terminal.ofName? t.text = none := h (.rule t.text) List.mem_cons_self
    exact ⟨rest, .rule hn.1 hn.2, hrest⟩
  | .super n, _, _, h, hes => by
    obtain ⟨t, mid, rfl, ht, hmid⟩ := exists_token hes
    obtain ⟨d, mid, rfl, hd, hmid⟩ := exists_token hmid
    obtain ⟨n, rest, rfl, rfl, hrest⟩ := exists_token hmid
    exact ⟨rest, .super ht hd (h (.super n.text) List.mem_cons_self), hrest⟩
  | .group c, _, _, h, hes => by
    rw [Atom.words, List.cons_append, List.cons_append, List.append_assoc] at hes
    obtain ⟨t, mid, rfl, ht, hmid⟩ := exists_token hes
    obtain ⟨mid, hc, hmid⟩ := c.derives h hmid
    obtain ⟨e, rest, rfl, he, hrest⟩ := exists_token hmid
    exact ⟨rest, .group ht hc he, hrest⟩

end

theorem derivesRules_words : ∀ {rules : List Rule} {es : List Entry}, (∀ r ∈ rules, r.Named) →
    es.map Entry.word = rules.flatMap Rule.words → DerivesRules Decodes es rules
  | [], es, _, hes => by
    rw [List.map_eq_nil_iff.1 hes]
    exact .nil
  | r :: rules, es, h, hes => by
    have hr : r.Named := h r List.mem_cons_self
    rw [List.flatMap_cons, Rule.words, List.cons_append, List.cons_append, List.append_assoc] at hes
    obtain ⟨n, mid, rfl, hn, hmid⟩ := exists_token hes
    obtain ⟨d, mid, rfl, hd, hmid⟩ := exists_token hmid
    obtain ⟨mid, hc, hmid⟩ := r.body.derives hr.2 hmid
    obtain ⟨e, rest, rfl, he, hrest⟩ := exists_token hmid
    have hrule : r = ⟨n.text, r.body⟩ := by rw [hn]
    have hname : IsName n.text := by
      rw [hn]
      exact hr.1
    rw [hrule]
    exact .cons hname hd hc he (derivesRules_words (fun r' hr' => h r' (List.mem_cons_of_mem _ hr')) hrest)

/-- **Rules that were written are read back.**  The names are names of the notation, the actions are numbered in the
order of the text; the literals are any texts, and the trees of any depth. -/
theorem parseRules_written {rules : List Rule} (hnames : ∀ r ∈ rules, r.Named)
    (hactions : actionsOf rules = List.range (actionsOf rules).length) : parseRules (written rules) = .ok rules := by
  obtain ⟨s, hs, -⟩ := Scanner.ofTokens_eq notationTokens
  obtain ⟨es, hes, hwords⟩ := Lexer.lex_spaced (lexical_rules hnames) ((holes_rules rules).trans hactions)
  have hscan : s.scan (written rules) = .ok ⟨es, s.lexicon⟩ := by
    rw [Scanner.scan_of_ofTokens hs]
    change (Lexer.lex notationTokens (written rules)).map _ = _
    rw [written, hes]
    rfl
  exact (parseRules_eq_ok_iff_of_scan hs hscan).2 (derivesRules_words hnames hwords)

def quotedList : List Rule :=
  [⟨"list", .last (.andThen (.once (.literal "\"\n"))
    (.andThen (.sepBy (.group (.orElse (.andThen (.once (.rule "item")) (.stop (some 0))) (.last (.stop none))))
      (.literal "é")) (.stop (some 1))))⟩,
   ⟨"item", .orElse (.andThen (.many1 (.super "item")) (.stop none))
    (.last (.andThen (.optional (.terminal .number)) (.stop (some 2))))⟩]

theorem parseRules_written_quotedList : (∀ r ∈ quotedList, r.Named) ∧ actionsOf quotedList = List.range 3 ∧
    parseRules (written quotedList) = .ok quotedList :=
  ⟨by decide, by decide, parseRules_written (by decide) (by decide)⟩

example : written quotedList = ⟨"list ::= \"\\\"\\n\" ( item ", [" / ) ** \"é\" ",
    " ; item ::= super . item + / NUMBER ? ", " ;"]⟩ := by
  decide

end Grammar

end Packrat
