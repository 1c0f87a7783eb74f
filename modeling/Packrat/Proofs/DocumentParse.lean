import Packrat.Proofs.Built
import Packrat.Proofs.Documents
import Packrat.Proofs.ParseMeaning
import Packrat.Value.Literal
/-!
# DocumentParse — the grammar of documents reads every document

The grammar has a rule for scalars, which are a keyword or a string and are given to the reader of JSON scalars, and
rules for arrays and records, whose items stand between commas.  From where the words of a document stand, its rule
takes exactly these words and gives the tree of the document, whatever stands behind them (`gives_words`).  Main
statement: the compact text of a document, parsed as a program, gives its tree (`parse_compact`).
-/
namespace Packrat.Document

open Packrat.Grammar

/-! ## The grammar -/

/-- **The notation of the grammar**, with a hole for each action. -/
def notationText : Template := ⟨"
    # to be overridden or inherited
    start ::= assignExpr EOF ", [";

    # to be extended
    primaryExpr ::=
      dataLiteral ", "
    / array
    / record
    / HOLE ", ";

    dataLiteral ::= \"null\" / \"false\" / \"true\" / NUMBER / STRING;

    array ::= \"[\" element ** \",\" \"]\" ", ";

    # to be extended
    element ::= assignExpr;

    record ::= \"\x7b\" propDef ** \",\" \"\x7d\" ", ";

    propDef ::= propName \":\" assignExpr ", ";

    propName ::= STRING ", ";

    # to be overridden
    assignExpr ::= primaryExpr;
"]⟩

def arg (values : List Value) (i : Nat) : Value := values.getD i .null

def scalar (values : List Value) : Option Value := do Value.ofJson? (← (arg values 0).asString?)

theorem scalar_string (w : String) : scalar [.string w] = Value.ofJson? w := rfl

def actions : List Action := [
  fun values => some (arg values 0),
  fun values => (scalar values).map fun data => .node "data" [data],
  fun values => some (.node "exprHole" [arg values 0]),
  fun values => some (.node "array" [arg values 1]),
  fun values => some (.node "record" [arg values 1]),
  fun values => some (.node "prop" [arg values 0, arg values 2]),
  scalar]

def startRule : Rule :=
  ⟨"start", .last (.andThen (.once (.rule "assignExpr")) (.andThen (.once (.terminal .eof)) (.stop (some 0))))⟩

def primaryRule : Rule :=
  ⟨"primaryExpr", .orElse (.andThen (.once (.rule "dataLiteral")) (.stop (some 1)))
    (.orElse (.andThen (.once (.rule "array")) (.stop none))
      (.orElse (.andThen (.once (.rule "record")) (.stop none))
        (.last (.andThen (.once (.terminal .hole)) (.stop (some 2))))))⟩

def dataRule : Rule :=
  ⟨"dataLiteral", .orElse (.andThen (.once (.literal "null")) (.stop none))
    (.orElse (.andThen (.once (.literal "false")) (.stop none))
      (.orElse (.andThen (.once (.literal "true")) (.stop none))
        (.orElse (.andThen (.once (.terminal .number)) (.stop none))
          (.last (.andThen (.once (.terminal .string)) (.stop none))))))⟩

def arrayRule : Rule :=
  ⟨"array", .last (.andThen (.once (.literal "[")) (.andThen (.sepBy (.rule "element") (.literal ","))
    (.andThen (.once (.literal "]")) (.stop (some 3)))))⟩

def elementRule : Rule := ⟨"element", .last (.andThen (.once (.rule "assignExpr")) (.stop none))⟩

def recordRule : Rule :=
  ⟨"record", .last (.andThen (.once (.literal "\x7b")) (.andThen (.sepBy (.rule "propDef") (.literal ","))
    (.andThen (.once (.literal "\x7d")) (.stop (some 4)))))⟩

def propRule : Rule :=
  ⟨"propDef", .last (.andThen (.once (.rule "propName")) (.andThen (.once (.literal ":"))
    (.andThen (.once (.rule "assignExpr")) (.stop (some 5)))))⟩

def nameRule : Rule := ⟨"propName", .last (.andThen (.once (.terminal .string)) (.stop (some 6)))⟩

def assignRule : Rule := ⟨"assignExpr", .last (.andThen (.once (.rule "primaryExpr")) (.stop none))⟩

def rules : List Rule :=
  [startRule, primaryRule, dataRule, arrayRule, elementRule, recordRule, propRule, nameRule, assignRule]

def layer : Layer := ⟨rules, actions⟩

set_option maxRecDepth 10000 in
theorem parseRules_notation : parseRules notationText = .ok rules := by decide +kernel

/-- **The notation compiles** to the grammar of these rules, and its literals are those of documents. -/
theorem exists_compile : ∃ g, compile notationText actions = .ok g ∧ g.layers = [layer] ∧
    Scanner.ofTokens literals = .ok g.scanner := by
  obtain ⟨scanner, hs, -⟩ := Scanner.ofTokens_eq literals
  have hnames : checkNames [] rules = .ok () := by decide +kernel
  have hrefs : checkReferences layer [] = .ok () := by decide +kernel
  have hliterals : literalsOver none rules = literals := by decide +kernel
  refine ⟨⟨layer, [], literals, scanner⟩, ?_, rfl, hs⟩
  have hholes : notationText.holeCount = actions.length := by decide +kernel
  have hbuilt : ofRules none rules actions = .ok ⟨layer, [], literals, scanner⟩ :=
    ofRules_eq_ok_iff.2 ⟨hnames, hrefs, scanner, hliterals ▸ hs, by rw [hliterals]; rfl⟩
  exact build_eq_ok_iff.2 ⟨hholes, rules, parseRules_notation, hbuilt⟩

/-! ## What the rules give -/

def defined (r : Rule) : Definition := ⟨r, layer, []⟩

theorem find?_rule {r : Rule} (hr : r ∈ rules) : find? r.name [layer] = some (defined r) := by
  have hnodup : (rules.map Rule.name).Nodup := by decide
  have hfind : layer.rules.find? (·.name == r.name) = some r := find?_eq_some_of_nodup hnodup hr
  rw [find?, hfind]
  rfl

/-- **The tokens are those of a scan** with the scanner of documents: their kinds are what the lexer says. -/
structure Scanned (tokens : TokenList) : Prop where
  number : ∀ t : Token, Lexer.number? t.text.toList = none → tokens.lexicon.isNumber t = false
  string : ∀ t : Token, tokens.lexicon.isString t = Lexer.isString t.text

/-- **The words of the entries from a position on** are these. -/
def Stands (tokens : TokenList) (p : Nat) (ws : List String) : Prop :=
  (tokens.entries.drop p).map Entry.word = ws.map .text

def Gives (tokens : TokenList) (r : Rule) (φ : Phrase) (p : Nat) (a : Answer) : Prop :=
  ∃ t, Means [layer] tokens (defined r) φ p a t

variable {tokens : TokenList} {p : Nat} {w : String} {ws rest : List String} {r r' : Rule} {a : Answer} {v : Value}

theorem Stands.append {ws' : List String} (h : Stands tokens p (ws ++ ws')) : Stands tokens (p + ws.length) ws' := by
  have hdrop := congrArg (List.drop ws.length) h
  rw [← List.map_drop, List.drop_drop, List.map_append, List.drop_left' (List.length_map _)] at hdrop
  exact hdrop

theorem Stands.tail (h : Stands tokens p (w :: ws)) : Stands tokens (p + 1) ws :=
  (show Stands tokens p ([w] ++ ws) from h).append

theorem Stands.head (h : Stands tokens p (w :: ws)) : ∃ t, tokens.entries[p]? = some (.token t) ∧ t.text = w := by
  have hhead := congrArg List.head? h
  rw [List.head?_map, List.head?_drop, List.map_cons, List.head?_cons] at hhead
  obtain ⟨e, he, hw⟩ := Option.map_eq_some_iff.1 hhead
  cases e with
  | hole i => cases hw
  | token t =>
    cases hw
    exact ⟨t, he, rfl⟩

theorem Stands.length_le (h : Stands tokens p []) : tokens.entries.length ≤ p :=
  List.drop_eq_nil_iff.1 (List.map_eq_nil_iff.1 h)

/-! ## Leaves -/

theorem gives_literal (h : Stands tokens p (w :: ws)) (text : String) :
    Gives tokens r (.atom (.literal text)) p (if w = text then some (.string w, p + 1) else none) := by
  obtain ⟨t, ht, rfl⟩ := h.head
  refine ⟨_, .leaf ?_⟩
  rw [Atom.leaf?, answerAt, ht, Option.bind_some, literalValue?]
  split
  · rename_i he
    rw [he]
    rfl
  · rfl

theorem gives_terminal {k : Terminal} {t : Token} (hend : k ≠ .eof) (hfail : k ≠ .fail)
    (ht : tokens.entries[p]? = some (.token t)) : Gives tokens r (.atom (.terminal k)) p
      ((k.valueOf? tokens.lexicon (.token t)).map fun v => (v, p + 1)) := by
  have hanswer : answerAt tokens p (k.valueOf? tokens.lexicon) =
      (k.valueOf? tokens.lexicon (.token t)).map fun v => (v, p + 1) := by
    rw [answerAt, ht, Option.bind_some]
  refine ⟨_, .leaf ?_⟩
  rw [← hanswer]
  cases k with
  | eof => exact absurd rfl hend
  | fail => exact absurd rfl hfail
  | number | string | ident | hole => rfl

theorem gives_string (hs : Scanned tokens) (h : Stands tokens p (w :: ws)) :
    Gives tokens r (.atom (.terminal .string)) p
      (if Lexer.isString w = true then some (.string w, p + 1) else none) := by
  obtain ⟨t, ht, rfl⟩ := h.head
  have hgives := gives_terminal (r := r) (k := .string) (by decide) (by decide) ht
  have hvalue : Terminal.valueOf? tokens.lexicon .string (.token t) =
      if Lexer.isString t.text = true then some (.string t.text) else none := by
    rw [← hs.string]
    rfl
  rwa [hvalue, apply_ite (Option.map _)] at hgives

theorem gives_number (hs : Scanned tokens) (h : Stands tokens p (w :: ws)) (hw : Lexer.number? w.toList = none) :
    Gives tokens r (.atom (.terminal .number)) p none := by
  obtain ⟨t, ht, rfl⟩ := h.head
  have hgives := gives_terminal (r := r) (k := .number) (by decide) (by decide) ht
  have hvalue : Terminal.valueOf? tokens.lexicon .number (.token t) = none := by
    refine if_neg ?_
    rw [hs.number t hw]
    exact Bool.false_ne_true
  rwa [hvalue] at hgives

theorem gives_hole (h : Stands tokens p (w :: ws)) : Gives tokens r (.atom (.terminal .hole)) p none := by
  obtain ⟨t, ht, -⟩ := h.head
  exact gives_terminal (by decide) (by decide) ht

/-! ## Sequences and choices -/

variable {x : Atom} {s : Sequence} {c : Choice} {q : Nat}

theorem Gives.call (hr : r ∈ rules) (h : Gives tokens r (.choice r.body) p a) :
    Gives tokens r' (.atom (.rule r.name)) p a := by
  obtain ⟨t, h⟩ := h
  exact ⟨_, .called (congrArg some (find?_rule hr)) h⟩

theorem Gives.fail (h : Gives tokens r (.atom x) p none) :
    Gives tokens r (.sequence [] (.andThen (.once x) s)) p none := by
  obtain ⟨t, h⟩ := h
  exact ⟨_, .factorFail (.once h)⟩

theorem Gives.sole (h : Gives tokens r (.atom x) p a) :
    Gives tokens r (.sequence [] (.andThen (.once x) (.stop none))) p a := by
  cases a with
  | none => exact h.fail
  | some y =>
    obtain ⟨t, h⟩ := h
    exact ⟨_, .factorThen (.once h) .sole⟩

theorem Gives.act {i : Nat} {v' : Value} (h : Gives tokens r (.atom x) p (some (v, q)))
    (hv : (actions[i]?.bind fun f => f [v]) = some v') :
    Gives tokens r (.sequence [] (.andThen (.once x) (.stop (some i)))) p (some (v', q)) := by
  obtain ⟨t, h⟩ := h
  exact ⟨_, .factorThen (.once h) (.act hv)⟩

theorem Gives.last (h : Gives tokens r (.sequence [] s) p a) : Gives tokens r (.choice (.last s)) p a := by
  obtain ⟨t, h⟩ := h
  exact ⟨_, .last h⟩

theorem Gives.first (h : Gives tokens r (.sequence [] s) p (some (v, q))) :
    Gives tokens r (.choice (.orElse s c)) p (some (v, q)) := by
  obtain ⟨t, h⟩ := h
  exact ⟨_, .first h⟩

theorem Gives.next (h : Gives tokens r (.sequence [] s) p none) (h' : Gives tokens r (.choice c) p a) :
    Gives tokens r (.choice (.orElse s c)) p a := by
  obtain ⟨t, h⟩ := h
  obtain ⟨u, h'⟩ := h'
  exact ⟨_, .next h h'⟩

theorem Gives.either {A B : Prop} [Decidable A] [Decidable B]
    (h : Gives tokens r (.atom x) p (if A then some (v, q) else none))
    (h' : Gives tokens r (.choice c) p (if B then some (v, q) else none)) :
    Gives tokens r (.choice (.orElse (.andThen (.once x) (.stop none)) c)) p
      (if A ∨ B then some (v, q) else none) := by
  by_cases hA : A
  · rw [if_pos hA] at h
    rw [if_pos (Or.inl hA)]
    exact h.sole.first
  · rw [if_neg hA] at h
    simp only [hA, false_or]
    exact h.sole.next h'

/-! ## Lists -/

section

variable {α : Type} {row : α → List String} {tree : α → Value} {items : List α} {close : String}
  (hitem : ∀ i ∈ items, ∀ p rest, Stands tokens p (row i ++ rest) →
    Gives tokens r (.atom x) p (some (tree i, p + (row i).length)))

include hitem

theorem gives_items (hclose : close ≠ ",") : ∀ {p : Nat}, Stands tokens p (others (items.map row) ++ close :: rest) →
    Gives tokens r (.items (some (.literal ",")) x) p
      (some (.list (items.map tree), p + (others (items.map row)).length)) := by
  induction items with
  | nil =>
    intro p h
    obtain ⟨t, hcomma⟩ := gives_literal (r := r) h ","
    rw [if_neg hclose] at hcomma
    exact ⟨_, .itemsEnd (.separatorFail hcomma)⟩
  | cons i items ih =>
    intro p h
    rw [List.map_cons, others_cons, List.cons_append, List.append_assoc] at h
    obtain ⟨t, hcomma⟩ := gives_literal (r := r) h ","
    obtain ⟨u, hi⟩ := hitem i List.mem_cons_self _ _ h.tail
    obtain ⟨u', hmore⟩ := ih (fun j hj => hitem j (List.mem_cons_of_mem _ hj)) h.tail.append
    have hlength : p + (others ((i :: items).map row)).length =
        p + 1 + (row i).length + (others (items.map row)).length := by
      rw [List.map_cons, others_cons, List.length_cons, List.length_append]
      omega
    rw [hlength]
    exact ⟨_, .itemsMore (.separated hcomma hi) (by omega) hmore⟩

/-- **Items between commas**, up to what closes them, which is no item and no comma. -/
theorem gives_listed (hclose : close ≠ ",") (hend : ∀ p rest, Stands tokens p (close :: rest) →
    Gives tokens r (.atom x) p none) (h : Stands tokens p (listed (items.map row) ++ close :: rest)) :
    Gives tokens r (.listOf (.literal ",") x) p
      (some (.list (items.map tree), p + (listed (items.map row)).length)) := by
  cases items with
  | nil =>
    obtain ⟨t, hnone⟩ := hend p rest h
    exact ⟨_, .listNone hnone⟩
  | cons i items =>
    rw [List.map_cons, listed_cons, List.append_assoc] at h
    obtain ⟨t, hi⟩ := hitem i List.mem_cons_self _ _ h
    obtain ⟨u, hmore⟩ := gives_items (fun j hj => hitem j (List.mem_cons_of_mem _ hj)) hclose h.append
    rw [List.map_cons (f := row), listed_cons, List.length_append, ← Nat.add_assoc]
    exact ⟨_, .listSome hi hmore⟩

theorem gives_bracketed {opening kind : String} {i : Nat} (hclose : close ≠ ",")
    (hend : ∀ p rest, Stands tokens p (close :: rest) → Gives tokens r (.atom x) p none)
    (haction : ∀ a b c, (actions[i]?.bind fun f => f [a, b, c]) = some (.node kind [b]))
    (h : Stands tokens p (opening :: listed (items.map row) ++ close :: rest)) :
    Gives tokens r (.choice (.last (.andThen (.once (.literal opening)) (.andThen (.sepBy x (.literal ","))
      (.andThen (.once (.literal close)) (.stop (some i))))))) p
      (some (.node kind [.list (items.map tree)], p + (opening :: listed (items.map row) ++ [close]).length)) := by
  obtain ⟨t, hopening⟩ := gives_literal (r := r) h opening
  obtain ⟨u, hitems⟩ := gives_listed hitem hclose hend h.tail
  obtain ⟨u', hclosing⟩ := gives_literal (r := r) h.tail.append close
  rw [if_pos rfl] at hopening hclosing
  have hlength : p + (opening :: listed (items.map row) ++ [close]).length =
      p + 1 + (listed (items.map row)).length + 1 := by
    rw [List.length_append, List.length_cons, List.length_singleton]
    omega
  rw [hlength]
  exact ⟨_, .last (.factorThen (.once hopening) (.factorThen (.sepBy hitems)
    (.factorThen (.once hclosing) (.act (haction _ _ _)))))⟩

end

/-! ## Rules -/

/-- The words of scalars, numbers not among them. -/
def IsScalar (w : String) : Prop := w = "null" ∨ w = "false" ∨ w = "true" ∨ Lexer.isString w = true

instance (w : String) : Decidable (IsScalar w) :=
  inferInstanceAs (Decidable (w = "null" ∨ w = "false" ∨ w = "true" ∨ Lexer.isString w = true))

theorem gives_data (hs : Scanned tokens) (h : Stands tokens p (w :: ws)) (hn : Lexer.number? w.toList = none) :
    Gives tokens r (.atom (.rule "dataLiteral")) p (if IsScalar w then some (.string w, p + 1) else none) := by
  have hstring : Gives tokens dataRule _ p _ := (gives_string hs h).sole.last
  have hrest := (gives_literal h "true").either ((gives_number hs h hn).sole.next hstring)
  have hbody := (gives_literal h "null").either ((gives_literal h "false").either hrest)
  exact Gives.call (r := dataRule) (by decide) hbody

theorem gives_scalar (hs : Scanned tokens) (h : Stands tokens p (w :: ws)) (hn : Lexer.number? w.toList = none)
    (hw : IsScalar w) (hv : Value.ofJson? w = some v) :
    Gives tokens primaryRule (.choice primaryRule.body) p (some (.node "data" [v], p + 1)) := by
  have hdata := gives_data (r := primaryRule) hs h hn
  rw [if_pos hw] at hdata
  have haction : (actions[1]?.bind fun f => f [.string w]) = some (.node "data" [v]) := congrArg (Option.map _) hv
  exact (hdata.act haction).first

theorem gives_no_data (hs : Scanned tokens) (h : Stands tokens p (w :: ws)) (hn : Lexer.number? w.toList = none)
    (hw : ¬IsScalar w) : Gives tokens r (.atom (.rule "dataLiteral")) p none := by
  have hdata := gives_data (r := r) hs h hn
  rwa [if_neg hw] at hdata

theorem gives_no_opening {opening : String} (h : Stands tokens p (w :: ws)) (hw : w ≠ opening) :
    Gives tokens r (.choice (.last (.andThen (.once (.literal opening)) s))) p none := by
  have hopening := gives_literal (r := r) h opening
  rw [if_neg hw] at hopening
  exact hopening.fail.last

theorem Gives.assign (h : Gives tokens primaryRule (.choice primaryRule.body) p a) :
    Gives tokens r (.atom (.rule "assignExpr")) p a :=
  Gives.call (r := assignRule) (by decide) (Gives.call (r := primaryRule) (by decide) h).sole.last

theorem Gives.element (h : Gives tokens primaryRule (.choice primaryRule.body) p a) :
    Gives tokens r (.atom (.rule "element")) p a :=
  Gives.call (r := elementRule) (by decide) h.assign.sole.last

theorem gives_no_value (hs : Scanned tokens) (h : Stands tokens p ("]" :: ws)) :
    Gives tokens primaryRule (.choice primaryRule.body) p none := by
  have harray : Gives tokens arrayRule (.choice arrayRule.body) p none := gives_no_opening h (by decide)
  have hrecord : Gives tokens recordRule (.choice recordRule.body) p none := gives_no_opening h (by decide)
  exact .next (gives_no_data hs h rfl (by decide)).fail (.next (Gives.call (r := arrayRule) (by decide) harray).fail
    (.next (Gives.call (r := recordRule) (by decide) hrecord).fail (gives_hole h).fail.last))

theorem gives_no_prop (hs : Scanned tokens) (h : Stands tokens p ("\x7d" :: ws)) :
    Gives tokens r (.atom (.rule "propDef")) p none := by
  have hname : Gives tokens nameRule (.choice nameRule.body) p none := (gives_string hs h).fail.last
  exact Gives.call (r := propRule) (by decide) (Gives.call (r := nameRule) (by decide) hname).fail.last

/-! ## Documents -/

mutual

/-- **The tree of a document**: scalars as data, arrays and records as lists of their items and properties. -/
def tree : Document → Value
  | .null => .node "data" [.null]
  | .bool b => .node "data" [.bool b]
  | .text s => .node "data" [.string s]
  | .array items => .node "array" [.list (itemTrees items)]
  | .record fields => .node "record" [.list (fieldTrees fields)]
termination_by structural d => d

def itemTrees : List Document → List Value
  | [] => []
  | d :: items => tree d :: itemTrees items
termination_by structural items => items

def fieldTrees : List (String × Document) → List Value
  | [] => []
  | f :: fields => fieldTree f :: fieldTrees fields
termination_by structural fields => fields

def fieldTree : String × Document → Value
  | (key, d) => .node "prop" [.string key, tree d]
termination_by structural f => f

end

theorem itemTrees_eq : ∀ items : List Document, itemTrees items = items.map tree
  | [] => rfl
  | d :: items => by rw [itemTrees, itemTrees_eq items, List.map_cons]

theorem fieldTrees_eq : ∀ fields : List (String × Document), fieldTrees fields = fields.map fieldTree
  | [] => rfl
  | f :: fields => by rw [fieldTrees, fieldTrees_eq fields, List.map_cons]

theorem number?_quoted (s : String) : Lexer.number? (quoted s).toList = none := by
  rw [quoted, String.toList_ofList]
  exact Lexer.number?_of_not_digit rfl

theorem isString_quoted (s : String) : Lexer.isString (quoted s) = true := Json.isString_encode s.toList

theorem ofJson?_quoted (s : String) : Value.ofJson? (quoted s) = some (.string s) := by
  have hread : Value.readScalar ((quoted s).toList.dropWhile Value.isJsonBlank) = some (.string s, []) := by
    have hdecode := Json.decodePrefix_encode s.toList
    rw [quoted, String.toList_ofList]
    rw [Json.encode, List.cons_append] at hdecode ⊢
    rw [List.dropWhile_cons_of_neg (by decide), Value.readScalar, hdecode]
    dsimp only
    rw [String.ofList_toList]
  rw [Value.ofJson?, hread]
  rfl

theorem gives_field (hs : Scanned tokens) {d : Document} (key : String)
    (hd : ∀ p rest, Stands tokens p (d.words ++ rest) →
      Gives tokens primaryRule (.choice primaryRule.body) p (some (d.tree, p + d.words.length))) :
    ∀ p rest, Stands tokens p (fieldWords (key, d) ++ rest) → Gives tokens r (.atom (.rule "propDef")) p
      (some (fieldTree (key, d), p + (fieldWords (key, d)).length)) := by
  intro p rest h
  have hstring := gives_string (r := nameRule) hs h
  rw [if_pos (isString_quoted key)] at hstring
  have haction : (actions[6]?.bind fun f => f [.string (quoted key)]) = some (.string key) := by
    rw [show actions[6]? = some scalar from rfl, Option.bind_some, scalar_string, ofJson?_quoted]
  have hname : Gives tokens nameRule (.choice nameRule.body) p (some (.string key, p + 1)) :=
    (hstring.act haction).last
  obtain ⟨t, hname⟩ : Gives tokens propRule (.atom (.rule "propName")) p (some (.string key, p + 1)) :=
    Gives.call (r := nameRule) (by decide) hname
  obtain ⟨u, hcolon⟩ := gives_literal (r := propRule) h.tail ":"
  rw [if_pos rfl] at hcolon
  obtain ⟨u', hvalue⟩ := (hd _ _ h.tail.tail).assign (r := propRule)
  have hlength : p + (fieldWords (key, d)).length = p + 1 + 1 + d.words.length := by
    rw [fieldWords, List.length_cons, List.length_cons]
    omega
  rw [fieldTree, hlength]
  exact Gives.call (r := propRule) (by decide) ⟨_, .last (.factorThen (.once hname) (.factorThen (.once hcolon)
    (.factorThen (.once hvalue) (.act rfl))))⟩

/-- **The rules give the tree of a document** for its words, whatever stands behind them. -/
theorem gives_words (hs : Scanned tokens) (d : Document) : ∀ p rest, Stands tokens p (d.words ++ rest) →
    Gives tokens primaryRule (.choice primaryRule.body) p (some (d.tree, p + d.words.length)) := by
  induction d using induct with
  | null => exact fun p rest h => gives_scalar hs h rfl (by decide) rfl
  | bool b =>
    intro p rest h
    cases b <;> exact gives_scalar hs h rfl (by decide) rfl
  | text s =>
    intro p rest h
    have hscalar : IsScalar (quoted s) := Or.inr (Or.inr (Or.inr (isString_quoted s)))
    exact gives_scalar hs h (number?_quoted s) hscalar (ofJson?_quoted s)
  | array items ih =>
    intro p rest h
    rw [words_array, List.append_assoc, List.singleton_append] at h
    have harray : Gives tokens arrayRule (.choice arrayRule.body) p
        (some (.node "array" [.list (items.map tree)], p + ("[" :: listed (items.map words) ++ ["]"]).length)) :=
      gives_bracketed (fun d hd p rest h => (ih d hd p rest h).element) (by decide)
        (fun p rest h => (gives_no_value hs h).element) (fun _ _ _ => rfl) h
    rw [tree, itemTrees_eq, words_array]
    exact (gives_no_data hs h rfl (by decide)).fail.next (Gives.call (r := arrayRule) (by decide) harray).sole.first
  | record fields ih =>
    intro p rest h
    rw [words_record, List.append_assoc, List.singleton_append] at h
    have harray : Gives tokens arrayRule (.choice arrayRule.body) p none := gives_no_opening h (by decide)
    have hrecord : Gives tokens recordRule (.choice recordRule.body) p (some (.node "record"
        [.list (fields.map fieldTree)], p + ("\x7b" :: listed (fields.map fieldWords) ++ ["\x7d"]).length)) :=
      gives_bracketed (fun f hf => gives_field hs f.1 (ih f hf)) (by decide)
        (fun p rest h => gives_no_prop hs h) (fun _ _ _ => rfl) h
    rw [tree, fieldTrees_eq, words_record]
    exact (gives_no_data hs h rfl (by decide)).fail.next ((Gives.call (r := arrayRule) (by decide) harray).sole.next
      (Gives.call (r := recordRule) (by decide) hrecord).sole.first)

/-! ## Programs -/

theorem scanned_of_ofTokens {scanner : Scanner} (h : Scanner.ofTokens literals = .ok scanner) (es : List Entry) :
    Scanned ⟨es, scanner.lexicon⟩ := by
  obtain ⟨hnumber, hstring, -, -⟩ := Scanner.lexicon_of_ofTokens h
  obtain ⟨number, hn, hnexpr⟩ := Pattern.ofSource_class .number
  obtain ⟨string, hs, hsexpr⟩ := Pattern.ofSource_class .string
  cases hn.symm.trans hnumber
  cases hs.symm.trans hstring
  exact ⟨fun t ht => accepts_of_none hnexpr Pattern.takes_number ht, fun t => accepts_string hsexpr t.text⟩

theorem gives_start (hs : Scanned tokens) (d : Document) (h : Stands tokens 0 d.words) :
    Gives tokens startRule (.choice startRule.body) 0 (some (d.tree, d.words.length)) := by
  have hstands : Stands tokens 0 (d.words ++ []) := by rwa [List.append_nil]
  obtain ⟨t, hassign⟩ := (gives_words hs d 0 [] hstands).assign (r := startRule)
  have hend : tokens.entries.length ≤ 0 + d.words.length := hstands.append.length_le
  have heof : (Atom.terminal .eof).leaf? tokens (0 + d.words.length) = some (some (.null, 0 + d.words.length)) :=
    congrArg some (if_pos hend)
  rw [← Nat.zero_add d.words.length]
  exact ⟨_, .last (.factorThen (.once hassign) (.factorThen (.once (.leaf heof)) (.act rfl)))⟩

/-- **The grammar of documents reads every document**: the notation compiles, and the compact text of a document as a
program without holes is parsed, with all of its entries taken, to the tree of the document. -/
theorem parse_compact : ∃ g, compile notationText actions = .ok g ∧ ∀ d : Document, ∃ parse : Parse,
    g.parse (.literal d.compact) [] = .ok parse ∧ parse.consumed = parse.total ∧ parse.value = d.tree := by
  obtain ⟨g, hg, hlayers, hscanner⟩ := exists_compile
  refine ⟨g, hg, fun d => ?_⟩
  obtain ⟨es, hes, hwords⟩ := lex_compact d
  have hscan : g.scanner.scan (.literal d.compact) = .ok ⟨es, g.scanner.lexicon⟩ := by
    rw [Scanner.scan_of_ofTokens hscanner]
    exact congrArg (Except.map _) hes
  have hlookup : g.lookup "start" = some (defined startRule) := by
    rw [lookup, hlayers]
    exact find?_rule (r := startRule) (by decide)
  have hlength : d.words.length = es.length := by
    have := congrArg List.length hwords
    rw [List.length_map, List.length_map] at this
    exact this.symm
  obtain ⟨t, hmeans⟩ := gives_start (scanned_of_ofTokens hscanner es) d hwords
  rw [← hlayers] at hmeans
  obtain ⟨s, hrun, hposition⟩ := (runEntry_of_means true (of_lookup hlookup) hmeans).1 _ _ rfl
  refine ⟨⟨d.tree, [], s.position, es.length, s.stats⟩, ?_, hposition.trans hlength, rfl⟩
  rw [parse, parseWith_eq_runEntry {} hlookup rfl hscan]
  dsimp only
  rw [hrun]

end Packrat.Document
