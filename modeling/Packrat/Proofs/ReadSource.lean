import Packrat.Token.Scanner
import Mathlib.Data.List.Basic
/-!
# ReadSource — the expressions that sources of patterns are read as

Reading a source is a row of steps, which a longer source has in the same places (`Leads`).  So a source between the
brackets of a group is read as the expression that it is read as alone, for each kind of token (`leads_class`) and for
texts that are escaped (`leads_unit_alternatives`).  Main statement: the expression of one token (`tokenPattern_eq`).
-/
namespace Packrat

namespace Pattern

/-- **A state of the reader**: the open groups, the names in use, and the text that is left. -/
structure ReaderState where
  top : OpenGroup
  outer : List OpenGroup
  names : List String
  text : List Char

/-- **Reading goes from one state to another**, and a step takes a character at least. -/
def Leads (s s' : ReaderState) : Prop :=
  ∃ n, n + s'.text.length ≤ s.text.length ∧
    ∀ fuel, readItems (fuel + n) s.top s.outer s.names s.text = readItems fuel s'.top s'.outer s'.names s'.text

variable {s s' s'' : ReaderState} {g next : OpenGroup} {outer : List OpenGroup} {names : List String}
  {rest : List Char}

theorem Leads.refl (s : ReaderState) : Leads s s := ⟨0, by omega, fun _ => rfl⟩

theorem Leads.trans (h : Leads s s') (h' : Leads s' s'') : Leads s s'' := by
  obtain ⟨n, hn, h⟩ := h
  obtain ⟨m, hm, h'⟩ := h'
  refine ⟨m + n, by omega, fun fuel => ?_⟩
  rw [← Nat.add_assoc, h, h']

theorem skip_nil (flags : Flags) : flags.skip [] = [] := by
  unfold Flags.skip
  split <;> rfl

theorem skip_cons {flags : Flags} {c : Char} (hblank : flags.extended = true → Text.isBlank c = false) (hc : c ≠ '#') :
    flags.skip (c :: rest) = c :: rest := by
  unfold Flags.skip
  split
  · rename_i h
    simp [skipLayout, hblank h, hc]
  · rfl

theorem readSyntax_of_leads {flags : Flags} {cs : List Char}
    (h : Leads ⟨.start flags none, [], [], cs⟩ ⟨g, [], names, []⟩) : readSyntax flags cs = some g.body := by
  obtain ⟨n, hn, h⟩ := h
  have hlen : cs.length + 1 = (cs.length - n) + 1 + n := by
    have : n + 0 ≤ cs.length := hn
    omega
  rw [readSyntax, hlen, h]
  dsimp only
  rw [readItems, skip_nil]
  rfl

theorem readExpr_eq_some_iff {flags : Flags} {cs : List Char} {e : Expr} :
    readExpr flags cs = some e ↔ ∃ d ≤ nestLimit, readSyntax flags cs = some ⟨e, d⟩ := by
  simp only [readExpr, Option.map_eq_some_iff, Option.filter_eq_some_iff, decide_eq_true_eq]
  constructor
  · rintro ⟨⟨e, d⟩, ⟨hread, hd⟩, rfl⟩
    exact ⟨d, hd, hread⟩
  · rintro ⟨d, hd, hread⟩
    exact ⟨_, ⟨hread, hd⟩, rfl⟩

theorem ofChars_of_readSyntax {flags : Flags} {cs : List Char} {e : Nested Expr} (h : readSyntax flags cs = some e) :
    Pattern.ofChars flags cs =
      if e.depth ≤ nestLimit ∧ flags.compiler.fits e.val = true then some ⟨String.ofList cs, e.val⟩ else none := by
  rw [Pattern.ofChars, readExpr, h]
  by_cases hdepth : e.depth ≤ nestLimit <;> by_cases hfits : flags.compiler.fits e.val = true <;>
    simp [Option.filter, hdepth, hfits]

theorem ofChars_eq_some_iff {flags : Flags} {cs : List Char} {p : Pattern} :
    Pattern.ofChars flags cs = some p ↔ String.ofList cs = p.source ∧ flags.compiler.fits p.expr = true ∧
      ∃ d ≤ nestLimit, readSyntax flags cs = some ⟨p.expr, d⟩ := by
  simp only [Pattern.ofChars, Option.map_eq_some_iff, Option.filter_eq_some_iff, readExpr_eq_some_iff]
  constructor
  · rintro ⟨e, ⟨hread, hfits⟩, rfl⟩
    exact ⟨rfl, hfits, hread⟩
  · rintro ⟨hsource, hfits, hread⟩
    exact ⟨p.expr, ⟨hread, hfits⟩, by rw [hsource]⟩

/-! ## Brackets and bars -/

def unit (source : List Char) : List Char := '(' :: '?' :: ':' :: source ++ [')']

theorem leads_open {flags : Flags} (hg : g.flags = flags) :
    Leads ⟨g, outer, names, '(' :: '?' :: ':' :: rest⟩ ⟨.start flags none, g :: outer, names, rest⟩ := by
  obtain ⟨⟨caseless, multiLine, dotAll, swapGreed, extended, crlf, ascii, compiler⟩, capture, complete, items,
    repeatable⟩ := g
  cases hg
  refine ⟨1, by simp only [List.length_cons]; omega, fun _ => ?_⟩
  cases extended <;> rfl

theorem leads_close : Leads ⟨g, next :: outer, names, ')' :: rest⟩ ⟨next.push g.close, outer, names, rest⟩ := by
  refine ⟨1, by simp only [List.length_cons]; omega, fun _ => ?_⟩
  rw [readItems, skip_cons (fun _ => by decide) (by decide)]
  rfl

theorem leads_bar : Leads ⟨g, outer, names, '|' :: rest⟩ ⟨g.nextAlternative, outer, names, rest⟩ := by
  refine ⟨1, by simp only [List.length_cons]; omega, fun _ => ?_⟩
  rw [readItems, skip_cons (fun _ => by decide) (by decide)]
  rfl

theorem body_push (flags : Flags) (capture : Option (Option String)) (e : Nested Expr) :
    ((OpenGroup.start flags capture).push e).body = e := by
  simp only [OpenGroup.body, OpenGroup.current, OpenGroup.push, OpenGroup.start, List.reverse_singleton,
    Nested.row_singleton]
  rfl

theorem leads_unit {flags : Flags} {source : List Char} (hg : g.flags = flags) {g' : OpenGroup}
    (h : Leads ⟨.start flags none, g :: outer, names, source ++ ')' :: rest⟩ ⟨g', g :: outer, names, ')' :: rest⟩) :
    Leads ⟨g, outer, names, unit source ++ rest⟩ ⟨g.push g'.close, outer, names, rest⟩ := by
  have ht : unit source ++ rest = '(' :: '?' :: ':' :: (source ++ ')' :: rest) := by
    rw [unit, List.append_assoc]
    rfl
  rw [ht]
  exact (leads_open hg).trans (h.trans leads_close)

/-! ## Escaped texts -/

def Flags.shown (f : Flags) (cs : List Char) : List Char := cs.filter fun c => !(f.extended && Text.isBlank c)

theorem shown_of_not_extended {f : Flags} (h : f.extended = false) (cs : List Char) : f.shown cs = cs := by
  simp [Flags.shown, h]

theorem leads_blank {c : Char} (hg : g.flags.extended = true) (hc : Text.isBlank c = true) :
    Leads ⟨g, outer, names, c :: rest⟩ ⟨g, outer, names, rest⟩ := by
  refine ⟨0, by simp, fun fuel => ?_⟩
  have hskip : g.flags.skip (c :: rest) = g.flags.skip rest := by simp [Flags.skip, hg, skipLayout, hc]
  cases fuel with
  | zero => rfl
  | succ fuel => rw [Nat.add_zero, readItems, hskip, readItems]

theorem isBlank_of_isMeta {c : Char} (h : isMeta c = true) : Text.isBlank c = false := by
  have hall := List.all_eq_true.1 (by decide : List.all _ fun c => !Text.isBlank c) c (List.contains_iff_mem.1 h)
  simpa using hall

theorem leads_atom {a : Atom} {cs : List Char} (h : readEscape g.flags cs = some (a, rest))
    (hlen : rest.length ≤ cs.length) :
    Leads ⟨g, outer, names, '\\' :: cs⟩ ⟨g.push (.leaf (a.toExpr g.flags)), outer, names, rest⟩ := by
  refine ⟨1, by simp only [List.length_cons]; omega, fun fuel => ?_⟩
  rw [readItems, skip_cons (fun _ => by decide) (by decide)]
  simp only [h, Option.bind_eq_bind, Option.bind_some]

theorem span_self {flags : Flags} (h : flags.caseless = false) (c : Char) : flags.span c c = .single c := by
  simp [Flags.span, h, CharSet.single]

theorem readEscape_meta (flags : Flags) {c : Char} (h : isMeta c = true) :
    readEscape flags (c :: rest) = some (.char c, rest) := by
  simp only [isMeta, List.contains_eq_mem, List.mem_cons, List.not_mem_nil, or_false, decide_eq_true_eq] at h
  rcases h with rfl | rfl | rfl | rfl | rfl | rfl | rfl | rfl | rfl | rfl | rfl | rfl | rfl | rfl | rfl | rfl | rfl | rfl
    <;> rfl

theorem leads_escape_char (hg : g.flags.caseless = false) {c : Char}
    (hc : g.flags.extended = true → Text.isBlank c = false) :
    Leads ⟨g, outer, names, escape [c] ++ rest⟩ ⟨g.push (.leaf (.one (.single c))), outer, names, rest⟩ := by
  by_cases hmeta : isMeta c
  · rw [escape, List.flatMap_singleton, if_pos hmeta, ← span_self hg]
    exact leads_atom (readEscape_meta g.flags hmeta) (Nat.le_succ _)
  · have he : escape [c] = [c] := by rw [escape, List.flatMap_singleton, if_neg hmeta]
    rw [he]
    refine ⟨1, by simp only [List.length_append, List.length_cons, List.length_nil]; omega, fun fuel => ?_⟩
    simp only [isMeta, List.contains_eq_mem, List.mem_cons, List.not_mem_nil, or_false, decide_eq_true_eq,
      not_or] at hmeta
    have hplain : plainExpr g.flags c = some (.one (.single c)) := by
      rw [plainExpr, if_neg (by tauto), if_neg (by tauto), if_neg (by tauto), span_self hg]
    change readItems (fuel + 1) _ _ _ (c :: rest) = _
    rw [readItems, skip_cons hc (by tauto)]
    split <;> rename_i heq <;> cases heq <;> first | tauto | skip
    rw [hplain]
    rfl

def literalItems (cs : List Char) : List (Nested Expr) := cs.map fun c => .leaf (.one (.single c))

def literal (cs : List Char) : Nested Expr := .row .catAll (literalItems cs)

def literalExpr (cs : List Char) : Expr := .catAll (cs.map fun c => .one (.single c))

theorem val_literal (cs : List Char) : (literal cs).val = literalExpr cs := by
  rw [literal, Nested.row, literalItems, List.map_map]
  rfl

theorem depth_literal_le (cs : List Char) : (literal cs).depth ≤ 1 := by
  refine Nested.depth_row_le fun x hx => ?_
  obtain ⟨c, -, rfl⟩ := List.mem_map.1 hx
  exact Nat.le_refl _

/-- **An escaped text is read as its characters**, less those that the flags ignore. -/
theorem leads_escape (outer : List OpenGroup) (names : List String) (rest : List Char) :
    ∀ (cs : List Char) {g : OpenGroup}, g.flags.caseless = false → ∃ g' : OpenGroup,
    Leads ⟨g, outer, names, escape cs ++ rest⟩ ⟨g', outer, names, rest⟩ ∧ g'.flags = g.flags ∧
    g'.capture = g.capture ∧ g'.complete = g.complete ∧
    g'.items = (literalItems (g.flags.shown cs)).reverse ++ g.items
  | [], g, hg => ⟨g, Leads.refl _, rfl, rfl, rfl, rfl⟩
  | c :: cs, g, hg => by
    have he : escape (c :: cs) ++ rest = escape [c] ++ (escape cs ++ rest) := by
      rw [← List.append_assoc, escape, escape, escape, ← List.flatMap_append]
      rfl
    rw [he]
    by_cases hc : g.flags.extended = true ∧ Text.isBlank c = true
    · obtain ⟨g', hl, hf, hcap, hcom, hit⟩ := leads_escape outer names rest cs hg
      have hmeta : ¬isMeta c = true := fun h => by simp [isBlank_of_isMeta h] at hc
      refine ⟨g', ?_, hf, hcap, hcom, ?_⟩
      · rw [escape, List.flatMap_singleton, if_neg hmeta]
        exact (leads_blank hc.1 hc.2).trans hl
      · rw [hit, Flags.shown, Flags.shown, List.filter_cons_of_neg (by simp [hc])]
    · have hshown : g.flags.extended = true → Text.isBlank c = false := by simpa using hc
      obtain ⟨g', hl, hf, hcap, hcom, hit⟩ := leads_escape outer names rest cs (g := g.push (.leaf (.one (.single c)))) hg
      refine ⟨g', (leads_escape_char hg hshown).trans hl, hf, hcap, hcom, ?_⟩
      rw [hit, Flags.shown, Flags.shown, List.filter_cons_of_pos (by grind), literalItems, literalItems, List.map_cons,
        List.reverse_cons, List.append_assoc]
      rfl

def alternatives (texts : List (List Char)) : List Char := ['|'].intercalate (texts.map escape)

theorem leads_alternatives (outer : List OpenGroup) (names : List String) (rest : List Char) :
    ∀ (text : List Char) (texts : List (List Char)) {g : OpenGroup}, g.flags.caseless = false → g.items = [] →
    ∃ g' : OpenGroup,
      Leads ⟨g, outer, names, alternatives (text :: texts) ++ rest⟩ ⟨g', outer, names, rest⟩ ∧
      g'.capture = g.capture ∧ (g'.current :: g'.complete).reverse =
        g.complete.reverse ++ (text :: texts).map fun t => literal (g.flags.shown t)
  | text, [], g, hg, hi => by
    obtain ⟨g', hl, -, hcap, hcom, hit⟩ := leads_escape outer names rest text hg
    refine ⟨g', ?_, hcap, ?_⟩
    · rw [alternatives, List.map_singleton, List.intercalate_singleton]
      exact hl
    · rw [OpenGroup.current, hit, hi, hcom, List.append_nil, List.reverse_reverse, List.reverse_cons]
      rfl
  | text, more :: texts, g, hg, hi => by
    obtain ⟨g₁, hl₁, hf₁, hcap₁, hcom₁, hit₁⟩ := leads_escape outer names
      ('|' :: (alternatives (more :: texts) ++ rest)) text hg
    have hf : g₁.nextAlternative.flags = g.flags := hf₁
    obtain ⟨g', hl, hcap, hcom⟩ := leads_alternatives outer names rest more texts
      (g := g₁.nextAlternative) (by rw [hf, hg]) rfl
    refine ⟨g', ?_, hcap.trans hcap₁, ?_⟩
    · have he : alternatives (text :: more :: texts) ++ rest =
          escape text ++ '|' :: (alternatives (more :: texts) ++ rest) := by
        rw [alternatives, List.map_cons, List.map_cons, List.intercalate_cons_cons, List.append_assoc,
          List.append_assoc]
        rfl
      rw [he]
      exact hl₁.trans (leads_bar.trans hl)
    · rw [hcom, hf, OpenGroup.nextAlternative, OpenGroup.current, hit₁, hi, hcom₁, List.append_nil,
        List.reverse_reverse, List.reverse_cons, List.append_assoc]
      rfl

def alternativesExpr (texts : List (List Char)) : Expr := .altAll (texts.map literalExpr)

def literals (texts : List (List Char)) : Nested Expr := .row .altAll (texts.map literal)

theorem val_literals (texts : List (List Char)) : (literals texts).val = alternativesExpr texts := by
  have hval : texts.map (Nested.val ∘ literal) = texts.map literalExpr := List.map_congr_left fun cs _ => val_literal cs
  rw [literals, Nested.row, List.map_map, hval]
  rfl

theorem depth_literals_le (texts : List (List Char)) : (literals texts).depth ≤ 2 := by
  refine Nested.depth_row_le fun x hx => ?_
  obtain ⟨cs, -, rfl⟩ := List.mem_map.1 hx
  exact depth_literal_le cs

theorem exists_leads_alternatives (flags : Flags) (outer : List OpenGroup) (names : List String) (rest : List Char)
    (hcase : flags.caseless = false) {texts : List (List Char)} (h : texts ≠ []) : ∃ g : OpenGroup,
    Leads ⟨.start flags none, outer, names, alternatives texts ++ rest⟩ ⟨g, outer, names, rest⟩ ∧
      g.capture = none ∧ g.body = literals (texts.map flags.shown) := by
  obtain ⟨text, texts, rfl⟩ := List.exists_cons_of_ne_nil h
  obtain ⟨g, hl, hcap, hg⟩ := leads_alternatives outer names rest text texts (g := .start flags none) hcase rfl
  refine ⟨g, hl, hcap, ?_⟩
  rw [OpenGroup.body, hg, literals, List.map_map]
  rfl

theorem map_shown_of_not_extended {f : Flags} (h : f.extended = false) (texts : List (List Char)) :
    texts.map f.shown = texts := by
  rw [List.map_congr_left fun t _ => shown_of_not_extended h t, List.map_id']

theorem readSyntax_alternatives (C : Compiler) {texts : List (List Char)} (h : texts ≠ []) :
    readSyntax C.flags (alternatives texts) = some (literals texts) := by
  obtain ⟨g, hl, -, hg⟩ := exists_leads_alternatives C.flags [] [] [] rfl h
  rw [List.append_nil] at hl
  rw [readSyntax_of_leads hl, hg, map_shown_of_not_extended rfl]

theorem fits_literalExpr (cs : List Char) : Compiler.basic.fits (literalExpr cs) = true := by
  refine Expr.countsWithin_catAll fun e he => ?_
  obtain ⟨c, -, rfl⟩ := List.mem_map.1 he
  rfl

theorem fits_literals (texts : List (List Char)) : Compiler.basic.fits (literals texts).val = true := by
  rw [val_literals]
  refine Expr.countsWithin_altAll fun e he => ?_
  obtain ⟨cs, -, rfl⟩ := List.mem_map.1 he
  exact fits_literalExpr cs

theorem ofChars_alternatives {texts : List (List Char)} (h : texts ≠ []) : Pattern.ofChars {} (alternatives texts) =
    some ⟨String.ofList (alternatives texts), alternativesExpr texts⟩ := by
  have hdepth : (literals texts).depth ≤ nestLimit := Nat.le_trans (depth_literals_le texts) (by decide)
  rw [ofChars_of_readSyntax (readSyntax_alternatives .basic h), if_pos ⟨hdepth, fits_literals texts⟩, val_literals]

theorem close_of_no_capture (h : g.capture = none) : g.close = g.body.wrap id := by
  rw [OpenGroup.close, h]
  rfl

theorem leads_unit_alternatives (hg : g.flags.caseless = false) {texts shown : List (List Char)} (h : texts ≠ [])
    (hshown : texts.map g.flags.shown = shown) : Leads ⟨g, outer, names, unit (alternatives texts) ++ rest⟩
      ⟨g.push ((literals shown).wrap id), outer, names, rest⟩ := by
  obtain ⟨g', hl, hcap, hbody⟩ := exists_leads_alternatives g.flags (g :: outer) names (')' :: rest) hg h
  rw [← hshown, ← hbody, ← close_of_no_capture hcap]
  exact leads_unit rfl hl

/-! ## Kinds of token -/

def ranges (rs : List (Char × Char)) : CharSet := rs.foldl (fun s r => .union s (.range r.1 r.2)) .empty

def oneOf (cs : List Char) : CharSet := ranges (cs.map fun c => (c, c))

def digitsExpr : Expr := .times 1 none true (.one (ranges [('0', '9')]))

def stringItemExpr : Expr :=
  .altAll (.one (.negate (oneOf ['"', '\\'])) ::
    (['"', '\\', '/', 'b', 'f', 'n', 'r', 't'].map fun c => .catAll [.one (.single '\\'), .one (.single c)]) ++
    [.catAll [.one (.single '\\'), .one (.single 'u'),
      .times 4 (some 4) true (.one (ranges [('0', '9'), ('a', 'f'), ('A', 'F')]))]])

end Pattern

open Pattern

def TokenClass.expr : TokenClass → Expr
  | .space => .times 1 none true (.one .blank)
  | .number =>
    .catAll [digitsExpr, .times 0 (some 1) true (.catAll [.one (.single '.'), digitsExpr]),
      .times 0 (some 1) true
        (.catAll [.one (oneOf ['e', 'E']), .times 0 (some 1) true (.one (.single '-')), digitsExpr])]
  | .string => .catAll [.one (.single '"'), .times 0 none true stringItemExpr, .one (.single '"')]
  | .ident =>
    .catAll [.one (ranges [('a', 'z'), ('A', 'Z'), ('_', '_'), ('$', '$')]),
      .times 0 none true (.one (ranges [('0', '9'), ('a', 'z'), ('A', 'Z'), ('_', '_'), ('$', '$')]))]
  | .punctuation => .one (oneOf ['[', ']', '(', ')', '{', '}', ',', ';'])
  | .symbols => .times 1 none true (.one (oneOf
      ['~', '@', '%', '&', '+', '=', '*', '<', '>', '.', '?', '|', ':', '\\', '-', '^', '/']))
  | .comment =>
    .catAll [.one (.single '#'), .times 0 none true (.one (.negate (oneOf ['\n']))),
      .alt (.one (.single '\n')) (.look .endText)]

def TokenClass.nested (k : TokenClass) : Nested Expr :=
  ⟨k.expr, match k with
    | .space => 1
    | .number => 6
    | .string => 8
    | .ident => 4
    | .punctuation => 2
    | .symbols => 3
    | .comment => 3⟩

theorem TokenClass.depth_nested_le (k : TokenClass) : k.nested.depth ≤ 8 := by cases k <;> decide

namespace Pattern

theorem readSyntax_class (k : TokenClass) : readSyntax {} k.source.toList = some k.nested := by cases k <;> rfl

theorem leads_class (k : TokenClass) (hg : g.flags = {}) :
    Leads ⟨g, outer, names, unit k.source.toList ++ rest⟩ ⟨g.push (k.nested.wrap id), outer, names, rest⟩ := by
  obtain ⟨flags, capture, complete, items, repeatable⟩ := g
  cases hg
  have hlen : ∀ n ≤ (unit k.source.toList).length,
      n + rest.length ≤ (unit k.source.toList ++ rest).length := fun n hn => by
    rw [List.length_append]
    omega
  -- the steps of each kind: one for an item, a repetition, a bar or a bracket
  cases k with
  | space => exact ⟨4, hlen 4 (by decide), fun _ => rfl⟩
  | number => exact ⟨18, hlen 18 (by decide), fun _ => rfl⟩
  | string => exact ⟨37, hlen 37 (by decide), fun _ => rfl⟩
  | ident => exact ⟨5, hlen 5 (by decide), fun _ => rfl⟩
  | punctuation => exact ⟨3, hlen 3 (by decide), fun _ => rfl⟩
  | symbols => exact ⟨4, hlen 4 (by decide), fun _ => rfl⟩
  | comment => exact ⟨10, hlen 10 (by decide), fun _ => rfl⟩

/-! ## Patterns that are put together -/

/-- **A source that is filled and read** makes a pattern, unless it is nested too deep or too large. -/
theorem makeWithFlags_eq {C : Compiler} {letters : String} {flags : Flags} {fillers : List Splice.Filler}
    {splice : Splice} {source : List Char} {e : Nested Expr} (hs : splice.sourceChars fillers = .ok source)
    (hflags : Splice.readFlags C.flags letters.toList = .ok flags) (he : readSyntax flags source = some e) :
    splice.makeWithFlags letters fillers C =
      if e.depth ≤ nestLimit ∧ flags.compiler.fits e.val = true then .ok ⟨String.ofList source, e.val⟩
      else .error .malformed := by
  simp only [Splice.makeWithFlags, hs, hflags, bind, Except.bind, ofChars_of_readSyntax he]
  by_cases hmade : e.depth ≤ nestLimit ∧ flags.compiler.fits e.val = true
  · simp only [if_pos hmade]
    rfl
  · simp only [if_neg hmade]
    rfl

theorem compose_eq {C : Compiler} {parts : List String} {fillers : List Splice.Filler} {splice : Splice}
    {source : List Char} {e : Nested Expr} (hp : Splice.analyse parts = .ok splice)
    (hs : splice.sourceChars fillers = .ok source) (he : readSyntax C.flags source = some e) :
    Splice.compose parts fillers C =
      if e.depth ≤ nestLimit ∧ C.fits e.val = true then .ok ⟨String.ofList source, e.val⟩ else .error .malformed := by
  rw [Splice.compose, hp]
  exact makeWithFlags_eq hs rfl he

def classPattern (k : TokenClass) : Pattern := ⟨k.source, k.expr⟩

theorem ofChars_class (k : TokenClass) : Pattern.ofChars {} k.source.toList = some (classPattern k) := by
  have hdepth : k.nested.depth ≤ nestLimit := Nat.le_trans k.depth_nested_le (by decide)
  have hfits : Compiler.basic.fits k.nested.val = true := by cases k <;> decide
  rw [ofChars_of_readSyntax (readSyntax_class k), if_pos ⟨hdepth, hfits⟩, String.ofList_toList]
  rfl

/-- **An expression between the ends of the text.** -/
def anchored (e : Expr) : Expr := .cat (.look .startText) (.cat e (.look .endText))

theorem fits_anchored {e : Expr} (h : Compiler.basic.fits e = true) : Compiler.basic.fits (anchored e) = true := by
  have he : e.countsWithin 300000 = true := h
  simp [Compiler.basic, anchored, Expr.countsWithin, he]

/-- **A source between the ends of the text** is read as its expression between them, one level deeper. -/
theorem readSyntax_anchored {flags : Flags} {body : List Char} {e : Nested Expr}
    (hbody : ∀ g : OpenGroup, g.flags = flags → ∃ names,
      Leads ⟨g, [], [], body ++ ['\\', 'z']⟩ ⟨g.push e, [], names, ['\\', 'z']⟩) :
    readSyntax flags ('\\' :: 'A' :: (body ++ ['\\', 'z'])) = some (e.wrap anchored) := by
  have hstart : Leads ⟨.start flags none, [], [], '\\' :: 'A' :: (body ++ ['\\', 'z'])⟩
      ⟨OpenGroup.push (.start flags none) (.leaf (.look .startText)), [], [], body ++ ['\\', 'z']⟩ :=
    leads_atom (a := .look .startText) rfl (Nat.le_succ _)
  obtain ⟨names, hbody⟩ := hbody (OpenGroup.push (.start flags none) (.leaf (.look .startText))) rfl
  have hend : Leads ⟨OpenGroup.push (.push (.start flags none) (.leaf (.look .startText))) e, [], names, ['\\', 'z']⟩
      ⟨OpenGroup.push (.push (.push (.start flags none) (.leaf (.look .startText))) e) (.leaf (.look .endText)), [],
        names, []⟩ :=
    leads_atom (a := .look .endText) rfl (Nat.le_succ _)
  rw [readSyntax_of_leads (hstart.trans (hbody.trans hend))]
  simp [OpenGroup.body, OpenGroup.current, OpenGroup.push, OpenGroup.start, Nested.row, Nested.deepest, Nested.wrap,
    Nested.leaf, Expr.altAll, Expr.catAll, anchored]

theorem analyse_ends : Splice.analyse ["\\A", "\\z"] = .ok ⟨["\\A", "\\z"], [.block]⟩ := by decide +kernel

/-- **A full match of a source** that is read as a group is its expression between the ends of the text, unless that is
nested too deep or too large. -/
theorem ofSource_of_leads {C : Compiler} {source : String} {p : Pattern} {d : Nat}
    (hp : Pattern.compile source C.flags = some p)
    (hunit : ∀ g : OpenGroup, g.flags = C.flags → ∃ names, Leads ⟨g, [], [], unit source.toList ++ ['\\', 'z']⟩
      ⟨g.push ⟨p.expr, d⟩, [], names, ['\\', 'z']⟩) :
    FullMatch.ofSource source C =
      if d + 1 ≤ nestLimit ∧ C.fits (anchored p.expr) = true then
        .ok ⟨⟨String.ofList ('\\' :: 'A' :: (unit source.toList ++ ['\\', 'z'])), anchored p.expr⟩⟩
      else .error .malformed := by
  have hsource : Splice.sourceChars ⟨["\\A", "\\z"], [.block]⟩ [.pattern p] =
      .ok ('\\' :: 'A' :: (unit source.toList ++ ['\\', 'z'])) := by
    rw [← source_of_compile hp]
    change Except.ok ('\\' :: 'A' :: (unit p.source.toList ++ ['\\', 'z'] ++ [])) = _
    rw [List.append_nil]
  have hcompose := compose_eq analyse_ends hsource (readSyntax_anchored hunit)
  have hfull : FullMatch.ofSource source C = (Splice.compose ["\\A", "\\z"] [.pattern p] C).map .mk := by
    rw [FullMatch.ofSource, hp]
    rfl
  rw [hfull, hcompose, apply_ite (Except.map FullMatch.mk)]
  rfl

/-- **A full match of a kind of token** is its expression between the ends of the text. -/
theorem ofSource_class (k : TokenClass) : ∃ m, FullMatch.ofSource k.source = .ok m ∧
    m.pattern.expr = .cat (.look .startText) (.cat k.expr (.look .endText)) := by
  have hdepth : k.nested.depth + 1 + 1 ≤ nestLimit := by
    have := k.depth_nested_le
    rw [nestLimit]
    omega
  have hfits : Compiler.basic.fits (anchored k.expr) = true := by
    refine fits_anchored ?_
    cases k <;> decide
  have hfull := ofSource_of_leads (C := .basic) (d := k.nested.depth + 1) (ofChars_class k)
    fun _ hg => ⟨[], leads_class k hg⟩
  rw [if_pos ⟨hdepth, hfits⟩] at hfull
  exact ⟨_, hfull, rfl⟩

/-! ## The pattern of one token -/

def classUnit (k : TokenClass) : List Char := unit k.source.toList

def tokenSourceEnd : List Char :=
  classUnit .punctuation ++ ("|".toList ++ (classUnit .symbols ++ ("|(?P<comment>".toList ++
    (classUnit .comment ++ "))".toList))))

def tokenSource (rest : List Char) : List Char :=
  "\\A(?:(?P<space>".toList ++ (classUnit .space ++ (")|".toList ++ (classUnit .number ++ ("|".toList ++
    (classUnit .string ++ ("|".toList ++ (classUnit .ident ++ ("|".toList ++ rest))))))))

/-- **The expression of one token**: the kinds in their order of preference, those that are dropped in named groups. -/
def tokenExpr (operators : List Expr) : Expr :=
  .cat (.look .startText) (.altAll
    ([.group (some "space") TokenClass.space.expr, TokenClass.number.expr, TokenClass.string.expr,
      TokenClass.ident.expr] ++ operators ++
      [TokenClass.punctuation.expr, TokenClass.symbols.expr, .group (some "comment") TokenClass.comment.expr]))

def tokenAlternatives (operators : List (Nested Expr)) : List (Nested Expr) :=
  [(TokenClass.space.nested.wrap id).wrap (.group (some "space")), TokenClass.number.nested.wrap id,
    TokenClass.string.nested.wrap id, TokenClass.ident.nested.wrap id] ++ operators ++
    [TokenClass.punctuation.nested.wrap id, TokenClass.symbols.nested.wrap id,
      (TokenClass.comment.nested.wrap id).wrap (.group (some "comment"))]

def tokenNested (operators : List (Nested Expr)) : Nested Expr :=
  .row .catAll [.leaf (.look .startText), Nested.wrap id (.row .altAll (tokenAlternatives operators))]

theorem val_tokenNested (operators : List (Nested Expr)) :
    (tokenNested operators).val = tokenExpr (operators.map Nested.val) := by
  simp [tokenNested, tokenAlternatives, tokenExpr, Nested.row, Nested.wrap, Nested.leaf, Expr.catAll,
    TokenClass.nested]

theorem depth_tokenNested_le {operators : List (Nested Expr)} (h : ∀ e ∈ operators, e.depth ≤ 10) :
    (tokenNested operators).depth ≤ nestLimit := by
  have hkind : ∀ k : TokenClass, (k.nested.wrap id).depth ≤ 9 := fun k => Nat.succ_le_succ k.depth_nested_le
  have halternatives : ∀ e ∈ tokenAlternatives operators, e.depth ≤ 10 := by
    intro e he
    simp only [tokenAlternatives, List.mem_append, List.mem_cons, List.not_mem_nil, or_false] at he
    rcases he with ((rfl | rfl | rfl | rfl) | he) | rfl | rfl | rfl
    · exact Nat.succ_le_succ (hkind _)
    · exact Nat.le_succ_of_le (hkind _)
    · exact Nat.le_succ_of_le (hkind _)
    · exact Nat.le_succ_of_le (hkind _)
    · exact h e he
    · exact Nat.le_succ_of_le (hkind _)
    · exact Nat.le_succ_of_le (hkind _)
    · exact Nat.succ_le_succ (hkind _)
  refine Nat.le_trans (Nested.depth_row_le (d := 12) fun e he => ?_) (by decide)
  simp only [List.mem_cons, List.not_mem_nil, or_false] at he
  rcases he with rfl | rfl
  · exact Nat.zero_le _
  · exact Nat.succ_le_succ (Nested.depth_row_le halternatives)

def alternativesGroup (complete : List (Nested Expr)) : OpenGroup := ⟨{}, none, complete, [], false⟩

def tokenGroup : OpenGroup := .push (.start {} none) (.leaf (.look .startText))

theorem nextAlternative_push (complete : List (Nested Expr)) (e : Nested Expr) :
    ((alternativesGroup complete).push e).nextAlternative = alternativesGroup (e :: complete) := by
  have hcurrent : ((alternativesGroup complete).push e).current = e := Nested.row_singleton _ _
  rw [OpenGroup.nextAlternative, hcurrent]
  rfl

theorem leads_first (rest : List Char) :
    Leads ⟨.start {} none, [], [], "\\A(?:(?P<space>".toList ++ (classUnit .space ++ (")|".toList ++ rest))⟩
      ⟨alternativesGroup [(TokenClass.space.nested.wrap id).wrap (.group (some "space"))], [tokenGroup], ["space"],
        rest⟩ := by
  have hstart : ∀ rest, Leads ⟨.start {} none, [], [], "\\A(?:(?P<space>".toList ++ rest⟩
      ⟨.start {} (some (some "space")), [.start {} none, tokenGroup], ["space"], rest⟩ :=
    fun _ => ⟨3, by simp; omega, fun _ => rfl⟩
  exact (hstart _).trans ((leads_class .space rfl).trans (leads_close.trans leads_bar))

theorem leads_kind (k : TokenClass) (complete : List (Nested Expr)) (rest : List Char) :
    Leads ⟨alternativesGroup complete, outer, names, classUnit k ++ ("|".toList ++ rest)⟩
      ⟨alternativesGroup (k.nested.wrap id :: complete), outer, names, rest⟩ := by
  rw [← nextAlternative_push]
  exact (leads_class k rfl).trans leads_bar

theorem leads_operators {texts : List (List Char)} (hne : texts ≠ []) (complete : List (Nested Expr)) (rest : List Char) :
    Leads ⟨alternativesGroup complete, outer, names, unit (alternatives texts) ++ ("|".toList ++ rest)⟩
      ⟨alternativesGroup ((literals texts).wrap id :: complete), outer, names, rest⟩ := by
  rw [← nextAlternative_push]
  exact (leads_unit_alternatives rfl hne (map_shown_of_not_extended rfl _)).trans leads_bar

theorem leads_last (complete : List (Nested Expr)) :
    Leads ⟨alternativesGroup complete, [tokenGroup], ["space"], classUnit .symbols ++
        ("|(?P<comment>".toList ++ (classUnit .comment ++ "))".toList))⟩
      ⟨tokenGroup.push (Nested.wrap id (.row .altAll ((TokenClass.comment.nested.wrap id).wrap (.group (some "comment")) ::
        TokenClass.symbols.nested.wrap id :: complete).reverse)), [], ["comment", "space"], []⟩ := by
  have hcomment : ∀ rest, Leads
      ⟨(alternativesGroup complete).push (TokenClass.symbols.nested.wrap id), [tokenGroup], ["space"],
        "|(?P<comment>".toList ++ rest⟩
      ⟨.start {} (some (some "comment")), [alternativesGroup (TokenClass.symbols.nested.wrap id :: complete), tokenGroup],
        ["comment", "space"], rest⟩ :=
    fun _ => ⟨2, by simp; omega, fun _ => rfl⟩
  exact (leads_class .symbols rfl).trans ((hcomment _).trans ((leads_class .comment rfl).trans
    (leads_close.trans leads_close)))

/-- **The source of one token is read as the expression of one token**, if the operators in it are. -/
theorem readSyntax_tokenSource {operators : List (Nested Expr)}
    (h : ∀ complete, Leads ⟨alternativesGroup complete, [tokenGroup], ["space"], rest⟩
      ⟨alternativesGroup (operators.reverse ++ complete), [tokenGroup], ["space"], tokenSourceEnd⟩) :
    readSyntax {} (tokenSource rest) = some (tokenNested operators) := by
  have hread := (leads_first _).trans ((leads_kind .number _ _).trans ((leads_kind .string _ _).trans
    ((leads_kind .ident _ _).trans ((h _).trans ((leads_kind .punctuation _ _).trans (leads_last _))))))
  refine (readSyntax_of_leads hread).trans ?_
  simp only [List.reverse_cons, List.reverse_append, List.reverse_reverse, List.reverse_nil, List.nil_append,
    List.append_assoc, tokenNested, tokenAlternatives, List.cons_append]
  exact congrArg some (Nested.row_singleton _ _)

theorem countsWithin_tokenExpr {operators : List Expr} (h : ∀ e ∈ operators, Compiler.basic.fits e = true) :
    Compiler.basic.fits (tokenExpr operators) = true := by
  have hkind : ∀ k : TokenClass, Compiler.basic.fits k.expr = true := fun k => by cases k <;> decide
  refine Expr.countsWithin_altAll fun e he => ?_
  simp only [List.mem_append, List.mem_cons, List.not_mem_nil, or_false] at he
  rcases he with ((rfl | rfl | rfl | rfl) | he) | rfl | rfl | rfl
  · exact hkind .space
  · exact hkind .number
  · exact hkind .string
  · exact hkind .ident
  · exact h e he
  · exact hkind .punctuation
  · exact hkind .symbols
  · exact hkind .comment

theorem sourceChars_eq {first : String} {parts : List String} {contexts : List Splice.Context}
    {fillers : List Splice.Filler} (h : fillers.length = contexts.length) :
    Splice.sourceChars ⟨first :: parts, contexts⟩ fillers =
      .ok (first.toList ++ Splice.filled contexts fillers (parts.map String.toList)) :=
  if_pos h

theorem filled_pattern (contexts : List Splice.Context) (p : Pattern) (fillers : List Splice.Filler) (part : List Char)
    (parts : List (List Char)) : Splice.filled (.block :: contexts) (.pattern p :: fillers) (part :: parts) =
      unit p.source.toList ++ (part ++ Splice.filled contexts fillers parts) :=
  List.append_assoc _ _ _

theorem unit_classPattern (k : TokenClass) : unit (classPattern k).source.toList = classUnit k := rfl

theorem filled_nil (contexts : List Splice.Context) : Splice.filled contexts [] [] = [] := by
  cases contexts <;> rfl

theorem compiled_class (k : TokenClass) : Scanner.compiled k.source.toList = .ok (classPattern k) := by
  rw [Scanner.compiled, ofChars_class]

def operatorExprs : List String → List Expr
  | [] => []
  | op :: ops => [alternativesExpr ((op :: ops).map String.toList)]

theorem operatorSource_eq (operators : List String) :
    Scanner.operatorSource operators = alternatives (operators.map String.toList) := by
  rw [Scanner.operatorSource, alternatives, List.map_map]
  rfl

theorem compose_token {operators : List (Nested Expr)} {parts : List String} {fillers : List Splice.Filler}
    {splice : Splice} {source : List Char} (hdepth : ∀ e ∈ operators, e.depth ≤ 10)
    (hfits : ∀ e ∈ operators, Compiler.basic.fits e.val = true) (hp : Splice.analyse parts = .ok splice)
    (hs : splice.sourceChars fillers = .ok source) (he : readSyntax {} source = some (tokenNested operators)) :
    Splice.compose parts fillers = .ok ⟨String.ofList source, tokenExpr (operators.map Nested.val)⟩ := by
  have hfits' : Compiler.basic.fits (tokenNested operators).val = true := by
    rw [val_tokenNested]
    exact countsWithin_tokenExpr (by simpa using hfits)
  rw [compose_eq (C := .basic) hp hs he, if_pos ⟨depth_tokenNested_le hdepth, hfits'⟩, val_tokenNested]

theorem tokenPattern_eq (operators : List String) :
    ∃ p, Scanner.tokenPattern operators = .ok p ∧ p.expr = tokenExpr (operatorExprs operators) := by
  cases operators with
  | nil =>
    have hanalyse : Splice.analyse Scanner.plainParts = .ok ⟨Scanner.plainParts, List.replicate 7 .block⟩ := by
      decide +kernel
    have hsource : Splice.sourceChars ⟨Scanner.plainParts, List.replicate 7 .block⟩
        [.pattern (classPattern .space), .pattern (classPattern .number), .pattern (classPattern .string),
          .pattern (classPattern .ident), .pattern (classPattern .punctuation), .pattern (classPattern .symbols),
          .pattern (classPattern .comment)] = .ok (tokenSource tokenSourceEnd) := by decide +kernel
    have hread : readSyntax {} (tokenSource tokenSourceEnd) = some (tokenNested []) :=
      readSyntax_tokenSource fun _ => Leads.refl _
    refine ⟨⟨String.ofList (tokenSource tokenSourceEnd), tokenExpr []⟩, ?_, rfl⟩
    rw [Scanner.tokenPattern]
    simp only [compiled_class]
    exact compose_token (by simp) (by simp) hanalyse hsource hread
  | cons op ops =>
    have hne : (op :: ops).map String.toList ≠ [] := List.cons_ne_nil _ _
    have hanalyse : Splice.analyse Scanner.operatorParts = .ok ⟨Scanner.operatorParts, List.replicate 8 .block⟩ := by
      decide +kernel
    have hops : Scanner.compiled (Scanner.operatorSource (op :: ops)) =
        .ok ⟨String.ofList (alternatives ((op :: ops).map String.toList)),
          alternativesExpr ((op :: ops).map String.toList)⟩ := by
      rw [Scanner.compiled, operatorSource_eq, ofChars_alternatives hne]
    generalize htexts : (op :: ops).map String.toList = texts at hne hops
    have hsource : Splice.sourceChars ⟨Scanner.operatorParts, List.replicate 8 .block⟩
        [.pattern (classPattern .space), .pattern (classPattern .number), .pattern (classPattern .string),
          .pattern (classPattern .ident), .pattern ⟨String.ofList (alternatives texts), alternativesExpr texts⟩,
          .pattern (classPattern .punctuation), .pattern (classPattern .symbols),
          .pattern (classPattern .comment)] =
        .ok (tokenSource (unit (alternatives texts) ++ ("|".toList ++ tokenSourceEnd))) := by
      rw [Scanner.operatorParts, sourceChars_eq rfl]
      simp only [List.map_cons, List.map_nil, List.replicate_succ, filled_pattern, filled_nil]
      simp only [unit_classPattern, String.toList_ofList, List.append_nil]
      unfold tokenSource tokenSourceEnd
      with_reducible rfl
    have hread : readSyntax {} (tokenSource (unit (alternatives texts) ++ ("|".toList ++ tokenSourceEnd))) =
        some (tokenNested [(literals texts).wrap id]) :=
      readSyntax_tokenSource fun complete => leads_operators hne complete tokenSourceEnd
    have hdepth : ∀ e ∈ [(literals texts).wrap id], e.depth ≤ 10 :=
      List.forall_mem_singleton.2 (Nat.le_trans (Nat.succ_le_succ (depth_literals_le texts)) (by decide))
    have hfits : ∀ e ∈ [(literals texts).wrap id], Compiler.basic.fits e.val = true :=
      List.forall_mem_singleton.2 (fits_literals texts)
    have hcompose := compose_token hdepth hfits hanalyse hsource hread
    have hexpr : [(literals texts).wrap id].map Nested.val = operatorExprs (op :: ops) := by
      rw [operatorExprs, htexts, ← val_literals]
      rfl
    rw [hexpr] at hcompose
    refine ⟨⟨String.ofList (tokenSource (unit (alternatives texts) ++ ("|".toList ++ tokenSourceEnd))),
      tokenExpr (operatorExprs (op :: ops))⟩, ?_, rfl⟩
    rw [Scanner.tokenPattern]
    simp only [compiled_class, hops]
    exact hcompose

end Pattern

end Packrat
