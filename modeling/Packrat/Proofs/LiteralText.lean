import Packrat.Proofs.ReadSource
import Packrat.Proofs.Spans
/-!
# LiteralText — text in the body of a pattern

Text that fills a hole in the body of a pattern takes itself and nothing else, whatever characters it holds, and its
group keeps it apart from a bar before it and a repetition behind it.  Main statements: two texts with a bar between
them, repeated, take their concatenations (`isMatch_texts`); and of the flags that leave the case of letters alone, only
the extended mode changes what a text takes, if it has blanks (`isMatch_flagged`).
-/
namespace Packrat.Pattern

variable {R : Place → Place → Prop} {p q : Place} {outer : List OpenGroup} {names : List String} {rest : List Char}

/-! ## What lies between two places -/

def Place.Between (p q : Place) (cs : List Char) : Prop := p.after = cs ++ q.after ∧ q.before = cs.reverse ++ p.before

theorem between_nil : p.Between q [] ↔ p = q := by
  obtain ⟨before, after⟩ := p
  obtain ⟨before', after'⟩ := q
  simp [Place.Between, and_comm, eq_comm]

theorem between_append (a b : List Char) : p.Between q (a ++ b) ↔ ∃ r : Place, p.Between r a ∧ r.Between q b := by
  constructor
  · rintro ⟨hafter, hbefore⟩
    refine ⟨⟨a.reverse ++ p.before, b ++ q.after⟩, ⟨?_, rfl⟩, rfl, ?_⟩
    · rw [hafter, List.append_assoc]
    · rw [hbefore, List.reverse_append, List.append_assoc]
  · rintro ⟨r, ⟨ha, hb⟩, ha', hb'⟩
    refine ⟨?_, ?_⟩
    · rw [ha, ha', List.append_assoc]
    · rw [hb', hb, List.reverse_append, List.append_assoc]

theorem between_whole {cs ds : List Char} : Place.Between ⟨[], cs⟩ ⟨cs.reverse, []⟩ ds ↔ cs = ds := by
  simp [Place.Between]

/-! ## What literal text spans -/

theorem spans_single (c : Char) : (Expr.one (.single c)).Spans p q ↔ p.Between q [c] := by
  constructor
  · rintro ⟨d, hd, hafter, hbefore⟩
    rw [CharSet.mem_single] at hd
    subst hd
    exact ⟨hafter, hbefore⟩
  · rintro ⟨hafter, hbefore⟩
    exact ⟨c, (CharSet.mem_single c c).2 rfl, hafter, hbefore⟩

theorem spans_literal : ∀ (cs : List Char) {p q : Place}, (literalExpr cs).Spans p q ↔ p.Between q cs
  | [], _, _ => between_nil.symm
  | [c], _, _ => spans_single c
  | c :: d :: cs, p, q => by
    have hcat : (literalExpr (c :: d :: cs)).Spans p q ↔
        ∃ r, (Expr.one (.single c)).Spans p r ∧ (literalExpr (d :: cs)).Spans r q := Iff.rfl
    rw [hcat, show c :: d :: cs = [c] ++ d :: cs from rfl, between_append]
    simp only [spans_single, spans_literal (d :: cs)]

theorem iterated_iff_flatten {W : List Char → Prop} (hR : ∀ p q, R p q ↔ ∃ w, W w ∧ p.Between q w) :
    ∀ {n : Nat} {p q : Place}, iterated R n p q ↔
      ∃ ws : List (List Char), ws.length = n ∧ (∀ w ∈ ws, W w) ∧ p.Between q ws.flatten
  | 0, p, q => by
    constructor
    · intro h
      exact ⟨[], rfl, by simp, between_nil.2 h⟩
    · rintro ⟨ws, hlen, -, h⟩
      rw [List.length_eq_zero_iff.1 hlen] at h
      exact between_nil.1 h
  | n + 1, p, q => by
    constructor
    · rintro ⟨r, hr, h⟩
      obtain ⟨w, hw, hpr⟩ := (hR p r).1 hr
      obtain ⟨ws, hlen, hws, hrq⟩ := (iterated_iff_flatten hR).1 h
      refine ⟨w :: ws, by rw [List.length_cons, hlen], ?_, ?_⟩
      · exact List.forall_mem_cons.2 ⟨hw, hws⟩
      · rw [List.flatten_cons, between_append]
        exact ⟨r, hpr, hrq⟩
    · rintro ⟨ws, hlen, hws, h⟩
      obtain ⟨w, ws, rfl⟩ := List.exists_cons_of_length_eq_add_one hlen
      obtain ⟨hw, hws⟩ := List.forall_mem_cons.1 hws
      rw [List.flatten_cons, between_append] at h
      obtain ⟨r, hpr, hrq⟩ := h
      have hlen : ws.length = n := by simpa using hlen
      exact ⟨r, (hR p r).2 ⟨w, hw, hpr⟩, (iterated_iff_flatten hR).2 ⟨ws, hlen, hws, hrq⟩⟩

theorem spans_repeated (a b cs : List Char) :
    (Expr.times 0 none true (.alt (literalExpr a) (literalExpr b))).Spans ⟨[], cs⟩ ⟨cs.reverse, []⟩ ↔
      ∃ ws : List (List Char), (∀ w ∈ ws, w = a ∨ w = b) ∧ cs = ws.flatten := by
  have hstep : ∀ p q, (Expr.alt (literalExpr a) (literalExpr b)).Spans p q ↔
      ∃ w, (w = a ∨ w = b) ∧ p.Between q w := by
    intro p q
    simp [Expr.Spans, spans_literal, or_and_right, exists_or]
  constructor
  · rintro ⟨n, -, -, h⟩
    obtain ⟨ws, -, hws, h⟩ := (iterated_iff_flatten hstep).1 h
    exact ⟨ws, hws, between_whole.1 h⟩
  · rintro ⟨ws, hws, h⟩
    refine ⟨ws.length, Nat.zero_le _, by simp, ?_⟩
    exact (iterated_iff_flatten hstep).2 ⟨ws, rfl, hws, between_whole.2 h⟩

/-! ## Reading -/

/-- **An escaped text in a group** is read as what the flags show of it. -/
theorem leads_unit_text {g : OpenGroup} {text shown : List Char} (hg : g.flags.caseless = false)
    (hshown : g.flags.shown text = shown) :
    Leads ⟨g, outer, names, unit (escape text) ++ rest⟩
      ⟨g.push ((literal shown).wrap id), outer, names, rest⟩ := by
  have hone : alternatives [text] = escape text := by
    rw [alternatives, List.map_singleton, List.intercalate_singleton]
  have hliteral : literals [shown] = literal shown := Nested.row_singleton _ _
  rw [← hone, ← hliteral]
  exact leads_unit_alternatives hg (List.cons_ne_nil text []) (congrArg (fun t => [t]) hshown)

theorem leads_star {g : OpenGroup} (hg : g.flags = {}) (e : Nested Expr) :
    Leads ⟨g.push e, outer, names, '*' :: '\\' :: rest⟩
      ⟨g.push (e.wrap (.times 0 none true)), outer, names, '\\' :: rest⟩ := by
  obtain ⟨flags, capture, complete, items, repeatable⟩ := g
  cases hg
  exact ⟨1, by simp only [List.length_cons]; omega, fun _ => rfl⟩

def repeatedSource (a b : List Char) : List Char :=
  '(' :: '?' :: ':' :: (unit (escape a) ++ '|' :: (unit (escape b) ++ [')', '*']))

def repeated (a b : List Char) : Nested Expr :=
  (Nested.wrap id (.row .altAll [(literal a).wrap id, (literal b).wrap id])).wrap (.times 0 none true)

theorem val_repeated (a b : List Char) :
    (repeated a b).val = .times 0 none true (.alt (literalExpr a) (literalExpr b)) := by
  rw [← val_literal, ← val_literal]
  rfl

theorem depth_repeated_le (a b : List Char) : (repeated a b).depth ≤ 5 := by
  refine Nat.succ_le_succ (Nat.succ_le_succ (Nested.depth_row_le (d := 2) fun e he => ?_))
  simp only [List.mem_cons, List.not_mem_nil, or_false] at he
  rcases he with rfl | rfl <;> exact Nat.succ_le_succ (depth_literal_le _)

theorem leads_repeatedSource {g : OpenGroup} (hg : g.flags = {}) (a b : List Char) :
    Leads ⟨g, outer, names, repeatedSource a b ++ '\\' :: rest⟩
      ⟨g.push (repeated a b), outer, names, '\\' :: rest⟩ := by
  have hsource : repeatedSource a b ++ '\\' :: rest =
      '(' :: '?' :: ':' :: (unit (escape a) ++ '|' :: (unit (escape b) ++ ')' :: '*' :: '\\' :: rest)) := by
    simp [repeatedSource]
  rw [hsource]
  have hinside : Leads
      ⟨.start {} none, g :: outer, names, unit (escape a) ++ '|' :: (unit (escape b) ++ ')' :: '*' :: '\\' :: rest)⟩
      ⟨((OpenGroup.start {} none).push ((literal a).wrap id)).nextAlternative.push ((literal b).wrap id), g :: outer,
        names, ')' :: '*' :: '\\' :: rest⟩ :=
    (leads_unit_text rfl (shown_of_not_extended rfl a)).trans
      (leads_bar.trans (leads_unit_text rfl (shown_of_not_extended rfl b)))
  have hclose : (((OpenGroup.start {} none).push ((literal a).wrap id)).nextAlternative.push ((literal b).wrap id)).close =
      Nested.wrap id (.row .altAll [(literal a).wrap id, (literal b).wrap id]) := by
    simp only [OpenGroup.close, OpenGroup.body, OpenGroup.current, OpenGroup.nextAlternative, OpenGroup.push,
      OpenGroup.start, Nested.row_singleton, List.reverse_cons, List.reverse_nil,
      List.nil_append, List.singleton_append]
    rfl
  rw [repeated, ← hclose]
  exact (leads_open hg).trans (hinside.trans (leads_close.trans (leads_star hg _)))

theorem filled_text (contexts : List Splice.Context) (s : String) (fillers : List Splice.Filler) (part : List Char)
    (parts : List (List Char)) : Splice.filled (.block :: contexts) (.text s :: fillers) (part :: parts) =
      unit (escape s.toList) ++ (part ++ Splice.filled contexts fillers parts) :=
  List.append_assoc _ _ _

/-- **A pattern whose source stands between the ends of the text** is composed unless it is nested too deep or too
large, and matches the texts that its expression spans. -/
theorem compose_anchored {C : Compiler} {parts : List String} {fillers : List Splice.Filler} {splice : Splice}
    {body : List Char} {e : Nested Expr} (hp : Splice.analyse parts = .ok splice)
    (hs : splice.sourceChars fillers = .ok ('\\' :: 'A' :: (body ++ ['\\', 'z'])))
    (hbody : ∀ g : OpenGroup, g.flags = C.flags → ∃ names,
      Leads ⟨g, [], [], body ++ ['\\', 'z']⟩ ⟨g.push e, [], names, ['\\', 'z']⟩) :
    ((∃ m, Splice.compose parts fillers C = .ok m) ↔ e.depth + 1 ≤ nestLimit ∧ C.fits (anchored e.val) = true) ∧
      ∀ m, Splice.compose parts fillers C = .ok m → ∀ text : String,
        m.isMatch text = true ↔ e.val.Spans ⟨[], text.toList⟩ ⟨text.toList.reverse, []⟩ := by
  have hcompose := compose_eq hp hs (readSyntax_anchored hbody)
  rw [Nested.depth_wrap, Nested.val_wrap] at hcompose
  rw [hcompose]
  by_cases hmade : e.depth + 1 ≤ nestLimit ∧ C.fits (anchored e.val) = true
  · rw [if_pos hmade]
    refine ⟨iff_of_true ⟨_, rfl⟩ hmade, ?_⟩
    rintro m ⟨⟩ text
    exact isSome_search_whole e.val text.toList
  · rw [if_neg hmade]
    exact ⟨iff_of_false (by simp) hmade, by simp⟩

/-! ## Texts in holes -/

theorem exists_join_iff (a b text : String) :
    (∃ ws : List (List Char), (∀ w ∈ ws, w = a.toList ∨ w = b.toList) ∧ text.toList = ws.flatten) ↔
      ∃ ws : List String, (∀ w ∈ ws, w = a ∨ w = b) ∧ text = String.join ws := by
  constructor
  · rintro ⟨ws, hws, htext⟩
    refine ⟨ws.map String.ofList, ?_, ?_⟩
    · intro w hw
      obtain ⟨cs, hcs, rfl⟩ := List.mem_map.1 hw
      rcases hws cs hcs with rfl | rfl
      · exact Or.inl String.ofList_toList
      · exact Or.inr String.ofList_toList
    · rw [← String.toList_inj, htext, String.toList_join, List.flatMap_map]
      simp
  · rintro ⟨ws, hws, rfl⟩
    refine ⟨ws.map String.toList, ?_, ?_⟩
    · intro cs hcs
      obtain ⟨w, hw, rfl⟩ := List.mem_map.1 hcs
      exact (hws w hw).imp (congrArg String.toList) (congrArg String.toList)
    · rw [String.toList_join, List.flatMap_def]

theorem compiler_of_readFlags : ∀ {letters : List Char} {flags flags' : Flags},
    Splice.readFlags flags letters = .ok flags' → flags'.compiler = flags.compiler
  | [], flags, flags', h => by
    cases h
    rfl
  | c :: letters, flags, flags', h => by
    rw [Splice.readFlags] at h
    split at h
    · split at h
      · rename_i hset
        exact (compiler_of_readFlags h).trans (Flags.compiler_of_set hset)
      · cases h
    · cases h

theorem exists_makeWithFlags_text {flags : Flags} (letters t : String)
    (hflags : Splice.readFlags {} letters.toList = .ok flags) (hcase : flags.caseless = false) :
    ∃ p, Splice.makeWithFlags ⟨["\\A", "\\z"], [.block]⟩ letters [.text t] = .ok p ∧
      ∀ text : String, p.isMatch text = true ↔ text.toList = flags.shown t.toList := by
  have hsource : Splice.sourceChars ⟨["\\A", "\\z"], [.block]⟩ [.text t] =
      .ok ('\\' :: 'A' :: (unit (escape t.toList) ++ ['\\', 'z'])) := by
    rw [sourceChars_eq rfl]
    simp only [List.map_cons, List.map_nil, filled_text, filled_nil]
    simp
  have hread : readSyntax flags ('\\' :: 'A' :: (unit (escape t.toList) ++ ['\\', 'z'])) =
      some (Nested.wrap anchored ((literal (flags.shown t.toList)).wrap id)) :=
    readSyntax_anchored fun g hg => ⟨[], leads_unit_text (by rw [hg, hcase]) (by rw [hg])⟩
  have hdepth : (Nested.wrap anchored ((literal (flags.shown t.toList)).wrap id)).depth ≤ nestLimit :=
    Nat.le_trans (Nat.succ_le_succ (Nat.succ_le_succ (depth_literal_le _))) (by decide)
  have hfits : flags.compiler.fits (anchored (literalExpr (flags.shown t.toList))) = true := by
    rw [compiler_of_readFlags hflags]
    exact fits_anchored (fits_literalExpr _)
  rw [← val_literal] at hfits
  refine ⟨_, (makeWithFlags_eq hsource hflags hread).trans (if_pos ⟨hdepth, hfits⟩), fun text => ?_⟩
  change (Expr.search (anchored (literal (flags.shown t.toList)).val) text.toList).isSome = true ↔ _
  rw [val_literal]
  exact (isSome_search_whole _ _).trans ((spans_literal _).trans between_whole)

/-- **Text in the body of a pattern is taken as a whole**: two texts with a bar between them, repeated, take their
concatenations, and one alone takes itself. -/
theorem isMatch_texts (a b : String) :
    (∃ s p, Splice.analyse ["\\A(?:", "|", ")*\\z"] = .ok s ∧ s.contexts = [.block, .block] ∧
      s.make [.text a, .text b] = .ok p ∧
      ∀ text : String, p.isMatch text = true ↔
        ∃ ws : List String, (∀ w ∈ ws, w = a ∨ w = b) ∧ text = String.join ws) ∧
    ∃ p, Splice.compose ["\\A", "\\z"] [.text a] = .ok p ∧ ∀ text : String, p.isMatch text = true ↔ text = a := by
  constructor
  · have hanalyse : Splice.analyse ["\\A(?:", "|", ")*\\z"] =
        .ok ⟨["\\A(?:", "|", ")*\\z"], [.block, .block]⟩ := by decide +kernel
    have hsource : Splice.sourceChars ⟨["\\A(?:", "|", ")*\\z"], [.block, .block]⟩ [.text a, .text b] =
        .ok ('\\' :: 'A' :: (repeatedSource a.toList b.toList ++ ['\\', 'z'])) := by
      rw [sourceChars_eq rfl]
      simp only [List.map_cons, List.map_nil, filled_text, filled_nil]
      simp [repeatedSource]
    obtain ⟨hmade, hmatch⟩ := compose_anchored (C := .basic) hanalyse hsource fun g hg =>
      ⟨[], leads_repeatedSource hg _ _⟩
    have hdepth : (repeated a.toList b.toList).depth + 1 ≤ nestLimit :=
      Nat.le_trans (Nat.succ_le_succ (depth_repeated_le _ _)) (by decide)
    have hfits : Compiler.basic.fits (anchored (repeated a.toList b.toList).val) = true := by
      rw [val_repeated]
      have ha := fits_literalExpr a.toList
      have hb := fits_literalExpr b.toList
      exact fits_anchored (by simp_all [Compiler.basic, Expr.countsWithin])
    obtain ⟨p, hp⟩ := hmade.2 ⟨hdepth, hfits⟩
    have hmatch := hmatch p hp
    rw [Splice.compose, hanalyse] at hp
    refine ⟨_, p, hanalyse, rfl, hp, fun text => ?_⟩
    rw [hmatch, val_repeated, spans_repeated, exists_join_iff]
  · obtain ⟨p, hp, hmatch⟩ := exists_makeWithFlags_text "" a rfl rfl
    refine ⟨p, ?_, fun text => ?_⟩
    · rw [Splice.compose, analyse_ends]
      exact hp
    · rw [hmatch, shown_of_not_extended rfl, String.toList_inj]

/-! ## Flags -/

theorem readFlags_of_letters : ∀ (letters : List Char) (flags : Flags), (∀ c ∈ letters, c ∈ ['m', 's', 'x', 'u']) →
    ∃ flags', Splice.readFlags flags letters = .ok flags' ∧ flags'.caseless = flags.caseless ∧
      flags'.extended = (flags.extended || letters.contains 'x')
  | [], flags, _ => ⟨flags, rfl, rfl, by simp⟩
  | c :: letters, flags, h => by
    obtain ⟨hc, h⟩ := List.forall_mem_cons.1 h
    obtain ⟨first, hset, hcase, hext⟩ : ∃ first, flags.set true c = some first ∧ first.caseless = flags.caseless ∧
        first.extended = (flags.extended || 'x' == c) := by
      simp only [List.mem_cons, List.not_mem_nil, or_false] at hc
      rcases hc with rfl | rfl | rfl | rfl <;> simp [Flags.set]
    obtain ⟨flags', hread, hcase', hext'⟩ := readFlags_of_letters letters first h
    refine ⟨flags', ?_, hcase'.trans hcase, ?_⟩
    · have hknown : ['i', 'm', 's', 'x', 'u'].contains c = true :=
        List.contains_iff_mem.2 (List.mem_cons_of_mem _ hc)
      rw [Splice.readFlags, if_pos hknown, hset]
      exact hread
    · rw [hext', hext, List.contains_cons, Bool.or_assoc]

/-- **Flags other than `i` change what text means only where an `x` meets a blank**: the blanks of the text are then
ignored, and without an `x` the text takes itself. -/
theorem isMatch_flagged (t letters : String) (hletters : ∀ c ∈ letters.toList, c ∈ ['m', 's', 'x', 'u']) :
    ∃ s p q, Splice.analyse ["\\A", "\\z"] = .ok s ∧ s.makeWithFlags letters [.text t] = .ok p ∧
      s.make [.text t] = .ok q ∧
      (∀ text : String, q.isMatch text = true ↔ text = t) ∧
      (∀ text : String, p.isMatch text = true ↔
        text.toList = if 'x' ∈ letters.toList then t.toList.filter (!Text.isBlank ·) else t.toList) ∧
      ((∀ text : String, p.isMatch text = q.isMatch text) ↔
        ('x' ∈ letters.toList → ∀ c ∈ t.toList, Text.isBlank c = false)) := by
  obtain ⟨flags, hflags, hcase, hext⟩ := readFlags_of_letters _ {} hletters
  obtain ⟨p, hp, hmatch⟩ := exists_makeWithFlags_text letters t hflags hcase
  obtain ⟨q, hq, hplain⟩ := exists_makeWithFlags_text "" t rfl rfl
  have hext : flags.extended = letters.toList.contains 'x' := hext
  have hshown : flags.shown t.toList =
      if 'x' ∈ letters.toList then t.toList.filter (!Text.isBlank ·) else t.toList := by
    by_cases hx : 'x' ∈ letters.toList
    · rw [if_pos hx, Flags.shown, hext, List.contains_iff_mem.2 hx]
      simp
    · rw [if_neg hx, shown_of_not_extended]
      rw [hext]
      simpa using hx
  have hwhole : t.toList = flags.shown t.toList ↔ ('x' ∈ letters.toList → ∀ c ∈ t.toList, Text.isBlank c = false) := by
    rw [hshown, eq_comm]
    split
    · rename_i hx
      simp [List.filter_eq_self, hx]
    · rename_i hx
      simp [hx]
  have htake : ∀ text : String, q.isMatch text = true ↔ text = t := fun text => by
    rw [hplain, shown_of_not_extended rfl, String.toList_inj]
  refine ⟨_, p, q, analyse_ends, hp, hq, htake, fun text => ?_, ?_⟩
  · rw [hmatch, hshown]
  · rw [← hwhole, ← hmatch]
    constructor
    · intro hall
      rw [hall, htake]
    · intro ht text
      rw [Bool.eq_iff_iff, htake, hmatch, ← (hmatch t).1 ht, String.toList_inj]

/-- Blanks and a sign of a comment, under all of the flags: only the blanks are ignored. -/
theorem isMatch_flagged_comment : (∀ c ∈ "xsmu".toList, c ∈ ['m', 's', 'x', 'u']) ∧
    ∃ s p, Splice.analyse ["\\A", "\\z"] = .ok s ∧ s.makeWithFlags "xsmu" [.text "a #.\n"] = .ok p ∧
      p.isMatch "a#." = true ∧ p.isMatch "a #.\n" = false := by
  have hletters : ∀ c ∈ "xsmu".toList, c ∈ ['m', 's', 'x', 'u'] := by simp
  obtain ⟨s, p, q, hs, hp, -, -, hmatch, -⟩ := isMatch_flagged "a #.\n" "xsmu" hletters
  refine ⟨hletters, s, p, hs, hp, (hmatch _).2 (by decide +kernel), ?_⟩
  rw [← Bool.not_eq_true, hmatch]
  decide +kernel

/-- A blank under `x`: the text with the blank is not matched any more. -/
theorem not_isMatch_flagged : ¬∀ t letters : String, (∀ c ∈ letters.toList, c ∈ ['m', 's', 'x', 'u']) →
    ∀ s p q, Splice.analyse ["\\A", "\\z"] = .ok s → s.makeWithFlags letters [.text t] = .ok p →
      s.make [.text t] = .ok q → ∀ text : String, p.isMatch text = q.isMatch text := by
  intro h
  have hflags : Splice.readFlags {} "x".toList = .ok { extended := true } := rfl
  obtain ⟨p, hp, hmatch⟩ := exists_makeWithFlags_text "x" "a b" hflags rfl
  obtain ⟨q, hq, hplain⟩ := exists_makeWithFlags_text "" "a b" rfl rfl
  have hsame := h "a b" "x" (by simp) _ p q analyse_ends hp hq "a b"
  rw [Bool.eq_iff_iff, hmatch, hplain] at hsame
  exact absurd hsame (by decide +kernel)

end Packrat.Pattern
