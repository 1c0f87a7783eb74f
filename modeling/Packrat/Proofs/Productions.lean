import Packrat.Proofs.Clauses
import Packrat.Proofs.LiteralTokens
import Packrat.Proofs.NotationWriter
import Mathlib.Data.List.Forall2
/-!
# Productions — texts with their productions in another order

A production is written as the words up to its semicolon, with an action for each of its holes.  A text spells
productions if scanning it finds their words one production behind the other, in any spacing and with any comments;
words that are no rule, and strings that do not decode, are productions too.  What a derivation takes from the entries
are words that derive the tree wherever they stand, with the actions at the places of their holes (`Derives.takes`).  So
a text has rules exactly if each of its productions reads as a clause (`derivesRules_iff`), in whatever order they
stand.  Main statement: texts that spell the same productions in two orders define grammars both or not, and these
parse alike (`parseWith_perm`).
-/
namespace Packrat

def Word.move (place : Nat → Nat) : Word → Word
  | .text w => .text w
  | .hole i => .hole (place i)

namespace Word

variable {place place' : Nat → Nat} {ws : List Word} {w : String}

theorem move_move : ∀ x : Word, (x.move place).move place' = x.move (place' ∘ place)
  | .text _ | .hole _ => rfl

theorem holes_move (place : Nat → Nat) : ∀ ws : List Word, holes (ws.map (move place)) = (holes ws).map place
  | [] => rfl
  | .text _ :: ws => holes_move place ws
  | .hole i :: ws => congrArg (place i :: ·) (holes_move place ws)

theorem text_mem_move : .text w ∈ ws.map (move place) ↔ .text w ∈ ws := by
  rw [List.mem_map]
  constructor
  · rintro ⟨x, hx, he⟩
    cases x with
    | text => exact he ▸ hx
    | hole => cases he
  · exact fun h => ⟨_, h, rfl⟩

theorem move_self : ∀ {ws : List Word}, (∀ i ∈ holes ws, place i = i) → ws.map (move place) = ws
  | [], _ => rfl
  | .text w :: _, h => congrArg (Word.text w :: ·) (move_self h)
  | .hole i :: ws, h => by
    rw [List.map_cons, move, h i List.mem_cons_self, move_self fun j hj => h j (List.mem_cons_of_mem _ hj)]

theorem cut_inj {xs ys zs : List Word} (hws : .text w ∉ ws) (hxs : .text w ∉ xs)
    (h : ws ++ .text w :: ys = xs ++ .text w :: zs) : ws = xs ∧ ys = zs := by
  have hidx := congrArg (List.idxOf (.text w)) h
  rw [List.idxOf_append_of_notMem hws, List.idxOf_append_of_notMem hxs, List.idxOf_cons_self, List.idxOf_cons_self]
    at hidx
  obtain ⟨hhead, htail⟩ := List.append_inj h hidx
  exact ⟨hhead, (List.cons.inj htail).2⟩

end Word

namespace Grammar

/-- **A production as it is written**: the words up to its semicolon, with its holes numbered in order, and an action
for each of them. -/
structure Production where
  words : List Word
  actions : List Action
  unended : .text ";" ∉ words
  numbered : Word.holes words = List.range actions.length

namespace Production

def name (p : Production) : String :=
  match p.words with
  | .text w :: _ => w
  | _ => ""

def allActions (ps : List Production) : List Action := ps.flatMap actions

def wordsFrom (offset : Nat) : List Production → List Word
  | [] => []
  | p :: ps => p.words.map (Word.move (offset + ·)) ++ .text ";" :: wordsFrom (offset + p.actions.length) ps

/-- **The text spells the productions**: these are the words that scanning it finds. -/
def Spells (text : Template) (ps : List Production) : Prop :=
  ∃ s tokens, notationScanner = .ok s ∧ s.scan text = .ok tokens ∧ tokens.entries.map Entry.word = wordsFrom 0 ps

end Production

/-! ## What derivations take -/

/-- **What words are read as wherever they stand**: they can be written and contain no semicolon, the actions are their
holes, and entries that begin with them, their holes being at other places, are in the relation to what is left behind
them. -/
structure Takes (actions : List Nat) (ws : List Word) (reads : (Nat → Nat) → List Entry → List Entry → Prop) :
    Prop where
  lexical : Lexical ws
  unended : .text ";" ∉ ws
  holes : Word.holes ws = actions
  reads : ∀ (place : Nat → Nat) {es : List Entry} {more : List Word},
    es.map Entry.word = ws.map (Word.move place) ++ more → ∃ rest, reads place es rest ∧ rest.map Entry.word = more

namespace Takes

variable {actions actions' : List Nat} {ws ws' : List Word}
  {reads reads' reads'' : (Nat → Nat) → List Entry → List Entry → Prop}

theorem nil : Takes [] [] fun _ es rest => es = rest :=
  ⟨.nil, List.not_mem_nil, rfl, fun _ {es} _ he => ⟨es, rfl, he⟩⟩

theorem token {w : String} (hl : Lexer.Lexes notationTokens w) (hw : ";" ≠ w) :
    Takes [] [.text w] fun _ es rest => ∃ t, es = .token t :: rest ∧ t.text = w := by
  refine ⟨.cons hl .nil, fun h => hw (Word.text.inj (List.mem_singleton.1 h)), rfl, fun place es more he => ?_⟩
  obtain ⟨t, rest, rfl, ht, hrest⟩ := exists_token he
  exact ⟨rest, ⟨t, rfl, ht⟩, hrest⟩

theorem hole (i : Nat) : Takes [i] [.hole i] fun place es rest => es = .hole (place i) :: rest := by
  refine ⟨.hole, fun h => (nomatch List.mem_singleton.1 h), rfl, fun place es more he => ?_⟩
  obtain ⟨rest, rfl, hrest⟩ := exists_hole he
  exact ⟨rest, rfl, hrest⟩

theorem append (h : Takes actions ws reads) (h' : Takes actions' ws' reads') :
    Takes (actions ++ actions') (ws ++ ws') fun place es rest => ∃ mid, reads place es mid ∧ reads' place mid rest := by
  refine ⟨h.lexical.append h'.lexical, fun hm => (List.mem_append.1 hm).elim h.unended h'.unended,
    by rw [Word.holes_append, h.holes, h'.holes], fun place es more he => ?_⟩
  rw [List.map_append, List.append_assoc] at he
  obtain ⟨mid, hr, hmid⟩ := h.reads place he
  obtain ⟨rest, hr', hrest⟩ := h'.reads place hmid
  exact ⟨rest, ⟨mid, hr, hr'⟩, hrest⟩

theorem imp (h : Takes actions ws reads) (hi : ∀ {place es rest}, reads place es rest → reads' place es rest) :
    Takes actions ws reads' := by
  refine ⟨h.lexical, h.unended, h.holes, fun place es more he => ?_⟩
  obtain ⟨rest, hr, hrest⟩ := h.reads place he
  exact ⟨rest, hi hr, hrest⟩

theorem mark (h : Takes actions ws reads) {w : String} (hm : w ∈ marks) (hw : ";" ≠ w) :
    Takes actions (ws ++ [.text w]) fun place es rest => ∃ t, reads place es (.token t :: rest) ∧ t.text = w := by
  have hboth := h.append (token (lexes_mark hm) hw)
  rw [List.append_nil] at hboth
  refine hboth.imp ?_
  rintro place es rest ⟨_, hr, t, rfl, ht⟩
  exact ⟨t, hr, ht⟩

theorem move (h : Takes actions ws reads) (place : Nat → Nat) :
    Takes (actions.map place) (ws.map (Word.move place)) fun place' => reads (place' ∘ place) := by
  refine ⟨fun w hw => h.lexical w (Word.text_mem_move.1 hw), fun hm => h.unended (Word.text_mem_move.1 hm),
    by rw [Word.holes_move, h.holes], fun place' es more he => h.reads _ ?_⟩
  rw [he, List.map_map, funext (f := Word.move place' ∘ Word.move place) Word.move_move]

end Takes

def Kind.actions : (k : Kind) → k.Tree → List Nat
  | .choice => Choice.actions
  | .sequence => Sequence.actions
  | .factor => Factor.actions
  | .atom => Atom.actions

def Kind.move (place : Nat → Nat) : (k : Kind) → k.Tree → k.Tree
  | .choice => Choice.relink id place
  | .sequence => Sequence.relink id place
  | .factor => Factor.relink id place
  | .atom => Atom.relink id place

/-- **The words derive the tree wherever they stand**, its actions being at the places of their holes. -/
def TakesTree (reads : String → String → Prop) (k : Kind) (x : k.Tree) (ws : List Word) : Prop :=
  Takes (k.actions x) ws fun place => Derives reads k (k.move place x)

theorem Takes.name {w : String} (h : IsName w) :
    Takes [] [.text w] fun _ es rest => ∃ t, es = .token t :: rest ∧ t.text = w := by
  refine Takes.token (Lexer.lexes_of_isIdentifier h.1) ?_
  rintro rfl
  exact absurd h (by decide)

/-- **Words stand at the head of the entries** and are read so wherever they stand. -/
def Taken (actions : List Nat) (es rest : List Entry) (reads : (Nat → Nat) → List Entry → List Entry → Prop) : Prop :=
  ∃ ws, es.map Entry.word = ws ++ rest.map Entry.word ∧ Takes actions ws reads

namespace Taken

variable {actions actions' : List Nat} {es mid rest : List Entry} {t : Token} {w : String}
  {reads reads' : (Nat → Nat) → List Entry → List Entry → Prop}

theorem imp (h : Taken actions es rest reads) (hi : ∀ {place es rest}, reads place es rest → reads' place es rest) :
    Taken actions es rest reads' :=
  let ⟨ws, hes, h⟩ := h
  ⟨ws, hes, h.imp hi⟩

theorem append (h : Taken actions es mid reads) (h' : Taken actions' mid rest reads') :
    Taken (actions ++ actions') es rest fun place es rest => ∃ mid, reads place es mid ∧ reads' place mid rest := by
  obtain ⟨ws, hes, h⟩ := h
  obtain ⟨ws', hmid, h'⟩ := h'
  exact ⟨ws ++ ws', by rw [hes, hmid, List.append_assoc], h.append h'⟩

theorem mark (h : Taken actions es (.token t :: rest) reads) (ht : t.text = w) (hm : w ∈ marks) (hw : ";" ≠ w) :
    Taken actions es rest fun place es rest => ∃ t, reads place es (.token t :: rest) ∧ t.text = w := by
  obtain ⟨ws, hes, h⟩ := h
  refine ⟨ws ++ [.text w], ?_, h.mark hm hw⟩
  rw [hes, List.append_assoc, List.map_cons, Entry.word, ht]
  rfl

theorem token (ht : t.text = w) (hl : Lexer.Lexes notationTokens w) (hw : ";" ≠ w) :
    Taken [] (.token t :: rest) rest fun _ es rest => ∃ t, es = .token t :: rest ∧ t.text = w :=
  ⟨[.text w], by rw [List.map_cons, Entry.word, ht]; rfl, Takes.token hl hw⟩

theorem name (h : IsName t.text) :
    Taken [] (.token t :: rest) rest fun _ es rest => ∃ u, es = .token u :: rest ∧ u.text = t.text :=
  ⟨[.text t.text], rfl, Takes.name h⟩

end Taken

/-- **What a derivation takes derives its tree wherever it stands.** -/
theorem Derives.takes {reads : String → String → Prop} {k : Kind} {x : k.Tree} {es rest : List Entry}
    (h : Derives reads k x es rest) :
    Taken (k.actions x) es rest fun place => Derives reads k (k.move place x) := by
  induction h with
  | last _ ih => exact ih.imp .last
  | orElse _ ht _ ih ih' =>
    refine ((ih.mark ht (by decide) (by decide)).append ih').imp ?_
    rintro place es rest ⟨_, ⟨t, hq, ht⟩, hc⟩
    exact .orElse hq ht hc
  | stop => exact ⟨[], rfl, Takes.nil.imp fun he => he ▸ .stop⟩
  | @action i _ => exact ⟨[.hole i], rfl, (Takes.hole i).imp fun he => he ▸ .action⟩
  | andThen _ _ ih ih' => exact (ih.append ih').imp fun ⟨_, hf, hq⟩ => .andThen hf hq
  | once _ ih => exact ih.imp .once
  | optional _ ht ih => exact (ih.mark ht (by decide) (by decide)).imp fun ⟨_, ha, ht⟩ => .optional ha ht
  | many _ ht ih => exact (ih.mark ht (by decide) (by decide)).imp fun ⟨_, ha, ht⟩ => .many ha ht
  | many1 _ ht ih => exact (ih.mark ht (by decide) (by decide)).imp fun ⟨_, ha, ht⟩ => .many1 ha ht
  | sepBy _ ht _ ih ih' =>
    refine ((ih.mark ht (by decide) (by decide)).append ih').imp ?_
    rintro place es rest ⟨_, ⟨t, ha, ht⟩, hb⟩
    exact .sepBy ha ht hb
  | sepBy1 _ ht _ ih ih' =>
    refine ((ih.mark ht (by decide) (by decide)).append ih').imp ?_
    rintro place es rest ⟨_, ⟨t, ha, ht⟩, hb⟩
    exact .sepBy1 ha ht hb
  | @literal t _ _ ht hr =>
    have hw : ";" ≠ t.text := by
      intro he
      rw [← he] at ht
      exact absurd ht (by decide)
    refine (Taken.token rfl (fun cs _ => Lexer.lexeme?_of_isString ht cs) hw).imp ?_
    rintro place es rest ⟨t', rfl, ht'⟩
    exact .literal (ht' ▸ ht) (ht' ▸ hr)
  | @super t d n rest ht hd hn =>
    have hlexes : Lexer.Lexes notationTokens "super" := Lexer.lexes_of_isIdentifier (by decide)
    have hsuper := @Taken.token (.token d :: .token n :: rest) _ _ ht hlexes (by decide)
    refine (hsuper.append ((Taken.token hd (lexes_mark (by decide)) (by decide)).append (Taken.name hn))).imp ?_
    rintro place es rest ⟨_, ⟨t, rfl, ht⟩, _, ⟨d, rfl, hd⟩, n', rfl, hn'⟩
    change Derives reads .atom (.super n.text) _ _
    rw [← hn'] at hn ⊢
    exact .super ht hd hn
  | @terminal t terminal _ ht hof =>
    refine (Taken.name ht).imp ?_
    rintro place es rest ⟨t', rfl, ht'⟩
    rw [← ht'] at ht hof
    exact .terminal ht hof
  | @rule t _ ht hof =>
    refine (Taken.name ht).imp ?_
    rintro place es rest ⟨t', rfl, ht'⟩
    change Derives reads .atom (.rule t.text) _ _
    rw [← ht'] at ht hof ⊢
    exact .rule ht hof
  | group ht _ he ih =>
    refine ((Taken.token ht (lexes_mark (by decide)) (by decide)).append (ih.mark he (by decide) (by decide))).imp ?_
    rintro place es rest ⟨_, ⟨t, rfl, ht⟩, e, hc, he⟩
    exact .group ht hc he

/-! ## Productions as clauses -/

namespace Production

/-- **The production reads as the clause.** -/
structure Reads (p : Production) (c : Clause) : Prop where
  actions : c.actions = p.actions
  isName : IsName c.rule.name
  words : ∃ ws, p.words = .text c.rule.name :: .text "::=" :: ws ∧ TakesTree Decodes .choice c.rule.body ws

variable {p : Production} {ps ps' : List Production} {c : Clause} {cs : List Clause} {es : List Entry}
  {offset : Nat} {rules : List Rule}

theorem Reads.name_eq (h : p.Reads c) : c.rule.name = p.name := by
  obtain ⟨ws, hws, -⟩ := h.words
  rw [name, hws]

theorem takes_head {n : String} (hn : IsName n) : Takes [] [.text n, .text "::="] fun _ es rest =>
    ∃ t d, es = .token t :: .token d :: rest ∧ t.text = n ∧ d.text = "::=" := by
  refine ((Takes.name hn).mark (w := "::=") (by decide) (by decide)).imp ?_
  rintro place es rest ⟨d, ⟨t, rfl, ht⟩, hd⟩
  exact ⟨t, d, rfl, ht, hd⟩

theorem exists_words {reads : String → String → Prop} {n d e : Token} {body : Choice} {rest : List Entry}
    (hd : d.text = "::=") (hc : Derives reads .choice body es (.token e :: rest)) (he : e.text = ";") :
    ∃ ws, TakesTree reads .choice body ws ∧ (Entry.token n :: .token d :: es).map Entry.word =
      (.text n.text :: .text "::=" :: ws) ++ .text ";" :: rest.map Entry.word := by
  obtain ⟨ws, hws, hb⟩ := hc.takes
  exact ⟨ws, hb, by simp [hws, Entry.word, hd, he]⟩

theorem Reads.lexical (h : p.Reads c) : Lexical p.words := by
  obtain ⟨ws, hws, hb⟩ := h.words
  rw [hws]
  exact ((takes_head h.isName).append hb).lexical

theorem exists_reads {n : String} {body : Choice} {ws : List Word} (hn : IsName n)
    (hb : TakesTree Decodes .choice body ws)
    (hws : p.words.map (Word.move (offset + ·)) = .text n :: .text "::=" :: ws) :
    ∃ c, p.Reads c ∧ c.ruleAt offset = ⟨n, body⟩ := by
  have hactions : body.actions = List.range' offset p.actions.length := by
    have hholes := congrArg Word.holes hws
    rw [Word.holes_move, p.numbered, Word.holes_text, Word.holes_text, hb.holes, List.range_eq_range',
      List.map_add_range', Nat.add_zero] at hholes
    exact hholes.symm
  obtain ⟨c, hc, hrule, hat⟩ := Clause.exists_ruleAt (r := ⟨n, body⟩) hactions
  have hback : p.words = (Word.text n :: .text "::=" :: ws).map (Word.move (· - offset)) := by
    rw [← hws, List.map_map, funext (f := Word.move (· - offset) ∘ Word.move (offset + ·)) Word.move_move]
    exact (Word.move_self fun i _ => Nat.add_sub_cancel_left offset i).symm
  refine ⟨c, ⟨hc, hrule ▸ hn, ws.map (Word.move (· - offset)), hrule ▸ hback, ?_⟩, hat⟩
  have hmoved := hb.move (· - offset)
  rw [hrule, TakesTree]
  change Takes (body.relink id (· - offset)).actions _ _
  rw [actions_relink]
  refine hmoved.imp fun {place es rest} hd => ?_
  change Derives Decodes .choice ((body.relink id (· - offset)).relink id place) es rest
  rw [relink_relink]
  exact hd

theorem exists_clauses (h : DerivesRules Decodes es rules) : ∀ {ps : List Production} {offset : Nat},
    es.map Entry.word = wordsFrom offset ps → ∃ cs, List.Forall₂ Reads ps cs ∧ rules = Clause.rulesFrom offset cs := by
  induction h with
  | nil =>
    intro ps offset hes
    cases ps with
    | nil => exact ⟨[], .nil, rfl⟩
    | cons p ps => exact absurd hes.symm (by simp [wordsFrom])
  | @cons n d e body es rest rules hn hd hc he _ ih =>
    intro ps offset hes
    match ps, hes with
    | p :: ps, hes =>
    obtain ⟨ws, hb, hws⟩ := exists_words (n := n) hd hc he
    have hfirst : .text ";" ∉ Word.text n.text :: .text "::=" :: ws := ((takes_head hn).append hb).unended
    have hown : .text ";" ∉ p.words.map (Word.move (offset + ·)) := fun h => p.unended (Word.text_mem_move.1 h)
    -- the first semicolon is the one that ends the production
    obtain ⟨hhead, hrest⟩ := Word.cut_inj hfirst hown (hws.symm.trans hes)
    obtain ⟨c, hc, hat⟩ := exists_reads hn hb hhead.symm
    obtain ⟨cs, hcs, rfl⟩ := ih hrest
    exact ⟨c :: cs, .cons hc hcs, by rw [Clause.rulesFrom, hat, hc.actions]⟩

theorem derivesRules_of_reads (h : List.Forall₂ Reads ps cs) : ∀ {offset : Nat} {es : List Entry},
    es.map Entry.word = wordsFrom offset ps → DerivesRules Decodes es (Clause.rulesFrom offset cs) := by
  induction h with
  | nil =>
    intro offset es hes
    rw [List.map_eq_nil_iff.1 hes]
    exact .nil
  | @cons p c ps cs hc _ ih =>
    intro offset es hes
    obtain ⟨ws, hws, hb⟩ := hc.words
    rw [wordsFrom, hws, List.map_cons, List.map_cons, List.cons_append, List.cons_append] at hes
    obtain ⟨n, mid, rfl, hn, hmid⟩ := exists_token hes
    obtain ⟨d, mid, rfl, hd, hmid⟩ := exists_token hmid
    obtain ⟨mid, hbody, hmid⟩ := hb.reads _ hmid
    obtain ⟨e, rest, rfl, he, hrest⟩ := exists_token hmid
    have hrule : c.ruleAt offset = ⟨n.text, c.rule.body.relink id (offset + ·)⟩ := by rw [hn, Clause.ruleAt]
    rw [Clause.rulesFrom, hrule, hc.actions]
    exact .cons (hn ▸ hc.isName) hd hbody he (ih hrest)

/-! ## Texts -/

variable {text text' : Template} {parent : Option Grammar} {g : Grammar}

theorem exists_wordsFrom {reads : String → String → Prop} (h : DerivesRules reads es rules) :
    ∀ {offset : Nat} {actions : List Action}, holesOf es = List.range' offset actions.length →
      ∃ ps, es.map Entry.word = wordsFrom offset ps ∧ allActions ps = actions := by
  induction h with
  | nil =>
    intro offset actions hholes
    have hlen := congrArg List.length hholes
    rw [List.length_range'] at hlen
    exact ⟨[], rfl, (List.length_eq_zero_iff.1 hlen.symm).symm⟩
  | @cons n d e body es rest rules hn hd hc he _ ih =>
    intro offset actions hholes
    obtain ⟨ws, hb, hws⟩ := exists_words (n := n) hd hc he
    rw [← holes_word, hws, Word.holes_append] at hholes
    obtain ⟨k, hk, hfirst, hrest⟩ := List.range'_eq_append_iff.1 hholes.symm
    have htake : (actions.take k).length = k := List.length_take_of_le hk
    have hdrop : holesOf rest = List.range' (offset + k) (actions.drop k).length := by
      rw [Nat.mul_one, Word.holes_text] at hrest
      rw [← holes_word, hrest, List.length_drop]
    obtain ⟨ps, hps, hactions⟩ := ih hdrop
    refine ⟨⟨(.text n.text :: .text "::=" :: ws).map (Word.move (· - offset)), actions.take k, ?_, ?_⟩ :: ps, ?_, ?_⟩
    · exact fun h => ((takes_head hn).append hb).unended (Word.text_mem_move.1 h)
    · rw [Word.holes_move, hfirst, List.map_sub_range' (Nat.le_refl _), Nat.sub_self, htake, List.range_eq_range']
    · have hself : ((.text n.text :: .text "::=" :: ws).map (Word.move (· - offset))).map (Word.move (offset + ·)) =
          .text n.text :: .text "::=" :: ws := by
        rw [List.map_map, funext (f := Word.move (offset + ·) ∘ Word.move (· - offset)) Word.move_move]
        refine Word.move_self fun i hi => ?_
        rw [hfirst, List.mem_range'_1] at hi
        exact Nat.add_sub_cancel' hi.1
      rw [wordsFrom, hself, hws, htake, hps]
    · change actions.take k ++ allActions ps = actions
      rw [hactions, List.take_append_drop]

theorem holes_wordsFrom : ∀ (ps : List Production) (offset : Nat),
    Word.holes (wordsFrom offset ps) = List.range' offset (allActions ps).length
  | [], _ => rfl
  | p :: ps, offset => by
    have hlen : (allActions (p :: ps)).length = p.actions.length + (allActions ps).length := by
      rw [allActions, List.flatMap_cons, List.length_append]
      rfl
    rw [wordsFrom, Word.holes_append, Word.holes_text, Word.holes_move, p.numbered, holes_wordsFrom ps, hlen,
      ← List.range'_append_1, List.range_eq_range', List.map_add_range', Nat.add_zero]

theorem lexical_wordsFrom (h : List.Forall₂ Reads ps cs) : ∀ offset : Nat, Lexical (wordsFrom offset ps) := by
  induction h with
  | nil => exact fun _ => .nil
  | cons hc _ ih =>
    intro offset
    refine Lexical.append (fun w hw => hc.lexical w (Word.text_mem_move.1 hw)) ?_
    exact .mark (by decide) (ih _)

theorem Spells.holeCount (h : Spells text ps) : text.holeCount = (allActions ps).length := by
  obtain ⟨s, tokens, -, hscan, hwords⟩ := h
  have hholes := Scanner.holes_of_scan hscan
  rw [← holes_word, hwords, holes_wordsFrom] at hholes
  simpa using (congrArg List.length hholes).symm

/-- **The rules of a text are the clauses that its productions read as.** -/
theorem Spells.parseRules_iff (h : Spells text ps) : parseRules text = .ok rules ↔
    ∃ cs, List.Forall₂ Reads ps cs ∧ rules = Clause.allRules cs := by
  obtain ⟨s, tokens, hs, hscan, hwords⟩ := h
  rw [parseRules_eq_ok_iff_of_scan hs hscan]
  constructor
  · exact fun h => exists_clauses h hwords
  · rintro ⟨cs, hcs, rfl⟩
    exact derivesRules_of_reads hcs hwords

theorem allActions_eq (h : List.Forall₂ Reads ps cs) : Clause.allActions cs = allActions ps := by
  induction h with
  | nil => rfl
  | cons hc _ ih => rw [Clause.allActions_cons, hc.actions, ih, allActions, allActions, List.flatMap_cons]

theorem map_name_eq (h : List.Forall₂ Reads ps cs) : (cs.map fun c => c.rule.name) = ps.map name := by
  induction h with
  | nil => rfl
  | cons hc _ ih => rw [List.map_cons, List.map_cons, hc.name_eq, ih]

/-- **The grammar of a text is that of the clauses** that its productions read as. -/
theorem Spells.build_eq (h : Spells text ps) (hcs : List.Forall₂ Reads ps cs) :
    build parent text (allActions ps) = ofRules parent (Clause.allRules cs) (Clause.allActions cs) := by
  rw [build, if_pos h.holeCount, h.parseRules_iff.2 ⟨cs, hcs, rfl⟩, allActions_eq hcs]
  rfl

theorem Spells.exists_reads (h : Spells text ps) (hg : build parent text (allActions ps) = .ok g) :
    ∃ cs, List.Forall₂ Reads ps cs ∧ ofRules parent (Clause.allRules cs) (Clause.allActions cs) = .ok g := by
  obtain ⟨-, rules, hrules, -⟩ := build_eq_ok_iff.1 hg
  obtain ⟨cs, hcs, -⟩ := h.parseRules_iff.1 hrules
  exact ⟨cs, hcs, h.build_eq hcs ▸ hg⟩

theorem exists_reads_perm (hp : ps.Perm ps') (hcs : List.Forall₂ Reads ps cs) :
    ∃ cs', List.Forall₂ Reads ps' cs' ∧ cs.Perm cs' := by
  obtain ⟨cs', hcs', hperm⟩ := List.perm_comp_forall₂ hp.symm hcs
  exact ⟨cs', hcs', hperm.symm⟩

theorem exists_spells (h : List.Forall₂ Reads ps cs) : ∃ text, Spells text ps := by
  obtain ⟨s, hs, -⟩ := Scanner.ofTokens_eq notationTokens
  have hholes := holes_wordsFrom ps 0
  rw [← List.range_eq_range'] at hholes
  obtain ⟨l, hl, hwords⟩ := Scanner.exists_scan_spaced hs (lexical_wordsFrom h 0) hholes
  exact ⟨Template.spaced (wordsFrom 0 ps), s, l, hs, hl, hwords⟩

/-- **A text that defines a grammar spells productions**, and the actions are theirs. -/
theorem spells_of_build {actions : List Action} (h : build parent text actions = .ok g) :
    ∃ ps, Spells text ps ∧ allActions ps = actions := by
  obtain ⟨hcount, rules, hrules, -⟩ := build_eq_ok_iff.1 h
  obtain ⟨s, tokens, hs, hscan, hd⟩ := isText_iff.2 hrules
  have hholes := Scanner.holes_of_scan hscan
  rw [hcount, List.range_eq_range'] at hholes
  obtain ⟨ps, hwords, hactions⟩ := exists_wordsFrom hd hholes
  exact ⟨ps, ⟨s, tokens, hs, hscan, hwords⟩, hactions⟩

theorem exists_build_of_perm (hp : ps.Perm ps') (h : Spells text ps) (h' : Spells text' ps')
    (hg : build parent text (allActions ps) = .ok g) : ∃ g', build parent text' (allActions ps') = .ok g' := by
  obtain ⟨cs, hcs, hg⟩ := h.exists_reads hg
  obtain ⟨cs', hcs', hperm⟩ := exists_reads_perm hp hcs
  rw [h'.build_eq hcs']
  exact (Clause.exists_ofRules_perm parent hperm).1 ⟨g, hg⟩

end Production

open Production

/-- **The order of productions does not matter.**  If a text of productions defines a grammar, over another one or over
none, then productions in another order, each with its own actions, have a text too.  Every such text defines a grammar
if and only if the first does.  The names of the rules are those of the productions in the order of the text, the
literals and the scanner, and so the keywords and the operators, are the same, and every program has the same result
from every rule: the parse with its counts, or the error. -/
theorem parseWith_perm (parent : Option Grammar) {ps ps' : List Production} (hp : ps.Perm ps') {text : Template}
    (ht : Spells text ps) :
    ((∃ g, build parent text (allActions ps) = .ok g) → ∃ text', Spells text' ps') ∧
    ∀ text' : Template, Spells text' ps' →
      ((∃ g, build parent text (allActions ps) = .ok g) ↔ ∃ g', build parent text' (allActions ps') = .ok g') ∧
      ∀ g g' : Grammar, build parent text (allActions ps) = .ok g → build parent text' (allActions ps') = .ok g' →
        g.ruleNames = ps.map name ∧ g'.ruleNames = ps'.map name ∧ g.literals = g'.literals ∧ g.scanner = g'.scanner ∧
        ∀ (options : ParseOptions) (rule : String) (program : Template) (holes : List Value),
          g.parseWith options rule program holes = g'.parseWith options rule program holes := by
  refine ⟨?_, fun text' ht' => ⟨⟨?_, ?_⟩, fun g g' hg hg' => ?_⟩⟩
  · rintro ⟨g, hg⟩
    obtain ⟨cs, hcs, -⟩ := ht.exists_reads hg
    obtain ⟨cs', hcs', -⟩ := exists_reads_perm hp hcs
    exact exists_spells hcs'
  · rintro ⟨g, hg⟩
    exact exists_build_of_perm hp ht ht' hg
  · rintro ⟨g', hg'⟩
    exact exists_build_of_perm hp.symm ht' ht hg'
  · obtain ⟨cs, hcs, hg⟩ := ht.exists_reads hg
    obtain ⟨cs', hcs', hperm⟩ := exists_reads_perm hp hcs
    rw [ht'.build_eq hcs'] at hg'
    obtain ⟨-, -, hnames, -⟩ := Clause.of_ofRules hg
    obtain ⟨-, -, hnames', -⟩ := Clause.of_ofRules hg'
    exact ⟨hnames.trans (map_name_eq hcs), hnames'.trans (map_name_eq hcs'), Clause.parseWith_ofRules_perm hperm hg hg'⟩

def sumOfItems : List Production :=
  [⟨[.text "start", .text "::=", .text "item", .text "\"+\"", .text "item", .hole 0],
      [fun values => some (.node "sum" values)], by decide, by decide⟩,
    ⟨[.text "item", .text "::=", .text "NUMBER", .hole 0, .text "/", .text "HOLE"],
      [fun values => some (.node "item" values)], by decide, by decide⟩]

set_option maxRecDepth 10000 in
/-- The items before the sum, in a text of its own spacing. -/
theorem parseWith_perm_sumOfItems : ∃ text text' g g',
    Spells text sumOfItems ∧ Spells text' sumOfItems.reverse ∧ compile text (allActions sumOfItems) = .ok g ∧
    compile text' (allActions sumOfItems.reverse) = .ok g' ∧ g'.ruleNames = ["item", "start"] ∧
    g.parseWith {} "start" (.literal "1+2") [] = g'.parseWith {} "start" (.literal "1+2") [] := by
  have hspells : ∀ text ps, (notationScanner >>= fun s => s.scan text >>= fun tokens =>
      .ok (decide (tokens.entries.map Entry.word = wordsFrom 0 ps))) = .ok true → Spells text ps := by
    intro text ps h
    obtain ⟨s, hs, h⟩ := Except.bind_eq_ok.1 h
    obtain ⟨tokens, hscan, h⟩ := Except.bind_eq_ok.1 h
    exact ⟨s, tokens, hs, hscan, of_decide_eq_true (Except.ok.inj h)⟩
  have ht : Spells ⟨"start ::= item \"+\" item ", ["; item ::= NUMBER ", "/ HOLE;"]⟩ sumOfItems :=
    hspells _ _ (by decide +kernel)
  have ht' : Spells ⟨"item::=NUMBER", ["/HOLE; # sums\n start::=item\"+\"item ", ";"]⟩ sumOfItems.reverse :=
    hspells _ _ (by decide +kernel)
  have hok : (compile ⟨"start ::= item \"+\" item ", ["; item ::= NUMBER ", "/ HOLE;"]⟩ (allActions sumOfItems) >>=
      fun g => .ok (g.hasRule "start")) = .ok true := by decide +kernel
  obtain ⟨g, hg, -⟩ := Except.bind_eq_ok.1 hok
  obtain ⟨-, h⟩ := parseWith_perm none (List.reverse_perm _).symm ht
  obtain ⟨hiff, h⟩ := h _ ht'
  obtain ⟨g', hg'⟩ := hiff.1 ⟨g, hg⟩
  obtain ⟨-, hnames, -, -, hparse⟩ := h g g' hg hg'
  exact ⟨_, _, g, g', ht, ht', hg, hg', hnames, hparse {} "start" _ []⟩

end Grammar

end Packrat
