import Packrat.Grammar.Reader
import Packrat.Proofs.Lexer
/-!
# Notation — what the entries of a text derive

The notation as a relation between entries and trees, with nothing said about how to read it: one rule per production of

    grammar  ::= rule* EOF
    rule     ::= IDENT "::=" choice ";"
    choice   ::= sequence ("/" sequence)*
    sequence ::= factor* HOLE?
    factor   ::= atom ("?" / "*" / "+" / "**" atom / "++" atom)?
    atom     ::= STRING / "super" "." IDENT / IDENT / "(" choice ")"

where no identifier is the word `super`.  What a STRING stands for is a parameter: a text is well formed whatever its
strings stand for (`WellFormed`), and if each of them stands for something, there is a tree that says so
(`exists_derivesRules_iff`).
-/
namespace Packrat.Grammar

def IsName (w : String) : Prop := Lexer.isIdentifier w = true ∧ w ≠ "super"

instance (w : String) : Decidable (IsName w) := inferInstanceAs (Decidable (_ ∧ _))

/-- The nonterminals of the notation below that of rules. -/
inductive Kind where
  | choice
  | sequence
  | factor
  | atom

abbrev Kind.Tree : Kind → Type
  | .choice => Choice
  | .sequence => Sequence
  | .factor => Factor
  | .atom => Atom

/-- **Derivations**: the entries derive the tree, and those at their end are left.  A string is a literal of what it
reads as. -/
inductive Derives (reads : String → String → Prop) : (k : Kind) → k.Tree → List Entry → List Entry → Prop where
  | last {q es rest} (hq : Derives reads .sequence q es rest) : Derives reads .choice (.last q) es rest
  | orElse {q c t es mid rest} (hq : Derives reads .sequence q es (.token t :: mid)) (ht : t.text = "/")
      (hc : Derives reads .choice c mid rest) : Derives reads .choice (.orElse q c) es rest
  | stop {rest} : Derives reads .sequence (.stop none) rest rest
  | action {i rest} : Derives reads .sequence (.stop (some i)) (.hole i :: rest) rest
  | andThen {f q es mid rest} (hf : Derives reads .factor f es mid) (hq : Derives reads .sequence q mid rest) :
      Derives reads .sequence (.andThen f q) es rest
  | once {a es rest} (ha : Derives reads .atom a es rest) : Derives reads .factor (.once a) es rest
  | optional {a t es rest} (ha : Derives reads .atom a es (.token t :: rest)) (ht : t.text = "?") :
      Derives reads .factor (.optional a) es rest
  | many {a t es rest} (ha : Derives reads .atom a es (.token t :: rest)) (ht : t.text = "*") :
      Derives reads .factor (.many a) es rest
  | many1 {a t es rest} (ha : Derives reads .atom a es (.token t :: rest)) (ht : t.text = "+") :
      Derives reads .factor (.many1 a) es rest
  | sepBy {a b t es mid rest} (ha : Derives reads .atom a es (.token t :: mid)) (ht : t.text = "**")
      (hb : Derives reads .atom b mid rest) : Derives reads .factor (.sepBy a b) es rest
  | sepBy1 {a b t es mid rest} (ha : Derives reads .atom a es (.token t :: mid)) (ht : t.text = "++")
      (hb : Derives reads .atom b mid rest) : Derives reads .factor (.sepBy1 a b) es rest
  | literal {t text rest} (ht : Lexer.isString t.text = true) (hr : reads t.text text) :
      Derives reads .atom (.literal text) (.token t :: rest) rest
  | super {t d n rest} (ht : t.text = "super") (hd : d.text = ".") (hn : IsName n.text) :
      Derives reads .atom (.super n.text) (.token t :: .token d :: .token n :: rest) rest
  | terminal {t terminal rest} (ht : IsName t.text) (hof : Terminal.ofName? t.text = some terminal) :
      Derives reads .atom (.terminal terminal) (.token t :: rest) rest
  | rule {t rest} (ht : IsName t.text) (hof : Terminal.ofName? t.text = none) :
      Derives reads .atom (.rule t.text) (.token t :: rest) rest
  | group {t e c es rest} (ht : t.text = "(") (hc : Derives reads .choice c es (.token e :: rest)) (he : e.text = ")") :
      Derives reads .atom (.group c) (.token t :: es) rest

inductive DerivesRules (reads : String → String → Prop) : List Entry → List Rule → Prop where
  | nil : DerivesRules reads [] []
  | cons {n d e c es rest rules} (hn : IsName n.text) (hd : d.text = "::=")
      (hc : Derives reads .choice c es (.token e :: rest)) (he : e.text = ";") (hrules : DerivesRules reads rest rules) :
      DerivesRules reads (.token n :: .token d :: es) (⟨n.text, c⟩ :: rules)

def Decodes (s text : String) : Prop := decodeLiteral s = .ok text

/-- **The entries are rules of the notation**, whatever the strings among them stand for. -/
def WellFormed (es : List Entry) : Prop := ∃ rules, DerivesRules (fun _ _ => True) es rules

def AllRead (reads : String → String → Prop) (es : List Entry) : Prop :=
  ∀ t, .token t ∈ es → Lexer.isString t.text = true → ∃ text, reads t.text text

variable {reads reads' : String → String → Prop} {k : Kind} {x : k.Tree} {es mid rest : List Entry}

/-! ## The entries left -/

theorem Derives.suffix (h : Derives reads k x es rest) : rest <:+ es := by
  induction h with
  | last _ ih | once _ ih => exact ih
  | orElse _ _ _ ih ih' | sepBy _ _ _ ih ih' | sepBy1 _ _ _ ih ih' => exact (ih'.trans (List.suffix_cons _ _)).trans ih
  | stop => exact List.suffix_rfl
  | andThen _ _ ih ih' => exact ih'.trans ih
  | optional _ _ ih | many _ _ ih | many1 _ _ ih => exact (List.suffix_cons _ _).trans ih
  | action | literal | terminal | rule => exact List.suffix_cons _ _
  | super => exact ⟨[_, _, _], rfl⟩
  | group _ _ _ ih => exact ((List.suffix_cons _ _).trans ih).trans (List.suffix_cons _ _)

def StartsAtom (w : String) : Prop := Lexer.isString w = true ∨ w = "super" ∨ IsName w ∨ w = "("

instance (w : String) : Decidable (StartsAtom w) := inferInstanceAs (Decidable (_ ∨ _ ∨ _ ∨ _))

theorem Derives.starts_of_atom {a : Atom} (h : Derives reads .atom a es rest) :
    ∃ t more, es = .token t :: more ∧ StartsAtom t.text ∧ rest.length ≤ more.length := by
  cases h with
  | literal ht _ => exact ⟨_, _, rfl, Or.inl ht, Nat.le_refl _⟩
  | super ht _ _ => exact ⟨_, _, rfl, Or.inr (Or.inl ht), Nat.le_add_right _ 2⟩
  | terminal ht _ | rule ht _ => exact ⟨_, _, rfl, Or.inr (Or.inr (Or.inl ht)), Nat.le_refl _⟩
  | group ht hc _ => exact ⟨_, _, rfl, Or.inr (Or.inr (Or.inr ht)), Nat.le_of_succ_le hc.suffix.length_le⟩

theorem Derives.length_lt_of_atom {a : Atom} (h : Derives reads .atom a es rest) : rest.length < es.length := by
  obtain ⟨t, more, rfl, -, hle⟩ := h.starts_of_atom
  exact Nat.lt_succ_of_le hle

theorem Derives.atom_of_factor {f : Factor} (h : Derives reads .factor f es rest) :
    ∃ a mid, Derives reads .atom a es mid ∧ rest <:+ mid := by
  cases h with
  | once ha => exact ⟨_, _, ha, List.suffix_rfl⟩
  | optional ha _ | many ha _ | many1 ha _ => exact ⟨_, _, ha, List.suffix_cons _ _⟩
  | sepBy ha _ hb | sepBy1 ha _ hb => exact ⟨_, _, ha, hb.suffix.trans (List.suffix_cons _ _)⟩

theorem Derives.length_lt_of_factor {f : Factor} (h : Derives reads .factor f es rest) : rest.length < es.length := by
  obtain ⟨a, mid, ha, hmid⟩ := h.atom_of_factor
  exact Nat.lt_of_le_of_lt hmid.length_le ha.length_lt_of_atom

/-! ## What strings read as -/

theorem AllRead.cons {t : Token} (ht : Lexer.isString t.text = true → ∃ text, reads t.text text)
    (h : AllRead reads rest) : AllRead reads (.token t :: rest) := fun t' ht' => by
  rcases List.mem_cons.1 ht' with he | ht'
  · cases he
    exact ht
  · exact h t' ht'

theorem AllRead.hole {i : Nat} (h : AllRead reads rest) : AllRead reads (.hole i :: rest) := fun t ht => by
  rcases List.mem_cons.1 ht with he | ht
  · cases he
  · exact h t ht

theorem AllRead.of_suffix (h : AllRead reads es) (hs : rest <:+ es) : AllRead reads rest :=
  fun t ht => h t (hs.subset ht)

theorem isString_of_isIdentifier {w : String} (h : Lexer.isIdentifier w = true) : Lexer.isString w = false := by
  unfold Lexer.isIdentifier at h
  unfold Lexer.isString
  match hw : w.toList with
  | [] => rfl
  | c :: cs =>
    rw [hw, Lexer.ident?] at h
    by_cases hc : c = '"'
    · rw [hc] at h
      cases h
    · rw [Lexer.string?.eq_2 _ (by simpa using hc)]
      rfl

theorem AllRead.fixed {t : Token} {w : String} (ht : t.text = w) (hw : Lexer.isString w = false)
    (h : AllRead reads rest) : AllRead reads (.token t :: rest) :=
  h.cons fun hs => by
    rw [ht, hw] at hs
    cases hs

theorem AllRead.name {t : Token} (ht : IsName t.text) (h : AllRead reads rest) : AllRead reads (.token t :: rest) :=
  h.fixed rfl (isString_of_isIdentifier ht.1)

theorem Derives.allRead (h : Derives reads k x es rest) : AllRead reads rest → AllRead reads es := by
  induction h with
  | last _ ih | once _ ih => exact ih
  | orElse _ ht _ ih ih' | sepBy _ ht _ ih ih' | sepBy1 _ ht _ ih ih' => exact fun hr => ih ((ih' hr).fixed ht rfl)
  | stop => exact id
  | action => exact AllRead.hole
  | andThen _ _ ih ih' => exact fun hr => ih (ih' hr)
  | optional _ ht ih | many _ ht ih | many1 _ ht ih => exact fun hr => ih (hr.fixed ht rfl)
  | literal _ hr' => exact fun hr => hr.cons fun _ => ⟨_, hr'⟩
  | super ht hd hn => exact fun hr => ((hr.name hn).fixed hd rfl).fixed ht rfl
  | terminal ht _ | rule ht _ => exact AllRead.name ht
  | group ht _ he ih => exact fun hr => (ih (hr.fixed he rfl)).fixed ht rfl

/-- **What derives some tree derives one for another reading of its strings**, if all of them are read. -/
theorem Derives.exists_reread (h : Derives reads k x es rest) :
    AllRead reads' es → ∃ y : k.Tree, Derives reads' k y es rest := by
  induction h with
  | last _ ih =>
    intro hr
    obtain ⟨q, hq⟩ := ih hr
    exact ⟨_, .last hq⟩
  | orElse hq ht _ ih ih' =>
    intro hr
    obtain ⟨q, hq'⟩ := ih hr
    obtain ⟨c, hc⟩ := ih' (hr.of_suffix ((List.suffix_cons _ _).trans hq.suffix))
    exact ⟨_, .orElse hq' ht hc⟩
  | stop => exact fun _ => ⟨_, .stop⟩
  | action => exact fun _ => ⟨_, .action⟩
  | andThen hf _ ih ih' =>
    intro hr
    obtain ⟨f, hf'⟩ := ih hr
    obtain ⟨q, hq⟩ := ih' (hr.of_suffix hf.suffix)
    exact ⟨_, .andThen hf' hq⟩
  | once _ ih =>
    intro hr
    obtain ⟨a, ha⟩ := ih hr
    exact ⟨_, .once ha⟩
  | optional _ ht ih =>
    intro hr
    obtain ⟨a, ha⟩ := ih hr
    exact ⟨_, .optional ha ht⟩
  | many _ ht ih =>
    intro hr
    obtain ⟨a, ha⟩ := ih hr
    exact ⟨_, .many ha ht⟩
  | many1 _ ht ih =>
    intro hr
    obtain ⟨a, ha⟩ := ih hr
    exact ⟨_, .many1 ha ht⟩
  | sepBy ha ht _ ih ih' =>
    intro hr
    obtain ⟨a, ha'⟩ := ih hr
    obtain ⟨b, hb⟩ := ih' (hr.of_suffix ((List.suffix_cons _ _).trans ha.suffix))
    exact ⟨_, .sepBy ha' ht hb⟩
  | sepBy1 ha ht _ ih ih' =>
    intro hr
    obtain ⟨a, ha'⟩ := ih hr
    obtain ⟨b, hb⟩ := ih' (hr.of_suffix ((List.suffix_cons _ _).trans ha.suffix))
    exact ⟨_, .sepBy1 ha' ht hb⟩
  | literal ht _ =>
    intro hr
    obtain ⟨text, htext⟩ := hr _ List.mem_cons_self ht
    exact ⟨_, .literal ht htext⟩
  | super ht hd hn => exact fun _ => ⟨_, .super ht hd hn⟩
  | terminal ht hof => exact fun _ => ⟨_, .terminal ht hof⟩
  | rule ht hof => exact fun _ => ⟨_, .rule ht hof⟩
  | group ht _ he ih =>
    intro hr
    obtain ⟨c, hc⟩ := ih (hr.of_suffix (List.suffix_cons _ _))
    exact ⟨_, .group ht hc he⟩

theorem DerivesRules.allRead {rules : List Rule} (h : DerivesRules reads es rules) : AllRead reads es := by
  induction h with
  | nil => exact fun t ht => by cases ht
  | cons hn hd hc he _ ih => exact ((hc.allRead (ih.fixed he rfl)).fixed hd rfl).name hn

theorem DerivesRules.exists_reread {rules : List Rule} (h : DerivesRules reads es rules) :
    AllRead reads' es → ∃ rules', DerivesRules reads' es rules' := by
  induction h with
  | nil => exact fun _ => ⟨_, .nil⟩
  | @cons n d e c es rest rules hn hd hc he _ ih =>
    intro hr
    have hbody : AllRead reads' es := hr.of_suffix ⟨[_, _], rfl⟩
    obtain ⟨c', hc'⟩ := hc.exists_reread hbody
    obtain ⟨rules', hrules⟩ := ih (hbody.of_suffix ((List.suffix_cons _ _).trans hc.suffix))
    exact ⟨_, .cons hn hd hc' he hrules⟩

/-- **Entries derive rules if they are well formed and their strings are read.** -/
theorem exists_derivesRules_iff : (∃ rules, DerivesRules reads es rules) ↔ WellFormed es ∧ AllRead reads es := by
  constructor
  · rintro ⟨rules, h⟩
    exact ⟨h.exists_reread fun _ _ _ => ⟨"", trivial⟩, h.allRead⟩
  · rintro ⟨⟨rules, h⟩, hr⟩
    exact h.exists_reread hr

end Packrat.Grammar
