import Packrat.Proofs.Depth
import Packrat.Proofs.Relink
import Packrat.Proofs.Built
/-!
# Transfer — the meaning of a body under other layers or over other entries

A phrase of a body means the same over other entries if its literals and terminals find the same there, and under other
layers if its references lead to what means the same (`Transfer`).  Only the positions up to the furthest one count, as
no phrase is read behind it (`stop_le_furthest`).  Main statement: under such a change every phrase keeps its answer, and
its trail becomes one that is related to it (`Transfer.means`).
-/
namespace Packrat.Grammar

variable {layers layers' : List Layer} {tokens tokens' : TokenList} {d e : Definition} {φ : Phrase} {p k : Nat}
  {a : Answer} {t u : Trail}

theorem stop_le_furthest (h : Means layers tokens d φ p a t) :
    ∀ {v : Value} {q : Nat}, a = some (v, q) → q ≤ max p t.furthest := by
  induction h with
  | last _ ih | first _ ih | once _ ih | many _ ih | many1 _ ih | sepBy _ ih | sepBy1 _ ih | bare _ ih | group _ ih
  | called _ _ ih => exact ih
  | factorFail | refuse | many1Fail | sepBy1Fail | separatorFail | dangling => intro v q h; cases h
  | sole | all | act | absent | itemsEnd | itemsStay | listNone => intro v q h; cases h; exact Nat.le_max_left _ _
  | present _ ih => intro v q h; cases h; exact ih rfl
  | next _ _ _ ih =>
    intro v q h
    have := ih h
    simp only [Trail.furthest]
    omega
  | factorThen _ _ ih ih' | separated _ _ ih ih' =>
    intro v q h
    have := ih rfl
    have := ih' h
    simp only [Trail.furthest]
    omega
  | itemsMore _ _ _ ih ih' | listSome _ _ ih ih' =>
    intro v q h
    cases h
    have := ih rfl
    have := ih' rfl
    simp only [Trail.furthest]
    omega
  | leaf => intro v q h; subst h; exact Nat.le_max_right _ _

/-! ## Entries read alike -/

/-- **Two entries that every literal and terminal reads alike**, each with the lexicon of its side. -/
structure Entry.Alike (l l' : Lexicon) (e e' : Entry) : Prop where
  literal : ∀ text, literalValue? text e = literalValue? text e'
  terminal : ∀ t : Terminal, t.valueOf? l e = t.valueOf? l' e'

theorem Entry.alike_token {l l' : Lexicon} {t t' : Token} (htext : t.text = t'.text)
    (hnumber : l.isNumber t = l'.isNumber t') (hstring : l.isString t = l'.isString t')
    (hident : l.isIdent t = l'.isIdent t') : Entry.Alike l l' (.token t) (.token t') := by
  refine ⟨fun text => by rw [literalValue?, literalValue?, htext], fun T => ?_⟩
  cases T with
  | number => rw [Terminal.valueOf?, Terminal.valueOf?, hnumber, htext]
  | string => rw [Terminal.valueOf?, Terminal.valueOf?, hstring, htext]
  | ident => rw [Terminal.valueOf?, Terminal.valueOf?, hident, htext]
  | hole | eof | fail => rfl

theorem Entry.alike_hole (l l' : Lexicon) (i : Nat) : Entry.Alike l l' (.hole i) (.hole i) :=
  ⟨fun _ => rfl, fun T => by cases T <;> rfl⟩

theorem bind_eq_of_alike {l l' : Lexicon} {o o' : Option Entry} {value? value?' : Entry → Option Value}
    (h : Option.Rel (Entry.Alike l l') o o') (hv : ∀ e e', Entry.Alike l l' e e' → value? e = value?' e') :
    o.bind value? = o'.bind value?' := by
  cases h with
  | some ha => exact hv _ _ ha
  | none => rfl

theorem eq_none_iff_of_alike {l l' : Lexicon} {o o' : Option Entry} (h : Option.Rel (Entry.Alike l l') o o') :
    o = none ↔ o' = none := by
  cases h <;> simp

theorem Atom.leaf?_of_alike
    (h : Option.Rel (Entry.Alike tokens.lexicon tokens'.lexicon) tokens.entries[p]? tokens'.entries[p]?) (x : Atom) :
    x.leaf? tokens p = x.leaf? tokens' p := by
  have hvalue : ∀ {value? value?' : Entry → Option Value},
      (∀ e e', Entry.Alike tokens.lexicon tokens'.lexicon e e' → value? e = value?' e') →
        answerAt tokens p value? = answerAt tokens' p value?' := fun hv => by
    rw [answerAt, answerAt, bind_eq_of_alike h hv]
  have hend : tokens.entries.length ≤ p ↔ tokens'.entries.length ≤ p := by
    rw [← List.getElem?_eq_none_iff, ← List.getElem?_eq_none_iff, eq_none_iff_of_alike h]
  match x with
  | .literal text => exact congrArg some (hvalue fun _ _ ha => ha.literal text)
  | .terminal .eof => exact congrArg some (if_congr hend rfl rfl)
  | .terminal .fail => rfl
  | .terminal .number | .terminal .string | .terminal .ident | .terminal .hole =>
    exact congrArg some (hvalue fun _ _ ha => ha.terminal _)
  | .rule _ | .super _ | .group _ => rfl

/-! ## References of a phrase -/

def itemReferences (x : Atom) : Option Atom → List Reference
  | none => x.references
  | some y => x.references ++ y.references

def Phrase.references : Phrase → List Reference
  | .choice c => c.references
  | .sequence _ s => s.references
  | .factor f => f.references
  | .atom x => x.references
  | .item y x | .items y x => itemReferences x y
  | .listOf y x => itemReferences x (some y)

theorem Atom.exists_reference {o : Option Definition} : ∀ {x : Atom}, x.target? layers d = some o →
    ∃ ref : Reference, x = ref.atom ∧ ref ∈ x.references ∧ ref.target? layers d.below = o
  | .rule n, h => ⟨.rule n, rfl, List.mem_singleton.2 rfl, Option.some.inj h⟩
  | .super n, h => ⟨.super n, rfl, List.mem_singleton.2 rfl, Option.some.inj h⟩

theorem Reference.target?_atom : ∀ ref : Reference, ref.atom.target? layers d = some (ref.target? layers d.below)
  | .rule _ | .super _ => rfl

/-! ## Transfer -/

/-- **A meaning that is kept**: the phrase has the same answer there, with a trail that is related. -/
def Kept (layers : List Layer) (tokens : TokenList) (rel : Trail → Trail → Prop) (d : Definition) (φ : Phrase) (p : Nat)
    (a : Answer) (t : Trail) : Prop :=
  ∃ t', Means layers tokens d φ p a t' ∧ rel t t'

/-- **What a change of layers and entries must keep** for the meanings of some definitions: what literals and terminals
find up to a position, and what the references in the bodies mean.  How the trails change is left open. -/
structure Transfer (layers layers' : List Layer) (tokens tokens' : TokenList) (within : Definition → Prop) (k : Nat)
    (rel : Trail → Trail → Prop) : Prop where
  refl : ∀ t, rel t t
  both : ∀ {t t' u u'}, rel t t' → rel u u' → rel (t.both u) (t'.both u')
  leaf : ∀ {x : Atom} {p a}, p ≤ k → x.leaf? tokens p = some a → x.leaf? tokens' p = some a
  called : ∀ {d e ref}, within d → ref ∈ d.rule.body.references → ref.target? layers d.below = some e → within e ∧
    ∀ {p a t}, Kept layers' tokens' rel e (.choice e.rule.body) p a t →
      Kept layers' tokens' rel d (.atom ref.atom) p a (.call e p t)
  dangling : ∀ {d ref}, within d → ref ∈ d.rule.body.references → ref.target? layers d.below = none →
    ref.target? layers' d.below = none

variable {within : Definition → Prop} {rel : Trail → Trail → Prop} {ψ χ : Phrase} {q q' : Nat} {b c : Answer}

theorem Kept.of_part (h : Kept layers tokens rel d ψ q b t)
    (hm : ∀ {t}, Means layers tokens d ψ q b t → Means layers tokens d φ p a t) : Kept layers tokens rel d φ p a t := by
  obtain ⟨t', h, hr⟩ := h
  exact ⟨t', hm h, hr⟩

theorem Transfer.of_parts (T : Transfer layers layers' tokens tokens' within k rel)
    (h : Kept layers' tokens' rel d ψ q b t) (h' : Kept layers' tokens' rel d χ q' c u)
    (hm : ∀ {t u}, Means layers' tokens' d ψ q b t → Means layers' tokens' d χ q' c u →
      Means layers' tokens' d φ p a (t.both u)) : Kept layers' tokens' rel d φ p a (t.both u) := by
  obtain ⟨t', h, hr⟩ := h
  obtain ⟨u', h', hr'⟩ := h'
  exact ⟨_, hm h h', T.both hr hr'⟩

/-- **The meanings of phrases are kept**, by induction on the derivation; behind a part that took something the next one
begins at the furthest position or before it. -/
theorem Transfer.means (T : Transfer layers layers' tokens tokens' within k rel) (h : Means layers tokens d φ p a t) :
    within d → φ.references ⊆ d.rule.body.references → p ≤ k → t.furthest ≤ k → Kept layers' tokens' rel d φ p a t := by
  induction h with
  | last _ ih => intro hd hφ hp ht; exact (ih hd hφ hp ht).of_part .last
  | first _ ih =>
    intro hd hφ hp ht
    exact (ih hd (List.append_subset.1 hφ).1 hp ht).of_part .first
  | next _ _ ih ih' =>
    intro hd hφ hp ht
    obtain ⟨ht, hu⟩ := Nat.max_le.1 ht
    obtain ⟨hφ, hψ⟩ := List.append_subset.1 hφ
    exact T.of_parts (ih hd hφ hp ht) (ih' hd hψ hp hu) .next
  | factorFail _ ih =>
    intro hd hφ hp ht
    exact (ih hd (List.append_subset.1 hφ).1 hp ht).of_part .factorFail
  | factorThen g _ ih ih' =>
    intro hd hφ hp ht
    obtain ⟨ht, hu⟩ := Nat.max_le.1 ht
    obtain ⟨hφ, hψ⟩ := List.append_subset.1 hφ
    have hq := (stop_le_furthest g rfl).trans (Nat.max_le.2 ⟨hp, ht⟩)
    exact T.of_parts (ih hd hφ hp ht) (ih' hd hψ hq hu) .factorThen
  | sole => intros; exact ⟨_, .sole, T.refl _⟩
  | all hne => intros; exact ⟨_, .all hne, T.refl _⟩
  | act hv => intros; exact ⟨_, .act hv, T.refl _⟩
  | refuse hn => intros; exact ⟨_, .refuse hn, T.refl _⟩
  | once _ ih => intro hd hφ hp ht; exact (ih hd hφ hp ht).of_part .once
  | present _ ih => intro hd hφ hp ht; exact (ih hd hφ hp ht).of_part .present
  | absent _ ih => intro hd hφ hp ht; exact (ih hd hφ hp ht).of_part .absent
  | many _ ih => intro hd hφ hp ht; exact (ih hd hφ hp ht).of_part .many
  | many1 _ ih => intro hd hφ hp ht; exact (ih hd hφ hp ht).of_part .many1
  | many1Fail _ ih => intro hd hφ hp ht; exact (ih hd hφ hp ht).of_part .many1Fail
  | sepBy _ ih => intro hd hφ hp ht; exact (ih hd hφ hp ht).of_part .sepBy
  | sepBy1 _ ih => intro hd hφ hp ht; exact (ih hd hφ hp ht).of_part .sepBy1
  | sepBy1Fail _ ih => intro hd hφ hp ht; exact (ih hd hφ hp ht).of_part .sepBy1Fail
  | bare _ ih => intro hd hφ hp ht; exact (ih hd hφ hp ht).of_part .bare
  | separatorFail _ ih =>
    intro hd hφ hp ht
    exact (ih hd (List.append_subset.1 hφ).2 hp ht).of_part .separatorFail
  | separated g _ ih ih' =>
    intro hd hφ hp ht
    obtain ⟨ht, hu⟩ := Nat.max_le.1 ht
    obtain ⟨hφ, hψ⟩ := List.append_subset.1 hφ
    have hq := (stop_le_furthest g rfl).trans (Nat.max_le.2 ⟨hp, ht⟩)
    exact T.of_parts (ih hd hψ hp ht) (ih' hd hφ hq hu) .separated
  | itemsEnd _ ih => intro hd hφ hp ht; exact (ih hd hφ hp ht).of_part .itemsEnd
  | itemsStay _ ih => intro hd hφ hp ht; exact (ih hd hφ hp ht).of_part .itemsStay
  | itemsMore g hne _ ih ih' =>
    intro hd hφ hp ht
    obtain ⟨ht, hu⟩ := Nat.max_le.1 ht
    have hq := (stop_le_furthest g rfl).trans (Nat.max_le.2 ⟨hp, ht⟩)
    exact T.of_parts (ih hd hφ hp ht) (ih' hd hφ hq hu) fun h h' => .itemsMore h hne h'
  | listNone _ ih =>
    intro hd hφ hp ht
    exact (ih hd (List.append_subset.1 hφ).1 hp ht).of_part .listNone
  | listSome g _ ih ih' =>
    intro hd hφ hp ht
    obtain ⟨ht, hu⟩ := Nat.max_le.1 ht
    have hq := (stop_le_furthest g rfl).trans (Nat.max_le.2 ⟨hp, ht⟩)
    exact T.of_parts (ih hd (List.append_subset.1 hφ).1 hp ht) (ih' hd hφ hq hu) .listSome
  | leaf hl => intro _ _ hp _; exact ⟨_, .leaf (T.leaf hp hl), T.refl _⟩
  | group _ ih => intro hd hφ hp ht; exact (ih hd hφ hp ht).of_part .group
  | called hx _ ih =>
    intro hd hφ hp ht
    obtain ⟨ref, rfl, href, he⟩ := Atom.exists_reference hx
    obtain ⟨hwithin, hcalled⟩ := T.called hd (hφ href) he
    exact hcalled (ih hwithin (List.Subset.refl _) hp ht)
  | dangling hx =>
    intro hd hφ _ _
    obtain ⟨ref, rfl, href, he⟩ := Atom.exists_reference hx
    have hnone := T.dangling hd (hφ href) he
    exact ⟨_, .dangling (by rw [Reference.target?_atom, hnone]), T.refl _⟩

end Packrat.Grammar
