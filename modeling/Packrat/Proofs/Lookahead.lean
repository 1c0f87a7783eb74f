import Packrat.Proofs.PackratBound
import Packrat.Proofs.Transfer
/-!
# Lookahead — what a parse depends on

A derivation reads no entry behind the furthest position, and of an entry only what it is: the text of a token or the
index of a hole, not its place (`means_of_contents`).  So two programs whose entries are the same up to the furthest
position of the one, neither ending before it, have the same derivation, and with it the same run: its value, the
entries taken, the counts, or the entry that a failure names (`parseWith_sameOutcome`).
-/
namespace Packrat

def Entry.content : Entry → String ⊕ Nat
  | .token t => .inl t.text
  | .hole i => .inr i

namespace TokenList

def contents (l : TokenList) : List (String ⊕ Nat) := l.entries.map Entry.content

/-- **The same entries up to a position**, which is one of an entry in both. -/
def SameUpTo (l l' : TokenList) (k : Nat) : Prop :=
  k < l.entries.length ∧ k < l'.entries.length ∧
    ∀ i, i ≤ k → l.entries[i]?.map Entry.content = l'.entries[i]?.map Entry.content

instance (l l' : TokenList) (k : Nat) : Decidable (l.SameUpTo l' k) :=
  inferInstanceAs (Decidable (_ ∧ _ ∧ ∀ i, i ≤ k → _))

theorem getElem?_of_contents_eq {l l' : TokenList} (h : l.contents = l'.contents) (i : Nat) :
    l.entries[i]?.map Entry.content = l'.entries[i]?.map Entry.content := by
  rw [← List.getElem?_map, ← List.getElem?_map]
  exact congrArg (·[i]?) h

end TokenList

namespace Grammar

/-- **The same outcome of two parses**, whose entries may stand in different places: the same value, entries taken and
counts, or a failure that names entries with the same index. -/
inductive SameOutcome : Except ParseError Parse → Except ParseError Parse → Prop where
  | parsed {p q : Parse} (value : p.value = q.value) (consumed : p.consumed = q.consumed) (stats : p.stats = q.stats) :
      SameOutcome (.ok p) (.ok q)
  | noMatch {rule : String} {k : Nat} {entry entry' : Option Entry}
      (same : entry.map Entry.content = entry'.map Entry.content) :
      SameOutcome (.error (.noMatch rule k entry)) (.error (.noMatch rule k entry'))
  | leftRecursion {rule : String} : SameOutcome (.error (.leftRecursion rule)) (.error (.leftRecursion rule))

def furthest? (g : Grammar) (memoize : Bool) (d : Definition) (tokens : TokenList) : Option Nat :=
  (g.runEntry memoize d tokens).state?.map State.furthest

variable {layers : List Layer} {tokens tokens' : TokenList} {d : Definition} {p k : Nat} {a : Answer} {t : Trail}
  {g : Grammar} {rule : String} {P Q : Template} {holes holes' : List Value} {options : ParseOptions}

/-! ## Derivations -/

theorem alike_of_content (l : Lexicon) : ∀ {e e' : Entry}, e.content = e'.content → Entry.Alike l l e e'
  | .token t, .token t', h => by
    have ht : t.text = t'.text := Sum.inl.inj h
    have haccepts : ∀ m : FullMatch, m.accepts t.text = m.accepts t'.text := fun m => by rw [ht]
    exact Entry.alike_token ht (haccepts _) (haccepts _) (by rw [Lexicon.isIdent, Lexicon.isIdent, ht])
  | .hole i, .hole j, h => by
    cases Sum.inr.inj h
    exact Entry.alike_hole l l i
  | .token _, .hole _, h => by cases h
  | .hole _, .token _, h => by cases h

theorem leaf?_of_content (hl : tokens.lexicon = tokens'.lexicon)
    (h : tokens.entries[p]?.map Entry.content = tokens'.entries[p]?.map Entry.content) (x : Atom) :
    x.leaf? tokens p = x.leaf? tokens' p := by
  refine Atom.leaf?_of_alike ?_ x
  rw [← hl]
  generalize tokens.entries[p]? = o at h
  generalize tokens'.entries[p]? = o' at h
  cases o with
  | none =>
    cases o' with
    | none => exact .none
    | some e' => cases h
  | some e =>
    cases o' with
    | none => cases h
    | some e' => exact .some (alike_of_content _ (Option.some.inj h))

/-- **A derivation reads no entry behind its furthest position**: over entries that are the same up to there it is the
same derivation. -/
theorem means_of_contents (hl : tokens.lexicon = tokens'.lexicon)
    (hsame : ∀ i, i ≤ t.furthest → tokens.entries[i]?.map Entry.content = tokens'.entries[i]?.map Entry.content)
    (hm : Means layers tokens d (.choice d.rule.body) 0 a t) : Means layers tokens' d (.choice d.rule.body) 0 a t := by
  -- the calls are of the same definitions, so that the trail stays as it is
  have T : Transfer layers layers tokens tokens' (fun _ => True) t.furthest Eq :=
    { refl := fun _ => rfl
      both := fun h h' => by rw [h, h']
      leaf := fun hp hx => by rw [← leaf?_of_content hl (hsame _ hp), hx]
      called := fun _ _ he => ⟨trivial, fun ⟨_, hm, ht⟩ =>
        ⟨_, .called (by rw [Reference.target?_atom, he]) hm, by rw [ht]⟩⟩
      dangling := fun _ _ hn => hn }
  obtain ⟨_, hm', rfl⟩ := T.means hm trivial (List.Subset.refl _) (Nat.zero_le _) (Nat.le_refl _)
  exact hm'

/-! ## Parses -/

theorem sameOutcome_of_means (hd : g.lookup rule = some d) (hh : P.holeCount = holes.length)
    (hh' : Q.holeCount = holes'.length) (hs : g.scanner.scan P = .ok tokens) (hs' : g.scanner.scan Q = .ok tokens')
    (hm : Means g.layers tokens d (.choice d.rule.body) 0 a t)
    (hm' : Means g.layers tokens' d (.choice d.rule.body) 0 a t)
    (hsame : tokens.entries[t.furthest]?.map Entry.content = tokens'.entries[t.furthest]?.map Entry.content) :
    SameOutcome (g.parseWith options rule P holes) (g.parseWith options rule Q holes') := by
  obtain ⟨s, hr, hp, hf, hb, -⟩ := runEntry_completes options.memoize (of_lookup hd) hm
  obtain ⟨s', hr', hp', hf', hb', -⟩ := runEntry_completes options.memoize (of_lookup hd) hm'
  rw [parseWith_eq_runEntry options hd hh hs, parseWith_eq_runEntry options hd hh' hs', hr, hr']
  cases a with
  | none =>
    dsimp only [Reply.ofAnswer]
    rw [hf, hf']
    exact .noMatch hsame
  | some r =>
    have hconsumed : s.position = s'.position := (hp r.1 r.2 rfl).trans (hp' r.1 r.2 rfl).symm
    have hstats : s.stats = s'.stats := hb.stats.trans hb'.stats.symm
    exact .parsed rfl hconsumed hstats

theorem exists_means_of_furthest? {memoize : Bool} (hd : d.Of g.layers) (h : g.furthest? memoize d tokens = some k) :
    ∃ a t, Means g.layers tokens d (.choice d.rule.body) 0 a t ∧ t.furthest = k := by
  obtain ⟨s, hs, rfl⟩ := Option.map_eq_some_iff.1 h
  have hne : g.runEntry memoize d tokens ≠ .exhausted := fun he => by
    rw [he] at hs
    cases hs
  obtain ⟨a, t, hm⟩ := means_of_invoke hd hne
  obtain ⟨s', hr, -, hf, -, -⟩ := runEntry_completes memoize hd hm
  rw [hr, state?_ofAnswer] at hs
  cases hs
  exact ⟨a, t, hm, hf.symm⟩

theorem furthest?_of_noMatch {entry : Option Entry} (hd : g.lookup rule = some d) (hh : P.holeCount = holes.length)
    (hs : g.scanner.scan P = .ok tokens) (h : g.parseWith options rule P holes = .error (.noMatch rule k entry)) :
    g.furthest? options.memoize d tokens = some k := by
  rw [parseWith_eq_runEntry options hd hh hs] at h
  unfold furthest?
  cases hr : g.runEntry options.memoize d tokens with
  | value v s => rw [hr] at h; cases h
  | fail s =>
    rw [hr] at h
    cases h
    rfl
  | exhausted => rw [hr] at h; cases h

theorem sameOutcome_of_sameUpTo (hd : g.lookup rule = some d) (hh : P.holeCount = holes.length)
    (hh' : Q.holeCount = holes'.length) (hs : g.scanner.scan P = .ok tokens) (hs' : g.scanner.scan Q = .ok tokens')
    (hk : g.furthest? options.memoize d tokens = some k) (h : tokens.SameUpTo tokens' k) :
    SameOutcome (g.parseWith options rule P holes) (g.parseWith options rule Q holes') := by
  have hl : tokens.lexicon = tokens'.lexicon := (Scanner.lexicon_of_scan hs).trans (Scanner.lexicon_of_scan hs').symm
  obtain ⟨a, t, hm, rfl⟩ := exists_means_of_furthest? (of_lookup hd) hk
  obtain ⟨-, -, hsame⟩ := h
  exact sameOutcome_of_means hd hh hh' hs hs' hm (means_of_contents hl hsame hm) (hsame _ (Nat.le_refl _))

theorem sameOutcome_of_contents_eq (hd : g.lookup rule = some d) (hh : P.holeCount = holes.length)
    (hh' : Q.holeCount = holes'.length) (hs : g.scanner.scan P = .ok tokens) (hs' : g.scanner.scan Q = .ok tokens')
    (h : tokens.contents = tokens'.contents) :
    SameOutcome (g.parseWith options rule P holes) (g.parseWith options rule Q holes') := by
  have hl : tokens.lexicon = tokens'.lexicon := (Scanner.lexicon_of_scan hs).trans (Scanner.lexicon_of_scan hs').symm
  have hsame := TokenList.getElem?_of_contents_eq h
  by_cases hr : ∃ a, g.Reads tokens d a
  · obtain ⟨a, t, hm⟩ := hr
    exact sameOutcome_of_means hd hh hh' hs hs' hm (means_of_contents hl (fun i _ => hsame i) hm) (hsame _)
  -- without a derivation over the one list there is none over the other, as the entries are the same throughout
  · have hr' : ¬∃ a, g.Reads tokens' d a := fun ⟨a, t, hm⟩ =>
      hr ⟨a, t, means_of_contents hl.symm (fun i _ => (hsame i).symm) hm⟩
    rw [parseWith_eq_runEntry options hd hh hs, parseWith_eq_runEntry options hd hh' hs',
      runEntry_eq_exhausted (of_lookup hd) hr, runEntry_eq_exhausted (of_lookup hd) hr']
    exact .leftRecursion

/-- **A parse depends on the entries up to the furthest one only, and not on where they stand.**  Two programs have the
same outcome if their entries are the same up to the furthest position of the first one's run, neither ending before
it, and if their entries are all the same.  So a program that agrees with one that fails up to the entry at which it
fails does so at that entry too. -/
theorem parseWith_sameOutcome (g : Grammar) (options : ParseOptions) (rule : String) (P Q : Template)
    (holes holes' : List Value) (d : Definition) (tokens tokens' : TokenList) (hd : g.lookup rule = some d)
    (hh : P.holeCount = holes.length) (hh' : Q.holeCount = holes'.length) (hs : g.scanner.scan P = .ok tokens)
    (hs' : g.scanner.scan Q = .ok tokens') :
    (∀ k, g.furthest? options.memoize d tokens = some k → tokens.SameUpTo tokens' k →
      SameOutcome (g.parseWith options rule P holes) (g.parseWith options rule Q holes')) ∧
    (tokens.contents = tokens'.contents →
      SameOutcome (g.parseWith options rule P holes) (g.parseWith options rule Q holes')) ∧
    ∀ k entry, g.parseWith options rule P holes = .error (.noMatch rule k entry) → tokens.SameUpTo tokens' k →
      ∃ entry', g.parseWith options rule Q holes' = .error (.noMatch rule k entry') ∧
        entry.map Entry.content = entry'.map Entry.content := by
  refine ⟨fun k hk h => sameOutcome_of_sameUpTo hd hh hh' hs hs' hk h,
    fun h => sameOutcome_of_contents_eq hd hh hh' hs hs' h, fun k entry hfail h => ?_⟩
  have hk := furthest?_of_noMatch hd hh hs hfail
  have hsame : SameOutcome (g.parseWith options rule P holes) (g.parseWith options rule Q holes') :=
    sameOutcome_of_sameUpTo hd hh hh' hs hs' hk h
  rw [hfail] at hsame
  generalize g.parseWith options rule Q holes' = outcome at hsame
  cases hsame with
  | noMatch hcontent => exact ⟨_, rfl, hcontent⟩

set_option maxRecDepth 10000 in
/-- A sum that goes on where no sum does, and another one laid out otherwise that only begins like it. -/
theorem parseWith_sameOutcome_sums : ∃ d tokens tokens', sums.lookup "start" = some d ∧
    sums.scanner.scan (.literal "1 + 2 3") = .ok tokens ∧
    sums.scanner.scan (.literal "1+2 # two\n 3 + 4") = .ok tokens' ∧
    sums.furthest? false d tokens = some 3 ∧ tokens.SameUpTo tokens' 3 ∧
    SameOutcome (sums.parseWith { memoize := false } "start" (.literal "1 + 2 3") [])
      (sums.parseWith { memoize := false } "start" (.literal "1+2 # two\n 3 + 4") []) := by
  obtain ⟨d, hd⟩ := Option.isSome_iff_exists.1 (by decide : (sums.lookup "start").isSome = true)
  have hrun : ((sums.lookup "start").any fun d => (sums.scanner.scan (.literal "1 + 2 3")).toOption.any fun tokens =>
      (sums.scanner.scan (.literal "1+2 # two\n 3 + 4")).toOption.any fun tokens' =>
        decide (sums.furthest? false d tokens = some 3 ∧ tokens.SameUpTo tokens' 3)) = true := by decide +kernel
  rw [hd] at hrun
  cases hs : sums.scanner.scan (.literal "1 + 2 3") with
  | error e => rw [hs] at hrun; cases hrun
  | ok tokens =>
    cases hs' : sums.scanner.scan (.literal "1+2 # two\n 3 + 4") with
    | error e => rw [hs, hs'] at hrun; cases hrun
    | ok tokens' =>
      rw [hs, hs'] at hrun
      obtain ⟨hk, hsame⟩ := of_decide_eq_true (show decide _ = true from hrun)
      exact ⟨d, tokens, tokens', hd, rfl, rfl, hk, hsame, (parseWith_sameOutcome sums { memoize := false } "start" _ _
        [] [] d tokens tokens' hd rfl rfl hs hs').1 3 hk hsame⟩

end Grammar

end Packrat
