import Packrat.Proofs.ContextAutomaton
import Packrat.Proofs.HoleContexts
/-!
# ClassCuts — a class cut in two

A class written in two parts has a hole inside it.  The members of a class are read with a count of the classes open
inside, and a bracket right at its head is a member.  The walk that records the context of the hole knows neither: a
class ends at the first bracket that no backslash escapes (`walk_charset_eq`).  So a hole is seen inside the class up
to that bracket, and everywhere only if that bracket is the last character, which says what the members may hold
(`exists_body_of_classMembers`).  Main statement: `cut_in_class`.
-/
namespace Packrat.Splice

open Context

variable {cs ms rest : List Char} {first : Bool} {depth : Nat} {p q source : String} {s : Splice}

/-- A bracket that no backslash escapes closes the class. -/
def closes : List Char → Bool
  | '\\' :: _ :: cs => closes cs
  | ']' :: _ => true
  | _ :: cs => closes cs
  | [] => false

def leads : List Char → Bool
  | '[' :: '^' :: cs | '[' :: cs => cs.head? == some ']'
  | _ => false

/-! ## Where the walk leaves a class -/

theorem closes_append (h : closes cs = true) (rest : List Char) : closes (cs ++ rest) = true := by
  fun_induction closes cs with
  | case1 x cs ih => exact ih h
  | case2 => rfl
  | case3 x cs hpair hclose ih =>
    have hx : x ≠ '\\' := ne_backslash hpair fun _ he => by
      rw [he] at h
      cases h
    rw [List.cons_append, closes.eq_3 _ _ (fun _ _ he _ => hx he) hclose]
    exact ih h
  | case4 => cases h

theorem walk_of_not_closes (h : closes cs = false) :
    walk .charset cs = .inside .charset ∨ walk .charset cs = .classEscape := by
  fun_induction closes cs with
  | case1 x cs ih => exact ih h
  | case2 => cases h
  | case3 x cs hpair hclose ih =>
    by_cases hlone : x = '\\' ∧ cs = []
    · right
      rw [hlone.1, hlone.2]
      rfl
    · have hx := ne_backslash hpair fun hx he => hlone ⟨hx, he⟩
      rw [walk_charset_cons (by simpa [hx] using hclose)]
      exact ih h
  | case4 => exact Or.inl rfl

theorem exists_of_closes (h : closes cs = true) :
    ∃ before behind, cs = before ++ ']' :: behind ∧ walk .charset before = .inside .charset := by
  fun_induction closes cs with
  | case1 x cs ih =>
    obtain ⟨before, behind, rfl, hw⟩ := ih h
    exact ⟨'\\' :: x :: before, behind, rfl, hw⟩
  | case2 cs => exact ⟨[], cs, rfl, rfl⟩
  | case3 x cs hpair hclose ih =>
    obtain ⟨before, behind, rfl, hw⟩ := ih h
    have hx := ne_backslash hpair fun _ he => absurd he (by simp)
    refine ⟨x :: before, behind, rfl, ?_⟩
    rw [walk_charset_cons (by simpa [hx] using hclose), hw]
  | case4 => cases h

theorem walk_ne_classEscape (c : Context) (cs : List Char) : c.walk (cs ++ [']']) ≠ .classEscape := by
  intro h
  obtain ⟨before, he, -⟩ := exists_of_walk_eq_classEscape h
  have hlast := (List.append_inj' he rfl).2
  cases hlast

/-! ## Where the members end -/

/-- **The members end with the last character**, and a bracket stands before it if a class is open inside, if one opens,
or if the first member is one. -/
theorem exists_body_of_membersFrom (h : membersFrom first depth cs = some ms) : ∃ body, cs = body ++ [']'] ∧
    closes body = (decide (0 < depth) || nests ms || first && cs.head? == some ']') := by
  fun_induction membersFrom first depth cs generalizing ms with
  | case1 | case2 => cases h
  | case3 first depth x cs ih =>
    obtain ⟨ms, hms, rfl⟩ := Option.map_eq_some_iff.1 h
    obtain ⟨body, rfl, hbody⟩ := ih hms
    exact ⟨'\\' :: x :: body, rfl, by simpa [closes, nests] using hbody⟩
  | case4 first depth cs ih =>
    obtain ⟨ms, hms, rfl⟩ := Option.map_eq_some_iff.1 h
    obtain ⟨body, rfl, hbody⟩ := ih hms
    exact ⟨'[' :: body, rfl, by simpa [closes, nests] using hbody⟩
  | case5 first depth cs hpos ih =>
    obtain ⟨ms, hms, rfl⟩ := Option.map_eq_some_iff.1 h
    obtain ⟨body, rfl, -⟩ := ih hms
    exact ⟨']' :: body, rfl, by simp [closes, hpos]⟩
  | case6 depth cs hpos ih =>
    obtain ⟨ms, hms, rfl⟩ := Option.map_eq_some_iff.1 h
    obtain ⟨body, rfl, -⟩ := ih hms
    exact ⟨']' :: body, rfl, by simp [closes]⟩
  | case7 first depth cs hpos hfirst hend =>
    cases h
    rw [List.isEmpty_iff.1 hend]
    exact ⟨[], rfl, by simp [closes, nests, hpos, hfirst]⟩
  | case8 => cases h
  | case9 first depth x cs hlone hpair hopen hclose ih =>
    obtain ⟨ms, hms, rfl⟩ := Option.map_eq_some_iff.1 h
    obtain ⟨body, rfl, hbody⟩ := ih hms
    have hx := ne_backslash hpair hlone
    refine ⟨x :: body, rfl, ?_⟩
    rw [closes.eq_3 _ _ (fun _ _ he _ => hx he) hclose, nests.eq_3 _ _ (fun _ _ he _ => hx he) hopen, hbody]
    have hhead : ((x :: (body ++ [']'])).head? == some ']') = false := by simpa using hclose
    rw [hhead, Bool.and_false, Bool.false_and]

/-- **A class has a bracket before its last character** exactly if a class opens among its members or a bracket is the
first of them. -/
theorem exists_body_of_classMembers (h : classMembers cs = some ms) :
    ∃ body, cs = '[' :: body ++ [']'] ∧ closes body = (nests ms || leads cs) := by
  unfold classMembers at h
  split at h
  · obtain ⟨ms, hms, rfl⟩ := Option.map_eq_some_iff.1 h
    obtain ⟨body, rfl, hbody⟩ := exists_body_of_membersFrom hms
    exact ⟨'^' :: body, rfl, by simpa [closes, nests, leads] using hbody⟩
  · rename_i cs hcaret
    obtain ⟨body, rfl, hbody⟩ := exists_body_of_membersFrom h
    refine ⟨body, rfl, ?_⟩
    rw [leads.eq_2 _ hcaret]
    simpa using hbody
  · cases h

/-! ## Cuts -/

/-- **A text in two parts**, neither empty, that can be scanned with a hole between them. -/
structure Cut (source p q : String) (s : Splice) : Prop where
  whole : p ++ q = source
  before : p ≠ ""
  behind : q ≠ ""
  analysed : analyse [p, q] = .ok s

theorem analyse_pair_iff : analyse [p, q] = .ok s ↔
    ∃ d e, Context.block.walk p.toList = .inside d ∧ d.walk q.toList = .inside e ∧ s = ⟨[p, q], [d]⟩ := by
  rw [analyse, holeContexts, List.map_cons, List.map_cons, List.map_nil, contextsFrom, scan_eq]
  cases Context.block.walk p.toList with
  | classEscape => simp [Standing.context?]
  | inside d =>
    simp only [Standing.context?, contextsFrom, scan_eq]
    cases hq : d.walk q.toList with
    | classEscape => simp [Except.map, hq]
    | inside e => simp [Except.map, hq, eq_comm]

theorem Cut.exists_before {body : List Char} (h : Cut source p q s) (hbody : source.toList = '[' :: body ++ [']']) :
    ∃ before, p.toList = '[' :: before ∧ ∃ more, before ++ more = body := by
  have hp : p.toList ≠ [] := fun he => h.before (String.toList_inj.1 he)
  have hq : q.toList ≠ [] := fun he => h.behind (String.toList_inj.1 he)
  rw [← h.whole, String.toList_append] at hbody
  rcases List.eq_nil_or_concat q.toList with he | ⟨more, x, he⟩
  · exact absurd he hq
  · rw [he, List.concat_eq_append, ← List.append_assoc] at hbody
    have hbody : p.toList ++ more = '[' :: body := (List.append_inj' hbody rfl).1
    cases hpl : p.toList with
    | nil => exact absurd hpl hp
    | cons y before =>
      rw [hpl, List.cons_append] at hbody
      obtain ⟨rfl, hmore⟩ := List.cons.inj hbody
      exact ⟨before, rfl, more, hmore⟩

theorem exists_cut_block {before behind : List Char} (hsource : source.toList = '[' :: (before ++ ']' :: behind) ++ [']'])
    (hw : walk .charset before = .inside .charset) : ∃ p q, Cut source p q ⟨[p, q], [.block]⟩ := by
  have hblock : Context.block.walk ('[' :: (before ++ [']'])) = .inside .block := (walk_append hw [']']).trans rfl
  cases hbehind : Context.block.walk (behind ++ [']']) with
  | classEscape => exact absurd hbehind (walk_ne_classEscape .block behind)
  | inside e =>
    refine ⟨String.ofList ('[' :: (before ++ [']'])), String.ofList (behind ++ [']']), ?_, by simp, by simp, ?_⟩
    · rw [← String.toList_inj, hsource, String.toList_append, String.toList_ofList, String.toList_ofList]
      simp
    · rw [analyse_pair_iff, String.toList_ofList, String.toList_ofList]
      exact ⟨_, _, hblock, hbehind, rfl⟩

/-- **A cut inside a class is seen inside it up to the first bracket**, and every cut is so exactly if no class opens
among the members and no bracket leads them. -/
theorem cut_in_class {source : String} {ms : List Char} (h : classMembers source.toList = some ms) :
    (∀ p q s, Cut source p q s → closes p.toList = false → s.contexts = [.charset]) ∧
    ((∀ p q s, Cut source p q s → s.contexts = [.charset]) ↔ nests ms = false ∧ leads source.toList = false) := by
  obtain ⟨body, hbody, hcloses⟩ := exists_body_of_classMembers h
  have hseen : ∀ p q s, Cut source p q s → closes p.toList = false → s.contexts = [.charset] := by
    intro p q s hcut hp
    obtain ⟨before, hbefore, -⟩ := hcut.exists_before hbody
    obtain ⟨d, e, hd, -, rfl⟩ := analyse_pair_iff.1 hcut.analysed
    rw [hbefore] at hp hd
    -- the bracket that opens the class closes none, and the walk enters the class behind it
    have hd : walk .charset before = .inside d := hd
    have hp : closes before = false := hp
    rcases walk_of_not_closes hp with hw | hw
    · rw [hw] at hd
      cases hd
      rfl
    · rw [hw] at hd
      cases hd
  refine ⟨hseen, fun hall => ?_, fun hms p q s hcut => hseen p q s hcut ?_⟩
  · rw [← Bool.or_eq_false_iff, ← hcloses, ← Bool.not_eq_true]
    intro hclosed
    obtain ⟨before, behind, rfl, hw⟩ := exists_of_closes hclosed
    obtain ⟨p, q, hcut⟩ := exists_cut_block hbody hw
    cases hall p q _ hcut
  · obtain ⟨before, hbefore, more, rfl⟩ := hcut.exists_before hbody
    rw [hbefore, ← Bool.not_eq_true]
    intro hclosed
    have hclosed : closes before = true := hclosed
    rw [closes_append hclosed, hms.1, hms.2] at hcloses
    cases hcloses

/-- A complement of an escaped bracket and more: every cut that can be scanned is seen inside. -/
theorem cut_in_class_escaped : classMembers "[^\\]é-z]".toList = some "^\\]é-z".toList ∧
    Cut "[^\\]é-z]" "[^\\]é" "-z]" ⟨["[^\\]é", "-z]"], [.charset]⟩ ∧
    ∀ p q s, Cut "[^\\]é-z]" p q s → s.contexts = [.charset] := by
  have h : classMembers "[^\\]é-z]".toList = some "^\\]é-z".toList := by decide +kernel
  exact ⟨h, ⟨rfl, by decide, by decide, by decide +kernel⟩, (cut_in_class h).2.2 ⟨rfl, rfl⟩⟩

/-- A class in the class: a hole behind its bracket is taken to stand in the body. -/
theorem not_cut_in_class : ¬∀ (source : String) (ms : List Char), classMembers source.toList = some ms →
    ∀ p q s, Cut source p q s → s.contexts = [.charset] := by
  intro h
  have hcut : Cut "[[a]b]" "[[a]" "b]" ⟨["[[a]", "b]"], [.block]⟩ :=
    ⟨rfl, by decide, by decide, by decide +kernel⟩
  cases h "[[a]b]" "[a]b".toList (by decide +kernel) _ _ _ hcut

end Packrat.Splice
