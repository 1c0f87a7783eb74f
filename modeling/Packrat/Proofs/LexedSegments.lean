import Packrat.Proofs.ScannerLexer
/-!
# LexedSegments — what the lexer did to a segment

The tokens of a segment as a derivation: at each byte a lexeme is dropped or kept, until the text ends (`Lexed`).  It
holds exactly of what the lexer gives (`lexFrom_eq_ok_iff`), so a property of a segment is an induction over its lexemes
with nothing said about fuel, errors or the size of the segment.
-/
namespace Packrat.Lexer

/-- **The text from a byte on is lexed** to the entries: its lexemes, one behind the other, without those dropped. -/
inductive Lexed (tokens : List String) (segment : Nat) : Nat → List Char → List Entry → Prop where
  | nil {start} : Lexed tokens segment start [] []
  | dropped {start cs text rest es} (h : lexeme? tokens cs = some ⟨text, true, rest⟩)
      (hrest : Lexed tokens segment (start + Text.byteLength text) rest es) : Lexed tokens segment start cs es
  | kept {start cs text rest es} (h : lexeme? tokens cs = some ⟨text, false, rest⟩)
      (hrest : Lexed tokens segment (start + Text.byteLength text) rest es) :
      Lexed tokens segment start cs
        (.token ⟨String.ofList text, ⟨segment, start, start + Text.byteLength text⟩⟩ :: es)

variable {tokens : List String} {segment size start : Nat} {cs text rest : List Char} {es : List Entry}

theorem lexFrom_of_dropped (h : lexeme? tokens cs = some ⟨text, true, rest⟩) :
    lexFrom tokens segment size start cs = lexFrom tokens segment size (start + Text.byteLength text) rest := by
  rw [lexFrom_of_some h]
  dsimp only
  cases lexFrom tokens segment size (start + Text.byteLength text) rest <;> rfl

theorem lexFrom_of_kept (h : lexeme? tokens cs = some ⟨text, false, rest⟩) : lexFrom tokens segment size start cs =
    (lexFrom tokens segment size (start + Text.byteLength text) rest).map
      (.token ⟨String.ofList text, ⟨segment, start, start + Text.byteLength text⟩⟩ :: ·) :=
  lexFrom_of_some h segment size start

theorem Lexed.lexFrom_eq (h : Lexed tokens segment start cs es) : lexFrom tokens segment size start cs = .ok es := by
  induction h with
  | nil =>
    rw [lexFrom]
    rfl
  | dropped h _ ih => rw [lexFrom_of_dropped h, ih]
  | kept h _ ih =>
    rw [lexFrom_of_kept h, ih]
    rfl

theorem lexed_of_lexFrom (h : lexFrom tokens segment size start cs = .ok es) : Lexed tokens segment start cs es := by
  induction hn : cs.length using Nat.strong_induction_on generalizing start cs es with
  | _ n ih =>
    by_cases hcs : cs = []
    · subst hcs
      rw [lexFrom] at h
      cases h
      exact .nil
    · cases hlex : lexeme? tokens cs with
      | none =>
        rw [lexFrom_of_none hcs hlex] at h
        cases h
      | some taken =>
        obtain ⟨text, drop, rest⟩ := taken
        have hlt : rest.length < n := hn ▸ length_rest_lt hlex
        cases drop with
        | true =>
          rw [lexFrom_of_dropped hlex] at h
          exact .dropped hlex (ih _ hlt h rfl)
        | false =>
          rw [lexFrom_of_kept hlex] at h
          cases hrest : lexFrom tokens segment size (start + Text.byteLength text) rest with
          | error e =>
            rw [hrest] at h
            cases h
          | ok more =>
            rw [hrest] at h
            cases h
            exact .kept hlex (ih _ hlt hrest rfl)

theorem lexSegments_cons_eq_ok_iff {index : Nat} {first next : String} {more : List String} :
    lexSegments tokens index first (next :: more) = .ok es ↔
      ∃ es₁ es₂, Lexed tokens index 0 first.toList es₁ ∧ lexSegments tokens (index + 1) next more = .ok es₂ ∧
        es = es₁ ++ .hole index :: es₂ := by
  rw [lexSegments, Except.bind_eq_ok]
  constructor
  · rintro ⟨es₁, h₁, h⟩
    obtain ⟨es₂, h₂, h⟩ := Except.bind_eq_ok.1 h
    cases h
    exact ⟨es₁, es₂, lexed_of_lexFrom h₁, h₂, rfl⟩
  · rintro ⟨es₁, es₂, h₁, h₂, rfl⟩
    exact ⟨es₁, h₁.lexFrom_eq, Except.bind_eq_ok.2 ⟨es₂, h₂, rfl⟩⟩

theorem ne_nil_of_lexeme? {taken : Scanner.Taken} (h : lexeme? tokens cs = some taken) : cs ≠ [] := by
  rintro rfl
  have hsplit := isSplit_lexeme? h
  exact hsplit.1 (List.append_eq_nil_iff.1 hsplit.2).1

theorem Lexed.eq_nil (h : Lexed tokens segment start [] es) : es = [] := by
  cases h with
  | nil => rfl
  | dropped h _ | kept h _ => exact absurd rfl (ne_nil_of_lexeme? h)

/-! ## Places -/

def PlacedIn (tokens : List String) (segment start : Nat) (cs : List Char) (t : Token) : Prop :=
  ∃ before rest tail, cs = before ++ rest ∧ lexeme? tokens rest = some ⟨t.text.toList, false, tail⟩ ∧
    t.pos = ⟨segment, start + Text.byteLength before, start + Text.byteLength before + Text.byteLength t.text.toList⟩

theorem PlacedIn.behind {drop : Bool} {t : Token}
    (h : PlacedIn tokens segment (start + Text.byteLength text) rest t)
    (hlex : lexeme? tokens cs = some ⟨text, drop, rest⟩) : PlacedIn tokens segment start cs t := by
  obtain ⟨before, rest, tail, rfl, hlex', hpos⟩ := h
  have happ : text ++ (before ++ rest) = cs := (isSplit_lexeme? hlex).2
  refine ⟨text ++ before, rest, tail, ?_, hlex', ?_⟩
  · rw [List.append_assoc, happ]
  · rw [hpos, Text.byteLength_append, Nat.add_assoc start]

/-- **Every token of a segment is the lexeme at its place.** -/
theorem Lexed.placedIn (h : Lexed tokens segment start cs es) {t : Token} (ht : .token t ∈ es) :
    PlacedIn tokens segment start cs t := by
  induction h with
  | nil => cases ht
  | dropped hlex _ ih => exact (ih ht).behind hlex
  | @kept start cs text rest es hlex _ ih =>
    rcases List.mem_cons.1 ht with he | ht
    · cases he
      refine ⟨[], cs, rest, rfl, ?_, ?_⟩
      · rw [String.toList_ofList]
        exact hlex
      · rw [String.toList_ofList]
        rfl
    · exact (ih ht).behind hlex

theorem placedIn_of_lexSegments {t : Token} : ∀ {segments : List String} {first : String} {index : Nat}
    {es : List Entry}, lexSegments tokens index first segments = .ok es → .token t ∈ es →
      ∃ i segment, (first :: segments)[i]? = some segment ∧ PlacedIn tokens (index + i) 0 segment.toList t
  | [], first, index, es, h, ht => ⟨0, first, rfl, (lexed_of_lexFrom h).placedIn ht⟩
  | next :: more, first, index, es, h, ht => by
    obtain ⟨es₁, es₂, h₁, h₂, rfl⟩ := lexSegments_cons_eq_ok_iff.1 h
    rcases List.mem_append.1 ht with ht | ht
    · exact ⟨0, first, rfl, h₁.placedIn ht⟩
    · rcases List.mem_cons.1 ht with he | ht
      · cases he
      · obtain ⟨i, segment, hsegment, hplaced⟩ := placedIn_of_lexSegments h₂ ht
        refine ⟨i + 1, segment, hsegment, ?_⟩
        rw [Nat.add_assoc, Nat.add_comm 1 i] at hplaced
        exact hplaced

end Packrat.Lexer
