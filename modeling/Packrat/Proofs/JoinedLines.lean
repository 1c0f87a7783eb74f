import Packrat.Grammar.Reader
import Packrat.Proofs.Seams
/-!
# JoinedLines — texts with a line feed between them

A text that scans may be followed by a line feed and any other text: the lexer goes through the first as if it stood
alone, passes the line feed as a blank or as the end of a comment, and then goes through the second
(`Lexed.append_lineFeed`).  There it finds what it would find from the start of a text, at places that are shifted by
what stands before (`lexFrom_shift`).  Main statement: `scanText_joined`.
-/
namespace Packrat

/-! ## Places further on in a text -/

def Pos.shift (n : Nat) (p : Pos) : Pos := { p with start := p.start + n, after := p.after + n }

def Entry.shift (n : Nat) : Entry → Entry
  | .token t => .token { t with pos := t.pos.shift n }
  | .hole i => .hole i

def LexError.shift (n : Nat) : LexError → LexError
  | .lexical remainder pos => .lexical remainder (pos.shift n)
  | .misaligned token expected => .misaligned { token with pos := token.pos.shift n } (expected + n)
  | .emptyToken pos => .emptyToken (pos.shift n)
  | .tokenPattern fault => .tokenPattern fault

namespace Lexer

variable {tokens : List String} {segment size start : Nat} {cs text rest : List Char} {es : List Entry}

theorem lexFrom_shift (n : Nat) : lexFrom tokens segment (size + n) (start + n) cs =
    ((lexFrom tokens segment size start cs).map (List.map (Entry.shift n))).mapError (LexError.shift n) := by
  induction hn : cs.length using Nat.strong_induction_on generalizing start cs with
  | _ m ih =>
    by_cases hcs : cs = []
    · subst hcs
      rw [lexFrom, lexFrom]
      rfl
    · cases hlex : lexeme? tokens cs with
      | none =>
        rw [lexFrom_of_none hcs hlex, lexFrom_of_none hcs hlex]
        rfl
      | some taken =>
        rw [lexFrom_of_some hlex, lexFrom_of_some hlex, Nat.add_right_comm start n,
          ih _ (hn ▸ length_rest_lt hlex) rfl]
        cases lexFrom tokens segment size (start + Text.byteLength taken.text) taken.rest with
        | error e => rfl
        | ok es =>
          dsimp only [Except.map, Except.mapError]
          split <;> rfl

/-! ## Comments at the seam -/

/-- **A comment goes on to the line feed** behind its text, if it is not closed before. -/
theorem comment?_append_lineFeed (h : comment? cs = some (text, rest)) (more : List Char) :
    comment? (cs ++ '\n' :: more) = some (text, rest ++ '\n' :: more) ∨
    rest = [] ∧ comment? (cs ++ '\n' :: more) = some (cs ++ ['\n'], more) := by
  obtain ⟨cs, rfl⟩ : ∃ line, cs = '#' :: line := by
    unfold comment? at h
    split at h
    · exact ⟨_, rfl⟩
    · cases h
  obtain ⟨htake, hdrop⟩ := takeWhile_append_stop (p := (· != '\n')) (c := '\n') rfl cs more
  rw [List.cons_append, comment?, htake, hdrop]
  rw [comment?] at h
  cases hline : cs.dropWhile (· != '\n') with
  | nil =>
    have hall := List.takeWhile_append_dropWhile (p := (· != '\n')) (l := cs)
    rw [hline, List.append_nil] at hall
    rw [hline] at h
    cases h
    right
    rw [hall]
    exact ⟨rfl, rfl⟩
  | cons c line =>
    rw [hline] at h
    cases h
    left
    rfl

/-! ## Joined texts -/

theorem map_nil_append {ε α : Type} (x : Except ε (List α)) : x.map ([] ++ ·) = x := by
  cases x <;> rfl

theorem map_cons_append {ε α : Type} (a : α) (as : List α) (x : Except ε (List α)) :
    (x.map (as ++ ·)).map (a :: ·) = x.map (a :: as ++ ·) := by
  cases x <;> rfl

theorem end_of_lexeme? {drop : Bool} (h : lexeme? tokens cs = some ⟨text, drop, rest⟩) (start : Nat) :
    start + Text.byteLength text + Text.byteLength rest = start + Text.byteLength cs := by
  have happ : text ++ rest = cs := (isSplit_lexeme? h).2
  rw [← happ, Text.byteLength_append, Nat.add_assoc]

/-- **A text that is lexed is lexed the same before a line feed**, and behind that the lexer goes on as from a start. -/
theorem Lexed.append_lineFeed (ht : Tight tokens) (h : Lexed tokens segment start cs es) (size : Nat)
    (more : List Char) : lexFrom tokens segment size start (cs ++ '\n' :: more) =
      (lexFrom tokens segment size (start + Text.byteLength cs + 1) more).map (es ++ ·) := by
  have hblank : Text.isBlank '\n' = true := by decide
  induction h with
  | @nil start =>
    rw [map_nil_append]
    have hblanks : ∀ c ∈ ['\n'], Text.isBlank c = true := List.forall_mem_singleton.2 hblank
    exact lexFrom_blanks_append hblanks start more
  | @kept start cs text rest es hlex _ ih =>
    rw [lexFrom_of_kept (lexeme?_append_blank ht hblank hlex), ih, end_of_lexeme? hlex]
    exact map_cons_append _ _ _
  | @dropped start cs text rest es hlex hrest ih =>
    rcases lexeme?_eq_dropped_iff.1 hlex with hblanks | ⟨hblanks, hword, hcomment⟩
    · have happ : text ++ rest = cs := (isSplit_run? hblanks).2
      have hall : ∀ c ∈ text, Text.isBlank c = true := fun c hc => of_mem_run? hblanks hc
      rw [← happ, List.append_assoc, lexFrom_blanks_append hall, ih, Text.byteLength_append, Nat.add_assoc start]
    · have hword' : word? tokens (cs ++ '\n' :: more) = none := by
        rw [word?_append ht hblank (isSome_string?_of_lexeme? ht hlex), hword]
        rfl
      have hblanks' : blanks? (cs ++ '\n' :: more) = none := by
        obtain ⟨c, cs, rfl⟩ := List.exists_cons_of_ne_nil (ne_nil_of_lexeme? hlex)
        exact run?_cons_eq_none_iff.2 (run?_cons_eq_none_iff.1 hblanks)
      rcases comment?_append_lineFeed hcomment more with hcomment' | ⟨rfl, hcomment'⟩
      · rw [lexFrom_of_dropped (lexeme?_eq_dropped_iff.2 (Or.inr ⟨hblanks', hword', hcomment'⟩)), ih,
          end_of_lexeme? hlex]
      · -- the line feed ends the comment, and nothing is left between the two
        rw [lexFrom_of_dropped (lexeme?_eq_dropped_iff.2 (Or.inr ⟨hblanks', hword', hcomment'⟩)), hrest.eq_nil,
          map_nil_append, Text.byteLength_append, ← Nat.add_assoc]
        rfl

end Lexer

namespace Scanner

variable {tokens : List String} {s : Scanner}

theorem scanText_of_ofTokens (hs : ofTokens tokens = .ok s) (text : String) : s.scanText text =
    (Lexer.lexFrom tokens 0 (Text.byteLength text.toList) 0 text.toList).map fun entries => ⟨entries, s.lexicon⟩ :=
  scan_of_ofTokens hs (.literal text)

/-- **Scanning respects line joining.**  Behind a text that scans and a line feed another text scans as it does alone:
if it does, its tokens follow those of the first, and if not, the same rest is named.  The places in it are those in the
whole. -/
theorem scanText_joined (hs : ofTokens tokens = .ok s) (ht : Lexer.Tight tokens) {a : String} {la : TokenList}
    (ha : s.scanText a = .ok la) (b : String) :
    ((∃ l, s.scanText (a ++ "\n" ++ b) = .ok l) ↔ ∃ l, s.scanText b = .ok l) ∧
    (∀ lb, s.scanText b = .ok lb → s.scanText (a ++ "\n" ++ b) =
      .ok ⟨la.entries ++ lb.entries.map (Entry.shift (Text.byteLength a.toList + 1)), s.lexicon⟩) ∧
    ∀ e, s.scanText b = .error e → ∃ remainder pos, e = .lexical remainder pos ∧
      s.scanText (a ++ "\n" ++ b) = .error (.lexical remainder (pos.shift (Text.byteLength a.toList + 1))) := by
  rw [scanText_of_ofTokens hs] at ha
  cases hla : Lexer.lexFrom tokens 0 (Text.byteLength a.toList) 0 a.toList with
  | error e =>
    rw [hla] at ha
    cases ha
  | ok es =>
    rw [hla] at ha
    cases ha
    have hlist : (a ++ "\n" ++ b).toList = a.toList ++ '\n' :: b.toList := by
      rw [String.toList_append, String.toList_append, List.append_assoc]
      rfl
    have hsize : Text.byteLength (a ++ "\n" ++ b).toList =
        Text.byteLength b.toList + (Text.byteLength a.toList + 1) := by
      rw [hlist, Text.byteLength_append, Text.byteLength_cons, show '\n'.utf8Size = 1 from rfl]
      omega
    have hjoined := (Lexer.lexed_of_lexFrom hla).append_lineFeed ht (Text.byteLength (a ++ "\n" ++ b).toList) b.toList
    rw [← hlist, Nat.add_assoc, hsize, Lexer.lexFrom_shift, ← hsize] at hjoined
    rw [scanText_of_ofTokens hs, scanText_of_ofTokens hs, hjoined]
    cases hb : Lexer.lexFrom tokens 0 (Text.byteLength b.toList) 0 b.toList with
    | ok es' =>
      refine ⟨⟨fun _ => ⟨_, rfl⟩, fun _ => ⟨_, rfl⟩⟩, fun lb hlb => ?_, fun e he => ?_⟩
      · cases hlb
        rfl
      · cases he
    | error e' =>
      refine ⟨⟨?_, ?_⟩, fun lb hlb => ?_, fun e he => ?_⟩
      · rintro ⟨l, hl⟩
        cases hl
      · rintro ⟨l, hl⟩
        cases hl
      · cases hlb
      · cases he
        obtain ⟨remainder, pos, rfl⟩ := Lexer.exists_of_lexFrom_error hb
        exact ⟨remainder, pos, rfl, rfl⟩

set_option maxRecDepth 10000 in
/-- A comment with a quote in it, for the scanner of the notation: what follows the line is scanned as it is, and the
quote behind it that is open is found at its place. -/
theorem scanText_joined_comment : ∃ s la lb, Grammar.notationScanner = .ok s ∧
    Lexer.Tight Grammar.notationTokens ∧ Lexer.Tight [] ∧
    s.scanText "a ::= b # \"c" = .ok la ∧ s.scanText " ** d" = .ok lb ∧
    s.scanText "a ::= b # \"c\n ** d" = .ok ⟨la.entries ++ lb.entries.map (Entry.shift 13), s.lexicon⟩ ∧
    s.scanText "d \"" = .error (.lexical "\"" ⟨0, 2, 3⟩) ∧
    s.scanText "a ::= b # \"c\nd \"" = .error (.lexical "\"" ⟨0, 15, 16⟩) := by
  have hok : (do
      let s ← Grammar.notationScanner
      let _ ← s.scanText "a ::= b # \"c"
      let _ ← s.scanText " ** d"
      return decide (s.scanText "d \"" = .error (.lexical "\"" ⟨0, 2, 3⟩))) = (.ok true : Except LexError Bool) := by
    decide +kernel
  obtain ⟨s, hs, hok⟩ := Except.bind_eq_ok.1 hok
  obtain ⟨la, ha, hok⟩ := Except.bind_eq_ok.1 hok
  obtain ⟨lb, hb, hok⟩ := Except.bind_eq_ok.1 hok
  have herror := of_decide_eq_true (Except.ok.inj hok)
  have htight : Lexer.Tight Grammar.notationTokens := by decide
  obtain ⟨-, hjoined, -⟩ := scanText_joined hs htight ha " ** d"
  obtain ⟨-, -, hfailed⟩ := scanText_joined hs htight ha "d \""
  obtain ⟨remainder, pos, he, hfailed⟩ := hfailed _ herror
  cases he
  exact ⟨s, la, lb, hs, htight, by decide, ha, hb, hjoined lb hb, herror, hfailed⟩

end Scanner

end Packrat
