import Packrat.Proofs.ByteOrder
import Packrat.Proofs.ScannerLexer
/-!
# DeclaredTokens — a scanner depends on the set of its tokens

A scanner is made from a list of words, in any order and with repetitions, and the empty word among them does not
count.  The others are divided into keywords and operators (`vocabularies_of_ofTokens`), each kept as a vocabulary: the
operators with the longest in bytes first and words of one length in the order of their bytes, so that none stands
before one that it is the head of.  Main statement: `ofTokens_canonical`.
-/
namespace Packrat

open Text (bytes)

theorem Text.longestFirst_iff {v w : String} : Text.longestFirst v w = true ↔
    (bytes w).length < (bytes v).length ∨ ((bytes v).length = (bytes w).length ∧ bytes v < bytes w) := by
  simp only [Text.longestFirst, Bool.or_eq_true, Bool.and_eq_true, decide_eq_true_eq, beq_iff_eq, Text.length_bytes,
    Text.bytes_lt_iff]

theorem Text.not_prefix_of_longestFirst {v w : String} (h : Text.longestFirst v w = true) : ¬v.toList <+: w.toList := by
  intro hprefix
  have hvw : v = w := eq_of_prefix_of_bytes hprefix (List.prefix_refl _) hprefix.length_le
    (utf8ByteSize_le_of_longestFirst h)
  rw [hvw, Text.strict_longestFirst.irrefl] at h
  cases h

namespace Scanner

/-- The declared tokens that count, those that a pattern accepts or those that it does not. -/
def declared (tokens : List String) (accepts : String → Bool) : List String :=
  (tokens.filter (!·.isEmpty)).filter accepts

variable {tokens tokens' : List String} {accepts : String → Bool} {s : Scanner}

theorem mem_declared {w : String} : w ∈ declared tokens accepts ↔ (w ∈ tokens ∧ w ≠ "") ∧ accepts w = true := by
  rw [declared, List.mem_filter, List.mem_filter, Bool.not_eq_true', String.isEmpty_eq_false_iff]

theorem mem_declared_congr (h : ∀ w, w ≠ "" → (w ∈ tokens' ↔ w ∈ tokens)) (w : String) :
    w ∈ declared tokens' accepts ↔ w ∈ declared tokens accepts := by
  rw [mem_declared, mem_declared]
  exact and_congr_left fun _ => and_congr_left fun hw => h w hw

/-- **The keywords and the operators of a scanner** are vocabularies of its declared tokens. -/
theorem vocabularies_of_ofTokens (h : ofTokens tokens = .ok s) :
    s.lexicon.keywords = Text.vocabulary Text.byteOrder (declared tokens s.lexicon.ident.accepts) ∧
    s.operators = Text.vocabulary Text.longestFirst (declared tokens (!s.lexicon.ident.accepts ·)) := by
  unfold ofTokens at h
  split at h
  · rename_i s' hbuild
    cases h
    obtain ⟨number, -, h⟩ := Except.bind_eq_ok.1 hbuild
    obtain ⟨string, -, h⟩ := Except.bind_eq_ok.1 h
    obtain ⟨ident, -, h⟩ := Except.bind_eq_ok.1 h
    obtain ⟨token, -, h⟩ := Except.bind_eq_ok.1 h
    cases h
    exact ⟨rfl, rfl⟩
  · cases h

theorem ofTokens_congr (h : ∀ w, w ≠ "" → (w ∈ tokens' ↔ w ∈ tokens)) : ofTokens tokens' = ofTokens tokens := by
  have hbuild : build tokens' = build tokens := by
    unfold build
    refine bind_congr fun number => bind_congr fun string => bind_congr fun ident => ?_
    have hkeywords : Text.vocabulary Text.byteOrder (declared tokens' ident.accepts) = _ :=
      Text.vocabulary_eq_of_mem_iff Text.strict_byteOrder (mem_declared_congr h)
    have hoperators : Text.vocabulary Text.longestFirst (declared tokens' (!ident.accepts ·)) = _ :=
      Text.vocabulary_eq_of_mem_iff Text.strict_longestFirst (mem_declared_congr h)
    rw [declared, declared] at hkeywords hoperators
    dsimp only
    rw [hkeywords, hoperators]
  rw [ofTokens, ofTokens, hbuild]

/-- **A scanner's vocabulary is canonical.**  Every list of words has a scanner.  Its keywords and operators are together
the words of the list but the empty one, each once: the keywords those that the pattern of identifiers matches in full,
the operators the others.  Of the operators the longest in bytes come first, those of one length ascend in the order of
their bytes, and none is the head of one behind it.  Another list with the same words, the empty one aside, has the same
scanner: the same keywords, the same operators and the same token pattern. -/
theorem ofTokens_canonical (tokens : List String) : ∃ s, ofTokens tokens = .ok s ∧
    FullMatch.ofSource TokenClass.ident.source = .ok s.lexicon.ident ∧
    (∀ w, w ∈ s.lexicon.keywords ↔ (w ∈ tokens ∧ w ≠ "") ∧ s.lexicon.ident.accepts w = true) ∧
    (∀ w, w ∈ s.operators ↔ (w ∈ tokens ∧ w ≠ "") ∧ s.lexicon.ident.accepts w = false) ∧
    (s.lexicon.keywords ++ s.operators).Nodup ∧
    s.operators.Pairwise (fun v w => (bytes w).length < (bytes v).length ∨
      ((bytes v).length = (bytes w).length ∧ bytes v < bytes w)) ∧
    s.operators.Pairwise (fun v w => ¬v.toList <+: w.toList) ∧
    ∀ tokens' : List String, (∀ w, w ≠ "" → (w ∈ tokens' ↔ w ∈ tokens)) → ofTokens tokens' = .ok s := by
  obtain ⟨s, hs, -⟩ := ofTokens_eq tokens
  obtain ⟨-, -, hident, -⟩ := lexicon_of_ofTokens hs
  obtain ⟨hkeywords, hoperators⟩ := vocabularies_of_ofTokens hs
  have hk : ∀ w, w ∈ s.lexicon.keywords ↔ (w ∈ tokens ∧ w ≠ "") ∧ s.lexicon.ident.accepts w = true := fun w => by
    rw [hkeywords, Text.mem_vocabulary Text.strict_byteOrder.total, mem_declared]
  have ho : ∀ w, w ∈ s.operators ↔ (w ∈ tokens ∧ w ≠ "") ∧ s.lexicon.ident.accepts w = false := fun w => by
    rw [hoperators, Text.mem_vocabulary Text.strict_longestFirst.total, mem_declared, Bool.not_eq_true']
  have horder : s.operators.Pairwise fun v w => Text.longestFirst v w = true := by
    rw [hoperators]
    exact Text.pairwise_vocabulary Text.strict_longestFirst _
  refine ⟨s, hs, hident, hk, ho, ?_, horder.imp Text.longestFirst_iff.1, horder.imp Text.not_prefix_of_longestFirst,
    fun tokens' h => (ofTokens_congr h).trans hs⟩
  refine List.nodup_append.2 ⟨?_, ?_, fun v hv w hw he => ?_⟩
  · rw [hkeywords]
    exact Text.nodup_vocabulary Text.strict_byteOrder _
  · rw [hoperators]
    exact Text.nodup_vocabulary Text.strict_longestFirst _
  · -- a word is accepted or not
    have haccepts := ((hk v).1 hv).2
    rw [he, ((ho w).1 hw).2] at haccepts
    cases haccepts

/-- The second of the operators has one character and as many bytes as the first. -/
example : (ofTokens ["<", "in", "é", "<=", "<", "", "in"]).map (fun s => (s.lexicon.keywords, s.operators)) =
    .ok (["in"], ["<=", "é", "<"]) := by decide +kernel

end Scanner

end Packrat
