import Packrat.Proofs.ContextWalk
import Packrat.Proofs.ReadSource
/-!
# HoleContexts — a filled hole stands where it was recorded

The contexts of holes are known from the parts alone.  They are those of the source with its holes filled
(`walk_filled`), because a filler leaves a walk where it finds it: text in the body, in a class and in a count does so
whatever it holds, and so does a pattern whose own brackets the walk can follow (`exists_walk_written`).  A hole behind
a backslash is the exception.  The digits written there end the escape, while the recorded contexts leave that to the
first character of the part behind, so the two agree again only if that character is an ordinary one.  Main statement:
`scan_upTo`.
-/
namespace Packrat.Splice

open Context

variable {c d : Context} {f : Filler} {part next : List Char} {parts : List (List Char)} {contexts : List Context}
  {fillers : List Filler} {k index : Nat}

/-! ## What is written in a hole -/

theorem walk_escape (text : List Char) : walk .block (Pattern.escape text) = .inside .block := by
  induction text with
  | nil => rfl
  | cons x text ih =>
    change walk .block ((if Pattern.isMeta x then ['\\', x] else [x]) ++ Pattern.escape text) = _
    by_cases hx : Pattern.isMeta x
    · rw [if_pos hx]
      exact ih
    · rw [if_neg hx, List.singleton_append, walk_block_cons, ih]
      simp only [Pattern.isMeta, List.contains_iff_mem, List.mem_cons, not_or] at hx
      simp [hx]

theorem walk_escapeMembers (text : List Char) : walk .charset (Pattern.escapeMembers text) = .inside .charset := by
  induction text with
  | nil => rfl
  | cons x text ih =>
    change walk .charset ((if Pattern.isClassMeta x then ['\\', x] else [x]) ++ Pattern.escapeMembers text) = _
    by_cases hx : Pattern.isClassMeta x
    · rw [if_pos hx]
      exact ih
    · rw [if_neg hx, List.singleton_append, walk_charset_cons, ih]
      simp only [Pattern.isClassMeta, List.contains_iff_mem, List.mem_cons, not_or] at hx
      simp [hx]

theorem walk_digits_block {ds : List Char} (h : ∀ x ∈ ds, x.isDigit = true) : walk .block ds = .inside .block := by
  induction ds with
  | nil => rfl
  | cons x ds ih =>
    rw [walk_block_cons, ih fun y hy => h y (List.mem_cons_of_mem _ hy)]
    intro hx
    have hd := h x List.mem_cons_self
    simp only [List.mem_cons, List.not_mem_nil, or_false] at hx
    rcases hx with rfl | rfl | rfl <;> cases hd

theorem walk_digits_count {ds : List Char} (h : ∀ x ∈ ds, x.isDigit = true) : walk .count ds = .inside .count := by
  induction ds with
  | nil => rfl
  | cons x ds ih =>
    rw [walk_count_cons, ih fun y hy => h y (List.mem_cons_of_mem _ hy)]
    rintro rfl
    cases h '}' List.mem_cons_self

theorem written_number (hc : c = .backslash ∨ c = .count) (f : Filler) :
    written c f ≠ [] ∧ ∀ x ∈ written c f, x.isDigit = true := by
  rcases hc with rfl | rfl <;> cases f with
  | text s => exact ⟨Nat.toDigits_ne_nil, fun x hx => Nat.isDigit_of_mem_toDigits (by decide) (by decide) hx⟩
  | pattern p => exact ⟨List.cons_ne_nil _ _, fun x hx => by rw [List.mem_singleton.1 hx]; rfl⟩

/-! ## Classes in classes -/

def nests : List Char → Bool
  | '\\' :: _ :: cs => nests cs
  | '[' :: _ => true
  | _ :: cs => nests cs
  | [] => false

theorem walk_membersFrom {first : Bool} {cs ms : List Char} (h : membersFrom first 0 cs = some ms)
    (hn : nests ms = false) : walk .charset ms = .inside .charset := by
  generalize hdepth : 0 = depth at h
  fun_induction membersFrom first depth cs generalizing ms with
  | case1 | case2 => cases h
  | case3 first depth x cs ih =>
    obtain ⟨ms, hms, rfl⟩ := Option.map_eq_some_iff.1 h
    change walk .charset ms = _
    change nests ms = false at hn
    exact ih hn hdepth hms
  | case4 first depth cs ih =>
    obtain ⟨ms, -, rfl⟩ := Option.map_eq_some_iff.1 h
    cases hn
  | case5 first depth cs hpos => omega
  | case6 depth cs hpos ih =>
    obtain ⟨ms, hms, rfl⟩ := Option.map_eq_some_iff.1 h
    change walk .charset ms = _
    change nests ms = false at hn
    exact ih hn rfl hms
  | case7 =>
    cases h
    rfl
  | case8 => cases h
  | case9 first depth x cs hlone hpair hopen hclose ih =>
    obtain ⟨ms, hms, rfl⟩ := Option.map_eq_some_iff.1 h
    have hx := ne_backslash hpair hlone
    rw [nests.eq_3 x ms (fun y rest he _ => hx he) hopen] at hn
    rw [walk_charset_cons, ih hn hdepth hms]
    simp only [List.mem_cons, List.not_mem_nil, or_false, not_or]
    exact ⟨hx, hclose⟩

theorem walk_classMembers {cs ms : List Char} (h : classMembers cs = some ms) (hn : nests ms = false) :
    walk .charset ms = .inside .charset := by
  unfold classMembers at h
  split at h
  · obtain ⟨ms, hms, rfl⟩ := Option.map_eq_some_iff.1 h
    change walk .charset ms = _
    exact walk_membersFrom hms hn
  · exact walk_membersFrom h hn
  · cases h

/-! ## Fillers -/

/-- **A filler that keeps to the recorded contexts**, `next` being the part behind its hole: behind a backslash that
part begins with a character that opens nothing; a pattern in the body ends in the body when it is scanned by itself;
and a class spliced into a class has no class in it. -/
def Filler.Settles (f : Filler) (c : Context) (next : List Char) : Prop :=
  match c, f with
  | .backslash, _ => ∃ x rest, next = x :: rest ∧ x ∉ ['\\', '[', '{']
  | .block, .pattern p => Context.block.scan p.source.toList = .ok .block
  | .charset, .pattern p => ∀ ms, classMembers p.source.toList = some ms → nests ms = false
  | .block, .text _ | .charset, .text _ | .count, _ => True

/-- A class in a class, after which a brace is still a member: the walk takes the inner bracket for the end. -/
example : Context.block.scan "[[a]\x7b]".toList = .ok .count ∧ (Pattern.compile "[[a]\x7b]").isSome := by
  decide +kernel

theorem walk_written_block {body : List Char} (h : walk .block body = .inside .block) :
    walk .block ('(' :: '?' :: ':' :: body ++ [')']) = .inside .block := by
  change walk .block (body ++ [')']) = _
  rw [walk_append h]
  rfl

/-- **A filler leaves a walk where it finds it**, or else the part behind it makes up for that. -/
theorem exists_walk_written (h : f.Settles c next) :
    ∃ d, c.walk (written c f) = .inside d ∧ d.walk next = c.walk next := by
  cases c with
  | block =>
    refine ⟨.block, ?_, rfl⟩
    cases f with
    | text s => exact walk_written_block (walk_escape s.toList)
    | pattern p => exact walk_written_block (scan_eq_ok_iff.1 h)
  | charset =>
    refine ⟨.charset, ?_, rfl⟩
    cases f with
    | text s => exact walk_escapeMembers s.toList
    | pattern p =>
      rw [written]
      cases hm : classMembers p.source.toList with
      | none => exact walk_escapeMembers p.source.toList
      | some ms => exact walk_classMembers hm (h ms hm)
  | count => exact ⟨.count, walk_digits_count (written_number (Or.inr rfl) f).2, rfl⟩
  | backslash =>
    -- the first digit ends the escape, and the others stand in the body
    obtain ⟨hne, hdigits⟩ := written_number (Or.inl rfl) f
    obtain ⟨x, rest, rfl, hx⟩ := h
    refine ⟨.block, ?_, walk_block_cons hx rest⟩
    cases hw : written .backslash f with
    | nil => exact absurd hw hne
    | cons y ds =>
      rw [hw] at hdigits
      exact walk_digits_block fun z hz => hdigits z (List.mem_cons_of_mem _ hz)

/-! ## The source up to a hole -/

theorem of_contextsFrom (h : contextsFrom index c (part :: parts) = .ok contexts) (hc : contexts[k]? = some d) :
    ∃ e next more others, parts = next :: more ∧ contexts = e :: others ∧ c.walk part = .inside e ∧
      contextsFrom (index + 1) e parts = .ok others := by
  rw [contextsFrom] at h
  split at h
  · cases h
  · rename_i e hscan
    cases parts with
    | nil =>
      cases h
      cases hc
    | cons next more =>
      dsimp only at h
      cases hmore : contextsFrom (index + 1) e (next :: more) with
      | error u => rw [hmore] at h; cases h
      | ok others =>
        rw [hmore] at h
        cases h
        exact ⟨e, next, more, others, rfl, rfl, scan_eq_ok_iff.1 hscan, hmore⟩

/-- **A walk over the parts and the fillers between them ends where the walk over the parts alone does**, by induction
on the holes before.  The walk may come in another context, as long as that makes no difference to the first part. -/
theorem walk_filled : ∀ {k index : Nat} {c d e : Context} {part : List Char} {parts : List (List Char)}
    {contexts : List Context} {fillers : List Filler}, contextsFrom index c (part :: parts) = .ok contexts →
      e.walk part = c.walk part → k ≤ fillers.length → contexts[k]? = some d →
      (∀ i < k, ∀ c f next, contexts[i]? = some c → fillers[i]? = some f → parts[i]? = some next →
        Filler.Settles f c next) →
      e.walk (part ++ filled (contexts.take k) (fillers.take k) (parts.take k)) = .inside d
  | 0, index, c, d, e, part, parts, contexts, fillers, h, he, _, hd, _ => by
    obtain ⟨d', next, more, others, rfl, rfl, hw, -⟩ := of_contextsFrom h hd
    cases hd
    change e.walk (part ++ []) = _
    rw [List.append_nil, he, hw]
  | k + 1, index, c, d, e, part, parts, contexts, f :: fillers, h, he, hlen, hd, hs => by
    obtain ⟨d', next, more, others, rfl, rfl, hw, hmore⟩ := of_contextsFrom h hd
    obtain ⟨b, hb, hnext⟩ := exists_walk_written (hs 0 (Nat.succ_pos k) d' f next rfl rfl rfl)
    rw [List.take_succ_cons, List.take_succ_cons, List.take_succ_cons, filled, walk_append (he.trans hw),
      List.append_assoc, walk_append hb]
    exact walk_filled hmore hnext (Nat.le_of_succ_le_succ hlen) hd
      fun i hi c f next hc hf hp => hs (i + 1) (Nat.succ_lt_succ hi) c f next hc hf hp

theorem filled_eq_append : ∀ {k : Nat} {parts : List (List Char)} {contexts : List Context} {fillers : List Filler},
    contexts[k]? = some c → fillers[k]? = some f → parts[k]? = some next → ∃ after,
      filled contexts fillers parts =
        filled (contexts.take k) (fillers.take k) (parts.take k) ++ (written c f ++ after)
  | 0, _ :: parts, _ :: contexts, _ :: fillers, hc, hf, hn => by
    cases hc
    cases hf
    cases hn
    exact ⟨next ++ filled contexts fillers parts, List.append_assoc _ _ _⟩
  | k + 1, _ :: parts, _ :: contexts, _ :: fillers, hc, hf, hn => by
    have hc : contexts[k]? = some c := hc
    have hf : fillers[k]? = some f := hf
    have hn : parts[k]? = some next := hn
    obtain ⟨after, h⟩ := filled_eq_append hc hf hn
    refine ⟨after, ?_⟩
    rw [List.take_succ_cons, List.take_succ_cons, List.take_succ_cons, filled, filled, h]
    simp only [List.append_assoc]

theorem exists_part : ∀ {k index : Nat} {part : List Char} {parts : List (List Char)} {contexts : List Context}
    {c : Context}, contextsFrom index c (part :: parts) = .ok contexts → contexts[k]? = some d →
      ∃ next, parts[k]? = some next
  | 0, _, _, _, _, _, h, hd => by
    obtain ⟨_, next, more, others, rfl, rfl, -, -⟩ := of_contextsFrom h hd
    exact ⟨next, rfl⟩
  | k + 1, _, _, _, _, _, h, hd => by
    obtain ⟨_, next, more, others, rfl, rfl, -, hmore⟩ := of_contextsFrom h hd
    exact exists_part (k := k) hmore hd

/-- **The splice that ends with the part before a hole.** -/
def upTo (s : Splice) (k : Nat) : Splice := ⟨s.parts.take (k + 1), s.contexts.take k⟩

/-- **A filled hole stands in the context recorded for it**: the source that comes before what is written in it, scanned
from scratch, ends in that context, where the fillers before keep to the recorded contexts. -/
theorem scan_upTo (parts : List String) (s : Splice) (hs : analyse parts = .ok s) (fillers : List Filler)
    (hlen : fillers.length = s.holeCount) (k : Nat) (c : Context) (f : Filler) (hc : s.contexts[k]? = some c)
    (hf : fillers[k]? = some f) (hsettles : ∀ i < k, ∀ c f next, s.contexts[i]? = some c → fillers[i]? = some f →
      parts[i + 1]? = some next → Filler.Settles f c next.toList) :
    ∃ before after, (s.upTo k).sourceChars (fillers.take k) = .ok before ∧
      s.sourceChars fillers = .ok (before ++ written c f ++ after) ∧ Context.block.scan before = .ok c := by
  unfold analyse at hs
  split at hs
  · rename_i contexts hcontexts
    cases hs
    cases parts with
    | nil =>
      cases hcontexts
      cases hc
    | cons first parts =>
      dsimp only at hc hsettles
      have hlen : fillers.length = contexts.length := hlen
      have hk : k < contexts.length := (List.getElem?_eq_some_iff.1 hc).1
      obtain ⟨next, hnext⟩ := exists_part hcontexts hc
      obtain ⟨after, hsource⟩ := filled_eq_append hc hf hnext
      refine ⟨first.toList ++ filled (contexts.take k) (fillers.take k) ((parts.map String.toList).take k), after,
        ?_, ?_, ?_⟩
      · rw [upTo, List.take_succ_cons, Pattern.sourceChars_eq (by rw [List.length_take, List.length_take, hlen]),
          List.map_take]
      · rw [Pattern.sourceChars_eq hlen, hsource]
        simp only [List.append_assoc]
      · refine scan_eq_ok_iff.2 (walk_filled hcontexts rfl (by omega) hc fun i hi c f next hc hf hp => ?_)
        obtain ⟨p, hpart, rfl⟩ := Option.map_eq_some_iff.1 (List.getElem?_map.symm.trans hp)
        exact hsettles i hi c f p hc hf hpart
  · cases hs

/-- A hole in each context, filled with text or with a class, and one more behind them. -/
theorem scan_upTo_all_contexts : ∃ p s, Pattern.compile "[^a-z]" = some p ∧
    analyse ["(", "[x", "]\x7b", "\x7d\\", "d", ")"] = .ok s ∧
    s.contexts = [.block, .charset, .count, .backslash, .block] ∧
    ∃ before after, (s.upTo 4).sourceChars [.pattern p, .pattern p, .text "2", .text "1"] = .ok before ∧
      s.sourceChars [.pattern p, .pattern p, .text "2", .text "1", .text "]"] =
        .ok (before ++ written .block (.text "]") ++ after) ∧ Context.block.scan before = .ok .block := by
  obtain ⟨p, hp⟩ : ∃ p, Pattern.compile "[^a-z]" = some p := Option.isSome_iff_exists.1 (by decide +kernel)
  have hsource := Pattern.source_of_compile hp
  refine ⟨p, ⟨["(", "[x", "]\x7b", "\x7d\\", "d", ")"], [.block, .charset, .count, .backslash, .block]⟩, hp,
    by decide +kernel, rfl, ?_⟩
  refine scan_upTo ["(", "[x", "]\x7b", "\x7d\\", "d", ")"] _ (by decide +kernel)
    [.pattern p, .pattern p, .text "2", .text "1", .text "]"] rfl 4 .block (.text "]") rfl rfl ?_
  intro i hi c f next hc hf hnext
  match i, hi with
  | 0, _ =>
    cases hc
    cases hf
    change Context.block.scan p.source.toList = .ok .block
    rw [hsource]
    decide +kernel
  | 1, _ =>
    cases hc
    cases hf
    change ∀ ms, classMembers p.source.toList = some ms → nests ms = false
    rw [hsource]
    intro ms hms
    cases hms
    rfl
  | 2, _ =>
    cases hc
    trivial
  | 3, _ =>
    cases hc
    cases hnext
    exact ⟨'d', [], rfl, by decide⟩

/-- A backslash, a hole and a brace: the recorded context is the body, but the digit written in the hole ends the escape,
and the brace opens a count. -/
theorem not_scan_upTo : ¬∀ (parts : List String) (s : Splice), analyse parts = .ok s → ∀ (fillers : List Filler),
    fillers.length = s.holeCount → ∀ (k : Nat) (c : Context), s.contexts[k]? = some c →
      ∃ before, (s.upTo k).sourceChars (fillers.take k) = .ok before ∧ Context.block.scan before = .ok c := by
  intro h
  obtain ⟨before, hbefore, hscan⟩ := h ["\\", "\x7b", ""] ⟨["\\", "\x7b", ""], [.backslash, .block]⟩ (by decide +kernel)
    [.text "1", .text "2"] rfl 1 .block rfl
  have hsource : before = ['\\', '1', '{'] := (Except.ok.inj hbefore).symm.trans (by decide +kernel)
  rw [hsource, scan_eq] at hscan
  cases hscan

end Packrat.Splice
