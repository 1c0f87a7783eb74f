import Packrat.Proofs.FirstHit
import Packrat.Proofs.Lexer
import Packrat.Proofs.ReadSource
/-!
# TokenKinds — the expression of each kind of token takes what the lexer takes

For each kind of token the preferred hit of its expression splits a text as the function of the lexer does, though the
expression may have other hits.
-/
namespace Packrat

open Pattern Pattern.Expr

/-! ## Sets of characters -/

namespace Pattern

theorem mem_ranges (rs : List (Char × Char)) (c : Char) :
    (ranges rs).mem c = rs.any fun r => decide (r.1 ≤ c) && decide (c ≤ r.2) := by
  have h : ∀ (rs : List (Char × Char)) (s : CharSet), (rs.foldl (fun s r => .union s (.range r.1 r.2)) s).mem c =
      (s.mem c || rs.any fun r => decide (r.1 ≤ c) && decide (c ≤ r.2)) := by
    intro rs
    induction rs with
    | nil => exact fun s => (Bool.or_false _).symm
    | cons r rs ih =>
      intro s
      rw [List.foldl_cons, ih, List.any_cons, ← Bool.or_assoc]
      rfl
  exact h rs .empty

theorem mem_oneOf (cs : List Char) (c : Char) : (oneOf cs).mem c = cs.contains c := by
  rw [oneOf, mem_ranges, List.any_map, Bool.eq_iff_iff, List.any_eq_true, List.contains_iff_mem]
  constructor
  · rintro ⟨d, hd, h⟩
    have : c = d := (CharSet.mem_single d c).1 h
    rwa [this]
  · exact fun hc => ⟨c, hc, (CharSet.mem_single c c).2 rfl⟩

theorem mem_single_eq (c d : Char) : (CharSet.single c).mem d = (d == c) := by
  rw [Bool.eq_iff_iff, CharSet.mem_single, beq_iff_eq]

theorem mem_digit (c : Char) : (ranges [('0', '9')]).mem c = c.isDigit := by
  rw [mem_ranges, List.any_cons, List.any_nil, Bool.or_false]
  rfl

theorem mem_hexDigit (c : Char) : (ranges [('0', '9'), ('a', 'f'), ('A', 'F')]).mem c = Lexer.isHexDigit c := by
  rw [mem_ranges, Lexer.isHexDigit, ← mem_digit, mem_ranges]
  simp only [List.any_cons, List.any_nil, Bool.or_false, Bool.or_assoc]

theorem mem_identStart (c : Char) :
    (ranges [('a', 'z'), ('A', 'Z'), ('_', '_'), ('$', '$')]).mem c = Lexer.isIdentStart c := by
  have h_ : (decide ('_' ≤ c) && decide (c ≤ '_')) = (c == '_') := mem_single_eq '_' c
  have hd : (decide ('$' ≤ c) && decide (c ≤ '$')) = (c == '$') := mem_single_eq '$' c
  have ha : c.isAlpha = ((decide ('A' ≤ c) && decide (c ≤ 'Z')) || (decide ('a' ≤ c) && decide (c ≤ 'z'))) :=
    congrArg (· || c.isLower) (Bool.decide_and ('A' ≤ c) (c ≤ 'Z'))
  rw [mem_ranges, Lexer.isIdentStart, ha]
  simp only [List.any_cons, List.any_nil, Bool.or_false, h_, hd]
  rw [← Bool.or_assoc, ← Bool.or_assoc, Bool.or_comm (decide ('a' ≤ c) && decide (c ≤ 'z'))]

theorem mem_identChar (c : Char) :
    (ranges [('0', '9'), ('a', 'z'), ('A', 'Z'), ('_', '_'), ('$', '$')]).mem c = Lexer.isIdentChar c := by
  rw [Lexer.isIdentChar, ← mem_identStart, ← mem_digit, mem_ranges, mem_ranges, mem_ranges, List.any_cons, Bool.or_comm]
  exact congrArg _ (Bool.or_false _).symm

theorem toNat_lt_of_isIdentChar {c : Char} (h : Lexer.isIdentChar c = true) : c.toNat < 128 := by
  rw [← mem_identChar, mem_ranges] at h
  obtain ⟨r, hr, hc⟩ := List.any_eq_true.1 h
  have hmax : ∀ r ∈ [('0', '9'), ('a', 'z'), ('A', 'Z'), ('_', '_'), ('$', '$')], r.2.toNat < 128 := by decide
  rw [Bool.and_eq_true, decide_eq_true_eq, decide_eq_true_eq] at hc
  exact Nat.lt_of_le_of_lt (UInt32.le_iff_toNat_le.1 hc.2) (hmax r hr)

/-! ## Splits -/

theorem andThen_star_one (p : Char → Bool) (cs : List Char) :
    (Splitter.one p).andThen (Splitter.one p).star cs = Lexer.run? p cs := by
  rw [Splitter.andThen, Lexer.run?]
  cases cs with
  | nil => rfl
  | cons c cs =>
    rw [Splitter.one]
    by_cases hp : p c
    · rw [if_pos hp, Option.bind_some, Splitter.star_one, List.takeWhile_cons_of_pos hp, List.dropWhile_cons_of_pos hp]
      rfl
    · rw [if_neg hp, List.takeWhile_cons_of_neg hp]
      rfl

variable {set : CharSet} {p : Char → Bool}

theorem takesOnly_set (h : ∀ c, set.mem c = p c) : (Expr.one set).TakesOnly (.one p) := by
  rw [← funext h]
  exact takesOnly_one set

theorem takes_run (h : ∀ c, set.mem c = p c) : (Expr.times 1 none true (.one set)).Takes (Lexer.run? p) :=
  (takes_plus (takesOnly_set h) (Splitter.shortens_one p)).congr (andThen_star_one p)

theorem takes_digits : digitsExpr.Takes Lexer.digits? := takes_run mem_digit

theorem andThen_one (p : Char → Bool) (g : Splitter) (c : Char) (cs : List Char) :
    (Splitter.one p).andThen g (c :: cs) = if p c then (g cs).map (Lexer.prepend [c]) else none := by
  rw [Splitter.andThen, Splitter.one]
  split <;> rfl

/-! ## Numbers -/

theorem takes_fraction : (Expr.catAll [.one (.single '.'), digitsExpr]).Takes Lexer.fraction? := by
  refine (takes_cat_of_takesOnly (takesOnly_set (mem_single_eq '.')) takes_digits).congr fun cs => ?_
  cases cs with
  | nil => rfl
  | cons c cs =>
    rw [andThen_one]
    by_cases hc : c = '.'
    · rw [hc]
      rfl
    · rw [if_neg (by simpa using hc), Lexer.fraction?.eq_2 _ (by simpa using hc)]

theorem digits?_minus (cs : List Char) : Lexer.digits? ('-' :: cs) = none := rfl

theorem takes_signed :
    (Expr.cat (.times 0 (some 1) true (.one (.single '-'))) digitsExpr).Takes Lexer.signed? := by
  have hminus := takesOnly_set (mem_single_eq '-')
  have htakes : (Expr.cat (.times 0 (some 1) true (.one (.single '-'))) digitsExpr).Takes
      ((Splitter.one (· == '-')).opt.andThen Lexer.digits?) := by
    refine takes_cat (takes_opt hminus.takes) takes_digits fun h r _ _ h' hh' => ?_
    rw [hits_opt, hminus h] at hh'
    cases hc : h.place.after with
    | nil =>
      rw [hc] at hh'
      cases hh'
    | cons c cs =>
      rw [hc, Splitter.one] at hh'
      by_cases hm : c = '-'
      · rw [if_pos (by simpa using hm)] at hh'
        rw [List.mem_singleton.1 hh', hc, hm, digits?_minus]
      · rw [if_neg (by simpa using hm)] at hh'
        cases hh'
  refine htakes.congr fun cs => ?_
  rw [Splitter.andThen, Splitter.opt, Option.bind_some]
  cases cs with
  | nil => rfl
  | cons c cs =>
    rw [Splitter.one]
    by_cases hm : c = '-'
    · rw [hm]
      rfl
    · rw [if_neg (by simpa using hm), Lexer.signed?.eq_2 _ (by simpa using hm)]
      exact Option.map_id'

theorem takes_exponent : (Expr.catAll [.one (oneOf ['e', 'E']), .times 0 (some 1) true (.one (.single '-')),
    digitsExpr]).Takes Lexer.exponent? := by
  have he : ∀ c, (oneOf ['e', 'E']).mem c = decide (c = 'e' ∨ c = 'E') := fun c => by
    rw [mem_oneOf]
    simp
  refine (takes_cat_of_takesOnly (takesOnly_set he) takes_signed).congr fun cs => ?_
  cases cs with
  | nil => rfl
  | cons c cs =>
    rw [andThen_one, Lexer.exponent?]
    simp only [decide_eq_true_eq]

theorem takes_number : TokenClass.number.expr.Takes Lexer.number? := by
  have htail := takes_cat_of_isSome (takes_opt takes_fraction) (takes_opt takes_exponent) fun _ => rfl
  refine (takes_cat_of_isSome takes_digits htail fun _ => rfl).congr fun cs => ?_
  rw [Splitter.andThen, Lexer.number?]
  cases Lexer.digits? cs with
  | none => rfl
  | some whole =>
    rw [Option.map_some]
    exact congrArg (fun text => some (text, _)) (List.append_assoc _ _ _).symm

/-! ## Strings -/

def escaped (ds : List Char) : Splitter := (Splitter.one (· == '\\')).andThen (.one ds.contains)

def numbered : Splitter :=
  (Splitter.one (· == '\\')).andThen ((Splitter.one (· == 'u')).andThen ((Splitter.one Lexer.isHexDigit).exactly 4))

theorem escaped_backslash (ds : List Char) (c : Char) (cs : List Char) :
    escaped ds ('\\' :: c :: cs) = if ds.contains c then some (['\\', c], cs) else none := by
  rw [escaped, andThen_one, if_pos (by decide), Splitter.one]
  split <;> rfl

theorem numbered_backslash (c : Char) (cs : List Char) : numbered ('\\' :: c :: cs) =
    if c = 'u' then (((Splitter.one Lexer.isHexDigit).exactly 4) cs).map (Lexer.prepend ['\\', 'u']) else none := by
  rw [numbered, andThen_one, if_pos (by decide), andThen_one]
  by_cases hc : c = 'u'
  · rw [if_pos (by simpa using hc), if_pos hc, Option.map_map, hc]
    rfl
  · rw [if_neg (by simpa using hc), if_neg hc]
    rfl

theorem andThen_backslash {g : Splitter} (hg : g [] = none) {cs : List Char} (h : ∀ c rest, cs ≠ '\\' :: c :: rest) :
    (Splitter.one (· == '\\')).andThen g cs = none := by
  rcases cs with _ | ⟨c, _ | ⟨c', cs⟩⟩
  · rfl
  · rw [andThen_one, hg]
    split <;> rfl
  · rw [andThen_one, if_neg fun hc => h c' cs (by rw [beq_iff_eq.1 hc])]

theorem escaped_or_numbered_eq_none {d : Char} {ds : List Char} (hd : d ∉ ds) (hu : d ≠ 'u') (cs : List Char) :
    escaped [d] cs = none ∨ (escaped ds).or numbered cs = none := by
  by_cases h : ∃ c rest, cs = '\\' :: c :: rest
  · obtain ⟨c, rest, rfl⟩ := h
    by_cases hc : c = d
    · refine Or.inr ?_
      rw [Splitter.or, escaped_backslash, numbered_backslash, hc, if_neg (by simpa using hd), if_neg hu]
      rfl
    · refine Or.inl ?_
      rw [escaped_backslash, if_neg (by simpa using hc)]
  · exact Or.inl (andThen_backslash rfl fun c rest he => h ⟨c, rest, he⟩)

theorem escaped_cons (d : Char) (ds cs : List Char) : (escaped [d]).or (escaped ds) cs = escaped (d :: ds) cs := by
  by_cases h : ∃ c rest, cs = '\\' :: c :: rest
  · obtain ⟨c, rest, rfl⟩ := h
    rw [Splitter.or, escaped_backslash, escaped_backslash, escaped_backslash, List.contains_cons, List.contains_cons,
      List.contains_nil, Bool.or_false]
    by_cases hc : c = d
    · have hb : (c == d) = true := by simpa using hc
      rw [hb, Bool.true_or, if_pos rfl]
      rfl
    · have hb : (c == d) = false := by simpa using hc
      rw [hb, Bool.false_or, if_neg Bool.false_ne_true]
      rfl
  · have h : ∀ c rest, cs ≠ '\\' :: c :: rest := fun c rest he => h ⟨c, rest, he⟩
    rw [Splitter.or, escaped, andThen_backslash rfl h, escaped, andThen_backslash rfl h, escaped,
      andThen_backslash rfl h]
    rfl

/-- The alternatives behind a backslash exclude each other. -/
theorem takesOnly_escapes {e : Expr} (he : e.TakesOnly numbered) : ∀ {ds : List Char}, ds.Nodup → 'u' ∉ ds →
    (Expr.altAll ((ds.map fun d => .catAll [.one (.single '\\'), .one (.single d)]) ++ [e])).TakesOnly
      ((escaped ds).or numbered)
  | [], _, _ => he.congr fun cs => by
    have hnone : escaped [] cs = none := by
      by_cases h : ∃ c rest, cs = '\\' :: c :: rest
      · obtain ⟨c, rest, rfl⟩ := h
        rfl
      · exact andThen_backslash rfl fun c rest he => h ⟨c, rest, he⟩
    rw [Splitter.or, hnone]
    rfl
  | d :: ds, hn, hu => by
    obtain ⟨hd, hn⟩ := List.nodup_cons.1 hn
    rw [List.mem_cons, not_or] at hu
    have hone : ∀ c, (CharSet.single d).mem c = [d].contains c := fun c => by
      rw [mem_single_eq, List.contains_cons, List.contains_nil, Bool.or_false]
    have hesc := takesOnly_cat (takesOnly_set (mem_single_eq '\\')) (takesOnly_set hone)
    have halt : ∀ es : List Expr, (Expr.altAll ((Expr.catAll [.one (.single '\\'), .one (.single d)]) :: (es ++ [e]))) =
        .alt (.cat (.one (.single '\\')) (.one (.single d))) (.altAll (es ++ [e])) := fun es => by
      cases es <;> rfl
    rw [List.map_cons, List.cons_append, halt]
    refine (takesOnly_alt hesc (takesOnly_escapes he hn hu.2)
      (escaped_or_numbered_eq_none hd (Ne.symm hu.1))).congr fun cs => ?_
    change ((escaped [d] cs).or ((escaped ds cs).or (numbered cs))) = (escaped (d :: ds) cs).or (numbered cs)
    rw [← escaped_cons d ds cs, Splitter.or, Option.or_assoc]

theorem takesOnly_numbered : (Expr.catAll [.one (.single '\\'), .one (.single 'u'),
    .times 4 (some 4) true (.one (ranges [('0', '9'), ('a', 'f'), ('A', 'F')]))]).TakesOnly numbered :=
  takesOnly_cat (takesOnly_set (mem_single_eq '\\'))
    (takesOnly_cat (takesOnly_set (mem_single_eq 'u')) (takesOnly_times (takesOnly_set mem_hexDigit) 4))

def stringItem : Splitter := (Splitter.one fun c => c != '"' && c != '\\').or ((escaped Lexer.escapable).or numbered)

theorem takesOnly_stringItem : stringItemExpr.TakesOnly stringItem := by
  have hplain : ∀ c, (CharSet.negate (oneOf ['"', '\\'])).mem c = (c != '"' && c != '\\') := fun c => by
    rw [CharSet.mem, mem_oneOf, List.contains_cons, List.contains_cons, List.contains_nil, Bool.or_false, Bool.not_or]
    rfl
  refine takesOnly_alt (takesOnly_set hplain) (takesOnly_escapes takesOnly_numbered (by decide) (by decide)) fun cs => ?_
  cases cs with
  | nil => exact Or.inl rfl
  | cons c cs =>
    by_cases hc : c = '\\'
    · rw [hc]
      exact Or.inl rfl
    · have h : ∀ d rest, c :: cs ≠ '\\' :: d :: rest := fun d rest he => hc (List.cons.inj he).1
      refine Or.inr ?_
      rw [Splitter.or, escaped, andThen_backslash rfl h, numbered, andThen_backslash rfl h]
      rfl

theorem exactly_one (p : Char → Bool) : ∀ (n : Nat) (cs : List Char), (Splitter.one p).exactly n cs =
    if n ≤ cs.length ∧ (cs.take n).all p = true then some (cs.take n, cs.drop n) else none
  | 0, cs => rfl
  | n + 1, [] => rfl
  | n + 1, c :: cs => by
    rw [Splitter.exactly, andThen_one, exactly_one p n cs]
    simp only [List.take_succ_cons, List.drop_succ_cons, List.all_cons, List.length_cons, Nat.add_le_add_iff_right,
      Bool.and_eq_true]
    by_cases hp : p c = true
    · by_cases hr : n ≤ cs.length ∧ (cs.take n).all p = true
      · rw [if_pos hp, if_pos hr, if_pos ⟨hr.1, hp, hr.2⟩]
        rfl
      · rw [if_pos hp, if_neg hr, if_neg fun h => hr ⟨h.1, h.2.2⟩]
        rfl
    · rw [if_neg hp, if_neg fun h => hp h.2.1]

theorem shortens_andThen {f g : Splitter} (hf : f.Shortens)
    (hg : ∀ ⦃cs head rest⦄, g cs = some (head, rest) → rest.length ≤ cs.length) : (f.andThen g).Shortens := by
  intro cs head rest h
  obtain ⟨r, hr, h⟩ := Option.bind_eq_some_iff.1 h
  obtain ⟨q, hq, h⟩ := Option.map_eq_some_iff.1 h
  have hlt : r.2.length < cs.length := hf hr
  have hle : q.2.length ≤ r.2.length := hg hq
  rw [← (Prod.mk.inj h).2]
  omega

theorem shortens_or {f g : Splitter} (hf : f.Shortens) (hg : g.Shortens) : (f.or g).Shortens := by
  intro cs head rest h
  rcases Option.or_eq_some_iff.1 h with h | ⟨-, h⟩
  · exact hf h
  · exact hg h

theorem shortens_stringItem : stringItem.Shortens := by
  have hbackslash : (Splitter.one (· == '\\')).Shortens := Splitter.shortens_one _
  have hone : ∀ {p : Char → Bool} ⦃cs head rest⦄, Splitter.one p cs = some (head, rest) → rest.length ≤ cs.length :=
    fun h => Nat.le_of_lt (Splitter.shortens_one _ h)
  have hhex : ∀ ⦃cs head rest⦄, (Splitter.one Lexer.isHexDigit).exactly 4 cs = some (head, rest) →
      rest.length ≤ cs.length := by
    intro cs head rest h
    rw [exactly_one] at h
    split at h
    · cases h
      rw [List.length_drop]
      exact Nat.sub_le _ _
    · cases h
  have hu : ((Splitter.one (· == 'u')).andThen ((Splitter.one Lexer.isHexDigit).exactly 4)).Shortens :=
    shortens_andThen (Splitter.shortens_one _) hhex
  exact shortens_or (Splitter.shortens_one _) (shortens_or (shortens_andThen hbackslash hone)
    (shortens_andThen hbackslash fun _ _ _ h => Nat.le_of_lt (hu h)))

def closing : Splitter := stringItem.star.andThen (.one (· == '"'))

theorem closing_of_none {cs : List Char} (h : stringItem cs = none) : closing cs = Splitter.one (· == '"') cs := by
  rw [closing, Splitter.andThen, Splitter.star_of_none h]
  exact Option.map_id'

theorem closing_of_some {cs head rest : List Char} (h : stringItem cs = some (head, rest)) :
    closing cs = (closing rest).map (Lexer.prepend head) := by
  rw [closing, Splitter.andThen, Splitter.star_of_some shortens_stringItem h, Splitter.andThen, Splitter.star]
  dsimp only [Option.map_some, Option.bind_some]
  rw [Option.map_map]
  exact Option.map_congr fun q _ => congrArg (·, q.2) (List.append_assoc _ _ _)

theorem stringItem_backslash (c : Char) (cs : List Char) :
    stringItem ('\\' :: c :: cs) = (escaped Lexer.escapable ('\\' :: c :: cs)).or (numbered ('\\' :: c :: cs)) := rfl

theorem stringItem_u (cs : List Char) : stringItem ('\\' :: 'u' :: cs) =
    if 4 ≤ cs.length ∧ (cs.take 4).all Lexer.isHexDigit = true then
      some ('\\' :: 'u' :: cs.take 4, cs.drop 4) else none := by
  rw [stringItem_backslash, escaped_backslash, if_neg (by decide), numbered_backslash, if_pos rfl, exactly_one]
  split <;> rfl

theorem closing_eq (cs : List Char) : closing cs = Lexer.stringTail? cs := by
  fun_induction Lexer.stringTail? cs with
  | case1 => exact closing_of_none rfl
  | case2 cs => exact closing_of_none rfl
  | case3 a b c d cs hhex ih =>
    have hitem : stringItem ('\\' :: 'u' :: a :: b :: c :: d :: cs) = some (['\\', 'u', a, b, c, d], cs) := by
      rw [stringItem_u, if_pos ⟨by simp, hhex⟩]
      rfl
    rw [closing_of_some hitem, ih]
  | case4 a b c d cs hhex =>
    have hitem : stringItem ('\\' :: 'u' :: a :: b :: c :: d :: cs) = none := by
      rw [stringItem_u, if_neg fun h => hhex h.2]
    rw [closing_of_none hitem]
    rfl
  | case5 c cs _ hc ih =>
    have hitem : stringItem ('\\' :: c :: cs) = some (['\\', c], cs) := by
      rw [stringItem_backslash, escaped_backslash, if_pos hc]
      rfl
    rw [closing_of_some hitem, ih]
  | case6 c cs hu hc =>
    have hitem : stringItem ('\\' :: c :: cs) = none := by
      by_cases hcu : c = 'u'
      · rw [hcu, stringItem_u, if_neg]
        rintro ⟨hlen, -⟩
        rcases cs with _ | ⟨a, _ | ⟨b, _ | ⟨c', _ | ⟨d, cs⟩⟩⟩⟩
        case cons.cons.cons.cons => exact hu a b c' d cs hcu rfl
        all_goals simp at hlen
      · rw [stringItem_backslash, escaped_backslash, if_neg hc, numbered_backslash, if_neg hcu]
        rfl
    rw [closing_of_none hitem]
    rfl
  | case7 cs _ _ hcs =>
    cases cs with
    | nil => exact closing_of_none rfl
    | cons c cs => exact (hcs c cs rfl rfl).elim
  | case8 c cs hquote _ _ hbackslash ih =>
    have hitem : stringItem (c :: cs) = some ([c], cs) := by
      have hplain : (c != '"' && c != '\\') = true := by simpa using ⟨hquote, hbackslash⟩
      rw [stringItem, Splitter.or, Splitter.one, if_pos hplain]
      rfl
    rw [closing_of_some hitem, ih]

/-- Where there is an item there is no quote, so giving items back does not help. -/
theorem one_quote_of_stringItem : ∀ {cs : List Char}, (stringItem cs).isSome →
    Splitter.one (· == '"') cs = none
  | c :: cs, h => by
    rw [Splitter.one]
    by_cases hc : c = '"'
    · rw [hc] at h
      cases h
    · rw [if_neg (by simpa using hc)]

theorem takesOnly_string : TokenClass.string.expr.TakesOnly Lexer.string? := by
  have hquote := takesOnly_set (mem_single_eq '"')
  have hretreats := retreats_star takesOnly_stringItem shortens_stringItem
  have hclosing : (Expr.cat (.times 0 none true stringItemExpr) (.one (.single '"'))).TakesOnly closing :=
    takesOnly_cat_of_tail (takes_star takesOnly_stringItem shortens_stringItem) hquote fun h h' hh' =>
      one_quote_of_stringItem (hretreats h h' hh')
  refine (takesOnly_cat hquote hclosing).congr fun cs => ?_
  cases cs with
  | nil => rfl
  | cons c cs =>
    rw [andThen_one]
    by_cases hc : c = '"'
    · rw [hc, if_pos (beq_self_eq_true _), closing_eq]
      rfl
    · rw [if_neg (by simpa using hc), Lexer.string?.eq_2 _ (by simpa using hc)]

/-! ## Identifiers -/

theorem takes_ident : TokenClass.ident.expr.Takes Lexer.ident? := by
  have hstar := takes_star (takesOnly_set mem_identChar) (Splitter.shortens_one _)
  refine (takes_cat_of_takesOnly (takesOnly_set mem_identStart) hstar).congr fun cs => ?_
  cases cs with
  | nil => rfl
  | cons c cs =>
    rw [andThen_one, Splitter.star_one, Lexer.ident?]
    rfl

/-- Where a shorter identifier stops, the text goes on. -/
theorem retreats_ident : TokenClass.ident.expr.Retreats (.one Lexer.isIdentChar) := by
  intro h h' hh'
  have hstar := retreats_star (takesOnly_set mem_identChar) (Splitter.shortens_one _)
  have hhits : TokenClass.ident.expr.hits h = ((Splitter.one Lexer.isIdentStart h.place.after).map h.past).toList.flatMap
      (Expr.times 0 none true (.one (ranges [('0', '9'), ('a', 'z'), ('A', 'Z'), ('_', '_'), ('$', '$')]))).hits := by
    rw [← takesOnly_set mem_identStart h]
    rfl
  rw [hhits] at hh'
  cases hone : Splitter.one Lexer.isIdentStart h.place.after with
  | none =>
    rw [hone] at hh'
    cases hh'
  | some r =>
    rw [hone, Option.map_some, Option.toList_some, List.flatMap_singleton] at hh'
    exact hstar _ h' hh'

/-! ## Punctuation, symbols and comments -/

theorem takes_blanks : TokenClass.space.expr.Takes Lexer.blanks? := takes_run fun _ => rfl

theorem takes_punctuation : TokenClass.punctuation.expr.Takes Lexer.punctuation? := by
  refine (takesOnly_set (mem_oneOf _)).takes.congr fun cs => ?_
  cases cs <;> rfl

theorem takes_symbols : TokenClass.symbols.expr.Takes Lexer.symbols? := takes_run (mem_oneOf _)

def lineEnd : Splitter := (Splitter.one (· == '\n')).or .atEnd

theorem dropWhile_line (cs : List Char) :
    cs.dropWhile (· != '\n') = [] ∨ ∃ rest, cs.dropWhile (· != '\n') = '\n' :: rest := by
  cases h : cs.dropWhile (· != '\n') with
  | nil => exact Or.inl rfl
  | cons c rest =>
    have hc := List.head_dropWhile_not (· != '\n') (l := cs) (by rw [h]; exact List.cons_ne_nil _ _)
    simp only [h, List.head_cons, bne_eq_false_iff_eq] at hc
    exact Or.inr ⟨rest, by rw [hc]⟩

theorem takes_comment : TokenClass.comment.expr.Takes Lexer.comment? := by
  have hchars : ∀ c, (CharSet.negate (oneOf ['\n'])).mem c = (c != '\n') := fun c => by
    rw [CharSet.mem, mem_oneOf, List.contains_cons, List.contains_nil, Bool.or_false]
    rfl
  have hend : (Expr.alt (.one (.single '\n')) (.look .endText)).Takes lineEnd :=
    takes_alt (takesOnly_set (mem_single_eq '\n')).takes takesOnly_endText.takes
  have hline := takes_cat_of_isSome (takes_star (takesOnly_set hchars) (Splitter.shortens_one _)) hend
    fun {cs r} hr => by
      rw [Splitter.star_one] at hr
      cases hr
      rcases dropWhile_line cs with h | ⟨rest, h⟩ <;> rw [h] <;> rfl
  refine (takes_cat_of_takesOnly (takesOnly_set (mem_single_eq '#')) hline).congr fun cs => ?_
  cases cs with
  | nil => rfl
  | cons c cs =>
    rw [andThen_one]
    by_cases hc : c = '#'
    · rw [hc, if_pos (beq_self_eq_true _), Splitter.andThen, Splitter.star_one, Option.bind_some, Lexer.comment?]
      rcases dropWhile_line cs with h | ⟨rest, h⟩
      · have hall : cs.takeWhile (· != '\n') = cs := by
          have happ := List.takeWhile_append_dropWhile (p := (· != '\n')) (l := cs)
          rwa [h, List.append_nil] at happ
        rw [h, hall]
        exact congrArg (fun text => some ('#' :: text, [])) (List.append_nil cs)
      · rw [h]
        rfl
    · rw [if_neg (by simpa using hc), Lexer.comment?.eq_2 _ (by simpa using hc)]

/-! ## Texts as they are -/

def prefixOf (text : List Char) : Splitter := fun cs =>
  if text.isPrefixOf cs then some (text, cs.drop text.length) else none

theorem prefixOf_cons (c : Char) (text cs : List Char) :
    (Splitter.one (· == c)).andThen (prefixOf text) cs = prefixOf (c :: text) cs := by
  cases cs with
  | nil => rfl
  | cons d cs =>
    rw [andThen_one, prefixOf, prefixOf, List.isPrefixOf]
    by_cases hd : d = c
    · rw [hd, beq_self_eq_true, if_pos rfl, Bool.true_and]
      split <;> rfl
    · have hc : (c == d) = false := by simpa using Ne.symm hd
      rw [if_neg (by simpa using hd), hc, Bool.false_and]
      rfl

theorem takesOnly_literal : ∀ text : List Char, (literalExpr text).TakesOnly (prefixOf text)
  | [] => fun h => congrArg (fun x => [x]) (Hit.past_nil h).symm
  | [c] => (takesOnly_set (mem_single_eq c)).congr fun cs => by
    rw [← prefixOf_cons]
    cases cs with
    | nil => rfl
    | cons d cs =>
      rw [andThen_one, Splitter.one]
      split
      · rfl
      · rfl
  | c :: d :: text =>
    (takesOnly_cat (takesOnly_set (mem_single_eq c)) (takesOnly_literal (d :: text))).congr (prefixOf_cons c _)

def firstOf (texts : List (List Char)) : Splitter := fun cs =>
  (texts.find? (·.isPrefixOf cs)).map fun w => (w, cs.drop w.length)

theorem firstOf_cons (w : List Char) (ws : List (List Char)) (cs : List Char) :
    (prefixOf w).or (firstOf ws) cs = firstOf (w :: ws) cs := by
  rw [Splitter.or, prefixOf, firstOf, firstOf, List.find?_cons]
  by_cases h : w.isPrefixOf cs
  · rw [if_pos h, h]
    rfl
  · rw [if_neg h, Bool.eq_false_iff.2 h]
    rfl

theorem takes_alternatives : ∀ {texts : List (List Char)}, texts ≠ [] →
    (alternativesExpr texts).Takes (firstOf texts)
  | [w], _ => (takesOnly_literal w).takes.congr fun cs => by
    rw [← firstOf_cons]
    exact (Option.or_none).symm
  | w :: v :: ws, _ =>
    (takes_alt (takesOnly_literal w).takes (takes_alternatives (List.cons_ne_nil v ws))).congr (firstOf_cons w _)

end Pattern

end Packrat
