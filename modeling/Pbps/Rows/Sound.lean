/-
What the reader calls constant is one: the text it accepts spells one constant, and the value it follows through signs and
casts is the engine's, so that none of the engine's steps leaves its range.
-/
import Pbps.Rows.Spelling

namespace Pbps.Rows

open TypeRef (trim lowerAscii)
open Load (readsAsFloat readsExponent)
open List
open Bool (and_eq_true or_eq_true)

variable {F : Floats}

/-! ## Literals -/

theorem unmarked_eq (s : List Char) : ∃ mark, (mark = [] ∨ mark = ['N'] ∨ mark = ['n']) ∧ s = mark ++ unmarked s := by
  unfold unmarked
  split
  · rename_i c cs
    split_ifs with hc
    · simp only [or_eq_true, decide_eq_true_eq] at hc
      rcases hc with rfl | rfl
      · exact ⟨['N'], .inr (.inl rfl), rfl⟩
      · exact ⟨['n'], .inr (.inr rfl), rfl⟩
    · exact ⟨[], .inl rfl, rfl⟩
  · exact ⟨[], .inl rfl, rfl⟩

variable {s text : List Char}

theorem stringBody_eq_some {inner : List Char} (h : stringBody s = some inner) :
    ∃ mark, (mark = [] ∨ mark = ['N'] ∨ mark = ['n']) ∧ s = mark ++ '\'' :: (inner ++ ['\'']) := by
  obtain ⟨mark, hmark, hs⟩ := unmarked_eq s
  refine ⟨mark, hmark, hs.trans (congrArg _ ?_)⟩
  unfold stringBody at h
  split at h
  · rename_i cs hcs
    split_ifs at h with hlast
    cases h
    obtain ⟨inner, rfl⟩ := List.getLast?_eq_some_iff.1 hlast
    rw [hcs, dropLast_concat]
  · cases h

theorem exists_doubled {inner : List Char} (h : quotesPaired inner) : ∃ value, inner = doubled value := by
  fun_induction quotesPaired inner with
  | case1 cs ih =>
    obtain ⟨value, rfl⟩ := ih h
    exact ⟨'\'' :: value, by rw [doubled_cons, if_pos rfl]; rfl⟩
  | case2 => cases h
  | case3 c cs hpair hquote ih =>
    obtain ⟨value, rfl⟩ := ih h
    exact ⟨c :: value, by rw [doubled_cons, if_neg hquote]; rfl⟩
  | case4 => exact ⟨[], rfl⟩

theorem doubled_of_not_mem (h : '\'' ∉ s) : doubled s = s := by
  induction s with
  | nil => rfl
  | cons c cs ih =>
    rw [mem_cons, not_or] at h
    rw [doubled_cons, if_neg (Ne.symm h.1), ih h.2]
    rfl

theorem isExponent_iff {c : Char} : isExponent c ↔ c = 'e' ∨ c = 'E' := by simp [isExponent]

theorem isMantissa_eq_isSome (s : List Char) : isMantissa s = (numberParts s).isSome := by
  have hdigits : ∀ part : List Char, (part.isEmpty || digits part) = part.all isAsciiDigit := by
    intro part
    cases part with
    | nil => rfl
    | cons c cs => rfl
  unfold isMantissa numberParts
  dsimp only
  by_cases hdot : s.contains '.'
  · rw [if_pos hdot, hdigits, hdigits, ← all_append]
    cases (splitDot s).1.isEmpty && (splitDot s).2.isEmpty <;>
      cases ((splitDot s).1 ++ (splitDot s).2).all isAsciiDigit <;> rfl
  · have hall : ∀ c ∈ s, c ≠ '.' := by
      rintro c hc rfl
      exact hdot (contains_iff_mem.2 hc)
    have hsplit : splitDot s = (s, []) := by
      unfold splitDot
      rw [takeWhile_eq_self_iff.2 (by simpa using hall), dropWhile_eq_nil_iff.2 (by simpa using hall)]
      rfl
    rw [if_neg hdot, hsplit]
    dsimp only
    rw [append_nil, isEmpty_nil, Bool.and_true]
    unfold digits
    cases s.isEmpty <;> cases s.all isAsciiDigit <;> rfl

theorem isNumber_eq_isSome (h : s.any isExponent = false) : isNumber s = (numberParts s).isSome := by
  have hmantissa : s.takeWhile (fun c => !isExponent c) = s := by
    rw [takeWhile_eq_self_iff]
    intro c hc
    have := any_eq_false.1 h c hc
    simpa using this
  rw [isNumber, h, hmantissa, isMantissa_eq_isSome, Bool.not_false, Bool.true_or, Bool.and_true]

theorem exists_exponent (h : s.any isExponent) :
    ∃ e rest, isExponent e ∧ s = s.takeWhile (fun c => !isExponent c) ++ e :: rest := by
  induction s with
  | nil => cases h
  | cons c s ih =>
    by_cases hc : isExponent c
    · exact ⟨c, s, hc, by rw [takeWhile_cons_of_neg (by simpa using hc)]; rfl⟩
    · rw [any_cons, or_eq_true, or_iff_right hc] at h
      obtain ⟨e, rest, he, heq⟩ := ih h
      refine ⟨e, rest, he, ?_⟩
      rw [takeWhile_cons_of_pos (by simpa using hc), cons_append, ← heq]

theorem spells_of_isNumber (htrim : trim s = s) (h : isNumber s) (he : s.any isExponent) : Spells s (.approximate s) := by
  obtain ⟨e, rest, he, heq⟩ := exists_exponent he
  rw [isNumber, and_eq_true, isMantissa_eq_isSome, Option.isSome_iff_exists] at h
  obtain ⟨⟨parts, hparts⟩, -⟩ := h
  obtain ⟨hne, hall⟩ := all_of_numberParts hparts
  have := Spells.approximate (isExponent_iff.1 he) hall hne (htrim.trans heq)
  rwa [htrim] at this

theorem spells_of_readsExponent {f rest : List Char} (htrim : trim s = s) (heq : s = f ++ rest)
    (hf : f.all fun c => isAsciiDigit c || c = '.') (hne : f ≠ []) (hrest : readsExponent rest) (he : s.any isExponent) :
    Spells s (.approximate s) := by
  cases rest with
  | nil =>
    rw [heq, append_nil, any_eq_true] at he
    obtain ⟨c, hc, hexp⟩ := he
    have := all_eq_true.1 hf c hc
    exfalso
    rcases isExponent_iff.1 hexp with rfl | rfl <;> revert this <;> decide
  | cons e rest =>
    simp only [readsExponent, and_eq_true, or_eq_true, decide_eq_true_eq] at hrest
    have := Spells.approximate hrest.1.1 hf hne (htrim.trans heq)
    rwa [htrim] at this

theorem all_digit_or_dot {l : List Char} (h : l.all isAsciiDigit) : l.all fun c => isAsciiDigit c || c = '.' := by
  rw [all_eq_true] at h ⊢
  intro c hc
  rw [h c hc]
  rfl

theorem takeWhile_all (p : Char → Bool) (l : List Char) : (l.takeWhile p).all p :=
  all_eq_true.2 fun _ hc => mem_takeWhile_imp hc

theorem spells_of_readsAsFloat (htrim : trim s = s) (hsign : ¬s.head?.any ['+', '-'].contains) (h : readsAsFloat s)
    (he : s.any isExponent) : Spells s (.approximate s) := by
  unfold readsAsFloat at h
  rw [if_neg hsign] at h
  dsimp only at h
  rw [or_eq_true] at h
  rcases h with hword | hnumber
  · -- No word for an infinity or no number has an `e`.
    obtain ⟨c, hc, hexp⟩ := any_eq_true.1 he
    have hmem : 'e' ∈ s.map lowerAscii := by
      refine mem_map.2 ⟨c, hc, ?_⟩
      rcases isExponent_iff.1 hexp with rfl | rfl <;> decide
    have hwords : ∀ w ∈ ["inf", "infinity", "nan"], 'e' ∉ w.toList := by decide
    have := hwords _ (contains_iff_mem.1 hword)
    rw [String.toList_ofList] at this
    exact absurd hmem this
  · have hwhole := all_digit_or_dot (takeWhile_all isAsciiDigit s)
    have hsplit := (takeWhile_append_dropWhile (p := isAsciiDigit) (l := s)).symm
    split at hnumber
    · rename_i rest hrest
      rw [and_eq_true] at hnumber
      have hfrac := all_digit_or_dot (takeWhile_all isAsciiDigit rest)
      refine spells_of_readsExponent htrim (f := s.takeWhile isAsciiDigit ++ '.' :: rest.takeWhile isAsciiDigit) ?_ ?_ (by simp)
        hnumber.2 he
      · rw [append_assoc, cons_append, takeWhile_append_dropWhile, ← hrest]
        exact hsplit
      · rw [all_append, hwhole, all_cons, hfrac]
        rfl
    · rw [and_eq_true] at hnumber
      exact spells_of_readsExponent htrim hsplit hwhole (by simpa using hnumber.1) hnumber.2 he

theorem trimSpaces_of_trim (h : trim s = s) : trimSpaces s = s := by
  have hspace : ∀ c, decide (c = ' ') = true → isWhitespace c = true := by
    intro c hc
    rw [of_decide_eq_true hc]
    decide
  have hfront : s.dropWhile isWhitespace = s := by
    have hlen := (Load.trim_front s).length_le
    rw [h] at hlen
    exact (dropWhile_suffix _).eq_of_length_le hlen
  have hback : s.rdropWhile isWhitespace = s := by
    rw [Load.trim_eq, hfront] at h
    exact h
  have hfront' : s.dropWhile (fun c => decide (c = ' ')) = s := by
    rw [dropWhile_eq_self_iff] at hfront ⊢
    exact fun hl hc => hfront hl (hspace _ hc)
  unfold trimSpaces
  rw [hfront']
  show s.rdropWhile _ = s
  rw [rdropWhile_eq_self_iff] at hback ⊢
  exact fun hl hc => hback hl (hspace _ hc)

theorem dropWhile_space (h : trim s = s) : s.dropWhile (· = ' ') = s := by
  have hlen := congrArg List.length (trimSpaces_of_trim h)
  rw [trimSpaces, length_reverse] at hlen
  have hle := ((dropWhile_sublist (l := (s.dropWhile (· = ' ')).reverse) (· = ' ')).length_le)
  rw [length_reverse] at hle
  exact (dropWhile_suffix _).eq_of_length_le (by omega)

theorem stripSign_of_head (h : s.head? ≠ some '-' ∧ s.head? ≠ some '+') : stripSign s = s := by
  unfold stripSign
  split
  · exact absurd rfl h.1
  · exact absurd rfl h.2
  · rfl

/-- A text is followed: it spells a constant whose value, where the constant is exact, is the reader's. -/
def Followed (text : List Char) (v : Numeric F) : Prop :=
  v.Fits ∧ ∃ c, Spells text c ∧ (c.exact → ∃ w, c.eval = some w ∧ Follows v w)

theorem Followed.of_peeled {v : Numeric F} (h : Followed (peeled text) v) : Followed text v := by
  obtain ⟨hfits, c, hc, hv⟩ := h
  obtain ⟨n, hn⟩ := hc.of_peel
  refine ⟨hfits, c.parens n, hn, ?_⟩
  rw [Constant.exact_parens, Constant.eval_parens]
  exact hv

theorem numericLiteral_meets (F : Floats) (htrim : trim s = s) (hsign : s.head? ≠ some '-' ∧ s.head? ≠ some '+') :
    (numericLiteral F s).Meets (· = .refused) (Followed s) := by
  unfold numericLiteral
  by_cases hnull : toAsciiLowercase s = "null".toList
  · rw [if_pos hnull]
    exact ⟨trivial, .null, .null (htrim.symm ▸ hnull), fun _ => ⟨_, rfl, .null⟩⟩
  rw [if_neg hnull]
  split
  · rename_i inner hinner
    split_ifs with hquote
    · rfl
    · obtain ⟨mark, hmark, hs⟩ := stringBody_eq_some hinner
      have hdoubled : doubled inner = inner := doubled_of_not_mem fun h => hquote (contains_iff_mem.2 h)
      have hspells : Spells s (.string inner) := .string hmark (by rw [htrim, hdoubled, ← hs])
      exact ⟨trivial, .string inner, hspells, fun _ => ⟨_, rfl, .text inner⟩⟩
  · split_ifs with hexp hfloat
    · rw [and_eq_true] at hfloat
      have hhead : ¬s.head?.any ['+', '-'].contains := by
        cases s with
        | nil => decide
        | cons c cs => simp_all
      exact ⟨trivial, _, spells_of_readsAsFloat htrim hhead hfloat.1 hexp, fun h => by cases h⟩
    · rfl
    · refine Except.Meets.map ((decimalNumber_meets (F := F) s).mono ?_)
      rintro n ⟨hn, integer, fraction, q, hparts, hvalue, hfollows⟩
      rw [trimSpaces_of_trim htrim, stripSign_of_head hsign] at hparts
      rw [trimSpaces_of_trim htrim, if_neg hsign.1] at hfollows
      have hspells : Spells s (.number integer fraction) := .number (by rw [htrim, ← hparts, dropWhile_space htrim])
      exact ⟨hn, _, hspells, fun _ => ⟨_, congrArg (Option.map _) hvalue, hfollows⟩⟩

theorem signed_meets (v : Numeric F) (hv : v.Fits) (minus : Bool) : (signed minus v).Meets (· = .refused) fun r => r.Fits ∧
      ∀ w, Follows v w → ∃ w', (if minus then w.neg else w.pos) = some w' ∧ Follows r w' := by
  unfold signed
  by_cases htext : ∃ s, v = .text s
  · obtain ⟨s, rfl⟩ := htext
    rfl
  · rw [not_exists] at htext
    rw [if_neg (by cases v <;> simp_all)]
    cases minus with
    | true => exact negate_meets htext
    | false => exact ⟨hv, fun w hw => ⟨w, hw.pos htext, hw⟩⟩

theorem numericValue_meets (F : Floats) (fuel : ℕ) (text : List Char) :
    (numericValue F fuel text).Meets (· = .refused) (Followed text) := by
  induction fuel generalizing text with
  | zero => rfl
  | succ fuel ih =>
    refine Except.Meets.mono ?_ fun v => Followed.of_peeled
    have htrim := trim_peeled text
    unfold numericValue
    generalize peeled text = s at htrim
    dsimp only
    by_cases hsign : (s.head? = some '-' || s.head? = some '+') = true
    · rw [if_pos hsign]
      have hs : s = (if decide (s.head? = some '-') then '-' else '+') :: s.tail := by
        cases s with
        | nil => cases hsign
        | cons c cs =>
          simp only [List.head?_cons, Option.some.injEq, or_eq_true, decide_eq_true_eq] at hsign ⊢
          rcases hsign with rfl | rfl <;> rfl
      refine (ih s.tail).bind ?_
      rintro v ⟨hv, c, hc, hfollows⟩
      refine (signed_meets v hv _).mono ?_
      rintro r ⟨hr, hsigned⟩
      refine ⟨hr, .sign _ c, .sign _ (htrim.trans hs) hc, fun hexact => ?_⟩
      obtain ⟨w, hw, hvw⟩ := hfollows hexact
      obtain ⟨w', hw', hrw⟩ := hsigned w hvw
      exact ⟨w', by rw [Constant.eval, hw, Option.bind_some, hw'], hrw⟩
    · rw [if_neg hsign]
      split
      · rename_i operand ty hcast
        obtain ⟨target, hcasts, hty⟩ := numericCast_eq_some_iff.1 hcast
        refine (ih operand).bind ?_
        rintro v ⟨hv, c, hc, hfollows⟩
        refine (numericConversion_meets hv ty).mono ?_
        rintro r ⟨hr, hconvert⟩
        refine ⟨hr, .cast ty c, .cast (htrim.symm ▸ hcasts) hty hc, fun hexact => ?_⟩
        simp only [Constant.exact, and_eq_true, Bool.not_eq_true'] at hexact
        obtain ⟨w, hw, hvw⟩ := hfollows hexact.2
        obtain ⟨w', hw', hrw⟩ := hconvert hexact.1 w hvw
        exact ⟨w', by rw [Constant.eval, hw, Option.bind_some, hw'], hrw⟩
      · exact numericLiteral_meets F htrim (by simpa using hsign)

/-! ## The whole text -/

/-- A number that stands alone and has more than 38 digits, zeros in front not counted. -/
def LongNumber (s : List Char) : Prop :=
  ∃ integer fraction, numberParts s = some (integer, fraction) ∧
    (38 < fraction.length ∨ 38 < ((integer ++ fraction).dropWhile (· = '0')).length)

theorem decimalValue_eq_none_iff {integer fraction : List Char} : decimalValue integer fraction = none ↔
    38 < fraction.length ∨ 38 < ((integer ++ fraction).dropWhile (· = '0')).length := by
  unfold decimalValue
  split_ifs with h
  · simp only [false_iff]
    omega
  · simp only [true_iff]
    omega

theorem Spells.longNumber_iff {c : Constant} (htrim : trim s = s) (h : Spells s c) :
    LongNumber s ↔ ∃ integer fraction, c = .number integer fraction ∧ c.eval = none := by
  constructor
  · rintro ⟨integer, fraction, hparts, hlong⟩
    have hc := h.unique (.number (htrim.symm ▸ hparts))
    refine ⟨integer, fraction, hc, ?_⟩
    rw [hc, Constant.eval, decimalValue_eq_none_iff.2 hlong]
    rfl
  · rintro ⟨integer, fraction, rfl, heval⟩
    cases h with
    | number hs =>
      rw [htrim] at hs
      exact ⟨integer, fraction, hs, decimalValue_eq_none_iff.1 (Option.map_eq_none_iff.1 heval)⟩

/-- What is accepted spells a constant, and the engine's steps stay in range unless it is a number alone that is too
long. -/
theorem constantOperand_meets (F : Floats) (text : List Char) :
    (constantOperand F text).Meets (fun _ => False) fun b => b = true → ∃ c, Spells text c ∧
      (c.exact → (c.eval.isSome ↔ ¬LongNumber (peeled text))) := by
  have htrim := trim_peeled text
  have hpeel : ∀ c, Spells (peeled text) c → ∃ n, Spells text (c.parens n) := fun c => Spells.of_peel
  unfold constantOperand
  generalize peeled text = s at htrim hpeel
  -- Parentheses change nothing, and only a number's value can be missing.
  have haccept : ∀ c, Spells s c → (c.exact → c.eval.isSome ∨ ∃ integer fraction, c = .number integer fraction) →
      ∃ c, Spells text c ∧ (c.exact → (c.eval.isSome ↔ ¬LongNumber s)) := by
    intro c hc heval
    obtain ⟨n, hn⟩ := hpeel c hc
    refine ⟨c.parens n, hn, ?_⟩
    rw [Constant.exact_parens, Constant.eval_parens, hc.longNumber_iff htrim]
    intro hexact
    cases hvalue : c.eval with
    | some w => simp
    | none =>
      have := heval hexact
      rw [hvalue] at this
      simpa using this
  dsimp only
  by_cases hempty : s.isEmpty
  · rw [if_pos hempty]
    exact fun h => by cases h
  rw [if_neg hempty]
  by_cases hsigned : (s.head? = some '-' || s.head? = some '+' || (numericCast s).isSome) = true
  · rw [if_pos hsigned]
    have hvalue := numericValue_meets F 65 s
    split
    · rename_i v hv
      rw [hv] at hvalue
      obtain ⟨-, c, hc, hfollows⟩ := hvalue
      intro _
      refine haccept c hc fun hexact => .inl ?_
      obtain ⟨w, hw, -⟩ := hfollows hexact
      rw [hw]
      rfl
    · exact fun h => by cases h
    · rename_i hoverflow
      rw [hoverflow] at hvalue
      cases hvalue
  rw [if_neg hsigned]
  by_cases hnull : toAsciiLowercase s = "null".toList
  · rw [if_pos hnull]
    exact fun _ => haccept .null (.null (htrim.symm ▸ hnull)) fun _ => .inl rfl
  rw [if_neg hnull]
  split
  · rename_i inner hinner
    intro hpaired
    obtain ⟨mark, hmark, hs⟩ := stringBody_eq_some hinner
    obtain ⟨value, rfl⟩ := exists_doubled hpaired
    exact haccept (.string value) (.string hmark (htrim.trans hs)) fun _ => .inl rfl
  · split_ifs with hhex
    · intro hdigits
      have hprefix : ∃ x, (x = 'x' ∨ x = 'X') ∧ s = '0' :: x :: s.drop 2 := by
        have heq := take_append_drop 2 s
        simp only [or_eq_true, decide_eq_true_eq] at hhex
        rcases hhex with h | h
        · exact ⟨'x', .inl rfl, by rw [h] at heq; exact heq.symm⟩
        · exact ⟨'X', .inr rfl, by rw [h] at heq; exact heq.symm⟩
      obtain ⟨x, hx, hs⟩ := hprefix
      exact haccept (.hex _) (.hex hx hdigits (htrim.trans hs)) fun _ => .inl rfl
    · have hsign : s.head? ≠ some '-' ∧ s.head? ≠ some '+' := by
        simp only [or_eq_true, decide_eq_true_eq, not_or] at hsigned
        exact hsigned.1
      rw [stripSign_of_head hsign]
      intro hnumber
      cases hexp : s.any isExponent with
      | true => exact haccept _ (spells_of_isNumber htrim hnumber hexp) fun h => by cases h
      | false =>
        rw [isNumber_eq_isSome hexp, Option.isSome_iff_exists] at hnumber
        obtain ⟨⟨integer, fraction⟩, hparts⟩ := hnumber
        exact haccept _ (.number (htrim.symm ▸ hparts)) fun _ => .inr ⟨integer, fraction, rfl⟩

theorem constantOperand_of_longNumber (F : Floats) (h : LongNumber (peeled text)) : constantOperand F text = .ok true := by
  obtain ⟨integer, fraction, hparts, -⟩ := h
  obtain ⟨hne, hall⟩ := all_of_numberParts hparts
  unfold constantOperand
  generalize peeled text = s at hparts hne hall
  obtain ⟨a, rest, hs⟩ := exists_cons_of_ne_nil hne
  have hkind : kindOf a = .digits := by
    rw [hs, all_cons, and_eq_true] at hall
    exact kindOf_of_digit hall.1
  have hkind' : ∀ {k : Kind}, k ≠ .digits → ¬∃ b rest', s = b :: rest' ∧ kindOf b = k := by
    rintro k hk ⟨b, rest', heq, hb⟩
    rw [hs] at heq
    cases heq
    exact hk (hb.symm.trans hkind)
  have hexp : s.any isExponent = false := by
    rw [any_eq_false]
    intro c hc he
    have := all_eq_true.1 hall c hc
    rcases isExponent_iff.1 he with rfl | rfl <;> revert this <;> decide
  have hsign : s.head? ≠ some '-' ∧ s.head? ≠ some '+' := by
    rw [hs]
    constructor
    · rintro ⟨⟩
      cases hkind
    · rintro ⟨⟩
      cases hkind
  have hcast : numericCast s = none := by
    rw [Option.eq_none_iff_forall_ne_some]
    rintro ⟨operand, ty⟩ hcast
    obtain ⟨target, hcasts, -⟩ := numericCast_eq_some_iff.1 hcast
    exact hkind' (by decide) hcasts.kind
  have hnull : ¬toAsciiLowercase s = "null".toList := by
    intro hnull
    obtain ⟨b, rest', heq, hb⟩ := exists_cons_of_lower hnull
    exact hkind' (by decide) ⟨b, rest', heq, kindOf_of_letter.2 hb⟩
  have hstring : stringBody s = none := by
    rw [Option.eq_none_iff_forall_ne_some]
    intro inner hinner
    obtain ⟨mark, hmark, heq⟩ := stringBody_eq_some hinner
    exact hkind' (by decide) (heq ▸ kind_of_mark hmark)
  have hhex : ¬(s.take 2 = "0x".toList || s.take 2 = "0X".toList) = true := by
    rw [or_eq_true, decide_eq_true_eq, decide_eq_true_eq]
    rintro (h | h)
    · have hx : 'x' ∈ s.take 2 := by
        rw [h]
        decide
      exact absurd (all_eq_true.1 hall 'x' (mem_of_mem_take hx)) (by decide)
    · have hx : 'X' ∈ s.take 2 := by
        rw [h]
        decide
      exact absurd (all_eq_true.1 hall 'X' (mem_of_mem_take hx)) (by decide)
  dsimp only
  rw [if_neg (by simpa using hne), if_neg (by simp [hsign, hcast]), if_neg hnull, hstring]
  dsimp only
  rw [if_neg hhex, stripSign_of_head hsign, isNumber_eq_isSome hexp, hparts]
  rfl

/-- A default's text spells a constant once its comments are spaces. -/
def Denotes (text : List Char) (c : Constant) : Prop := ∃ clean, Decommented text clean ∧ Spells clean c

/-- A default called constant is one constant, and where it is exact none of the engine's steps leaves its range. -/
def Evaluates (F : Floats) (text : List Char) : Prop :=
  isConstant F text = .ok true → (∃ c, Denotes text c) ∧ ∀ c, Denotes text c → c.exact → c.eval.isSome

/-- A number of more than 38 digits, in parentheses and comments at most. -/
def LongLiteral (text : List Char) : Prop := ∃ clean, Decommented text clean ∧ LongNumber (peeled clean)

theorem Decommented.unique {a b : List Char} (ha : Decommented text a) (hb : Decommented text b) : a = b := by
  rw [← constantTrivia_eq_some_iff le_rfl] at ha hb
  exact Option.some.inj (ha.symm.trans hb)

theorem not_evaluates_of_longLiteral (F : Floats) (h : LongLiteral text) : ¬Evaluates F text := by
  obtain ⟨clean, hclean, hlong⟩ := h
  intro hevaluates
  have hconstant : isConstant F text = .ok true := by
    rw [isConstant, (constantTrivia_eq_some_iff le_rfl).2 hclean]
    exact constantOperand_of_longNumber F hlong
  obtain ⟨⟨c, clean', hclean', hc⟩, hall⟩ := hevaluates hconstant
  obtain rfl := hclean'.unique hclean
  obtain ⟨integer, fraction, hparts, hlong⟩ := hlong
  obtain ⟨n, hn⟩ := Spells.of_peel (s := clean') (.number (by rw [← peeled, trim_peeled]; exact hparts))
  have hsome := hall _ ⟨clean', hclean', hn⟩ (by rw [Constant.exact_parens]; rfl)
  rw [Constant.eval_parens, Constant.eval, decimalValue_eq_none_iff.2 hlong] at hsome
  cases hsome

def noFloats : Floats where
  Float := Unit
  parse _ := ()
  ofExact _ _ := ()
  toReal x := x
  neg x := x
  isFinite _ := false

def nines : List Char := List.replicate 39 '9'

end Pbps.Rows
