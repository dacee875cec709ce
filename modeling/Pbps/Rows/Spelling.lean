/-
The texts that are one constant: a literal under parentheses, signs and casts, with comments for spaces. Such a text
spells one constant only, and what the constant is in the engine's exact arithmetic is its `eval`.
-/
import Pbps.Load.Reference
import Pbps.Rows.Exact

namespace Pbps.Rows

open TypeRef (trim lowerAscii)
open Load (trim_trim)
open List Option

/-- One constant, as a tree with one leaf. -/
inductive Constant where
  | paren (c : Constant)
  | sign (minus : Bool) (c : Constant)
  | cast (ty : ColumnType) (c : Constant)
  | null
  | string (s : List Char)
  | hex (digits : List Char)
  | number (integer fraction : List Char)
  | approximate (text : List Char)

namespace Constant

/-- The value, from the inside out; none where a step leaves its type's range or the engine has no such step. -/
def eval : Constant → Option Value
  | .paren c => c.eval
  | .sign minus c => c.eval.bind fun v => if minus then v.neg else v.pos
  | .cast ty c => c.eval.bind fun v => v.convert ty
  | .null => some .null
  | .string s => some (.text s)
  | .hex digits => some (.binary digits)
  | .number integer fraction => (decimalValue integer fraction).map (.exact (.decimal 38 fraction.length))
  | .approximate _ => none

def exact : Constant → Bool
  | .paren c | .sign _ c => c.exact
  | .cast ty c => !isApproximate ty.base && c.exact
  | .null | .string _ | .hex _ | .number .. => true
  | .approximate _ => false

def parens : ℕ → Constant → Constant
  | 0, c => c
  | n + 1, c => .paren (c.parens n)

@[simp] theorem eval_parens (n : ℕ) (c : Constant) : (c.parens n).eval = c.eval := by
  induction n with
  | zero => rfl
  | succ n ih => exact ih

@[simp] theorem exact_parens (n : ℕ) (c : Constant) : (c.parens n).exact = c.exact := by
  induction n with
  | zero => rfl
  | succ n ih => exact ih

end Constant

/-- The text of a cast: its operand, and the text of its target. -/
inductive Casts : List Char → List Char → List Char → Prop
  /-- `CAST`, around the last word `as`. -/
  | cast {word padded body as rest operand : List Char} (hword : toAsciiLowercase word = "cast".toList)
      (hpadded : trim padded = '(' :: (body ++ [')'])) (hbody : body = operand ++ as ++ rest)
      (has : toAsciiLowercase as = "as".toList) (hlast : splitAs body = some (operand, trim rest)) :
      Casts (word ++ padded) operand (trim rest)
  /-- `CONVERT`, around the first comma outside parentheses. -/
  | convert {word padded body ty operand : List Char} (hword : toAsciiLowercase word = "convert".toList)
      (hpadded : trim padded = '(' :: (body ++ [')'])) (hbody : body = ty ++ ',' :: operand)
      (hfirst : splitComma 0 body = some (ty, operand)) : Casts (word ++ padded) operand (trim ty)

def doubled (s : List Char) : List Char := s.flatMap fun c => if c = '\'' then ['\'', '\''] else [c]

/-- A text that is one constant, with spaces around any part of it. -/
inductive Spells : List Char → Constant → Prop
  | paren {s inner : List Char} {c : Constant} (hs : trim s = '(' :: (inner ++ [')'])) (h : Spells inner c) :
      Spells s (.paren c)
  | sign {s operand : List Char} {c : Constant} (minus : Bool) (hs : trim s = (if minus then '-' else '+') :: operand)
      (h : Spells operand c) : Spells s (.sign minus c)
  | cast {s operand target : List Char} {ty : ColumnType} {c : Constant} (hs : Casts (trim s) operand target)
      (hty : readTarget target = some ty) (h : Spells operand c) : Spells s (.cast ty c)
  | null {s : List Char} (hs : toAsciiLowercase (trim s) = "null".toList) : Spells s .null
  | string {s mark value : List Char} (hmark : mark = [] ∨ mark = ['N'] ∨ mark = ['n'])
      (hs : trim s = mark ++ '\'' :: (doubled value ++ ['\''])) : Spells s (.string value)
  | hex {s digits : List Char} {x : Char} (hx : x = 'x' ∨ x = 'X') (hdigits : digits.all isAsciiHexdigit)
      (hs : trim s = '0' :: x :: digits) : Spells s (.hex digits)
  | number {s integer fraction : List Char} (hs : numberParts (trim s) = some (integer, fraction)) :
      Spells s (.number integer fraction)
  | approximate {s mantissa exponent : List Char} {e : Char} (he : e = 'e' ∨ e = 'E')
      (hmantissa : mantissa.all fun c => isAsciiDigit c || c = '.') (hne : mantissa ≠ [])
      (hs : trim s = mantissa ++ e :: exponent) : Spells s (.approximate (trim s))

/-- A text with its comments as spaces. -/
inductive Decommented : List Char → List Char → Prop
  | nil : Decommented [] []
  /-- What stands between quotes or brackets is no comment. -/
  | region {c : Char} {cs region rest out : List Char} (hc : c = '\'' ∨ c = '[')
      (hregion : takeRegion (if c = '[' then ']' else '\'') cs = some (region, rest)) (h : Decommented rest out) :
      Decommented (c :: cs) (c :: region ++ out)
  | line {cs out : List Char} (h : Decommented (skipLine cs) out) : Decommented ('-' :: '-' :: cs) (' ' :: out)
  | block {cs rest out : List Char} (hblock : skipBlock 1 cs = some rest) (h : Decommented rest out) :
      Decommented ('/' :: '*' :: cs) (' ' :: out)
  | char {c : Char} {cs out : List Char} (hregion : c ≠ '\'' ∧ c ≠ '[') (hline : ¬(c = '-' ∧ cs.head? = some '-'))
      (hblock : ¬(c = '/' ∧ cs.head? = some '*')) (h : Decommented cs out) : Decommented (c :: cs) (c :: out)

/-! ## Comments -/

variable {cs body digits mantissa exponent : List Char} {r : List Char × List Char} {d : Constant} {e : Char}

theorem takeRegion_length {close : Char} (h : takeRegion close cs = some r) : r.2.length < cs.length := by
  fun_induction takeRegion close cs generalizing r with
  | case1 => cases h
  | case2 cs ih =>
    obtain ⟨r', hr', rfl⟩ := map_eq_some_iff.1 h
    have := ih hr'
    simp only [length_cons]
    omega
  | case3 d cs hne =>
    cases h
    simp
  | case4 =>
    cases h
    simp
  | case5 c cs hne ih =>
    obtain ⟨r', hr', rfl⟩ := map_eq_some_iff.1 h
    have := ih hr'
    simp only [length_cons]
    omega

theorem skipLine_length (cs : List Char) : (skipLine cs).length ≤ cs.length := by
  fun_induction skipLine cs with
  | case1 => rfl
  | case2 c cs h => simp
  | case3 c cs h ih =>
    simp only [length_cons]
    omega

theorem skipBlock_length {depth : ℕ} {rest : List Char} (h : skipBlock depth cs = some rest) : rest.length ≤ cs.length := by
  fun_induction skipBlock depth cs with
  | case1 cs => cases h; rfl
  | case2 => cases h
  | case3 depth cs ih =>
    have := ih h
    simp only [length_cons]
    omega
  | case4 depth cs ih =>
    have := ih h
    simp only [length_cons]
    omega
  | case5 depth c cs hopen hclose ih =>
    have := ih h
    simp only [length_cons]
    omega

/-- The reader replaces comments by spaces, and a text's length is steps enough for it. -/
theorem constantTrivia_eq_some_iff {fuel : ℕ} {text clean : List Char} (hfuel : text.length ≤ fuel) :
    constantTrivia fuel text = some clean ↔ Decommented text clean := by
  induction fuel generalizing text clean with
  | zero =>
    obtain rfl := eq_nil_of_length_eq_zero (Nat.le_zero.1 hfuel)
    constructor
    · rintro h
      cases h
      exact .nil
    · rintro ⟨⟩
      rfl
  | succ fuel ih =>
    cases text with
    | nil =>
      constructor
      · rintro h
        cases h
        exact .nil
      · rintro ⟨⟩
        rfl
    | cons c cs =>
      rw [length_cons] at hfuel
      unfold constantTrivia
      by_cases hregion : c = '\'' ∨ c = '['
      · rw [if_pos (by simpa using hregion)]
        constructor
        · intro h
          obtain ⟨r, hr, hmap⟩ := bind_eq_some_iff.1 h
          obtain ⟨out, hout, rfl⟩ := map_eq_some_iff.1 hmap
          have hlength := takeRegion_length hr
          exact .region hregion hr ((ih (by omega)).1 hout)
        · rintro (_ | ⟨-, hr, h⟩ | h | ⟨-, h⟩ | ⟨hc, -, -, h⟩)
          · have hlength := takeRegion_length hr
            dsimp only at hlength
            rw [hr, bind_some, (ih (by omega)).2 h]
            rfl
          · simp at hregion
          · simp at hregion
          · tauto
      rw [if_neg (by simpa using hregion)]
      by_cases hline : c = '-' ∧ cs.head? = some '-'
      · rw [if_pos (by simpa using hline)]
        obtain ⟨rfl, hhead⟩ := hline
        obtain ⟨cs, rfl⟩ := head?_eq_some_iff.1 hhead
        rw [length_cons] at hfuel
        have hlength := skipLine_length cs
        rw [tail_cons]
        constructor
        · intro h
          obtain ⟨out, hout, rfl⟩ := map_eq_some_iff.1 h
          exact .line ((ih (by omega)).1 hout)
        · rintro (_ | ⟨hc, hr, h⟩ | h | ⟨-, h⟩ | ⟨-, hc, -, h⟩)
          · simp at hc
          · rw [(ih (by omega)).2 h]
            rfl
          · simp at hc
      rw [if_neg (by simpa using hline)]
      by_cases hblock : c = '/' ∧ cs.head? = some '*'
      · rw [if_pos (by simpa using hblock)]
        obtain ⟨rfl, hhead⟩ := hblock
        obtain ⟨cs, rfl⟩ := head?_eq_some_iff.1 hhead
        rw [length_cons] at hfuel
        rw [tail_cons]
        constructor
        · intro h
          obtain ⟨rest, hrest, hmap⟩ := bind_eq_some_iff.1 h
          obtain ⟨out, hout, rfl⟩ := map_eq_some_iff.1 hmap
          have hlength := skipBlock_length hrest
          exact .block hrest ((ih (by omega)).1 hout)
        · rintro (_ | ⟨hc, hr, h⟩ | h | ⟨hrest, h⟩ | ⟨-, -, hc, h⟩)
          · simp at hc
          · have hlength := skipBlock_length hrest
            rw [hrest, bind_some, (ih (by omega)).2 h]
            rfl
          · simp at hc
      rw [if_neg (by simpa using hblock)]
      constructor
      · intro h
        obtain ⟨out, hout, rfl⟩ := map_eq_some_iff.1 h
        exact .char (not_or.1 hregion) hline hblock ((ih (by omega)).1 hout)
      · rintro (_ | ⟨hc, hr, h⟩ | h | ⟨-, h⟩ | ⟨-, -, -, h⟩)
        · exact absurd hc hregion
        · simp at hline
        · simp at hblock
        · rw [(ih (by omega)).2 h]
          rfl

/-! ## Parentheses and casts -/

variable {s operand mark : List Char} {c : Constant} {x : Char}

theorem unparen_eq_some_iff {inner : List Char} : unparen s = some inner ↔ s = '(' :: (inner ++ [')']) := by
  unfold unparen
  constructor
  · intro h
    split at h
    · split_ifs at h with hlast
      cases h
      obtain ⟨inner, rfl⟩ := getLast?_eq_some_iff.1 hlast
      rw [dropLast_concat]
    · cases h
  · rintro rfl
    simp

theorem splitAs_eq {ty : List Char} (h : splitAs body = some (operand, ty)) :
    ∃ as rest, body = operand ++ as ++ rest ∧ toAsciiLowercase as = "as".toList ∧ ty = trim rest := by
  obtain ⟨i, hi, he⟩ := map_eq_some_iff.1 h
  have hfound := find?_some hi
  simp only [Bool.and_eq_true, decide_eq_true_eq] at hfound
  cases he
  refine ⟨(body.drop i).take 2, body.drop (i + 2), ?_, hfound.1.1, rfl⟩
  rw [append_assoc, ← drop_drop, take_append_drop, take_append_drop]

theorem splitComma_eq {n : ℕ} (h : splitComma n body = some r) : body = r.1 ++ ',' :: r.2 := by
  fun_induction splitComma n body generalizing r with
  | case1 => cases h
  | case2 n cs ih =>
    obtain ⟨r', hr', rfl⟩ := map_eq_some_iff.1 h
    rw [ih hr']
    rfl
  | case3 n cs hc ih =>
    obtain ⟨r', hr', rfl⟩ := map_eq_some_iff.1 h
    rw [ih hr']
    rfl
  | case4 n c cs hc hc' hcomma =>
    cases h
    simp only [Bool.and_eq_true, decide_eq_true_eq] at hcomma
    rw [hcomma.1]
    rfl
  | case5 n c cs hc hc' hcomma ih =>
    obtain ⟨r', hr', rfl⟩ := map_eq_some_iff.1 h
    rw [ih hr']
    rfl

theorem numericCast_eq_some_iff {ty : ColumnType} :
    numericCast s = some (operand, ty) ↔ ∃ target, Casts s operand target ∧ readTarget target = some ty := by
  unfold numericCast
  dsimp only
  constructor
  · intro h
    obtain ⟨⟨operand', target⟩, hr, hmap⟩ := bind_eq_some_iff.1 h
    obtain ⟨ty', hty, he⟩ := map_eq_some_iff.1 hmap
    cases he
    refine ⟨target, ?_, hty⟩
    rcases or_eq_some_iff.1 hr with hcast | ⟨-, hconvert⟩
    · split_ifs at hcast with hword
      obtain ⟨body, hbody, hsplit⟩ := bind_eq_some_iff.1 hcast
      obtain ⟨as, rest, heq, has, rfl⟩ := splitAs_eq hsplit
      have := Casts.cast hword (unparen_eq_some_iff.1 hbody) heq has hsplit
      rwa [take_append_drop] at this
    · split_ifs at hconvert with hword
      obtain ⟨⟨ty', operand'⟩, hsplit, he⟩ := map_eq_some_iff.1 hconvert
      cases he
      obtain ⟨body, hbody, hsplit⟩ := bind_eq_some_iff.1 hsplit
      have := Casts.convert hword (unparen_eq_some_iff.1 hbody) (splitComma_eq hsplit) hsplit
      rwa [take_append_drop] at this
  · rintro ⟨target, hcasts, hty⟩
    cases hcasts with
    | @cast word padded body as rest _ hword hpadded hbody has hlast =>
      have hlen : word.length = 4 := by simpa [toAsciiLowercase] using congrArg List.length hword
      rw [← hlen, take_left, drop_left, if_pos hword, unparen_eq_some_iff.2 hpadded, bind_some, hlast,
        some_or, bind_some, hty]
      rfl
    | @convert word padded body ty _ hword hpadded hbody hfirst =>
      have hlen : word.length = 7 := by simpa [toAsciiLowercase] using congrArg List.length hword
      have hcast : ¬toAsciiLowercase ((word ++ padded).take 4) = "cast".toList := by
        rw [take_append_of_le_length (by omega), toAsciiLowercase, map_take, ← toAsciiLowercase, hword]
        decide
      rw [if_neg hcast, none_or, ← hlen, take_left, drop_left, if_pos hword, unparen_eq_some_iff.2 hpadded,
        bind_some, hfirst, map_some, bind_some, hty]
      rfl

theorem Spells.of_trim (h : Spells (trim s) c) : Spells s c := by
  cases h with
  | paren hs h => exact .paren (by rwa [trim_trim] at hs) h
  | sign minus hs h => exact .sign minus (by rwa [trim_trim] at hs) h
  | cast hs hty h => exact .cast (by rwa [trim_trim] at hs) hty h
  | null hs => exact .null (by rwa [trim_trim] at hs)
  | string hmark hs => exact .string hmark (by rwa [trim_trim] at hs)
  | hex hx hdigits hs => exact .hex hx hdigits (by rwa [trim_trim] at hs)
  | number hs => exact .number (by rwa [trim_trim] at hs)
  | approximate he hmantissa hne hs =>
    rw [trim_trim] at hs ⊢
    exact .approximate he hmantissa hne hs

theorem Spells.of_peel {fuel : ℕ} (h : Spells (peel fuel (trim s)) c) : ∃ n, Spells s (c.parens n) := by
  induction fuel generalizing s with
  | zero => exact ⟨0, h.of_trim⟩
  | succ fuel ih =>
    unfold peel at h
    split at h
    · rename_i inner hinner
      obtain ⟨n, hn⟩ := ih h
      exact ⟨n + 1, .paren (unparen_eq_some_iff.1 hinner) hn⟩
    · exact ⟨0, h.of_trim⟩

theorem trim_length (s : List Char) : (trim s).length ≤ s.length := (Load.trim_sublist s).length_le

theorem peel_done {fuel : ℕ} (hfuel : s.length ≤ fuel) (hs : trim s = s) :
    unparen (peel fuel s) = none ∧ trim (peel fuel s) = peel fuel s := by
  induction fuel generalizing s with
  | zero =>
    obtain rfl := eq_nil_of_length_eq_zero (Nat.le_zero.1 hfuel)
    exact ⟨rfl, rfl⟩
  | succ fuel ih =>
    unfold peel
    split
    · rename_i inner hinner
      have hlen := congrArg List.length (unparen_eq_some_iff.1 hinner)
      have htrim := trim_length inner
      simp only [length_cons, length_append, length_nil] at hlen
      exact ih (by omega) (trim_trim inner)
    · rename_i hnone
      exact ⟨hnone, hs⟩

theorem trim_peeled (s : List Char) : trim (peeled s) = peeled s := (peel_done (trim_length s) (trim_trim s)).2

/-! ## One reading -/

/-- The kinds of constant that the first character of a text tells apart. -/
inductive Kind where
  | paren
  | sign
  | cast
  | word
  | digits
  deriving DecidableEq

def Constant.kind : Constant → Kind
  | .paren _ => .paren
  | .sign .. => .sign
  | .cast .. => .cast
  | .null | .string _ => .word
  | .hex _ | .number .. | .approximate _ => .digits

def kindOf (c : Char) : Kind :=
  if c = '(' then .paren
  else if c = '-' || c = '+' then .sign
  else if lowerAscii c = 'c' then .cast
  else if lowerAscii c = 'n' || c = '\'' then .word
  else .digits

theorem kindOf_of_digit {c : Char} (h : isAsciiDigit c || c = '.') : kindOf c = .digits := by
  have hc : c ≠ '(' ∧ c ≠ '-' ∧ c ≠ '+' ∧ lowerAscii c ≠ 'c' ∧ lowerAscii c ≠ 'n' ∧ c ≠ '\'' := by
    have hlow : lowerAscii c = c := by
      rcases Bool.or_eq_true_iff.1 h with h | h
      · have hle : c ≤ '9' := by
          simp only [isAsciiDigit, Bool.and_eq_true, decide_eq_true_eq] at h
          exact h.2
        have hA : ¬ 'A' ≤ c := fun hA => absurd (Char.le_trans hA hle) (by decide)
        simp [lowerAscii, hA]
      · rw [of_decide_eq_true h]
        decide
    rw [hlow]
    refine ⟨?_, ?_, ?_, ?_, ?_, ?_⟩ <;> (rintro rfl; revert h; decide)
  simp [kindOf, hc]

theorem kindOf_of_letter {a : Char} : (lowerAscii a = 'c' → kindOf a = .cast) ∧ (lowerAscii a = 'n' → kindOf a = .word) := by
  have hne : ∀ b, lowerAscii b = b → ∀ x, lowerAscii a = x → b ≠ x → a ≠ b := by
    rintro b hb x hx hbx rfl
    exact hbx (hb.symm.trans hx)
  constructor
  · intro h
    have h1 := hne '(' (by decide) 'c' h (by decide)
    have h2 := hne '-' (by decide) 'c' h (by decide)
    have h3 := hne '+' (by decide) 'c' h (by decide)
    simp [kindOf, h1, h2, h3, h]
  · intro h
    have h1 := hne '(' (by decide) 'n' h (by decide)
    have h2 := hne '-' (by decide) 'n' h (by decide)
    have h3 := hne '+' (by decide) 'n' h (by decide)
    simp [kindOf, h1, h2, h3, h]

theorem exists_cons_of_lower {word : List Char} (h : toAsciiLowercase s = x :: word) :
    ∃ a rest, s = a :: rest ∧ lowerAscii a = x := by
  obtain ⟨a, rest, rfl, ha, -⟩ := map_eq_cons_iff.1 h
  exact ⟨a, rest, rfl, ha⟩

theorem mem_splitDot {c : Char} (hc : c ∈ s) : c ∈ (splitDot s).1 ++ (splitDot s).2 ∨ c = '.' := by
  unfold splitDot
  induction s with
  | nil => cases hc
  | cons a s ih =>
    by_cases ha : a = '.'
    · rw [takeWhile_cons_of_neg (by simpa using ha), dropWhile_cons_of_neg (by simpa using ha)]
      rcases mem_cons.1 hc with rfl | hc
      · exact .inr ha
      · exact .inl hc
    · rw [takeWhile_cons_of_pos (by simpa using ha), dropWhile_cons_of_pos (by simpa using ha)]
      rcases mem_cons.1 hc with rfl | hc
      · exact .inl mem_cons_self
      · exact (ih hc).imp_left (mem_cons_of_mem _)

theorem all_of_numberParts {parts : List Char × List Char} (h : numberParts s = some parts) :
    s ≠ [] ∧ s.all fun c => isAsciiDigit c || c = '.' := by
  unfold numberParts at h
  dsimp only at h
  split_ifs at h with hbad
  rw [Bool.not_eq_true, Bool.or_eq_false_iff] at hbad
  constructor
  · rintro rfl
    exact absurd hbad.1 (by decide)
  · rw [List.all_eq_true]
    intro c hc
    have hall : ((splitDot s).1 ++ (splitDot s).2).all isAsciiDigit = true := by simpa using hbad.2
    rcases mem_splitDot hc with hc | hc
    · rw [List.all_eq_true.1 hall c hc]
      rfl
    · simp [hc]

theorem Casts.kind {target : List Char} (h : Casts s operand target) : ∃ a rest, s = a :: rest ∧ kindOf a = .cast := by
  cases h with
  | cast hword =>
    obtain ⟨a, rest, rfl, ha⟩ := exists_cons_of_lower hword
    exact ⟨a, _, rfl, kindOf_of_letter.1 ha⟩
  | convert hword =>
    obtain ⟨a, rest, rfl, ha⟩ := exists_cons_of_lower hword
    exact ⟨a, _, rfl, kindOf_of_letter.1 ha⟩

theorem kind_of_mark (hmark : mark = [] ∨ mark = ['N'] ∨ mark = ['n']) :
    ∃ a rest, mark ++ '\'' :: s = a :: rest ∧ kindOf a = .word := by
  rcases hmark with rfl | rfl | rfl
  · exact ⟨_, _, rfl, rfl⟩
  · exact ⟨_, _, rfl, rfl⟩
  · exact ⟨_, _, rfl, rfl⟩

theorem Spells.kind (h : Spells s c) : ∃ a rest, trim s = a :: rest ∧ kindOf a = c.kind := by
  cases h with
  | paren hs h => exact ⟨_, _, hs, rfl⟩
  | sign minus hs h => exact ⟨_, _, hs, by cases minus <;> rfl⟩
  | cast hs hty h => exact hs.kind
  | null hs =>
    obtain ⟨a, rest, heq, ha⟩ := exists_cons_of_lower hs
    exact ⟨a, rest, heq, kindOf_of_letter.2 ha⟩
  | string hmark hs => exact hs ▸ kind_of_mark hmark
  | hex hx hdigits hs => exact ⟨_, _, hs, rfl⟩
  | number hs =>
    obtain ⟨hne, hall⟩ := all_of_numberParts hs
    obtain ⟨a, rest, heq⟩ := exists_cons_of_ne_nil hne
    rw [heq, all_cons, Bool.and_eq_true] at hall
    exact ⟨a, rest, heq, kindOf_of_digit hall.1⟩
  | @approximate _ mantissa _ _ he hmantissa hne hs =>
    obtain ⟨a, mantissa, rfl⟩ := exists_cons_of_ne_nil hne
    rw [all_cons, Bool.and_eq_true] at hmantissa
    exact ⟨a, _, hs, kindOf_of_digit hmantissa.1⟩

theorem Spells.kind_eq (h : Spells s c) (h' : Spells s d) : c.kind = d.kind := by
  obtain ⟨a, rest, heq, ha⟩ := h.kind
  obtain ⟨b, rest', heq', hb⟩ := h'.kind
  rw [heq] at heq'
  cases heq'
  rw [← ha, hb]

theorem doubled_cons (c : Char) (cs : List Char) :
    doubled (c :: cs) = (if c = '\'' then ['\'', '\''] else [c]) ++ doubled cs := flatMap_cons

theorem doubled_injective : Function.Injective doubled := by
  intro a b h
  induction a generalizing b with
  | nil =>
    cases b with
    | nil => rfl
    | cons d ds =>
      rw [doubled_cons] at h
      split_ifs at h <;> simp [doubled] at h
  | cons c cs ih =>
    cases b with
    | nil =>
      rw [doubled_cons] at h
      split_ifs at h <;> simp [doubled] at h
    | cons d ds =>
      rw [doubled_cons, doubled_cons] at h
      have hhead : ∀ a as, ((if a = '\'' then ['\'', '\''] else [a]) ++ doubled as).head? = some a := by
        intro a as
        split_ifs with ha
        · rw [ha]
          rfl
        · rfl
      have hcd := congrArg List.head? h
      rw [hhead, hhead] at hcd
      cases hcd
      rw [ih (append_cancel_left h)]

theorem not_null_of_mark (hmark : mark = [] ∨ mark = ['N'] ∨ mark = ['n']) :
    toAsciiLowercase (mark ++ '\'' :: s) ≠ "null".toList := by
  intro h
  rcases hmark with rfl | rfl | rfl
  · exact absurd (cons.inj h).1 (by decide)
  · exact absurd (cons.inj (cons.inj h).2).1 (by decide)
  · exact absurd (cons.inj (cons.inj h).2).1 (by decide)

theorem mark_unique {mark' s' : List Char} (hmark : mark = [] ∨ mark = ['N'] ∨ mark = ['n'])
    (hmark' : mark' = [] ∨ mark' = ['N'] ∨ mark' = ['n']) (h : mark ++ '\'' :: s = mark' ++ '\'' :: s') : s = s' := by
  rcases hmark with rfl | rfl | rfl <;> rcases hmark' with rfl | rfl | rfl <;> simp_all

theorem numberParts_hex (hx : x = 'x' ∨ x = 'X') : numberParts ('0' :: x :: digits) = none := by
  by_contra h
  obtain ⟨parts, hparts⟩ := ne_none_iff_exists'.1 h
  have hall := (all_of_numberParts hparts).2
  rw [List.all_eq_true] at hall
  have := hall x (by simp)
  rcases hx with rfl | rfl <;> revert this <;> decide

theorem numberParts_exponent (he : e = 'e' ∨ e = 'E') : numberParts (mantissa ++ e :: exponent) = none := by
  by_contra h
  obtain ⟨parts, hparts⟩ := ne_none_iff_exists'.1 h
  have hall := (all_of_numberParts hparts).2
  rw [List.all_eq_true] at hall
  have := hall e (by simp)
  rcases he with rfl | rfl <;> revert this <;> decide

theorem hex_ne_exponent (hx : x = 'x' ∨ x = 'X') (he : e = 'e' ∨ e = 'E')
    (hmantissa : mantissa.all fun c => isAsciiDigit c || c = '.') (hne : mantissa ≠ []) :
    '0' :: x :: digits ≠ mantissa ++ e :: exponent := by
  intro h
  obtain ⟨a, mantissa, rfl⟩ := exists_cons_of_ne_nil hne
  rw [cons_append, cons.injEq] at h
  cases mantissa with
  | nil =>
    obtain ⟨rfl, -⟩ := cons.inj h.2
    rcases hx with rfl | rfl <;> revert he <;> decide
  | cons b mantissa =>
    obtain ⟨rfl, -⟩ := cons.inj h.2
    have := List.all_eq_true.1 hmantissa x (by simp)
    rcases hx with rfl | rfl <;> revert this <;> decide

theorem Spells.unique (h : Spells s c) (h' : Spells s d) : c = d := by
  have hkind := h.kind_eq h'
  induction h generalizing d with
  | @paren s inner c hs h ih =>
    cases h' with
    | paren hs' h' =>
      rw [hs] at hs'
      cases append_cancel_right (cons.inj hs').2
      rw [ih h' (h.kind_eq h')]
    | _ => cases hkind
  | @sign s operand c minus hs h ih =>
    cases h' with
    | sign minus' hs' h' =>
      rw [hs, cons.injEq] at hs'
      obtain ⟨hsign, rfl⟩ := hs'
      have hminus : minus = minus' := by
        revert hsign
        cases minus <;> cases minus' <;> decide
      rw [ih h' (h.kind_eq h'), hminus]
    | _ => cases hkind
  | @cast s operand target ty c hs hty h ih =>
    cases h' with
    | cast hs' hty' h' =>
      have hread := numericCast_eq_some_iff.2 ⟨_, hs, hty⟩
      rw [numericCast_eq_some_iff.2 ⟨_, hs', hty'⟩] at hread
      cases hread
      rw [ih h' (h.kind_eq h')]
    | _ => cases hkind
  | @null s hs =>
    cases h' with
    | null hs' => rfl
    | string hmark hs' => exact absurd (hs' ▸ hs) (not_null_of_mark hmark)
    | _ => cases hkind
  | @string s mark value hmark hs =>
    cases h' with
    | string hmark' hs' =>
      have h := mark_unique hmark hmark' (hs.symm.trans hs')
      rw [doubled_injective (append_cancel_right h)]
    | null hs' => exact absurd (hs ▸ hs') (not_null_of_mark hmark)
    | _ => cases hkind
  | @hex s digits x hx hdigits hs =>
    cases h' with
    | hex hx' hdigits' hs' =>
      rw [hs] at hs'
      cases hs'
      rfl
    | number hs' =>
      rw [hs, numberParts_hex hx] at hs'
      cases hs'
    | approximate he hm hne hs' => exact absurd (hs.symm.trans hs') (hex_ne_exponent hx he hm hne)
    | _ => cases hkind
  | @number s integer fraction hs =>
    cases h' with
    | hex hx' hdigits' hs' =>
      rw [hs', numberParts_hex hx'] at hs
      cases hs
    | number hs' =>
      rw [hs] at hs'
      cases hs'
      rfl
    | approximate he hm hne hs' =>
      rw [hs', numberParts_exponent he] at hs
      cases hs
    | _ => cases hkind
  | @approximate s mantissa exponent e he hmantissa hne hs =>
    cases h' with
    | hex hx' hdigits' hs' => exact absurd (hs'.symm.trans hs) (hex_ne_exponent hx' he hmantissa hne)
    | number hs' =>
      rw [hs, numberParts_exponent he] at hs'
      cases hs'
    | approximate he hm hne hs' => rfl
    | _ => cases hkind

end Pbps.Rows
