/-
The words of a type's spelling, and where `array` is one of them. A parenthesis or a comma joins the words beside it,
a space parts them, so a text between marks spells `array` by its own words alone.
-/
import Mathlib.Data.Bool.AllAny
import Pbps.Load.Reference
import Pbps.Types.Parse

namespace Pbps

open TypeRef (trim)
open Load (trim_eq trim_front)
open List

namespace Words

/-! ## Pieces between spaces -/

theorem splitOnP_append {α : Type} {p : α → Bool} (y : List α) : ∀ x : List α, ∃ front last first rest,
    x.splitOnP p = front ++ [last] ∧ y.splitOnP p = first :: rest ∧ (x ++ y).splitOnP p = front ++ (last ++ first) :: rest
  | [] => by
    obtain ⟨first, rest, h⟩ := exists_cons_of_ne_nil (splitOnP_ne_nil p y)
    exact ⟨[], [], first, rest, rfl, h, h⟩
  | c :: x => by
    obtain ⟨front, last, first, rest, hx, hy, hxy⟩ := splitOnP_append (p := p) y x
    rw [cons_append, splitOnP_cons_eq_if_modifyHead, splitOnP_cons_eq_if_modifyHead, hx, hy, hxy]
    by_cases hc : p c = true
    · rw [if_pos hc, if_pos hc]
      exact ⟨[] :: front, last, first, rest, rfl, rfl, rfl⟩
    · rw [if_neg hc, if_neg hc]
      cases front with
      | nil => exact ⟨[], c :: last, first, rest, rfl, rfl, rfl⟩
      | cons f front => exact ⟨(c :: f) :: front, last, first, rest, rfl, rfl, rfl⟩

variable {c : Char} {w s x : List Char}

theorem splitWhitespace_append_space (hc : isWhitespace c = true) (x y : List Char) :
    splitWhitespace (x ++ c :: y) = splitWhitespace x ++ splitWhitespace y := by
  rw [splitWhitespace, splitOnP_append_cons x y hc, filter_append]
  rfl

theorem splitWhitespace_cons_space (hc : isWhitespace c = true) (y : List Char) :
    splitWhitespace (c :: y) = splitWhitespace y := by
  have h := splitWhitespace_append_space hc [] y
  rwa [nil_append] at h

theorem splitWhitespace_word (hne : w ≠ []) (hw : ∀ c ∈ w, isWhitespace c = false) : splitWhitespace w = [w] := by
  rw [splitWhitespace, splitOnP_eq_singleton hw, filter_cons_of_pos (by simp [hne]), filter_nil]

theorem of_mem_splitOnP (h : w ∈ s.splitOnP isWhitespace) : ∀ c ∈ w, c ∈ s ∧ isWhitespace c = false := by
  induction s generalizing w with
  | nil =>
    rw [splitOnP_nil, mem_singleton] at h
    simp [h]
  | cons d s ih =>
    obtain ⟨first, rest, hs⟩ := exists_cons_of_ne_nil (splitOnP_ne_nil isWhitespace s)
    rw [hs] at ih
    rw [splitOnP_cons_eq_if_modifyHead, hs, modifyHead_cons] at h
    have hlater : ∀ {w}, w ∈ first :: rest → ∀ c ∈ w, c ∈ d :: s ∧ isWhitespace c = false := fun hw c hc =>
      ⟨mem_cons_of_mem _ (ih hw c hc).1, (ih hw c hc).2⟩
    by_cases hd : isWhitespace d = true
    · rw [if_pos hd, mem_cons] at h
      rcases h with rfl | h
      · simp
      · exact hlater h
    · rw [if_neg hd, mem_cons] at h
      rcases h with rfl | h
      · rw [forall_mem_cons]
        exact ⟨⟨mem_cons_self, by simpa using hd⟩, hlater mem_cons_self⟩
      · exact hlater (mem_cons_of_mem _ h)

theorem of_mem_splitWhitespace (h : w ∈ splitWhitespace s) : w ≠ [] ∧ ∀ c ∈ w, c ∈ s ∧ isWhitespace c = false := by
  rw [splitWhitespace, mem_filter] at h
  exact ⟨by simpa using h.2, of_mem_splitOnP h.1⟩

theorem splitWhitespace_intercalate : ∀ {ws : List (List Char)}, (∀ w ∈ ws, w ≠ [] ∧ ∀ c ∈ w, isWhitespace c = false) →
    splitWhitespace ([' '].intercalate ws) = ws
  | [], _ => rfl
  | [w], h => by
    rw [intercalate_singleton]
    exact splitWhitespace_word (h w (by simp)).1 (h w (by simp)).2
  | w :: v :: ws, h => by
    obtain ⟨hw, h⟩ := forall_mem_cons.1 h
    rw [intercalate_cons_cons, append_assoc, singleton_append, splitWhitespace_append_space (by decide),
      splitWhitespace_word hw.1 hw.2, splitWhitespace_intercalate h]
    rfl

/-! ## The word `array` -/

/-- Whether `array` is one of a text's words. -/
def HasArray (s : List Char) : Prop := ∃ w ∈ splitWhitespace s, toAsciiLowercase w = "array".toList

instance (s : List Char) : Decidable (HasArray s) := inferInstanceAs (Decidable (∃ w ∈ splitWhitespace s, _))

def isMark (c : Char) : Bool := ['(', ',', ')'].contains c

theorem isWhitespace_of_isMark (hc : isMark c = true) : isWhitespace c = false := by
  have hall : ∀ c ∈ ['(', ',', ')'], isWhitespace c = false := all_iff_forall_prop.1 (by decide)
  exact hall c (by simpa [isMark] using hc)

theorem ne_array_of_isMark (hc : isMark c = true) (l r : List Char) : toAsciiLowercase (l ++ c :: r) ≠ "array".toList := by
  have hall : ∀ c ∈ ['(', ',', ')'], TypeRef.lowerAscii c ∉ "array".toList := all_iff_forall_prop.1 (by decide)
  intro h
  apply hall c (by simpa [isMark] using hc)
  rw [← h, toAsciiLowercase]
  exact mem_map_of_mem (by simp)

theorem hasArray_iff : HasArray s ↔ ∃ w ∈ s.splitOnP isWhitespace, toAsciiLowercase w = "array".toList := by
  constructor
  · rintro ⟨w, hw, h⟩
    exact ⟨w, (mem_filter.1 hw).1, h⟩
  · rintro ⟨w, hw, h⟩
    refine ⟨w, mem_filter.2 ⟨hw, ?_⟩, h⟩
    cases w with
    | nil => exact absurd h (by decide)
    | cons c w => rfl

theorem hasArray_append_space (hc : isWhitespace c = true) (x y : List Char) :
    HasArray (x ++ c :: y) ↔ HasArray x ∨ HasArray y := by
  simp only [HasArray, splitWhitespace_append_space hc, mem_append, or_and_right, exists_or]

theorem hasArray_cons_space (hc : isWhitespace c = true) (y : List Char) : HasArray (c :: y) ↔ HasArray y := by
  rw [HasArray, HasArray, splitWhitespace_cons_space hc]

section

variable (hc : isMark c = true)
include hc

theorem hasArray_append_mark_iff (x y : List Char) :
    HasArray (x ++ c :: y) ↔ (∃ w ∈ (x.splitOnP isWhitespace).dropLast, toAsciiLowercase w = "array".toList) ∨
      ∃ w ∈ (y.splitOnP isWhitespace).tail, toAsciiLowercase w = "array".toList := by
  obtain ⟨front, last, first, rest, hx, hy, hxy⟩ := splitOnP_append (p := isWhitespace) (c :: y) x
  obtain ⟨first', rest', hy'⟩ := exists_cons_of_ne_nil (splitOnP_ne_nil isWhitespace y)
  rw [splitOnP_cons_eq_if_modifyHead, if_neg (by simp [isWhitespace_of_isMark hc]), hy', modifyHead_cons] at hy
  obtain ⟨rfl, rfl⟩ := cons.inj hy
  simp only [hasArray_iff, hxy, hx, hy', dropLast_concat, tail_cons, mem_append, mem_cons, or_and_right,
    exists_or, exists_eq_left, ne_array_of_isMark hc, false_or]

theorem hasArray_append_mark_nil (x : List Char) :
    HasArray (x ++ [c]) ↔ ∃ w ∈ (x.splitOnP isWhitespace).dropLast, toAsciiLowercase w = "array".toList := by
  rw [hasArray_append_mark_iff hc, splitOnP_nil]
  simp

theorem hasArray_cons_mark (y : List Char) :
    HasArray (c :: y) ↔ ∃ w ∈ (y.splitOnP isWhitespace).tail, toAsciiLowercase w = "array".toList := by
  have h := hasArray_append_mark_iff hc [] y
  rw [splitOnP_nil] at h
  simpa using h

theorem hasArray_append_mark (x y : List Char) : HasArray (x ++ c :: y) ↔ HasArray (x ++ ['(']) ∨ HasArray ('(' :: y) := by
  rw [hasArray_append_mark_iff hc, hasArray_append_mark_nil (by decide), hasArray_cons_mark (by decide)]

end

theorem hasArray_of_append_mark_nil (h : HasArray (x ++ ['('])) : HasArray x := by
  rw [hasArray_append_mark_nil (by decide)] at h
  obtain ⟨w, hw, h⟩ := h
  exact hasArray_iff.2 ⟨w, dropLast_subset _ hw, h⟩

theorem hasArray_of_cons_mark {y : List Char} (h : HasArray ('(' :: y)) : HasArray y := by
  rw [hasArray_cons_mark (by decide)] at h
  obtain ⟨w, hw, h⟩ := h
  exact hasArray_iff.2 ⟨w, mem_of_mem_tail hw, h⟩

/-! ## Spaces around a text -/

theorem hasArray_spaces_append {l : List Char} (hl : ∀ c ∈ l, isWhitespace c = true) (y : List Char) :
    HasArray (l ++ y) ↔ HasArray y := by
  induction l with
  | nil => rfl
  | cons c l ih =>
    obtain ⟨hc, hl⟩ := forall_mem_cons.1 hl
    rw [cons_append, hasArray_cons_space hc, ih hl]

theorem exists_trim (s : List Char) : ∃ l r, s = l ++ trim s ++ r ∧ (∀ c ∈ l, isWhitespace c = true) ∧
    ∀ c ∈ r, isWhitespace c = true := by
  refine ⟨s.takeWhile isWhitespace, ((s.dropWhile isWhitespace).reverse.takeWhile isWhitespace).reverse, ?_, ?_, ?_⟩
  · rw [trim, append_assoc, ← reverse_append, takeWhile_append_dropWhile, reverse_reverse,
      takeWhile_append_dropWhile]
  · exact fun c hc => mem_takeWhile_imp hc
  · exact fun c hc => mem_takeWhile_imp (mem_reverse.1 hc)

theorem hasArray_of_trim_append_mark {x : List Char} (h : HasArray (trim x ++ ['('])) : HasArray (x ++ ['(']) := by
  obtain ⟨l, r, hx, hl, hr⟩ := exists_trim x
  rw [hx, append_assoc, append_assoc, hasArray_spaces_append hl]
  cases r with
  | nil => exact h
  | cons c r =>
    rw [cons_append, hasArray_append_space (hr c mem_cons_self)]
    exact .inl (hasArray_of_append_mark_nil h)

theorem hasArray_of_marks_trim (h : HasArray ('(' :: (trim x ++ ['(']))) : HasArray ('(' :: (x ++ ['('])) := by
  obtain ⟨l, r, hx, hl, hr⟩ := exists_trim x
  have hright : HasArray ('(' :: (trim x ++ r ++ ['('])) := by
    cases r with
    | nil => rwa [append_nil]
    | cons c r =>
      rw [append_assoc, cons_append, ← cons_append, hasArray_append_space (hr c mem_cons_self)]
      exact .inl (hasArray_of_append_mark_nil h)
  rw [hx, append_assoc, append_assoc, ← append_assoc (trim x)]
  cases l with
  | nil => exact hright
  | cons c l =>
    obtain ⟨hc, hl⟩ := forall_mem_cons.1 hl
    have hspace := hasArray_append_space hc ['('] (l ++ (trim x ++ r ++ ['(']))
    rw [singleton_append] at hspace
    rw [cons_append, hspace, hasArray_spaces_append hl]
    exact .inr (hasArray_of_cons_mark hright)

/-! ## Trimmed text -/

theorem ends_of_trim (hx : trim x = x) :
    (∀ c ∈ x.head?, isWhitespace c = false) ∧ ∀ c ∈ x.getLast?, isWhitespace c = false := by
  constructor
  · intro c hc
    obtain ⟨rest, hrest⟩ := trim_front x
    cases hd : x.dropWhile isWhitespace with
    | nil =>
      rw [hx, hd, append_eq_nil_iff] at hrest
      rw [hrest.1] at hc
      cases hc
    | cons d ds =>
      have hhead : x.head? = some d := by
        cases x with
        | nil => cases hd
        | cons e es =>
          rw [hx, hd, cons_append] at hrest
          rw [(cons.inj hrest).1, head?_cons]
      rw [hhead, Option.mem_some] at hc
      rw [← hc]
      have := head?_dropWhile_not isWhitespace x
      rw [hd] at this
      simpa using this
  · intro c hc
    have hlast := rdropWhile_last_not isWhitespace (x.dropWhile isWhitespace)
    rw [← trim_eq, hx] at hlast
    rw [Option.mem_def, getLast?_eq_some_iff] at hc
    obtain ⟨ys, rfl⟩ := hc
    simpa using hlast (by simp)

theorem trim_eq_self (hh : ∀ c ∈ x.head?, isWhitespace c = false) (hl : ∀ c ∈ x.getLast?, isWhitespace c = false) :
    trim x = x := by
  have hfirst : x.dropWhile isWhitespace = x := by
    cases x with
    | nil => rfl
    | cons c x => rw [dropWhile_cons_of_neg (by simp [hh c rfl])]
  rw [trim_eq, hfirst]
  rcases eq_nil_or_concat x with rfl | ⟨y, c, rfl⟩
  · rfl
  · rw [concat_eq_append] at hl ⊢
    exact rdropWhile_concat_neg _ _ _ (by simp [hl c (by simp)])

theorem hasArray_append_mark_words (hl : ∀ c ∈ x.getLast?, isWhitespace c = false) :
    HasArray (x ++ ['(']) ↔ ∃ w ∈ (splitWhitespace x).dropLast, toAsciiLowercase w = "array".toList := by
  rcases eq_nil_or_concat x with rfl | ⟨y, c, rfl⟩
  · decide
  · rw [concat_eq_append] at hl ⊢
    have hc := hl c (by simp)
    obtain ⟨front, last, first, rest, -, hfirst, hsplit⟩ := splitOnP_append (p := isWhitespace) [c] y
    rw [splitOnP_eq_singleton (by simpa using hc)] at hfirst
    obtain ⟨rfl, rfl⟩ := cons.inj hfirst
    have hwords : splitWhitespace (y ++ [c]) = front.filter (fun w => !w.isEmpty) ++ [last ++ [c]] := by
      rw [splitWhitespace, hsplit, filter_append, filter_cons_of_pos (by simp), filter_nil]
    rw [hasArray_append_mark_nil (by decide), hsplit, hwords, dropLast_concat, dropLast_concat]
    constructor
    · rintro ⟨w, hw, h⟩
      refine ⟨w, mem_filter.2 ⟨hw, ?_⟩, h⟩
      cases w with
      | nil => exact absurd h (by decide)
      | cons => rfl
    · rintro ⟨w, hw, h⟩
      exact ⟨w, (mem_filter.1 hw).1, h⟩

theorem splitWhitespace_trim (x : List Char) : splitWhitespace (trim x) = splitWhitespace x := by
  obtain ⟨l, r, hx, hl, hr⟩ := exists_trim x
  have hleft : ∀ (l y : List Char), (∀ c ∈ l, isWhitespace c = true) → splitWhitespace (l ++ y) = splitWhitespace y := by
    intro l y hl
    induction l with
    | nil => rfl
    | cons c l ih =>
      rw [forall_mem_cons] at hl
      rw [cons_append, splitWhitespace_cons_space hl.1, ih hl.2]
  conv_rhs => rw [hx, append_assoc, hleft l _ hl]
  cases r with
  | nil => rw [append_nil]
  | cons c r =>
    rw [forall_mem_cons] at hr
    have hnil : splitWhitespace r = [] := by simpa [splitWhitespace] using hleft r [] hr.2
    rw [splitWhitespace_append_space hr.1, hnil, append_nil]

theorem trim_of_no_space (hx : ∀ c ∈ x, isWhitespace c = false) : trim x = x :=
  trim_eq_self (fun c hc => hx c (mem_of_mem_head? hc)) fun c hc => hx c (mem_of_mem_getLast? hc)

theorem dropLast_splitWhitespace (hx : ∀ c ∈ x, isWhitespace c = false) : (splitWhitespace x).dropLast = [] := by
  by_cases hne : x = []
  · subst hne
    rfl
  · rw [splitWhitespace_word hne hx]
    rfl

/-! ## Case -/

theorem lowerAscii_eq_or (c : Char) : TypeRef.lowerAscii c = c ∨ c ∈ "ABCDEFGHIJKLMNOPQRSTUVWXYZ".toList := by
  by_cases hc : ('A' ≤ c && c ≤ 'Z') = true
  · right
    have hall : ∀ n < 26, Char.ofNat (0x41 + n) ∈ "ABCDEFGHIJKLMNOPQRSTUVWXYZ".toList := by decide
    rw [Bool.and_eq_true, decide_eq_true_eq, decide_eq_true_eq] at hc
    have hlow : 0x41 ≤ c.toNat := hc.1
    have hhigh : c.toNat ≤ 0x5A := hc.2
    have := hall (c.toNat - 0x41) (by omega)
    rwa [show 0x41 + (c.toNat - 0x41) = c.toNat by omega, Char.ofNat_toNat] at this
  · left
    rw [TypeRef.lowerAscii, if_neg hc]

theorem lowerAscii_congr {α : Type} {f : Char → α}
    (h : ∀ c ∈ "ABCDEFGHIJKLMNOPQRSTUVWXYZ".toList, f (TypeRef.lowerAscii c) = f c) (c : Char) :
    f (TypeRef.lowerAscii c) = f c := by
  rcases lowerAscii_eq_or c with hc | hc
  · rw [hc]
  · exact h c hc

theorem lowerAscii_lowerAscii (c : Char) : TypeRef.lowerAscii (TypeRef.lowerAscii c) = TypeRef.lowerAscii c :=
  lowerAscii_congr (f := TypeRef.lowerAscii) (all_iff_forall_prop.1 (by decide)) c

theorem isWhitespace_lowerAscii (c : Char) : isWhitespace (TypeRef.lowerAscii c) = isWhitespace c :=
  lowerAscii_congr (all_iff_forall_prop.1 (by decide)) c

variable (s : List Char)

theorem toAsciiLowercase_idem : toAsciiLowercase (toAsciiLowercase s) = toAsciiLowercase s := by
  rw [toAsciiLowercase, toAsciiLowercase, map_map]
  exact map_congr_left fun c _ => lowerAscii_lowerAscii c

theorem splitOnP_toAsciiLowercase :
    (toAsciiLowercase s).splitOnP isWhitespace = (s.splitOnP isWhitespace).map toAsciiLowercase := by
  induction s with
  | nil => rfl
  | cons c s ih =>
    obtain ⟨first, rest, hs⟩ := exists_cons_of_ne_nil (splitOnP_ne_nil isWhitespace s)
    show ((TypeRef.lowerAscii c :: toAsciiLowercase s).splitOnP isWhitespace) = _
    rw [splitOnP_cons_eq_if_modifyHead, splitOnP_cons_eq_if_modifyHead, isWhitespace_lowerAscii, ih, hs]
    split_ifs
    · rfl
    · rfl

theorem splitWhitespace_toAsciiLowercase : splitWhitespace (toAsciiLowercase s) = (splitWhitespace s).map toAsciiLowercase := by
  rw [splitWhitespace, splitOnP_toAsciiLowercase, filter_map, splitWhitespace]
  congr 1
  apply filter_congr
  intro w _
  simp [toAsciiLowercase]

theorem hasArray_toAsciiLowercase : HasArray (toAsciiLowercase s) ↔ HasArray s := by
  rw [HasArray, HasArray, splitWhitespace_toAsciiLowercase]
  simp only [mem_map, exists_exists_and_eq_and, toAsciiLowercase_idem]

theorem trim_toAsciiLowercase : trim (toAsciiLowercase s) = toAsciiLowercase (trim s) := by
  have hspace : isWhitespace ∘ TypeRef.lowerAscii = isWhitespace := funext isWhitespace_lowerAscii
  simp only [trim, toAsciiLowercase, dropWhile_map, ← map_reverse, hspace]

end Words

end Pbps
