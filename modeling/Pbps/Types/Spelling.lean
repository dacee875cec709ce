/-
How a type is spelled (`types.rs`): `raw` of a type that names no user-defined one, and what `from_str` makes of that
spelling. It reads the type back unless an argument after the first begins with the word `array` and goes on.
-/
import Pbps.Types.Argument

namespace Pbps.ColumnType

open TypeRef (trim lowerAscii qualifiedParts takePart takeQuoted writePart isBare doubled bareChar)
open Load (trim_eq trim_trim trim_sublist not_mem_of_mem_splitOn splitOn_intercalate trim_cons_space)
open Words
open List
open String (ofList_toList toList_append toList_ofList)

/-! ## Parentheses -/

variable {α : Type} {s base : List Char} {t : ColumnType}

theorem mapM_eq_some {β : Type} {f : α → Option β} : ∀ {l : List α} {m : List β},
    l.mapM f = some m ↔ Forall₂ (fun a b => f a = some b) l m
  | [], m => by
    rw [mapM_nil, forall₂_nil_left_iff]
    exact ⟨fun h => (Option.some.inj h).symm, fun h => by rw [h]; rfl⟩
  | a :: l, m => by
    rw [mapM_cons]
    constructor
    · intro h
      obtain ⟨b, hb, h⟩ := Option.bind_eq_some_iff.1 h
      obtain ⟨m', hm, h⟩ := Option.bind_eq_some_iff.1 h
      obtain rfl := Option.some.inj h
      exact .cons hb (mapM_eq_some.1 hm)
    · rintro (_ | ⟨hb, hm⟩)
      rw [hb, mapM_eq_some.2 hm]
      rfl

def baseChar (c : Char) : Bool := isAsciiAlphanumeric c || c = '_' || c = ' '

/-- What may follow the closing parenthesis: nothing, or words after a space. -/
def SuffixOk (z : List Char) : Prop :=
  trim z = [] ∨ z.head?.any isWhitespace = true ∧ (trim z).all baseChar = true

/-- The type of a name, what follows its parentheses and the arguments between them. -/
def finishParens (x z : List Char) (args : List TypeArg) : Option ColumnType :=
  if (trim z).isEmpty then finishBase x args
  else
    (finishBase x []).bind fun front =>
      (finishBase (front.base.toList ++ ' ' :: trim z) args).bind fun whole =>
        whole.withArgsAfterWord (splitWhitespace front.base.toList).length

/-- A text without brackets and the word `array`. -/
def Scalar (s : List Char) : Prop := ('[' ∉ s ∧ ']' ∉ s) ∧ ¬ HasArray s

theorem scalar_iff (hne : s ≠ []) : Scalar s ↔ ¬ (s.isEmpty || s.any (fun c => c = '[' || c = ']') ||
      (splitWhitespace s).any fun w => toAsciiLowercase w = "array".toList) = true := by
  have hb : (s.any fun c => c = '[' || c = ']') = false ↔ '[' ∉ s ∧ ']' ∉ s := by
    simp only [any_eq_false, Bool.or_eq_true, decide_eq_true_eq, not_or]
    exact ⟨fun h => ⟨fun hm => (h _ hm).1 rfl, fun hm => (h _ hm).2 rfl⟩,
      fun h c hc => ⟨fun he => h.1 (he ▸ hc), fun he => h.2 (he ▸ hc)⟩⟩
  have ha : ((splitWhitespace s).any fun w => toAsciiLowercase w = "array".toList) = false ↔ ¬ HasArray s := by
    simp [HasArray]
  rw [Bool.not_eq_true, Bool.or_eq_false_iff, Bool.or_eq_false_iff, hb, ha, Scalar]
  simp [hne]

theorem scalar_of_parsePlain (hne : s ≠ []) (h : parsePlain s = some t) : Scalar s := by
  by_contra hscalar
  unfold parsePlain at h
  rw [if_pos (not_not.1 ((scalar_iff hne).not.1 hscalar))] at h
  cases h

theorem parsePlain_bare {s : List Char} (hs : '(' ∉ s) {t : ColumnType} :
    parsePlain s = some t ↔ Scalar s ∧ finishBase s [] = some t := by
  by_cases hne : s = []
  · subst hne
    simp [parsePlain, finishBase, trim]
  · unfold parsePlain
    by_cases hscalar : Scalar s
    · rw [if_neg ((scalar_iff hne).1 hscalar), if_pos hs, and_iff_right hscalar]
    · rw [if_pos (not_not.1 ((scalar_iff hne).not.1 hscalar))]
      simp [hscalar]

theorem cut_parens {x y z : List Char} (hx : '(' ∉ x) (hz : ')' ∉ z) (hs : s = x ++ '(' :: (y ++ ')' :: z)) :
    (s.idxOf '(' = x.length ∧ s.length - 1 - s.reverse.idxOf ')' = x.length + 1 + y.length) ∧
      (s.take (x.length + 1 + y.length)).drop (x.length + 1) = y ∧ s.drop (x.length + 1 + y.length + 1) = z := by
  have hsplit : s = (x ++ '(' :: y) ++ ')' :: z := by simp [hs]
  have hrev : s.reverse = z.reverse ++ ')' :: (x ++ '(' :: y).reverse := by simp [hs]
  have hlen : (x ++ '(' :: y).length = x.length + 1 + y.length := by
    rw [length_append, length_cons]
    omega
  refine ⟨⟨?_, ?_⟩, ?_, ?_⟩
  · rw [hs, idxOf_append_of_notMem hx, idxOf_cons_self, Nat.add_zero]
  · rw [hrev, idxOf_append_of_notMem (by simpa using hz), idxOf_cons_self, hsplit, length_append, hlen,
      length_cons, length_reverse]
    omega
  · rw [hsplit, ← hlen, take_left, ← drop_drop, drop_left]
    rfl
  · rw [hsplit, ← hlen, ← drop_drop, drop_left]
    rfl

/-- A text with parentheses is read in the parts that its first opening and its last closing one make. -/
theorem parsePlain_parens {x y z : List Char} (hx : '(' ∉ x) (hz : ')' ∉ z) :
    parsePlain (x ++ '(' :: (y ++ ')' :: z)) = some t ↔ Scalar (x ++ '(' :: (y ++ ')' :: z)) ∧ SuffixOk z ∧
      ∃ args, Forall₂ (fun p a => parseArg p = some a) (y.splitOn ',') args ∧ finishParens x z args = some t := by
  have hne : x ++ '(' :: (y ++ ')' :: z) ≠ [] := by simp
  obtain ⟨⟨hopen, hclose⟩, hbetween, hafter⟩ := cut_parens hx hz (y := y) rfl
  by_cases hscalar : Scalar (x ++ '(' :: (y ++ ')' :: z))
  · rw [and_iff_right hscalar]
    unfold parsePlain
    rw [if_neg ((scalar_iff hne).1 hscalar), if_neg (by simp), hopen, if_neg (by simp), hclose]
    dsimp only
    rw [if_neg (by omega), hafter, hbetween, take_left]
    by_cases hsuffix : SuffixOk z
    · rw [if_neg, and_iff_right hsuffix]
      · unfold finishParens
        simp only [← mapM_eq_some]
        split_ifs with hempty
        · exact Option.bind_eq_some_iff
        · exact Option.bind_eq_some_iff
      · unfold SuffixOk at hsuffix
        rcases hsuffix with h | ⟨h1, h2⟩
        · simp [h]
        · have h2' : ((trim z).all fun c => isAsciiAlphanumeric c || c = '_' || c = ' ') = true := h2
          simp [h1, h2']
    · rw [if_pos]
      · simp [hsuffix]
      · unfold SuffixOk at hsuffix
        rw [not_or, not_and_or, Bool.not_eq_true, Bool.not_eq_true] at hsuffix
        obtain ⟨h, h1 | h1⟩ := hsuffix
        · simp [h, h1]
        · have h1' : ((trim z).all fun c => isAsciiAlphanumeric c || c = '_' || c = ' ') = false := h1
          simp [h, h1']
  · unfold parsePlain
    rw [if_pos (not_not.1 ((scalar_iff hne).not.1 hscalar))]
    simp [hscalar]

/-! ## Names -/

def nameChar (c : Char) : Bool := baseChar c && lowerAscii c = c

/-- A base name as the reader leaves it. -/
structure Named (base : List Char) : Prop where
  nonempty : base ≠ []
  chars : ∀ c ∈ base, nameChar c = true
  trimmed : trim base = base

theorem lower_of_named (h : Named base) : toAsciiLowercase base = base := by
  conv_rhs => rw [← map_id base]
  apply map_congr_left
  intro c hc
  have := h.chars c hc
  rw [nameChar, Bool.and_eq_true, decide_eq_true_eq] at this
  exact this.2

theorem baseChar_lowerAscii (c : Char) : baseChar (lowerAscii c) = baseChar c :=
  lowerAscii_congr (all_iff_forall_prop.1 (by decide)) c

theorem finishBase_eq_some {args : List TypeArg} :
    finishBase base args = some t ↔ (trim base ≠ [] ∧ ∀ c ∈ trim base, baseChar c = true) ∧
      t = { base := String.ofList (toAsciiLowercase (trim base)), args } := by
  have hguard : (!(trim base).isEmpty && (trim base).all fun c => isAsciiAlphanumeric c || c = '_' || c = ' ') = true ↔
      trim base ≠ [] ∧ ∀ c ∈ trim base, baseChar c = true := by
    simp [baseChar]
  unfold finishBase
  dsimp only
  by_cases hok : trim base ≠ [] ∧ ∀ c ∈ trim base, baseChar c = true
  · rw [if_pos (hguard.2 hok), and_iff_right hok, new]
    exact ⟨fun h => (Option.some.inj h).symm, fun h => congrArg some h.symm⟩
  · rw [if_neg (hguard.not.2 hok)]
    simp [hok]

theorem named_lower (hne : trim base ≠ []) (hchars : ∀ c ∈ trim base, baseChar c = true) :
    Named (toAsciiLowercase (trim base)) where
  nonempty := by simpa [toAsciiLowercase] using hne
  chars c hc := by
    obtain ⟨d, hd, rfl⟩ := mem_map.1 hc
    rw [nameChar, baseChar_lowerAscii, hchars d hd, lowerAscii_lowerAscii]
    simp
  trimmed := by rw [trim_toAsciiLowercase, trim_trim]

theorem finishBase_named (h : Named base) (args : List TypeArg) :
    finishBase base args = some { base := String.ofList base, args } := by
  rw [finishBase_eq_some, h.trimmed, lower_of_named h]
  refine ⟨⟨h.nonempty, fun c hc => ?_⟩, rfl⟩
  have := h.chars c hc
  rw [nameChar, Bool.and_eq_true] at this
  exact this.1

/-- A word of a name. -/
structure NameWord (w : List Char) : Prop where
  nonempty : w ≠ []
  spaceless : ∀ c ∈ w, isWhitespace c = false
  chars : ∀ c ∈ w, nameChar c = true

theorem named_intercalate : ∀ {ws : List (List Char)}, ws ≠ [] → (∀ w ∈ ws, NameWord w) → Named ([' '].intercalate ws)
  | [w], _, hws => by
    have hw := hws w mem_cons_self
    rw [intercalate_singleton]
    exact ⟨hw.nonempty, hw.chars, trim_of_no_space hw.spaceless⟩
  | w :: v :: ws, _, hws => by
    obtain ⟨hw, hws⟩ := forall_mem_cons.1 hws
    have ih := named_intercalate (cons_ne_nil v ws) hws
    rw [intercalate_cons_cons, append_assoc, singleton_append]
    refine ⟨by simp, ?_, trim_eq_self ?_ ?_⟩
    · intro c hc
      rcases mem_append.1 hc with hc | hc
      · exact hw.chars c hc
      · rcases mem_cons.1 hc with rfl | hc
        · decide
        · exact ih.chars c hc
    · intro c hc
      rw [head?_append_of_ne_nil _ hw.nonempty] at hc
      exact hw.spaceless c (mem_of_mem_head? hc)
    · intro c hc
      rw [getLast?_append_of_ne_nil _ (cons_ne_nil _ _), getLast?_cons_of_ne_nil ih.nonempty] at hc
      exact (ends_of_trim ih.trimmed).2 c hc

theorem nameWord_of_mem {w : List Char} (h : ∀ c ∈ base, nameChar c = true) (hw : w ∈ splitWhitespace base) : NameWord w := by
  obtain ⟨hne, hw⟩ := of_mem_splitWhitespace hw
  exact ⟨hne, fun c hc => (hw c hc).2, fun c hc => h c (hw c hc).1⟩

def nameParts (t : ColumnType) : List Char × List Char :=
  match t.argsAfterWord with
  | some words => splitAtWord words t.base.toList
  | none => (t.base.toList, [])

theorem splitAtWord_intercalate {n : Nat} {ws : List (List Char)} (hn : n ≠ 0) (hlt : n < ws.length)
    (hws : ∀ w ∈ ws, ∀ c ∈ w, isWhitespace c = false) :
    splitAtWord n ([' '].intercalate ws) = ([' '].intercalate (ws.take n), ' ' :: [' '].intercalate (ws.drop n)) := by
  have hword : ∀ (w rest : List Char) (n : Nat), (∀ c ∈ w, isWhitespace c = false) →
      splitAtWord n (w ++ rest) = (w ++ (splitAtWord n rest).1, (splitAtWord n rest).2) := by
    intro w rest n hw
    induction w with
    | nil => rfl
    | cons c w ih =>
      obtain ⟨hc, hw⟩ := forall_mem_cons.1 hw
      have hne : c ≠ ' ' := by
        rintro rfl
        exact absurd hc (by decide)
      rw [cons_append, splitAtWord, if_neg (by simp [hne]), if_neg hne, ih hw]
      rfl
  induction ws generalizing n with
  | nil => simp at hlt
  | cons w ws ih =>
    cases ws with
    | nil =>
      rw [length_singleton] at hlt
      omega
    | cons v ws =>
      obtain ⟨hw, hws⟩ := forall_mem_cons.1 hws
      rw [intercalate_cons_cons, append_assoc, singleton_append, hword _ _ _ hw]
      by_cases hone : n = 1
      · subst hone
        rw [splitAtWord, if_pos (by simp), append_nil]
        simp
      · rw [splitAtWord, if_neg (by simp; omega), if_pos rfl, ih (by omega) (by simpa using by simp at hlt; omega) hws]
        obtain ⟨m, rfl⟩ : ∃ m, n = m + 2 := ⟨n - 2, by omega⟩
        simp [intercalate_cons_cons]

theorem splitAtWord_append : ∀ (n : Nat) (s : List Char), (splitAtWord n s).1 ++ (splitAtWord n s).2 = s
  | _, [] => rfl
  | n, c :: s => by
    rw [splitAtWord]
    split_ifs
    · rfl
    · exact congrArg (c :: ·) (splitAtWord_append (n - 1) s)
    · exact congrArg (c :: ·) (splitAtWord_append n s)

theorem nameParts_append (t : ColumnType) : (nameParts t).1 ++ (nameParts t).2 = t.base.toList := by
  unfold nameParts
  split
  · exact splitAtWord_append _ _
  · exact append_nil _

/-! ## Spelling -/

def argsText (args : List TypeArg) : List Char := [',', ' '].intercalate (args.map fun a => a.raw.toList)

def body (t : ColumnType) : List Char :=
  (nameParts t).1 ++ (if t.args.isEmpty then [] else '(' :: (argsText t.args ++ [')'])) ++ (nameParts t).2

theorem raw_toList (t : ColumnType) : t.raw.toList = body t ++ if t.array then ['[', ']'] else [] := by
  have hargs : (if t.args.isEmpty then "" else "(" ++ String.intercalate ", " (t.args.map TypeArg.raw) ++ ")").toList =
      if t.args.isEmpty then [] else '(' :: (argsText t.args ++ [')']) := by
    split_ifs
    · rfl
    · rw [toList_append, toList_append, String.toList_intercalate, map_map]
      rfl
  have harray : (if t.array then "[]" else "").toList = if t.array then ['[', ']'] else [] := by
    split_ifs
    · rfl
    · rfl
  unfold ColumnType.raw body nameParts
  cases t.argsAfterWord with
  | some words =>
    dsimp only
    rw [toList_append, toList_append, toList_append, hargs, harray, toList_ofList,
      toList_ofList]
  | none =>
    dsimp only
    rw [toList_append, toList_append, toList_append, hargs, harray]
    rfl

theorem parseArg_cons_space (p : List Char) : parseArg (' ' :: p) = parseArg p := by
  unfold parseArg
  rw [trim_cons_space]

theorem hasArray_argsText (l : List Char) {a : TypeArg} {args : List TypeArg} : HasArray (l ++ argsText (a :: args) ++ ['(']) ↔
      HasArray (l ++ a.raw.toList ++ ['(']) ∨ ∃ b ∈ args, HasArray (b.raw.toList ++ ['(']) := by
  induction args generalizing l a with
  | nil => simp [argsText]
  | cons b args ih =>
    have hsplit : l ++ argsText (a :: b :: args) ++ ['('] =
        (l ++ a.raw.toList) ++ ',' :: (' ' :: (argsText (b :: args) ++ ['('])) := by
      simp [argsText, intercalate_cons_cons]
    have hspace := hasArray_append_space (by decide : isWhitespace ' ' = true) ['('] (argsText (b :: args) ++ ['('])
    rw [singleton_append, or_iff_right (by decide)] at hspace
    have hrest := ih [] (a := b)
    rw [nil_append, nil_append] at hrest
    rw [hsplit, hasArray_append_mark (by decide), hspace, hrest]
    simp only [mem_cons, exists_eq_or_imp]

theorem mem_intercalate {sep : List α} {c : α} : ∀ {l : List (List α)}, c ∈ sep.intercalate l →
    c ∈ sep ∨ ∃ x ∈ l, c ∈ x
  | [], h => nomatch h
  | [x], h => by
    rw [intercalate_singleton] at h
    exact .inr ⟨x, mem_cons_self, h⟩
  | x :: y :: l, h => by
    rw [intercalate_cons_cons, mem_append, mem_append] at h
    rcases h with (h | h) | h
    · exact .inr ⟨x, mem_cons_self, h⟩
    · exact .inl h
    · rcases mem_intercalate h with h | ⟨z, hz, h⟩
      · exact .inl h
      · exact .inr ⟨z, mem_cons_of_mem _ hz, h⟩

theorem mem_intercalate_of_mem {sep x : List α} {c : α} (hc : c ∈ x) : ∀ {l : List (List α)}, x ∈ l →
    c ∈ sep.intercalate l
  | [y], hx => by
    rw [mem_singleton] at hx
    rwa [intercalate_singleton, ← hx]
  | y :: z :: l, hx => by
    rw [intercalate_cons_cons, mem_append, mem_append]
    rcases mem_cons.1 hx with rfl | hx
    · exact .inl (.inl hc)
    · exact .inr (mem_intercalate_of_mem hc hx)

/-- A type that names no user-defined one, as the reader leaves it. -/
structure Plain (t : ColumnType) : Prop where
  user : t.user = none
  name : Named t.base.toList
  args : ∀ a ∈ t.args, Listed a ∧ ¬ HasArray ('(' :: (a.raw.toList ++ ['(']))
  position : ∀ n ∈ t.argsAfterWord, t.args ≠ [] ∧ n ≠ 0 ∧ n < (splitWhitespace t.base.toList).length ∧
    t.base.toList = [' '].intercalate (splitWhitespace t.base.toList)
  bare : t.args = [] → ¬ HasArray t.base.toList
  before : t.args ≠ [] → ¬ HasArray ((nameParts t).1 ++ ['('])
  after : ¬ HasArray (nameParts t).2

/-- No argument after the first begins with the word `array` and goes on. -/
def Apart (t : ColumnType) : Prop := ∀ a ∈ t.args.tail, ¬ HasArray (a.raw.toList ++ ['('])

theorem body_of_args (hargs : t.args ≠ []) :
    body t = (nameParts t).1 ++ '(' :: (argsText t.args ++ ')' :: (nameParts t).2) := by
  rw [body, if_neg (by simpa using hargs)]
  simp

section Spelling

variable {t : ColumnType} (h : Plain t)
include h

variable {c : Char}

theorem Plain.char_of_mem_parts (hc : c ∈ (nameParts t).1 ∨ c ∈ (nameParts t).2) : nameChar c = true := by
  apply h.name.chars
  rw [← nameParts_append t]
  exact mem_append.2 hc

theorem Plain.parts_of_args_nil (hargs : t.args = []) : t.argsAfterWord = none ∧ nameParts t = (t.base.toList, []) := by
  have hnone : t.argsAfterWord = none := by
    cases hn : t.argsAfterWord with
    | none => rfl
    | some n => exact absurd hargs (h.position n hn).1
  exact ⟨hnone, by rw [nameParts, hnone]⟩

theorem Plain.parts_of_position {n : Nat} (hn : t.argsAfterWord = some n) :
    ∃ front rest, (nameParts t).1 = [' '].intercalate front ∧ (nameParts t).2 = ' ' :: [' '].intercalate rest ∧
      front.length = n ∧ front ≠ [] ∧ rest ≠ [] ∧ (∀ w ∈ front ++ rest, NameWord w) ∧
      [' '].intercalate front ++ ' ' :: [' '].intercalate rest = t.base.toList := by
  obtain ⟨-, hpos, hlt, hbase⟩ := h.position n hn
  generalize hws : splitWhitespace t.base.toList = ws at hlt hbase
  have hwords : ∀ w ∈ ws, NameWord w := fun w hw => nameWord_of_mem h.name.chars (hws ▸ hw)
  have hcut : nameParts t = ([' '].intercalate (ws.take n), ' ' :: [' '].intercalate (ws.drop n)) := by
    rw [nameParts, hn]
    dsimp only
    rw [hbase, splitAtWord_intercalate hpos hlt fun w hw => (hwords w hw).spaceless]
  refine ⟨ws.take n, ws.drop n, by rw [hcut], by rw [hcut], ?_, ?_, ?_, ?_, ?_⟩
  · rw [length_take]
    omega
  · intro hnil
    rw [take_eq_nil_iff] at hnil
    rcases hnil with hnil | hnil
    · exact hpos hnil
    · rw [hnil] at hlt
      simp at hlt
  · intro hnil
    rw [drop_eq_nil_iff] at hnil
    omega
  · rw [take_append_drop]
    exact hwords
  · have happend := nameParts_append t
    rwa [hcut] at happend

theorem Plain.suffixOk : SuffixOk (nameParts t).2 := by
  cases hn : t.argsAfterWord with
  | none => exact .inl (by rw [nameParts, hn]; rfl)
  | some n =>
    obtain ⟨front, rest, -, hrest, -, -, hne, hwords, -⟩ := h.parts_of_position hn
    have hnamed := named_intercalate hne fun w hw => hwords w (mem_append_right _ hw)
    right
    rw [hrest, trim_cons_space, hnamed.trimmed]
    refine ⟨rfl, all_eq_true.2 fun c hc => ?_⟩
    have := hnamed.chars c hc
    rw [nameChar, Bool.and_eq_true] at this
    exact this.1

theorem Plain.finishParens_eq (hargs : t.args ≠ []) :
    finishParens (nameParts t).1 (nameParts t).2 t.args = some { t with array := false } := by
  have hnamed := h.name
  cases hn : t.argsAfterWord with
  | none =>
    have hparts : nameParts t = (t.base.toList, []) := by rw [nameParts, hn]
    rw [hparts, finishParens, if_pos (by rfl), finishBase_named hnamed, ofList_toList]
    rw [h.user]
  | some n =>
    obtain ⟨front, rest, hfront, hrest, hlen, hne, hne', hwords, hbase⟩ := h.parts_of_position hn
    obtain ⟨-, hpos, hlt, hjoin⟩ := h.position n hn
    have hnf := named_intercalate hne fun w hw => hwords w (mem_append_left _ hw)
    have hnr := named_intercalate hne' fun w hw => hwords w (mem_append_right _ hw)
    have hcount : (splitWhitespace ([' '].intercalate front)).length = n := by
      rw [splitWhitespace_intercalate, hlen]
      exact fun w hw => ⟨(hwords w (mem_append_left _ hw)).nonempty, (hwords w (mem_append_left _ hw)).spaceless⟩
    rw [hfront, hrest, finishParens, trim_cons_space, hnr.trimmed, if_neg (by simp [hnr.nonempty]), finishBase_named hnf,
      Option.bind_some, toList_ofList, hbase, finishBase_named hnamed, Option.bind_some, hcount, withArgsAfterWord]
    dsimp only
    rw [ofList_toList, if_neg, ← hjoin, ofList_toList]
    · rw [h.user]
    · simp [hargs, hpos]
      omega

theorem Plain.ne_of_mem_parts {d : Char} (hc : c ∈ (nameParts t).1 ∨ c ∈ (nameParts t).2) (hd : nameChar d = false) :
    c ≠ d := by
  rintro rfl
  exact absurd (h.char_of_mem_parts hc) (by simp [hd])

theorem Plain.body_of_bare (hargs : t.args = []) : body t = t.base.toList := by
  rw [body, (h.parts_of_args_nil hargs).2, hargs]
  simp

theorem Plain.no_bracket : ∀ d ∈ ['[', ']'], d ∉ body t := by
  intro d hd hc
  have hall : ∀ d ∈ ['[', ']'], nameChar d = false ∧ d ≠ '(' ∧ d ≠ ')' ∧ d ∉ [',', ' '] :=
    all_iff_forall_prop.1 (by decide)
  obtain ⟨hname, hopen, hclose, hsep⟩ := hall d hd
  by_cases hargs : t.args = []
  · rw [h.body_of_bare hargs] at hc
    exact absurd (h.name.chars d hc) (by simp [hname])
  · rw [body_of_args hargs, mem_append, mem_cons, mem_append, mem_cons] at hc
    rcases hc with hc | hc | hc | hc | hc
    · exact h.ne_of_mem_parts (.inl hc) hname rfl
    · exact hopen hc
    · rcases mem_intercalate hc with hc | ⟨x, hx, hc⟩
      · exact hsep hc
      · obtain ⟨a, ha, rfl⟩ := mem_map.1 hx
        have hmarks := ((h.args a ha).1.marks d hc).2
        simp only [mem_cons, not_mem_nil, or_false] at hd
        rcases hd with rfl | rfl
        · exact hmarks.1 rfl
        · exact hmarks.2 rfl
    · exact hclose hc
    · exact h.ne_of_mem_parts (.inr hc) hname rfl

theorem Plain.scalar_body : Scalar (body t) ↔ Apart t := by
  rw [Scalar, and_iff_right ⟨h.no_bracket '[' (by decide), h.no_bracket ']' (by decide)⟩]
  by_cases hargs : t.args = []
  · exact iff_of_true (h.body_of_bare hargs ▸ h.bare hargs) (by rw [Apart, hargs]; simp)
  · obtain ⟨a, args, hcons⟩ := exists_cons_of_ne_nil hargs
    have hfirst := (h.args a (by rw [hcons]; exact mem_cons_self)).2
    have hafter : ¬ HasArray ('(' :: (nameParts t).2) := fun ha => h.after (hasArray_of_cons_mark ha)
    have hinner := @hasArray_argsText ['('] a args
    rw [← hcons, singleton_append, singleton_append, cons_append, cons_append,
      or_iff_right hfirst] at hinner
    have hwords : HasArray (body t) ↔ ∃ b ∈ args, HasArray (b.raw.toList ++ ['(']) := by
      rw [body_of_args hargs, hasArray_append_mark (by decide), or_iff_right (h.before hargs), ← cons_append,
        hasArray_append_mark (by decide), or_iff_left hafter, cons_append, hinner]
    rw [hwords, Apart, hcons, tail_cons]
    simp

theorem Plain.parsePlain_body : parsePlain (body t) = some { t with array := false } ↔ Apart t := by
  rw [← h.scalar_body]
  by_cases hargs : t.args = []
  · rw [h.body_of_bare hargs, parsePlain_bare fun hc => absurd (h.name.chars _ hc) (by decide), finishBase_named h.name,
      ofList_toList]
    apply and_iff_left
    rw [hargs, (h.parts_of_args_nil hargs).1, h.user]
  · rw [body_of_args hargs, parsePlain_parens (fun hc => h.ne_of_mem_parts (.inl hc) (by decide) rfl) fun hc =>
      h.ne_of_mem_parts (.inr hc) (by decide) rfl]
    apply and_iff_left
    refine ⟨h.suffixOk, t.args, ?_, h.finishParens_eq hargs⟩
    obtain ⟨a, args, hcons⟩ := exists_cons_of_ne_nil hargs
    have hlisted : ∀ b ∈ a :: args, Listed b := fun b hb => (h.args b (hcons ▸ hb)).1
    have hcomma : ∀ x ∈ a.raw.toList :: args.map (fun b => b.raw.toList), ',' ∉ x := by
      intro x hx
      rw [← map_cons (f := fun b : TypeArg => b.raw.toList)] at hx
      obtain ⟨b, hb, rfl⟩ := mem_map.1 hx
      exact fun hc => ((hlisted b hb).marks _ hc).1 rfl
    rw [hcons, argsText, map_cons, splitOn_intercalate _ _ hcomma, map_map]
    refine .cons (hlisted a mem_cons_self).reads ?_
    rw [forall₂_map_left_iff, forall₂_same]
    intro b hb
    exact (parseArg_cons_space _).trans (hlisted b (mem_cons_of_mem _ hb)).reads

theorem Plain.front_ne_nil : (nameParts t).1 ≠ [] := by
  cases hn : t.argsAfterWord with
  | none =>
    rw [nameParts, hn]
    exact h.name.nonempty
  | some n =>
    obtain ⟨front, rest, hfront, -, -, hne, -, hwords, -⟩ := h.parts_of_position hn
    rw [hfront]
    exact (named_intercalate hne fun w hw => hwords w (mem_append_left _ hw)).nonempty

theorem Plain.head?_body : (body t).head? = t.base.toList.head? := by
  rw [← nameParts_append t, head?_append_of_ne_nil _ h.front_ne_nil, body, append_assoc,
    head?_append_of_ne_nil _ h.front_ne_nil]

theorem Plain.getLast?_body (hc : c ∈ (body t).getLast?) : isWhitespace c = false := by
  have hlast := (ends_of_trim h.name.trimmed).2
  rw [← nameParts_append t] at hlast
  by_cases hrest : (nameParts t).2 = []
  · rw [hrest, append_nil] at hlast
    rw [body, hrest, append_nil] at hc
    split_ifs at hc with hargs
    · rw [append_nil] at hc
      exact hlast c hc
    · rw [getLast?_append_of_ne_nil _ (cons_ne_nil _ _), ← cons_append, getLast?_concat,
        Option.mem_some] at hc
      subst hc
      decide
  · rw [getLast?_append_of_ne_nil _ hrest] at hlast
    rw [body, getLast?_append_of_ne_nil _ hrest] at hc
    exact hlast c hc

theorem Plain.trim_raw : trim t.raw.toList = t.raw.toList := by
  rw [raw_toList]
  apply trim_eq_self
  · intro c hc
    have hne : body t ≠ [] := by
      intro hnil
      have hhead := h.head?_body
      rw [hnil, head?_nil] at hhead
      exact h.name.nonempty (head?_eq_none_iff.1 hhead.symm)
    rw [head?_append_of_ne_nil _ hne, h.head?_body] at hc
    exact (ends_of_trim h.name.trimmed).1 c hc
  · intro c hc
    split_ifs at hc
    · rw [getLast?_append_of_ne_nil _ (cons_ne_nil _ _)] at hc
      obtain rfl : ']' = c := by simpa using hc
      decide
    · rw [append_nil] at hc
      exact h.getLast?_body hc

theorem Plain.not_reference : namesATypeReference t.raw.toList = false := by
  obtain ⟨rest, hraw, hrest⟩ : ∃ rest, t.raw.toList = (nameParts t).1 ++ rest ∧ ∀ c ∈ rest.head?, c = '(' ∨ c = '[' := by
    rw [raw_toList]
    by_cases hargs : t.args = []
    · obtain ⟨-, hparts⟩ := h.parts_of_args_nil hargs
      refine ⟨if t.array then ['[', ']'] else [], by rw [body, hparts, hargs]; simp, ?_⟩
      split_ifs
      · simp
      · simp
    · exact ⟨'(' :: (argsText t.args ++ ')' :: (nameParts t).2) ++ if t.array then ['[', ']'] else [],
        by rw [body_of_args hargs, append_assoc], by simp⟩
  have hname : ∀ c ∈ (nameParts t).1, nameChar c = true := fun c hc => h.char_of_mem_parts (.inl hc)
  have htake : t.raw.toList.takeWhile (fun c => c ≠ '(' && c ≠ '[') = (nameParts t).1 := by
    rw [hraw, takeWhile_append_of_pos]
    · cases rest with
      | nil => simp
      | cons c rest =>
        rw [takeWhile_cons_of_neg, append_nil]
        rcases hrest c rfl with rfl | rfl
        · decide
        · decide
    · intro c hc
      have h1 : c ≠ '(' := h.ne_of_mem_parts (.inl hc) (by decide)
      have h2 : c ≠ '[' := h.ne_of_mem_parts (.inl hc) (by decide)
      simp [h1, h2]
  unfold namesATypeReference
  rw [htake, Bool.or_eq_false_iff]
  constructor
  · obtain ⟨c, cs, hcons⟩ := exists_cons_of_ne_nil h.front_ne_nil
    have hc : c ≠ '"' := h.ne_of_mem_parts (.inl (hcons ▸ mem_cons_self)) (by decide)
    rw [hraw, hcons]
    simpa using hc
  · rw [any_eq_false]
    intro c hc
    have h1 : c ≠ '.' := h.ne_of_mem_parts (.inl hc) (by decide)
    have h2 : c ≠ '"' := h.ne_of_mem_parts (.inl hc) (by decide)
    simp [h1, h2]

theorem Plain.parse_raw : parse t.raw.toList = some t ↔ Apart t := by
  have hne : body t ≠ [] := by
    intro hnil
    have hhead := h.head?_body
    rw [hnil, head?_nil] at hhead
    exact h.name.nonempty (head?_eq_none_iff.1 hhead.symm)
  have hempty : t.raw.toList.isEmpty = false := by
    rw [isEmpty_eq_false_iff, raw_toList]
    exact fun hnil => hne (append_eq_nil_iff.1 hnil).1
  unfold parse
  dsimp only
  rw [h.trim_raw, h.not_reference, hempty, if_neg Bool.false_ne_true, if_neg Bool.false_ne_true, raw_toList]
  cases harray : t.array with
  | true =>
    have hsame : ({ t with array := true } : ColumnType) = t := by
      cases t
      subst harray
      rfl
    have htrim : trim (body t) = body t := by
      apply trim_eq_self _ fun c hc => h.getLast?_body hc
      rw [h.head?_body]
      exact (ends_of_trim h.name.trimmed).1
    have htake : (body t ++ ['[', ']']).take ((body t ++ ['[', ']']).length - 2) = body t := by simp
    rw [if_pos rfl, if_pos (suffix_append _ _), htake, htrim, Option.map_eq_some_iff]
    constructor
    · rintro ⟨u, hu, -⟩
      exact h.scalar_body.1 (scalar_of_parsePlain hne hu)
    · intro hapart
      exact ⟨_, h.parsePlain_body.2 hapart, hsame⟩
  | false =>
    have hsame : ({ t with array := false } : ColumnType) = t := by
      cases t
      subst harray
      rfl
    have hparse := h.parsePlain_body
    rw [hsame] at hparse
    rw [if_neg Bool.false_ne_true, append_nil, if_neg, hparse]
    exact fun hsuffix => h.no_bracket '[' (by decide) (hsuffix.mem mem_cons_self)

end Spelling

end Pbps.ColumnType
