/-
Normalization is canonical, in each dialect: what `normalize` makes of a type it leaves as it is, and the text that
spells it is read back as that type.
-/
import Pbps.Types.Mssql
import Pbps.Types.Postgres
import Pbps.Types.Reread

namespace Pbps

open TypeRef (trim)
open Words
open List
open Bool (and_eq_true)
open String (ofList_toList)

/-! ## Built-in names -/

namespace ColumnType

theorem mem_of_lookup {α : Type} {a : String} {b : α} {l : List (String × α)} (h : l.lookup a = some b) : (a, b) ∈ l := by
  obtain ⟨front, rest, rfl, -⟩ := lookup_eq_some_iff.1 h
  exact mem_append_right _ mem_cons_self

/-- The name of a built-in type: one space between each two words, none of which is `array`. -/
structure Builtin (base : List Char) : Prop where
  nonempty : base ≠ []
  chars : ∀ c ∈ base, nameChar c = true
  trimmed : trim base = base
  joined : [' '].intercalate (splitWhitespace base) = base
  bare : ¬ HasArray base

variable {a : TypeArg} {base : List Char} {t : ColumnType}

instance : Decidable (Builtin base) :=
  decidable_of_iff (base ≠ [] ∧ base.all nameChar = true ∧ trim base = base ∧
      [' '].intercalate (splitWhitespace base) = base ∧ ¬ HasArray base)
    ⟨fun ⟨h1, h2, h3, h4, h5⟩ => ⟨h1, all_eq_true.1 h2, h3, h4, h5⟩,
      fun h => ⟨h.nonempty, all_eq_true.2 h.chars, h.trimmed, h.joined, h.bare⟩⟩

theorem Builtin.named (h : Builtin base) : Named base := ⟨h.nonempty, h.chars, h.trimmed⟩

theorem Builtin.cut (h : Builtin base) (hlen : 1 < (splitWhitespace base).length) :
    ¬ HasArray ((splitAtWord 1 base).1 ++ ['(']) ∧ ¬ HasArray (splitAtWord 1 base).2 := by
  have hcut := splitAtWord_intercalate Nat.one_ne_zero hlen fun w hw c hc => ((of_mem_splitWhitespace hw).2 c hc).2
  rw [h.joined] at hcut
  have hparts := splitAtWord_append 1 base
  rw [hcut] at hparts ⊢
  dsimp only at hparts ⊢
  have hbare := h.bare
  rw [← hparts, hasArray_append_space (by decide), not_or] at hbare
  refine ⟨fun harray => hbare.1 (hasArray_of_append_mark_nil harray), ?_⟩
  rw [hasArray_cons_space (by decide)]
  exact hbare.2

/-- An argument that is one word: a number in range, or `max`. -/
inductive OneWord : TypeArg → Prop where
  | max : OneWord .max
  | int {n : Int} (lo : -2 ^ 63 ≤ n) (hi : n < 2 ^ 63) : OneWord (.int n)

theorem OneWord.listed (h : OneWord a) : Listed a := by
  cases h with
  | max => exact listed_max
  | int lo hi => exact listed_int lo hi

theorem OneWord.no_space (h : OneWord a) : ∀ c ∈ a.raw.toList, isWhitespace c = false := by
  cases h with
  | max => exact (all_iff_forall_prop.1 (by decide) : ∀ c ∈ "max".toList, isWhitespace c = false)
  | int lo hi => exact fun c hc => toString_no_space hc

theorem parse_raw_builtin (huser : t.user = none) (hbase : Builtin t.base.toList) (hargs : ∀ a ∈ t.args, OneWord a)
    (hpos : ∀ n ∈ t.argsAfterWord, t.args ≠ [] ∧ n = 1 ∧ 1 < (splitWhitespace t.base.toList).length) :
    parse t.raw.toList = some t := by
  have hbefore : ¬ HasArray ((nameParts t).1 ++ ['(']) := by
    unfold nameParts
    cases hat : t.argsAfterWord with
    | none => exact fun harray => hbase.bare (hasArray_of_append_mark_nil harray)
    | some n =>
      obtain ⟨-, rfl, hlen⟩ := hpos n hat
      exact (hbase.cut hlen).1
  have hafter : ¬ HasArray (nameParts t).2 := by
    unfold nameParts
    cases hat : t.argsAfterWord with
    | none => exact (by decide : ¬ HasArray [])
    | some n =>
      obtain ⟨-, rfl, hlen⟩ := hpos n hat
      exact (hbase.cut hlen).2
  have hplain : Plain t := by
    refine ⟨huser, hbase.named, ?_, ?_, fun _ => hbase.bare, fun _ => hbefore, hafter⟩
    · intro a ha
      have hword := hargs a ha
      exact ⟨hword.listed, fun harray => not_hasArray_of_no_space hword.no_space (hasArray_of_cons_mark harray)⟩
    · intro n hn
      obtain ⟨hne, rfl, hlen⟩ := hpos n hn
      exact ⟨hne, Nat.one_ne_zero, hlen, hbase.joined.symm⟩
  exact hplain.parse_raw.2 fun a ha => not_hasArray_of_no_space (hargs a (mem_of_mem_tail ha)).no_space

theorem parse_raw_reference {text : List Char} (h : parse text = some t) (huser : t.user.isSome = true) :
    parse t.raw.toList = some t := by
  cases href : namesATypeReference (trim text) with
  | true =>
    obtain ⟨user, array, rfl, hproblem⟩ := parse_reference href h
    exact parse_raw_ofReference hproblem array
  | false =>
    rw [(readFrom_parse href h).plain.user] at huser
    cases huser

end ColumnType

/-! ## PostgreSQL -/

namespace Pg

open ColumnType (Builtin OneWord new mem_of_lookup)

variable {base : String} {shape : ArgShape} {ty n : ColumnType} {args : List TypeArg}

theorem builtin_of_shapeOf (h : shapeOf base = some shape) : Builtin base.toList := by
  have hall : ∀ e ∈ CATALOGUE, Builtin e.1.toList := by decide
  exact hall _ (mem_of_lookup h)

theorem fixed_of_shapeOf (h : shapeOf base = some shape) :
    canonicalBase base = base ∧ base ≠ "float" ∧ refuseSerial { base } = none := by
  have hall : ∀ e ∈ CATALOGUE, canonicalBase e.1 = e.1 ∧ e.1 ≠ "float" ∧ refuseSerial { base := e.1 } = none := by decide
  exact hall _ (mem_of_lookup h)

theorem words_of_temporal (h : temporalNames.contains base = true) : 1 < (splitWhitespace base.toList).length ∧
      ((splitWhitespace base.toList).head? = some "time".toList ∨
        (splitWhitespace base.toList).head? = some "timestamp".toList) := by
  have hall : ∀ b ∈ temporalNames, 1 < (splitWhitespace b.toList).length ∧
      ((splitWhitespace b.toList).head? = some "time".toList ∨
        (splitWhitespace b.toList).head? = some "timestamp".toList) := by decide
  exact hall _ (contains_iff_mem.1 h)

variable {args' : List TypeArg}

theorem checkNumeric_eq_ok {p s : Int} : checkNumeric ty p s = .ok () ↔
    (1 ≤ p ∧ p ≤ MAX_NUMERIC_PRECISION) ∧ -MAX_NUMERIC_SCALE ≤ s ∧ s ≤ MAX_NUMERIC_SCALE := by
  unfold checkNumeric
  by_cases hp : 1 ≤ p ∧ p ≤ MAX_NUMERIC_PRECISION
  · by_cases hs : -MAX_NUMERIC_SCALE ≤ s ∧ s ≤ MAX_NUMERIC_SCALE
    · simp [hp, hs, pure, Except.pure]
    · simp [hp, hs, throw, throwThe, MonadExceptOf.throw]
  · simp [hp, bind, Except.bind, throw, throwThe, MonadExceptOf.throw]

theorem of_checkNumeric {p s : Int} (h : (do checkNumeric ty p s; pure args) = .ok args') :
    ((1 ≤ p ∧ p ≤ MAX_NUMERIC_PRECISION) ∧ -MAX_NUMERIC_SCALE ≤ s ∧ s ≤ MAX_NUMERIC_SCALE) ∧ args = args' := by
  rw [← @checkNumeric_eq_ok ty]
  cases hcheck : checkNumeric ty p s with
  | ok u =>
    rw [hcheck] at h
    exact ⟨rfl, Except.ok.inj h⟩
  | error e =>
    rw [hcheck] at h
    cases h

/-- The arguments a shape's types are stored with. -/
inductive Stored : ArgShape → List TypeArg → Prop where
  | none : Stored .none []
  | unbounded : Stored (.length none) []
  | length {fillsIn n} (lo : 1 ≤ n) (hi : n ≤ MAX_STRING_LEN) : Stored (.length fillsIn) [.int n]
  | decimal : Stored .numeric []
  | numeric {p s} (hp : 1 ≤ p ∧ p ≤ MAX_NUMERIC_PRECISION) (hs : -MAX_NUMERIC_SCALE ≤ s ∧ s ≤ MAX_NUMERIC_SCALE) :
    Stored .numeric [.int p, .int s]
  | full {max} : Stored (.precision max) []
  | precision {max n} (lo : 0 ≤ n) (hi : n ≤ max) : Stored (.precision max) [.int n]

theorem shape_of_shapeOf (h : shapeOf base = some shape) :
    shape ∈ [.none, .length (some 1), .length none, .numeric, .precision 6] := by
  have hall : ∀ e ∈ CATALOGUE, e.2 ∈ [.none, .length (some 1), .length none, .numeric, .precision 6] := by decide
  exact hall _ (mem_of_lookup h)

theorem stored_of_normalizeArgs {base' : String} (hshape : shapeOf base = some shape)
    (h : normalizeArgs ty base' shape args = .ok args') : Stored shape args' := by
  unfold normalizeArgs at h
  split at h
  next =>
    obtain rfl := Except.ok.inj h
    exact .none
  next => cases h
  next fillsIn =>
    obtain rfl := Except.ok.inj h
    cases fillsIn with
    | none => exact .unbounded
    | some n =>
      obtain rfl : n = 1 := by simpa using shape_of_shapeOf hshape
      exact .length (by decide) (by decide)
  next n =>
    split_ifs at h with hn
    obtain rfl := Except.ok.inj h
    exact .length hn.1 hn.2
  next => cases h
  next =>
    obtain rfl := Except.ok.inj h
    exact .decimal
  next p =>
    obtain ⟨hcheck, rfl⟩ := of_checkNumeric h
    exact .numeric hcheck.1 hcheck.2
  next p s =>
    obtain ⟨hcheck, rfl⟩ := of_checkNumeric h
    exact .numeric hcheck.1 hcheck.2
  next => cases h
  next =>
    obtain rfl := Except.ok.inj h
    exact .full
  next max n =>
    split_ifs at h with hn
    obtain rfl := Except.ok.inj h
    exact .precision hn.1 hn.2
  next => cases h

theorem Stored.normalizeArgs (h : Stored shape args) (ty : ColumnType) (base : String) :
    normalizeArgs ty base shape args = .ok args := by
  cases h with
  | none => rfl
  | unbounded => rfl
  | length lo hi => exact if_pos ⟨lo, hi⟩
  | decimal => rfl
  | numeric hp hs =>
    rw [Pg.normalizeArgs, checkNumeric_eq_ok.2 ⟨hp, hs⟩]
    rfl
  | full => rfl
  | precision lo hi => exact if_pos ⟨lo, hi⟩

theorem Stored.oneWord (hshape : shapeOf base = some shape) (h : Stored shape args) : ∀ a ∈ args, OneWord a := by
  have hmax : MAX_STRING_LEN = 10485760 ∧ MAX_NUMERIC_PRECISION = 1000 ∧ MAX_NUMERIC_SCALE = 1000 := ⟨rfl, rfl, rfl⟩
  cases h with
  | none => simp
  | unbounded => simp
  | length lo hi => simpa using OneWord.int (by omega) (by omega)
  | decimal => simp
  | numeric hp hs => simpa using ⟨OneWord.int (by omega) (by omega), OneWord.int (by omega) (by omega)⟩
  | full => simp
  | precision lo hi =>
    obtain rfl : _ = (6 : Int) := by simpa using shape_of_shapeOf hshape
    simpa using OneWord.int (by omega) (by omega)

/-- A type as `normalizeScalar` leaves it. -/
structure Normal (n : ColumnType) : Prop where
  user : n.user = none
  scalar : n.array = false
  args : ∃ shape, shapeOf n.base = some shape ∧ Stored shape n.args
  position : n.argsAfterWord = if temporalNames.contains n.base && !n.args.isEmpty then some 1 else none

theorem new_base (h : shapeOf base = some shape) (args : List TypeArg) : new base.toList args = { base, args } := by
  rw [new, ColumnType.lower_of_named (builtin_of_shapeOf h).named, ofList_toList]

theorem normal_simple (h : shapeOf base = some .none) (hbase : temporalNames.contains base = false) :
    Normal (new base.toList []) := by
  rw [new_base h]
  exact ⟨rfl, rfl, ⟨.none, h, .none⟩, by rw [hbase]; rfl⟩

theorem normal_resolveFloat (h : resolveFloat ty = .ok n) : Normal n := by
  have hreal : Normal (new "real".toList []) := normal_simple (by decide) (by decide)
  have hdouble : Normal (new "double precision".toList []) := normal_simple (by decide) (by decide)
  unfold resolveFloat at h
  split at h
  next => exact Except.ok.inj h ▸ hdouble
  next =>
    split_ifs at h
    · exact Except.ok.inj h ▸ hreal
    · exact Except.ok.inj h ▸ hdouble
  next => cases h

theorem withArgsAfterWord_one (h : shapeOf base = some shape) (hargs : args.isEmpty = false)
    (hlen : 1 < (splitWhitespace base.toList).length) :
    ColumnType.withArgsAfterWord { base, args } 1 = some { base, args, argsAfterWord := some 1 } := by
  unfold ColumnType.withArgsAfterWord
  dsimp only
  rw [if_neg, (builtin_of_shapeOf h).joined, ofList_toList]
  simp only [hargs, Bool.or_eq_true, decide_eq_true_eq, not_or]
  exact ⟨⟨Bool.false_ne_true, Nat.one_ne_zero⟩, Nat.not_le.2 hlen⟩

theorem normal_of_normalizeScalar (h : normalizeScalar ty = .ok n) : Normal n := by
  unfold normalizeScalar at h
  split at h
  next => cases h
  next =>
  dsimp only at h
  generalize canonicalBase _ = base at h
  generalize splitWhitespace ty.base.toList = words at h
  cases hcheck : checkPosition ty words (temporalNames.contains base) with
  | error e =>
    rw [hcheck] at h
    cases h
  | ok u =>
  rw [hcheck] at h
  change (if base = "float" then resolveFloat ty else _) = _ at h
  split_ifs at h with hfloat
  · exact normal_resolveFloat h
  split at h
  next => cases h
  next shape hshape =>
  cases hargs : normalizeArgs ty base shape ty.args with
  | error e =>
    rw [hargs] at h
    cases h
  | ok args =>
  rw [hargs] at h
  change (if _ = true then _ else _) = _ at h
  have hstored := stored_of_normalizeArgs hshape hargs
  rw [new_base hshape] at h
  split_ifs at h with htemporal
  · have hboth := htemporal
    rw [and_eq_true] at hboth
    obtain ⟨hbase, hne⟩ := hboth
    rw [withArgsAfterWord_one hshape (by simpa using hne) (words_of_temporal hbase).1] at h
    obtain rfl := Except.ok.inj h
    exact ⟨rfl, rfl, ⟨shape, hshape, hstored⟩, (if_pos htemporal).symm⟩
  · obtain rfl := Except.ok.inj h
    exact ⟨rfl, rfl, ⟨shape, hshape, hstored⟩, (if_neg htemporal).symm⟩

section Normal

variable {n : ColumnType} (h : Normal n)
include h

theorem Normal.position_eq (hn : n.argsAfterWord.isSome = true) :
    n.argsAfterWord = some 1 ∧ temporalNames.contains n.base = true ∧ n.args.isEmpty = false := by
  have hposition := h.position
  split_ifs at hposition with htemporal
  · rw [and_eq_true] at htemporal
    exact ⟨hposition, htemporal.1, by simpa using htemporal.2⟩
  · rw [hposition] at hn
    cases hn

theorem Normal.checkPosition : checkPosition n (splitWhitespace n.base.toList) (temporalNames.contains n.base) = .ok () := by
  unfold Pg.checkPosition
  split
  next position hposition =>
    obtain ⟨hone, htemporal, -⟩ := h.position_eq (by rw [hposition]; rfl)
    rw [hposition, Option.some.injEq] at hone
    subst hone
    rw [htemporal, if_neg]
    rcases (words_of_temporal htemporal).2 with hfirst | hfirst
    · simp [hfirst]
    · simp [hfirst]
  next hnone =>
    have hposition := h.position
    rw [hnone] at hposition
    split_ifs at hposition with htemporal
    rw [if_neg]
    rw [and_eq_true]
    exact fun hboth => htemporal hboth.1

theorem Normal.normalizeScalar : normalizeScalar n = .ok n := by
  obtain ⟨shape, hshape, hstored⟩ := h.args
  obtain ⟨hbase, hfloat, hserial⟩ := fixed_of_shapeOf hshape
  have hnone : refuseSerial n = none := hserial
  unfold Pg.normalizeScalar
  rw [hnone]
  dsimp only
  rw [(builtin_of_shapeOf hshape).joined, ofList_toList, hbase, h.checkPosition]
  change (if n.base = "float" then resolveFloat n else _) = _
  rw [if_neg hfloat, hshape]
  dsimp only
  rw [hstored.normalizeArgs n n.base]
  change (if _ = true then _ else _) = _
  rw [new_base hshape]
  have heq : n = { base := n.base, args := n.args, argsAfterWord := n.argsAfterWord } := by
    rw [← h.user, ← h.scalar]
  have hposition := h.position
  split_ifs at hposition ⊢ with htemporal
  · rw [and_eq_true] at htemporal
    rw [withArgsAfterWord_one hshape (by simpa using htemporal.2) (words_of_temporal htemporal.1).1]
    conv_rhs => rw [heq, hposition]
    rfl
  · conv_rhs => rw [heq, hposition]
    rfl

theorem Normal.parse_raw (array : Bool) : ColumnType.parse (ColumnType.raw { n with array }).toList = some { n with array } := by
  obtain ⟨shape, hshape, hstored⟩ := h.args
  apply ColumnType.parse_raw_builtin
  · exact h.user
  · exact builtin_of_shapeOf hshape
  · exact hstored.oneWord hshape
  · intro k hk
    obtain ⟨hone, htemporal, hne⟩ := h.position_eq (by rw [show n.argsAfterWord = some k from hk]; rfl)
    obtain rfl : k = 1 := Option.some.inj ((show n.argsAfterWord = some k from hk).symm.trans hone)
    exact ⟨by simpa using hne, rfl, (words_of_temporal htemporal).1⟩

end Normal

theorem canonical_of_normalize {text : List Char} {t : ColumnType} (hparse : ColumnType.parse text = some t)
    (h : normalize t = .ok n) : normalize n = .ok n ∧ ColumnType.parse n.raw.toList = some n := by
  unfold normalize at h
  split at h
  next user huser =>
    have hkept : t = n := by
      cases hlong : refuseOverlongReference t user with
      | error e =>
        rw [hlong] at h
        cases h
      | ok u =>
        rw [hlong] at h
        exact Except.ok.inj h
    subst hkept
    refine ⟨?_, ColumnType.parse_raw_reference hparse (by rw [huser]; rfl)⟩
    unfold normalize
    rw [huser]
    exact h
  next huser =>
    split_ifs at h with harray
    · cases hscalar : normalizeScalar t.element with
      | error e =>
        rw [hscalar] at h
        cases h
      | ok m =>
        rw [hscalar] at h
        obtain rfl := Except.ok.inj h
        have hm := normal_of_normalizeScalar hscalar
        have helement : ({ m with array := true } : ColumnType).element = m := by
          rw [ColumnType.element, ← hm.scalar]
        refine ⟨?_, hm.parse_raw true⟩
        unfold normalize
        rw [hm.user]
        dsimp only
        rw [if_pos rfl, helement, hm.normalizeScalar]
        rfl
    · have hn := normal_of_normalizeScalar h
      refine ⟨?_, ?_⟩
      · rw [normalize, hn.user]
        dsimp only
        rw [hn.scalar, if_neg Bool.false_ne_true, hn.normalizeScalar]
      · have hread := hn.parse_raw false
        rwa [← hn.scalar] at hread

end Pg

/-! ## SQL Server -/

namespace Mssql

open ColumnType (Builtin OneWord new mem_of_lookup)

variable {base : String} {shape : ArgShape} {ty n : ColumnType} {args : List TypeArg}

theorem builtin_of_shapeOf (h : shapeOf base = some shape) : Builtin base.toList := by
  have hall : ∀ e ∈ CATALOGUE, Builtin e.1.toList := by decide
  exact hall _ (mem_of_lookup h)

theorem canonicalBase_of_shapeOf (h : shapeOf base = some shape) : canonicalBase base = base := by
  have hall : ∀ e ∈ CATALOGUE, canonicalBase e.1 = e.1 := by decide
  exact hall _ (mem_of_lookup h)

/-- What is filled in is within a shape's own bounds, and these are within the numbers a spelling holds. -/
def bounded (base : String) : ArgShape → Bool
  | .length maxLen _ => 1 ≤ maxLen && maxLen ≤ 8000
  | .precision max default => (0 ≤ default && default ≤ max) && max ≤ 7
  | .floatPrecision => base = "float"
  | .none | .precisionScale => true

theorem bounded_of_shapeOf (h : shapeOf base = some shape) : bounded base shape = true := by
  have hall : ∀ e ∈ CATALOGUE, bounded e.1 e.2 = true := by decide
  exact hall _ (mem_of_lookup h)

/-- The arguments a shape's types are stored with. -/
inductive Stored : ArgShape → List TypeArg → Prop where
  | none : Stored .none []
  | max {maxLen} : Stored (.length maxLen true) [.max]
  | length {maxLen allowsMax n} (lo : 1 ≤ n) (hi : n ≤ maxLen) : Stored (.length maxLen allowsMax) [.int n]
  | precision {max default n} (lo : 0 ≤ n) (hi : n ≤ max) : Stored (.precision max default) [.int n]
  | decimal {p s} (h : checkDecimal p s = true) : Stored .precisionScale [.int p, .int s]
  | float : Stored .floatPrecision [.int 53]

theorem Stored.normalizeArgs (h : Stored shape args) (hshape : shapeOf base = some shape) :
    normalizeArgs base shape args = some (base, args) := by
  cases h with
  | none => rfl
  | max => rfl
  | length lo hi => exact if_pos ⟨lo, hi⟩
  | precision lo hi => exact if_pos ⟨lo, hi⟩
  | decimal h => exact if_pos h
  | float => rfl

theorem Stored.oneWord (hshape : shapeOf base = some shape) (h : Stored shape args) : ∀ a ∈ args, OneWord a := by
  have hbounds := bounded_of_shapeOf hshape
  cases h with
  | none => simp
  | max => simpa using OneWord.max
  | length lo hi =>
    simp only [bounded, and_eq_true, decide_eq_true_eq] at hbounds
    simpa using OneWord.int (by omega) (by omega)
  | precision lo hi =>
    simp only [bounded, and_eq_true, decide_eq_true_eq] at hbounds
    simpa using OneWord.int (by omega) (by omega)
  | decimal h =>
    simp only [checkDecimal, and_eq_true, decide_eq_true_eq] at h
    simpa using ⟨OneWord.int (by omega) (by omega), OneWord.int (by omega) (by omega)⟩
  | float => simpa using OneWord.int (by omega) (by omega)

theorem stored_of_normalizeArgs {e : String × List TypeArg} (hshape : shapeOf base = some shape)
    (h : normalizeArgs base shape args = some e) : ∃ shape', shapeOf e.1 = some shape' ∧ Stored shape' e.2 := by
  have hbounds := bounded_of_shapeOf hshape
  unfold normalizeArgs at h
  split at h
  next =>
    obtain rfl := Option.some.inj h
    exact ⟨.none, hshape, .none⟩
  next maxLen allowsMax =>
    obtain rfl := Option.some.inj h
    simp only [bounded, and_eq_true, decide_eq_true_eq] at hbounds
    exact ⟨_, hshape, .length (Int.le_refl 1) hbounds.1⟩
  next =>
    obtain rfl := Option.some.inj h
    exact ⟨_, hshape, .max⟩
  next =>
    split_ifs at h with hn
    obtain rfl := Option.some.inj h
    exact ⟨_, hshape, .length hn.1 hn.2⟩
  next =>
    obtain rfl := Option.some.inj h
    simp only [bounded, and_eq_true, decide_eq_true_eq] at hbounds
    exact ⟨_, hshape, .precision hbounds.1.1 hbounds.1.2⟩
  next =>
    split_ifs at h with hn
    obtain rfl := Option.some.inj h
    exact ⟨_, hshape, .precision hn.1 hn.2⟩
  next =>
    obtain rfl := Option.some.inj h
    exact ⟨_, hshape, .decimal (by decide)⟩
  next =>
    split_ifs at h with hcheck
    obtain rfl := Option.some.inj h
    exact ⟨_, hshape, .decimal hcheck⟩
  next =>
    split_ifs at h with hcheck
    obtain rfl := Option.some.inj h
    exact ⟨_, hshape, .decimal hcheck⟩
  next =>
    obtain rfl := Option.some.inj h
    exact ⟨.floatPrecision, by decide, .float⟩
  next =>
    split_ifs at h
    · obtain rfl := Option.some.inj h
      exact ⟨.none, by decide, .none⟩
    · obtain rfl := Option.some.inj h
      exact ⟨_, hshape, .float⟩
  next => cases h

/-- A type as `normalize` leaves it. -/
structure Normal (n : ColumnType) : Prop where
  args : ∃ shape, shapeOf n.base = some shape ∧ Stored shape n.args
  bare : n = { base := n.base, args := n.args }

theorem new_base (h : shapeOf base = some shape) (args : List TypeArg) : new base.toList args = { base, args } := by
  rw [new, ColumnType.lower_of_named (builtin_of_shapeOf h).named, ofList_toList]

theorem normal_of_normalize {t : ColumnType} (h : normalize t = some n) : Normal n := by
  unfold normalize at h
  split_ifs at h with hother
  obtain ⟨shape, hshape, h⟩ := Option.bind_eq_some_iff.1 h
  obtain ⟨⟨base, args⟩, hargs, rfl⟩ := Option.map_eq_some_iff.1 h
  obtain ⟨shape', hshape', hstored⟩ := stored_of_normalizeArgs hshape hargs
  dsimp only at hshape' hstored ⊢
  rw [new_base hshape']
  exact ⟨⟨shape', hshape', hstored⟩, rfl⟩

theorem Normal.normalize (h : Normal n) : normalize n = some n := by
  obtain ⟨⟨shape, hshape, hstored⟩, hbare⟩ := h
  rw [hbare]
  unfold Mssql.normalize
  rw [if_neg (by simp)]
  dsimp only
  rw [(builtin_of_shapeOf hshape).joined, ofList_toList, canonicalBase_of_shapeOf hshape, hshape]
  show (normalizeArgs n.base shape n.args).map _ = _
  rw [hstored.normalizeArgs hshape, Option.map_some, new_base hshape]

theorem Normal.parse_raw (h : Normal n) : ColumnType.parse n.raw.toList = some n := by
  obtain ⟨⟨shape, hshape, hstored⟩, hbare⟩ := h
  rw [hbare]
  exact ColumnType.parse_raw_builtin rfl (builtin_of_shapeOf hshape) (hstored.oneWord hshape) (by simp)

end Mssql

/-! ## Both -/

/-- Normalization is canonical in each dialect. -/
theorem ColumnType.normalize_canonical {text : List Char} {t : ColumnType} (h : parse text = some t) :
    (∀ n, Pg.normalize t = .ok n → Pg.normalize n = .ok n ∧ parse n.raw.toList = some n) ∧
      ∀ n, Mssql.normalize t = some n → Mssql.normalize n = some n ∧ parse n.raw.toList = some n :=
  ⟨fun _ hn => Pg.canonical_of_normalize h hn,
    fun _ hn => ⟨(Mssql.normal_of_normalize hn).normalize, (Mssql.normal_of_normalize hn).parse_raw⟩⟩

/-- The precision of a time with an alias moves after the first word. -/
theorem ColumnType.normalize_canonical_timestamptz :
    Pg.normalize ⟨"timestamp with time zone", [.int 3], some 1, true, none⟩ =
        .ok ⟨"timestamp with time zone", [.int 3], some 1, true, none⟩ ∧
      parse (raw ⟨"timestamp with time zone", [.int 3], some 1, true, none⟩).toList =
        some ⟨"timestamp with time zone", [.int 3], some 1, true, none⟩ := by
  have hread : parse " TimestampTZ(03)[]".toList = some ⟨"timestamptz", [.int 3], none, true, none⟩ := by decide
  exact (normalize_canonical hread).1 _ (by decide)

end Pbps
