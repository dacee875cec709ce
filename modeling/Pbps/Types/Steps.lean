/-
Safe changes compose, in each dialect: what two safe changes reach, one safe change reaches.
-/
import Pbps.Types.MssqlRisk
import Pbps.Types.PostgresRisk

namespace Pbps

open Bool (and_eq_true not_eq_true' or_eq_true)

/-! ## PostgreSQL -/

namespace Pg

/-- How one family widens another, but for the exact ones. -/
inductive Widens : Family → Family → Prop where
  | approx {a b} (h : a ≤ b) : Widens (.approx a) (.approx b)
  | text {al af bl bf} (hfixed : bf = true → af = true) (hlen : al.fitsIn bl = true) : Widens (.text al af) (.text bl bf)
  | temporal {ad at_ ao ay ap bd bt bo by_ bp} (hcast : temporalCastExists (ad, at_, ao) (bd, bt, bo) = true)
    (hdate : ad = true → bd = true) (htime : at_ = true → bt = true) (hoffset : ao = bo)
    (hreach : reaches ay by_ = true) (hprecision : at_ = true → ap ≤ bp) :
    Widens (.temporal ad at_ ao ay ap) (.temporal bd bt bo by_ bp)
  | length {ay ap bp} (h : ap ≤ bp) : Widens (.temporal false true false ay ap) (.interval bp)
  | interval {a b} (h : a ≤ b) : Widens (.interval a) (.interval b)
  | json : Widens (.json true) (.json false)
  | inet : Widens (.inet true) (.inet false)

variable {a b : Family}

theorem familyRisk_of_widens (h : Widens a b) : familyRisk a b = .safe := by
  cases h with
  | approx h => exact safeIf_eq_safe.2 (decide_eq_true h)
  | text hfixed hlen =>
    rw [familyRisk, if_neg, safeIf_eq_safe]
    · exact hlen
    · intro hboth
      rw [and_eq_true, not_eq_true'] at hboth
      exact absurd (hfixed hboth.2) (by simp [hboth.1])
  | temporal hcast hdate htime hoffset hreach hprecision =>
    rw [familyRisk, hcast, if_neg (by decide), safeIf_eq_safe]
    simp only [and_eq_true, not_or_eq_true, decide_eq_true_eq]
    exact ⟨⟨⟨⟨hdate, htime⟩, hoffset⟩, hreach⟩, hprecision⟩
  | length h => exact safeIf_eq_safe.2 (decide_eq_true h)
  | interval h => exact safeIf_eq_safe.2 (decide_eq_true h)
  | json => rfl
  | inet => rfl

theorem widens_of_familyRisk (ha : ∀ e, a ≠ .exact e) (h : familyRisk a b = .safe) : Widens a b := by
  unfold familyRisk at h
  split at h
  case h_1 a b => exact absurd rfl (ha a)
  case h_2 a m => exact absurd rfl (ha a)
  case h_3 a b => exact .approx (by simpa [safeIf_eq_safe] using h)
  case h_5 al af bl bf =>
    split_ifs at h with hfixed
    refine .text ?_ (safeIf_eq_safe.1 h)
    intro hbf
    by_contra haf
    exact hfixed (by simp [hbf, haf])
  case h_8 ad at_ ao ay ap bd bt bo by_ bp =>
    split_ifs at h with hcast
    rw [safeIf_eq_safe] at h
    simp only [and_eq_true, not_or_eq_true, decide_eq_true_eq] at h
    obtain ⟨⟨⟨⟨hdate, htime⟩, hoffset⟩, hreach⟩, hprecision⟩ := h
    exact .temporal (by simpa using hcast) hdate htime hoffset hreach hprecision
  case h_10 ay ap bp => exact .length (by simpa [safeIf_eq_safe] using h)
  case h_11 a b => exact .interval (by simpa [safeIf_eq_safe] using h)
  case h_13 => exact .json
  case h_14 => exact .inet
  all_goals cases h

theorem temporalCastExists_trans {ad at_ ao bd bt bo cd ct co : Bool}
    (hab : temporalCastExists (ad, at_, ao) (bd, bt, bo) = true) (hbc : temporalCastExists (bd, bt, bo) (cd, ct, co) = true)
    (hdate : ad = true → bd = true) (hdate' : bd = true → cd = true) (hoffset : ao = bo) (hoffset' : bo = co) :
    temporalCastExists (ad, at_, ao) (cd, ct, co) = true := by
  revert ad at_ ao bd bt bo cd ct co
  decide

theorem reaches_trans {a b c : Option Int} (hab : reaches a b = true) (hbc : reaches b c = true) : reaches a c = true := by
  cases a with
  | none => rfl
  | some x =>
    cases b with
    | none => cases hab
    | some y =>
      cases c with
      | none => cases hbc
      | some z =>
        rw [reaches, decide_eq_true_eq] at hab hbc ⊢
        omega

theorem Widens.trans {c : Family} (hab : Widens a b) (hbc : Widens b c) : Widens a c := by
  cases hab with
  | approx h =>
    cases hbc with
    | approx h' => exact .approx (h.trans h')
  | text hfixed hlen =>
    cases hbc with
    | text hfixed' hlen' => exact .text (fun hc => hfixed (hfixed' hc)) (Len.fitsIn_trans hlen hlen')
  | @temporal ad at_ ao ay ap bd bt bo by_ bp hcast hdate htime hoffset hreach hprecision =>
    cases hbc with
    | temporal hcast' hdate' htime' hoffset' hreach' hprecision' =>
      exact .temporal (temporalCastExists_trans hcast hcast' hdate hdate' hoffset hoffset') (fun h => hdate' (hdate h))
        (fun h => htime' (htime h)) (hoffset.trans hoffset') (reaches_trans hreach hreach')
        fun h => (hprecision h).trans (hprecision' (htime h))
    | length h =>
      -- Only a time of day converts into one without a date or an offset.
      have hsame : ad = false ∧ at_ = true ∧ ao = false := by
        clear htime hprecision
        revert ad at_ ao
        decide
      obtain ⟨rfl, rfl, rfl⟩ := hsame
      exact .length ((hprecision rfl).trans h)
  | length h =>
    cases hbc with
    | interval h' => exact .length (h.trans h')
  | interval h =>
    cases hbc with
    | interval h' => exact .interval (h.trans h')
  | json => cases hbc
  | inet => cases hbc

theorem Widens.not_exact (h : Widens a b) : ∀ e, b ≠ .exact e := by
  cases h <;> simp

/-! ### Numeric types -/

def Family.isNumeric : Family → Bool
  | .exact _ | .approx _ => true
  | _ => false

theorem isNumeric_of_safe (ha : a.isNumeric = true) (h : familyRisk a b = .safe) : b.isNumeric = true := by
  unfold familyRisk at h
  split at h
  case h_1 | h_2 | h_3 => rfl
  case h_4 => cases h
  all_goals first | cases ha | cases h

theorem mem_names_of_isNumeric {t : ColumnType} (h : (family t).isNumeric = true) :
    t.base ∈ ["smallint", "integer", "bigint", "numeric", "real", "double precision"] := by
  unfold family at h
  dsimp only at h
  split at h
  case h_1 hb | h_2 hb | h_3 hb | h_4 hb | h_5 hb | h_6 hb => simp [hb]
  all_goals cases h

namespace NumericType

theorem subset_of_safe {a b : NumericType} (h : familyRisk (family a.type) (family b.type) = .safe) : a.values ⊆ b.values := by
  cases a with
  | float width =>
    rw [family_float] at h
    cases b with
    | float width' =>
      rw [family_float, familyRisk, safeIf_eq_safe, decide_eq_true_eq] at h
      exact values_subset_iff.2 ⟨Grid.binary_mono h, by simp⟩
    | integer width' =>
      rw [family_integer] at h
      cases h
    | numeric =>
      rw [family_numeric] at h
      cases h
    | decimal p s hp hs =>
      rw [family_decimal] at h
      cases h
  | integer width => exact (familyRisk_safe_iff (a := .integer width) b trivial).1 h
  | numeric => exact (familyRisk_safe_iff (a := .numeric) b trivial).1 h
  | decimal p s hp hs => exact (familyRisk_safe_iff (a := .decimal p s hp hs) b trivial).1 h

end NumericType

/-! ### Whole types -/

/-- A type that a declaration can be normalized to. -/
def Normalized (t : ColumnType) : Prop := ∃ text u, ColumnType.parse text = some u ∧ normalize u = .ok t

theorem family_of_dot {t : ColumnType} (h : '.' ∈ t.base.toList) : family t = .unknown := by
  unfold family
  dsimp only
  split
  case h_26 => rfl
  all_goals
    next hb =>
      rw [hb] at h
      exact absurd h (by decide)

end Pg

theorem ColumnType.dot_mem_base {text : List Char} {t : ColumnType} (h : parse text = some t) (huser : t.user.isSome = true) :
    '.' ∈ t.base.toList := by
  cases href : namesATypeReference (TypeRef.trim text) with
  | true =>
    obtain ⟨user, array, rfl, -⟩ := parse_reference href h
    show '.' ∈ user.raw.toList
    rw [TypeRef.raw, String.toList_ofList]
    exact List.mem_append_right _ List.mem_cons_self
  | false =>
    rw [(readFrom_parse href h).plain.user] at huser
    cases huser

namespace Pg

theorem Normalized.element {t : ColumnType} (h : Normalized t) : Normal t.element ∨ family t.element = .unknown := by
  obtain ⟨text, u, hparse, h⟩ := h
  unfold normalize at h
  split at h
  next user huser =>
    right
    apply family_of_dot
    have hkept : u = t := by
      cases hlong : refuseOverlongReference u user with
      | error e =>
        rw [hlong] at h
        cases h
      | ok v =>
        rw [hlong] at h
        exact Except.ok.inj h
    subst hkept
    show '.' ∈ u.base.toList
    exact ColumnType.dot_mem_base hparse (by rw [huser]; rfl)
  next huser =>
    left
    split_ifs at h with harray
    · cases hscalar : normalizeScalar u.element with
      | error e =>
        rw [hscalar] at h
        cases h
      | ok m =>
        rw [hscalar] at h
        obtain rfl := Except.ok.inj h
        have hm := normal_of_normalizeScalar hscalar
        rwa [show ({ m with array := true } : ColumnType).element = m by rw [ColumnType.element, ← hm.scalar]]
    · have hn := normal_of_normalizeScalar h
      rwa [show t.element = t by rw [ColumnType.element, ← hn.scalar]]

variable {a b : ColumnType}

theorem familyRisk_trans {c : ColumnType} (ha : Normal a ∨ family a = .unknown) (hb : Normal b ∨ family b = .unknown)
    (hc : Normal c ∨ family c = .unknown) (hab : familyRisk (family a) (family b) = .safe)
    (hbc : familyRisk (family b) (family c) = .safe) : familyRisk (family a) (family c) = .safe := by
  have hnumeric : ∀ {t : ColumnType}, Normal t ∨ family t = .unknown → (family t).isNumeric = true →
      ∃ n : NumericType, n.type = t := by
    intro t ht hfamily
    rcases ht with ht | hunknown
    · exact NumericType.exists_of_base ht (mem_names_of_isNumeric hfamily)
    · rw [hunknown] at hfamily
      cases hfamily
  by_cases hexact : ∃ e, family a = .exact e
  · obtain ⟨e, he⟩ := hexact
    have ha' : (family a).isNumeric = true := by rw [he]; rfl
    have hb' := isNumeric_of_safe ha' hab
    obtain ⟨x, rfl⟩ := hnumeric ha ha'
    obtain ⟨y, rfl⟩ := hnumeric hb hb'
    obtain ⟨z, rfl⟩ := hnumeric hc (isNumeric_of_safe hb' hbc)
    have hx : x.IsExact := by
      cases x with
      | float width =>
        rw [NumericType.family_float] at he
        cases he
      | _ => trivial
    exact (NumericType.familyRisk_safe_iff z hx).2
      ((NumericType.subset_of_safe hab).trans (NumericType.subset_of_safe hbc))
  · have ha' : ∀ e, family a ≠ .exact e := fun e he => hexact ⟨e, he⟩
    have hwidens := widens_of_familyRisk ha' hab
    exact familyRisk_of_widens (hwidens.trans (widens_of_familyRisk hwidens.not_exact hbc))

theorem changeRisk_safe_iff_element : changeRisk a b = .safe ↔
    a.array = b.array ∧ (a.element = b.element ∨ familyRisk (family a.element) (family b.element) = .safe) := by
  have hscalar : ∀ {t : ColumnType}, t.array = false → t.element = t := by
    intro t ht
    rw [ColumnType.element, ← ht]
  have heq : a = b ↔ a.array = b.array ∧ a.element = b.element := by
    constructor
    · rintro rfl
      exact ⟨rfl, rfl⟩
    · rintro ⟨harray, helement⟩
      obtain ⟨base, args, position, array, user⟩ := a
      obtain ⟨base', args', position', array', user'⟩ := b
      simp only [ColumnType.element, ColumnType.mk.injEq] at harray helement ⊢
      exact ⟨helement.1, helement.2.1, helement.2.2.1, harray, helement.2.2.2.2⟩
  unfold changeRisk
  split_ifs with hsame harray hdiffer helement
  · exact iff_of_true rfl ((heq.1 hsame).imp_right .inl)
  · exact iff_of_false (by decide) fun h => hdiffer h.1
  · exact iff_of_true rfl ⟨not_not.1 hdiffer, .inl helement⟩
  · simp [not_not.1 hdiffer, helement]
  · rw [or_eq_true, not_or, Bool.not_eq_true, Bool.not_eq_true] at harray
    rw [hscalar harray.1, hscalar harray.2, harray.1, harray.2]
    simp [hsame]

theorem changeRisk_trans {c : ColumnType} (ha : Normalized a) (hb : Normalized b) (hc : Normalized c)
    (hab : changeRisk a b = .safe) (hbc : changeRisk b c = .safe) : changeRisk a c = .safe := by
  rw [changeRisk_safe_iff_element] at hab hbc ⊢
  obtain ⟨harray, hab⟩ := hab
  obtain ⟨harray', hbc⟩ := hbc
  refine ⟨harray.trans harray', ?_⟩
  rcases hab with heq | hab
  · rwa [heq]
  · rcases hbc with heq | hbc
    · exact .inr (heq ▸ hab)
    · exact .inr (familyRisk_trans ha.element hb.element hc.element hab hbc)

end Pg

/-! ## SQL Server -/

namespace Mssql

/-- How one family widens another, but for the exact ones. -/
inductive Widens : Family → Family → Prop where
  | approx {a b} (h : a ≤ b) : Widens (.approx a) (.approx b)
  | text {al au af bl bu bf} (hunicode : au = true → bu = true) (hfixed : bf = true → af = true)
    (hlen : al.fitsIn bl = true) : Widens (.text al au af) (.text bl bu bf)
  | binary {al af bl bf} (hfixed : bf = true → af = true ∧ al = bl) (hlen : al.fitsIn bl = true) :
    Widens (.binary al af) (.binary bl bf)
  | temporal {ad at_ ao ap ar bd bt bo bp br} (hdate : ad = true → bd = true) (htime : at_ = true → bt = true)
    (hoffset : ao = true → bo = true) (hprecision : ap ≤ bp) (hrange : ar ≤ br) :
    Widens (.temporal ad at_ ao ap ar) (.temporal bd bt bo bp br)

variable {a b : Family}

theorem familyRisk_of_widens (h : Widens a b) : familyRisk a b = some .safe := by
  cases h with
  | approx h => exact congrArg some (safeIf_eq_safe.2 (decide_eq_true h))
  | @text al au af bl bu bf hunicode hfixed hlen =>
    rw [familyRisk, if_neg, if_neg, safeIf_eq_safe.2 hlen]
    · intro hboth
      rw [and_eq_true, not_eq_true'] at hboth
      exact absurd (hfixed hboth.2) (by simp [hboth.1])
    · intro hboth
      rw [and_eq_true, not_eq_true'] at hboth
      exact absurd (hunicode hboth.1) (by simp [hboth.2])
  | @binary al af bl bf hfixed hlen =>
    rw [familyRisk, if_neg, safeIf_eq_safe.2 hlen]
    intro hboth
    rw [and_eq_true, or_eq_true, not_eq_true', decide_eq_true_eq] at hboth
    obtain ⟨haf, heq⟩ := hfixed hboth.1
    rcases hboth.2 with hnot | hne
    · exact absurd haf (by simp [hnot])
    · exact hne heq
  | temporal hdate htime hoffset hprecision hrange =>
    rw [familyRisk, safeIf_eq_safe.2]
    simp only [and_eq_true, not_or_eq_true, decide_eq_true_eq]
    exact ⟨⟨⟨⟨hdate, htime⟩, hoffset⟩, hprecision⟩, hrange⟩

theorem widens_of_familyRisk (ha : ∀ lo hi s, a ≠ .exact lo hi s) (h : familyRisk a b = some .safe) : Widens a b := by
  unfold familyRisk at h
  split at h
  case h_1 => exact absurd rfl (ha _ _ _)
  case h_2 => exact absurd rfl (ha _ _ _)
  case h_3 a b => exact .approx (by simpa [safeIf_eq_safe] using h)
  case h_5 al au af bl bu bf =>
    split_ifs at h with hunicode hfixed
    · cases h
    · cases h
    · refine .text ?_ ?_ (safeIf_eq_safe.1 (Option.some.inj h))
      · intro hau
        by_contra hbu
        exact hunicode (by simp [hau, hbu])
      · intro hbf
        by_contra haf
        exact hfixed (by simp [hbf, haf])
  case h_6 al af bl bf =>
    split_ifs at h with hfixed
    · cases h
    · refine .binary ?_ (safeIf_eq_safe.1 (Option.some.inj h))
      intro hbf
      rw [hbf, Bool.true_and, or_eq_true, not_eq_true', decide_eq_true_eq] at hfixed
      simpa using hfixed
  case h_7 ad at_ ao ap ar bd bt bo bp br =>
    rw [Option.some.injEq, safeIf_eq_safe] at h
    simp only [and_eq_true, not_or_eq_true, decide_eq_true_eq] at h
    obtain ⟨⟨⟨⟨hdate, htime⟩, hoffset⟩, hprecision⟩, hrange⟩ := h
    exact .temporal hdate htime hoffset hprecision hrange
  all_goals cases h

theorem Widens.trans {c : Family} (hab : Widens a b) (hbc : Widens b c) : Widens a c := by
  cases hab with
  | approx h =>
    cases hbc with
    | approx h' => exact .approx (h.trans h')
  | text hunicode hfixed hlen =>
    cases hbc with
    | text hunicode' hfixed' hlen' =>
      exact .text (fun h => hunicode' (hunicode h)) (fun h => hfixed (hfixed' h)) (Len.fitsIn_trans hlen hlen')
  | binary hfixed hlen =>
    cases hbc with
    | binary hfixed' hlen' =>
      refine .binary (fun h => ?_) (Len.fitsIn_trans hlen hlen')
      obtain ⟨hbf, heq'⟩ := hfixed' h
      obtain ⟨haf, heq⟩ := hfixed hbf
      exact ⟨haf, heq.trans heq'⟩
  | temporal hdate htime hoffset hprecision hrange =>
    cases hbc with
    | temporal hdate' htime' hoffset' hprecision' hrange' =>
      exact .temporal (fun h => hdate' (hdate h)) (fun h => htime' (htime h)) (fun h => hoffset' (hoffset h))
        (hprecision.trans hprecision') (hrange.trans hrange')

theorem Widens.not_exact (h : Widens a b) : ∀ lo hi s, b ≠ .exact lo hi s := by
  cases h <;> simp

/-! ### Numeric types -/

def Family.isNumeric : Family → Bool
  | .exact .. | .approx _ => true
  | _ => false

theorem isNumeric_of_safe (ha : a.isNumeric = true) (h : familyRisk a b = some .safe) : b.isNumeric = true := by
  unfold familyRisk at h
  split at h
  case h_1 | h_2 | h_3 => rfl
  case h_4 | h_8 | h_9 => cases h
  all_goals first | cases ha | cases h

theorem mem_names_of_isNumeric {t : ColumnType} {f : Family} (h : family t = some f) (hf : f.isNumeric = true) :
    t.base ∈ ["bit", "tinyint", "smallint", "int", "bigint", "decimal", "smallmoney", "money", "real", "float"] := by
  unfold family at h
  dsimp only at h
  split at h
  case h_1 hb | h_2 hb | h_3 hb | h_4 hb | h_5 hb | h_6 hb | h_7 hb | h_8 hb | h_9 hb | h_10 hb => simp [hb]
  all_goals
    obtain rfl := Option.some.inj h
    cases hf

def Normalized (t : ColumnType) : Prop := ∃ text u, ColumnType.parse text = some u ∧ normalize u = some t

theorem familyRisk_of_changeRisk {a b : ColumnType} (hne : a ≠ b) (h : changeRisk a b = some .safe) :
    ∃ fa fb, family a = some fa ∧ family b = some fb ∧ familyRisk fa fb = some .safe := by
  unfold changeRisk at h
  rw [if_neg hne] at h
  obtain ⟨fa, hfa, h⟩ := Option.bind_eq_some_iff.1 h
  obtain ⟨fb, hfb, h⟩ := Option.bind_eq_some_iff.1 h
  exact ⟨fa, fb, hfa, hfb, h⟩

theorem NumericType.subset_of_safe {a b : NumericType} (h : changeRisk a.type b.type = some .safe) : a.values ⊆ b.values := by
  cases a with
  | exact a =>
    obtain ⟨r, hr, hiff⟩ := changeRisk_total_iff a b
    rw [type, hr] at h
    exact hiff.1 (Option.some.inj h)
  | approx a =>
    have hle : ∃ m, family b.type = some (.approx m) ∧ a.mantissa ≤ m := by
      by_cases heq : type (.approx a) = b.type
      · exact ⟨a.mantissa, by rw [← heq, type, a.family_type], le_rfl⟩
      · obtain ⟨fa, fb, hfa, hfb, hrisk⟩ := familyRisk_of_changeRisk heq h
        rw [type, a.family_type] at hfa
        obtain rfl := Option.some.inj hfa
        cases widens_of_familyRisk (by simp) hrisk with
        | approx hle => exact ⟨_, hfb, hle⟩
    obtain ⟨m, hm, hle⟩ := hle
    cases b with
    | exact b =>
      rw [type, b.family_type] at hm
      cases hm
    | approx b =>
      rw [type, b.family_type] at hm
      obtain rfl := Family.approx.inj (Option.some.inj hm)
      exact Grid.binary_mono hle

theorem changeRisk_trans {a b c : ColumnType} (ha : Normalized a) (hb : Normalized b) (hc : Normalized c)
    (hab : changeRisk a b = some .safe) (hbc : changeRisk b c = some .safe) : changeRisk a c = some .safe := by
  have hnumeric : ∀ {t : ColumnType} {f : Family}, Normalized t → family t = some f → f.isNumeric = true →
      ∃ n : NumericType, n.type = t := by
    rintro t f ⟨text, u, -, ht⟩ hf hfnum
    exact NumericType.exists_of_base (normal_of_normalize ht) (mem_names_of_isNumeric hf hfnum)
  by_cases hab' : a = b
  · rwa [hab']
  by_cases hbc' : b = c
  · rwa [← hbc']
  obtain ⟨fa, fb, hfa, hfb, hriskab⟩ := familyRisk_of_changeRisk hab' hab
  obtain ⟨fb', fc, hfb', hfc, hriskbc⟩ := familyRisk_of_changeRisk hbc' hbc
  obtain rfl : fb = fb' := Option.some.inj (hfb.symm.trans hfb')
  by_cases hexact : ∃ lo hi s, fa = .exact lo hi s
  · have ha' : fa.isNumeric = true := by
      obtain ⟨lo, hi, s, rfl⟩ := hexact
      rfl
    have hb' := isNumeric_of_safe ha' hriskab
    obtain ⟨x, rfl⟩ := hnumeric ha hfa ha'
    obtain ⟨y, rfl⟩ := hnumeric hb hfb hb'
    obtain ⟨z, rfl⟩ := hnumeric hc hfc (isNumeric_of_safe hb' hriskbc)
    cases x with
    | approx x =>
      obtain ⟨lo, hi, s, rfl⟩ := hexact
      rw [NumericType.type, x.family_type] at hfa
      cases hfa
    | exact x =>
      obtain ⟨r, hr, hiff⟩ := NumericType.changeRisk_total_iff x z
      rw [NumericType.type, hr, hiff.2 ((NumericType.subset_of_safe hab).trans (NumericType.subset_of_safe hbc))]
  · have ha' : ∀ lo hi s, fa ≠ .exact lo hi s := fun lo hi s h => hexact ⟨lo, hi, s, h⟩
    have hwidens := widens_of_familyRisk ha' hriskab
    have hrisk := familyRisk_of_widens (hwidens.trans (widens_of_familyRisk hwidens.not_exact hriskbc))
    unfold changeRisk
    split_ifs
    · rfl
    · rw [hfa, hfc]
      exact hrisk

end Mssql

/-! ## Both -/

/-- Safe changes compose in each dialect. -/
theorem ColumnType.changeRisk_compose (a b c : ColumnType) : (Pg.Normalized a → Pg.Normalized b → Pg.Normalized c →
        Pg.changeRisk a b = .safe → Pg.changeRisk b c = .safe → Pg.changeRisk a c = .safe) ∧
      (Mssql.Normalized a → Mssql.Normalized b → Mssql.Normalized c →
        Mssql.changeRisk a b = some .safe → Mssql.changeRisk b c = some .safe → Mssql.changeRisk a c = some .safe) :=
  ⟨Pg.changeRisk_trans, Mssql.changeRisk_trans⟩

/-- An array of numbers, and a decimal, grow twice. -/
theorem ColumnType.changeRisk_compose_bigint :
    Pg.changeRisk ⟨"smallint", [], none, true, none⟩ ⟨"bigint", [], none, true, none⟩ = .safe ∧
      Mssql.changeRisk { base := "tinyint" } { base := "decimal", args := [.int 9, .int 4] } = some .safe :=
  ⟨(changeRisk_compose _ ⟨"integer", [], none, true, none⟩ _).1
    ⟨"int2[]".toList, ⟨"int2", [], none, true, none⟩, by decide, by decide⟩
    ⟨"int[]".toList, ⟨"int", [], none, true, none⟩, by decide, by decide⟩
    ⟨"BigInt [] ".toList, ⟨"bigint", [], none, true, none⟩, by decide, by decide⟩ (by decide) (by decide),
    (changeRisk_compose _ { base := "decimal", args := [.int 3, .int 0] } _).2
      ⟨"TinyInt".toList, { base := "tinyint" }, by decide, by decide⟩
      ⟨"dec(3)".toList, { base := "dec", args := [.int 3] }, by decide, by decide⟩
      ⟨"numeric(9,4)".toList, { base := "numeric", args := [.int 9, .int 4] }, by decide, by decide⟩
      (by decide) (by decide)⟩

end Pbps
