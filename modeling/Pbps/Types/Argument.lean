/-
One argument of a type, as `raw` spells it and as the reader takes it: a number, `max` or a name in lower case. What
the reader made of some text it makes of its own spelling.
-/
import Pbps.Diff.Columns
import Pbps.Types.Digits
import Pbps.Types.Words

namespace Pbps

open TypeRef (trim lowerAscii)
open Load (trim_eq trim_front trim_trim trim_sublist not_mem_of_mem_splitOn)
open Words
open List

/-! ## Numbers -/

theorem toAsciiLowercase_of_parseI64 {s : List Char} {i : Int} (h : parseI64 (toAsciiLowercase s) = some i) :
    toAsciiLowercase s = s := by
  have hall : ∀ c ∈ "ABCDEFGHIJKLMNOPQRSTUVWXYZ".toList, ¬ (lowerAscii c = '-' ∨ lowerAscii c = '+' ∨
      isAsciiDigit (lowerAscii c) = true) := all_iff_forall_prop.1 (by decide)
  rw [toAsciiLowercase]
  conv_rhs => rw [← map_id s]
  apply map_congr_left
  intro c hc
  rcases lowerAscii_eq_or c with hlow | hup
  · exact hlow
  · exact absurd ((of_parseI64 h).2.2 _ (mem_map_of_mem hc)) (hall c hup)

/-! ## Arguments -/

namespace ColumnType

variable {p : List Char} {a : TypeArg} {c : Char} {n : Int}

theorem parseArg_eq_some : parseArg p = some a ↔ (trim p ≠ [] ∧ ∀ c ∈ trim p, c ≠ '(' ∧ c ≠ ')') ∧
      ((∃ n, parseI64 (trim p) = some n ∧ a = .int n) ∨ parseI64 (trim p) = none ∧
          if toAsciiLowercase (trim p) = "max".toList then a = .max
          else a = .ident (String.ofList (toAsciiLowercase (trim p)))) := by
  have hguard : ((trim p).isEmpty || (trim p).any fun c => c = '(' || c = ')') = true ↔
      ¬ (trim p ≠ [] ∧ ∀ c ∈ trim p, c ≠ '(' ∧ c ≠ ')') := by
    simp only [Bool.or_eq_true, List.isEmpty_iff, any_eq_true, decide_eq_true_eq, not_and_or, not_not, not_forall,
      exists_prop]
  unfold parseArg
  dsimp only
  by_cases hok : trim p ≠ [] ∧ ∀ c ∈ trim p, c ≠ '(' ∧ c ≠ ')'
  · rw [if_neg (by rw [hguard, not_not]; exact hok), and_iff_right hok]
    cases parseI64 (trim p) with
    | some n => simp [eq_comm]
    | none => split_ifs <;> simp [eq_comm]
  · rw [if_pos (hguard.2 hok)]
    exact ⟨fun h => absurd h (by simp), fun h => absurd h.1 hok⟩

/-- An argument whose spelling an argument list reads back. -/
structure Listed (a : TypeArg) : Prop where
  reads : parseArg a.raw.toList = some a
  marks : ∀ c ∈ a.raw.toList, c ≠ ',' ∧ c ≠ '[' ∧ c ≠ ']'

theorem isWhitespace_of_isAsciiDigit (hc : isAsciiDigit c = true) : isWhitespace c = false := by
  have hall : ∀ n < 10, isWhitespace (Char.ofNat (0x30 + n)) = false := by decide
  rw [isAsciiDigit, Bool.and_eq_true, decide_eq_true_eq, decide_eq_true_eq] at hc
  have hlow : 0x30 ≤ c.toNat := hc.1
  have hhigh : c.toNat ≤ 0x39 := hc.2
  have := hall (c.toNat - 0x30) (by omega)
  rwa [show 0x30 + (c.toNat - 0x30) = c.toNat by omega, Char.ofNat_toNat] at this

theorem toString_no_space (hc : c ∈ (toString n).toList) : isWhitespace c = false := by
  rcases mem_toString hc with rfl | hd
  · decide
  · exact isWhitespace_of_isAsciiDigit hd

theorem toString_ne {d : Char} (hc : c ∈ (toString n).toList) (hd : d ≠ '-') (hdigit : isAsciiDigit d = false) : c ≠ d := by
  rintro rfl
  rcases mem_toString hc with h | h
  · exact hd h
  · exact absurd h (by simp [hdigit])

theorem listed_int (hlo : -2 ^ 63 ≤ n) (hhi : n < 2 ^ 63) : Listed (.int n) where
  reads := by
    have htrim : trim (toString n).toList = (toString n).toList := trim_of_no_space fun c hc => toString_no_space hc
    show parseArg (toString n).toList = some (.int n)
    rw [parseArg_eq_some, htrim]
    have hread := parseI64_toString hlo hhi
    refine ⟨⟨(of_parseI64 hread).2.1, fun c hc => ⟨?_, ?_⟩⟩, .inl ⟨n, hread, rfl⟩⟩
    · exact toString_ne hc (by decide) (by decide)
    · exact toString_ne hc (by decide) (by decide)
  marks c hc := by
    refine ⟨?_, ?_, ?_⟩
    all_goals exact toString_ne hc (by decide) (by decide)

theorem listed_max : Listed .max := ⟨by decide, all_iff_forall_prop.1 (by decide)⟩

theorem listed_of_parseArg (h : parseArg p = some a) (hp : ∀ c ∈ p, c ≠ ',' ∧ c ≠ '[' ∧ c ≠ ']') : Listed a := by
  rw [parseArg_eq_some] at h
  obtain ⟨⟨hne, hparens⟩, ⟨n, hn, rfl⟩ | ⟨hnone, h⟩⟩ := h
  · obtain ⟨⟨hlo, hhi⟩, -⟩ := of_parseI64 hn
    exact listed_int hlo hhi
  · by_cases hmax : toAsciiLowercase (trim p) = "max".toList
    · rw [if_pos hmax] at h
      exact h ▸ listed_max
    · rw [if_neg hmax] at h
      subst h
      -- A mark is no letter, so lowering the case neither makes nor hides one.
      have hlow : ∀ c ∈ toAsciiLowercase (trim p), ∃ d ∈ trim p, c = lowerAscii d := by
        intro c hc
        obtain ⟨d, hd, rfl⟩ := mem_map.1 hc
        exact ⟨d, hd, rfl⟩
      have hmark : ∀ d m : Char, m ∈ ['(', ')', ',', '[', ']'] → lowerAscii d = m → d = m := by
        intro d m hm hd
        rcases lowerAscii_eq_or d with hself | hup
        · exact hself.symm.trans hd
        · have hall : ∀ d ∈ "ABCDEFGHIJKLMNOPQRSTUVWXYZ".toList, lowerAscii d ∉ ['(', ')', ',', '[', ']'] :=
            all_iff_forall_prop.1 (by decide)
          exact absurd (hd ▸ hm) (hall d hup)
      refine ⟨?_, ?_⟩
      · show parseArg (String.ofList (toAsciiLowercase (trim p))).toList = _
        rw [String.toList_ofList, parseArg_eq_some, trim_toAsciiLowercase, trim_trim, toAsciiLowercase_idem, if_neg hmax]
        refine ⟨⟨by simpa [toAsciiLowercase] using hne, fun c hc => ?_⟩, .inr ⟨?_, rfl⟩⟩
        · obtain ⟨d, hd, rfl⟩ := hlow c hc
          exact ⟨fun h => (hparens d hd).1 (hmark d _ (by decide) h), fun h => (hparens d hd).2 (hmark d _ (by decide) h)⟩
        · cases hn : parseI64 (toAsciiLowercase (trim p)) with
          | none => rfl
          | some n =>
            rw [toAsciiLowercase_of_parseI64 hn, hnone] at hn
            cases hn
      · show ∀ c ∈ (String.ofList (toAsciiLowercase (trim p))).toList, _
        rw [String.toList_ofList]
        intro c hc
        obtain ⟨d, hd, rfl⟩ := hlow c hc
        obtain ⟨h1, h2, h3⟩ := hp d ((trim_sublist p).mem hd)
        exact ⟨fun h => h1 (hmark d _ (by decide) h), fun h => h2 (hmark d _ (by decide) h),
          fun h => h3 (hmark d _ (by decide) h)⟩

theorem raw_of_parseArg (h : parseArg p = some a) : (a.raw.toList = toAsciiLowercase (trim p)) ∨
      (∀ c ∈ a.raw.toList, isWhitespace c = false) ∧ ∀ c ∈ trim p, isWhitespace c = false := by
  rw [parseArg_eq_some] at h
  obtain ⟨-, ⟨n, hn, rfl⟩ | ⟨-, h⟩⟩ := h
  · refine .inr ⟨fun c hc => toString_no_space hc, fun c hc => ?_⟩
    rcases (of_parseI64 hn).2.2 c hc with rfl | rfl | hd
    · decide
    · decide
    · exact isWhitespace_of_isAsciiDigit hd
  · split_ifs at h with hmax
    · rw [h, hmax]
      exact .inl rfl
    · rw [h]
      exact .inl (String.toList_ofList)

theorem not_hasArray_of_no_space {x : List Char} (hx : ∀ c ∈ x, isWhitespace c = false) : ¬ HasArray (x ++ ['(']) := by
  rw [hasArray_append_mark_words fun c hc => hx c (mem_of_mem_getLast? hc), dropLast_splitWhitespace hx]
  simp

theorem hasArray_raw_append (h : parseArg p = some a) :
    HasArray (a.raw.toList ++ ['(']) ↔ ∃ w ∈ (splitWhitespace p).dropLast, toAsciiLowercase w = "array".toList := by
  rcases raw_of_parseArg h with hraw | ⟨hraw, hp⟩
  · have hlower : toAsciiLowercase (trim p) ++ ['('] = toAsciiLowercase (trim p ++ ['(']) := by
      rw [toAsciiLowercase, toAsciiLowercase, map_append]
      rfl
    rw [hraw, hlower, hasArray_toAsciiLowercase, hasArray_append_mark_words (ends_of_trim (trim_trim p)).2,
      splitWhitespace_trim]
  · have hword := dropLast_splitWhitespace hp
    rw [splitWhitespace_trim] at hword
    rw [hword]
    simp [not_hasArray_of_no_space hraw]

theorem hasArray_marks_raw (h : parseArg p = some a)
    (ha : HasArray ('(' :: (a.raw.toList ++ ['(']))) : HasArray ('(' :: (p ++ ['('])) := by
  rcases raw_of_parseArg h with hraw | ⟨hraw, -⟩
  · have hlower : '(' :: (toAsciiLowercase (trim p) ++ ['(']) = toAsciiLowercase ('(' :: (trim p ++ ['('])) := by
      rw [toAsciiLowercase, toAsciiLowercase, map_cons, map_append]
      rfl
    rw [hraw, hlower, hasArray_toAsciiLowercase] at ha
    exact hasArray_of_marks_trim ha
  · exact absurd (hasArray_of_cons_mark ha) (not_hasArray_of_no_space hraw)

end ColumnType

end Pbps
