/-
Which process took the lock: `LockHolder` of `pbps-db`'s `ledger.rs`, the text of it that `locked_by` keeps, and the
application name looked for in that text again.
-/
import Pbps.Lib.JsonText
import Pbps.Lib.Occurs
import Mathlib.Algebra.BigOperators.Group.List.Basic
import Mathlib.Algebra.GroupWithZero.Nat

namespace Pbps.Ledger

open Json (quoted escaped)
open List Option Bool

/-! ## Text as the engines measure it -/

/-- `char::len_utf16`. -/
def lenUtf16 (c : Char) : Nat := if c.toNat < 0x10000 then 1 else 2

def width (text : List Char) : Nat := (text.map lenUtf16).sum

/-- Text cut to at most so many code units, on a character boundary. -/
def clipUtf16 : List Char → Nat → List Char
  | [], _ => []
  | c :: text, room => if lenUtf16 c ≤ room then c :: clipUtf16 text (room - lenUtf16 c) else []

@[simp] theorem width_nil : width [] = 0 := rfl

@[simp] theorem width_append (text text' : List Char) : width (text ++ text') = width text + width text' := by
  rw [width, map_append, sum_append]
  rfl

theorem width_clipUtf16 : ∀ (text : List Char) (room : Nat), width (clipUtf16 text room) ≤ room
  | [], room => Nat.zero_le room
  | c :: text, room => by
    rw [clipUtf16]
    split
    · next hfits =>
      have ih := width_clipUtf16 text (room - lenUtf16 c)
      rw [width, map_cons, sum_cons]
      show lenUtf16 c + width (clipUtf16 text (room - lenUtf16 c)) ≤ room
      omega
    · exact Nat.zero_le room

variable (front : List Char) (n : Nat)

theorem width_toDigits : width (Nat.toDigits 10 n) = (Nat.toDigits 10 n).length := by
  have hone : ∀ c ∈ Nat.toDigits 10 n, lenUtf16 c = 1 := by
    intro c hc
    have hdigit : c.isDigit = true := Nat.isDigit_of_mem_toDigits (by decide) (by decide) hc
    rw [Char.isDigit, and_eq_true, decide_eq_true_iff, decide_eq_true_iff] at hdigit
    have hle : c.toNat ≤ 57 := hdigit.2
    rw [lenUtf16, if_pos (by omega)]
  rw [width, map_congr_left hone, map_const', sum_replicate, Nat.nsmul_eq_mul, Nat.mul_one]

/-! ## The holder and its text -/

/-- The widest `locked_by` that either engine's lock table holds. -/
def LOCKED_BY_CHARS : Nat := 256

def CONTEXT_CHARS : Nat := 64

def APPLICATION_NAME_MARKER : List Char := "application_name ".toList

/-- The process that takes the lock. -/
structure LockHolder where
  operator : String
  host : Option String
  pid : UInt32
  ciJob : Option String
  applicationName : String

namespace LockHolder

variable (holder : LockHolder)

def clip (text : String) : List Char := text.toList.take CONTEXT_CHARS

/-- What stands between the brackets, with the host, the job and the name or without them. -/
def parts (host job name : Bool) : List (List Char) :=
  ((holder.host.filter fun _ => host).map fun h => "host ".toList ++ clip h).toList ++
    ["pid ".toList ++ Nat.toDigits 10 holder.pid.toNat] ++
    ((holder.ciJob.filter fun _ => job).map fun j => "CI job ".toList ++ clip j).toList ++
    if name then [APPLICATION_NAME_MARKER ++ quoted holder.applicationName] else []

def suffix (host job name : Bool) : List Char :=
  " [".toList ++ (", ".toList).intercalate (holder.parts host job name) ++ "]".toList

/-- The first of the suffixes that fits: the job gives way before the host, and the name last. -/
def fitting : List Char :=
  (([(true, true, true), (true, false, true), (false, false, true), (false, false, false)].map fun (host, job, name) =>
    holder.suffix host job name).find? fun s => width s ≤ LOCKED_BY_CHARS).getD (holder.suffix false false false)

/-- `operator [host h, pid p, CI job j, application_name "a"]`, within the width of the column. -/
def render : List Char :=
  clipUtf16 holder.operator.toList (LOCKED_BY_CHARS - width holder.fitting) ++ holder.fitting

end LockHolder

/-- `holder_application_name`: the name after the last marker that a quote follows. -/
def holderApplicationName [Json.Reader] (lockedBy : List Char) : Option String := do
  let start ← Occurs.rfind (APPLICATION_NAME_MARKER ++ ['"']) lockedBy
  let spelled ← (lockedBy.drop start).dropPrefix? APPLICATION_NAME_MARKER
  let spelled ← spelled.dropSuffix? [']']
  Json.Reader.string spelled

/-! ## The suffix -/

theorem intercalate_concat (sep x : List Char) : ∀ l : List (List Char),
    sep.intercalate (l ++ [x]) = l.flatMap (· ++ sep) ++ x
  | [] => intercalate_singleton
  | y :: l => by
    rw [cons_append, intercalate_cons_of_ne_nil (by simp), intercalate_concat sep x l, flatMap_cons]
    simp only [append_assoc]

namespace LockHolder

variable {holder : LockHolder}

theorem suffix_named (host job : Bool) : holder.suffix host job true =
    (" [".toList ++ (holder.parts host job false).flatMap (· ++ ", ".toList)) ++
      (APPLICATION_NAME_MARKER ++ (quoted holder.applicationName ++ [']'])) := by
  have hparts : holder.parts host job true =
      holder.parts host job false ++ [APPLICATION_NAME_MARKER ++ quoted holder.applicationName] := by
    simp [parts]
  rw [suffix, hparts, intercalate_concat]
  simp only [append_assoc]
  rfl

theorem suffix_nameless : holder.suffix false false false = " [pid ".toList ++ Nat.toDigits 10 holder.pid.toNat ++ [']'] := by
  simp [suffix, parts]

theorem width_suffix_le (host job : Bool) : width (holder.suffix false false true) ≤ width (holder.suffix host job true) := by
  have hnone : ∀ o : Option String, o.filter (fun _ => false) = none := fun o => by cases o <;> rfl
  rw [suffix_named, suffix_named]
  simp only [parts, width_append, flatMap_append, hnone, map_none, toList_none, flatMap_nil, width_nil]
  omega

theorem width_nameless : width (holder.suffix false false false) ≤ LOCKED_BY_CHARS := by
  have hpid : (Nat.toDigits 10 holder.pid.toNat).length ≤ 10 := by
    rw [Nat.length_toDigits_le_iff (by decide) (by decide)]
    have hlt := holder.pid.toNat_lt
    omega
  have hfront : width " [pid ".toList = 6 := by decide
  have hback : width [']'] = 1 := by decide
  rw [suffix_nameless, width_append, width_append, width_toDigits, hfront, hback, LOCKED_BY_CHARS]
  omega

theorem fitting_spec : width holder.fitting ≤ LOCKED_BY_CHARS ∧
    (width (holder.suffix false false true) ≤ LOCKED_BY_CHARS → ∃ host job, holder.fitting = holder.suffix host job true) ∧
    (¬ width (holder.suffix false false true) ≤ LOCKED_BY_CHARS → holder.fitting = holder.suffix false false false) := by
  have hall := holder.width_suffix_le true true
  have hhost := holder.width_suffix_le true false
  rw [fitting]
  simp only [map_cons, map_nil]
  by_cases h1 : width (holder.suffix true true true) ≤ LOCKED_BY_CHARS
  · rw [find?_cons_of_pos (by simpa using h1), getD_some]
    exact ⟨h1, fun _ => ⟨true, true, rfl⟩, fun hnot => absurd (hall.trans h1) hnot⟩
  rw [find?_cons_of_neg (by simpa using h1)]
  by_cases h2 : width (holder.suffix true false true) ≤ LOCKED_BY_CHARS
  · rw [find?_cons_of_pos (by simpa using h2), getD_some]
    exact ⟨h2, fun _ => ⟨true, false, rfl⟩, fun hnot => absurd (hhost.trans h2) hnot⟩
  rw [find?_cons_of_neg (by simpa using h2)]
  by_cases h3 : width (holder.suffix false false true) ≤ LOCKED_BY_CHARS
  · rw [find?_cons_of_pos (by simpa using h3), getD_some]
    exact ⟨h3, fun _ => ⟨false, false, rfl⟩, fun hnot => absurd h3 hnot⟩
  · rw [find?_cons_of_neg (by simpa using h3), find?_cons_of_pos (by simpa using width_nameless), getD_some]
    exact ⟨width_nameless, fun h => absurd h h3, fun _ => rfl⟩

theorem width_render : width holder.render ≤ LOCKED_BY_CHARS := by
  have hsuffix := holder.fitting_spec.1
  have hoperator := width_clipUtf16 holder.operator.toList (LOCKED_BY_CHARS - width holder.fitting)
  rw [render, width_append]
  omega

end LockHolder

/-! ## The name that is read back -/

theorem not_mem_marker : '"' ∉ APPLICATION_NAME_MARKER ∧ '\\' ∉ APPLICATION_NAME_MARKER := by decide

theorem needle_ne_nil : APPLICATION_NAME_MARKER ++ ['"'] ≠ [] := by decide

theorem holderApplicationName_of_rfind [Json.Reader] {front spelled : List Char}
    (h : Occurs.rfind (APPLICATION_NAME_MARKER ++ ['"']) (front ++ (APPLICATION_NAME_MARKER ++ (spelled ++ [']']))) =
      some front.length) : holderApplicationName (front ++ (APPLICATION_NAME_MARKER ++ (spelled ++ [']']))) =
      Json.Reader.string spelled := by
  have hpre : (APPLICATION_NAME_MARKER ++ (spelled ++ [']'])).dropPrefix? APPLICATION_NAME_MARKER = some (spelled ++ [']']) :=
    dropPrefix?_append_of_beq _ (beq_self_eq_true _)
  have hsuffix : (spelled ++ [']']).dropSuffix? [']'] = some spelled :=
    dropSuffix?_eq_some_iff.2 ⟨[']'], rfl, beq_self_eq_true _⟩
  rw [holderApplicationName, h, bind_eq_bind, bind_some, drop_left, hpre, bind_eq_bind,
    bind_some, hsuffix]
  rfl

/-- The name's spelling ends with the marker: by itself, or with the code of U+001A before the rest of it. -/
def EndsWithMarker (name : List Char) : Prop :=
  APPLICATION_NAME_MARKER <:+ name ∨ (Char.ofNat 26 :: APPLICATION_NAME_MARKER.tail) <:+ name

instance (name : List Char) : Decidable (EndsWithMarker name) := inferInstanceAs (Decidable (_ ∨ _))

theorem codes_marker : (Json.controls.all fun c =>
    match Json.escapeCode c with
    | some code => code.tails.all fun v =>
      v.isEmpty || !v.isPrefixOf APPLICATION_NAME_MARKER || (c == Char.ofNat 26 && v == ['a'])
    | none => true) = true := by decide

theorem marker_suffix_iff {name : List Char} : APPLICATION_NAME_MARKER <:+ name.flatMap escaped ↔ EndsWithMarker name := by
  constructor
  · intro h
    rcases Json.suffix_body not_mem_marker.2 h with hsuffix | ⟨c, code, v, t, hcode, hv, hne, hsplit, hsuffix⟩
    · exact .inl hsuffix
    · have hall := List.all_eq_true.1 codes_marker c (Json.mem_controls hcode)
      rw [hcode] at hall
      have hcase := List.all_eq_true.1 hall v ((mem_tails v code).2 hv)
      have hpre : v.isPrefixOf APPLICATION_NAME_MARKER = true :=
        isPrefixOf_iff_prefix.2 (hsplit ▸ prefix_append v t)
      rw [hpre, isEmpty_eq_false_iff.2 hne] at hcase
      simp only [Bool.not_true, Bool.or_self, Bool.false_or, and_eq_true, beq_iff_eq] at hcase
      obtain ⟨rfl, rfl⟩ := hcase
      refine .inr ?_
      rw [hsplit]
      exact hsuffix
  · rintro (⟨front, rfl⟩ | ⟨front, rfl⟩)
    · rw [flatMap_append]
      exact suffix_append _ _
    · rw [flatMap_append]
      exact (by decide : APPLICATION_NAME_MARKER <:+ (Char.ofNat 26 :: APPLICATION_NAME_MARKER.tail).flatMap escaped).trans
        (suffix_append _ _)

theorem suffix_of_quote {w u v : List Char} (hw : '"' ∉ w) (h : w <:+ u ++ '"' :: v) : w <:+ v := by
  rcases suffix_or_suffix_of_suffix h (suffix_append u _) with hsuffix | ⟨x, rfl⟩
  · rcases suffix_cons_iff.1 hsuffix with rfl | hsuffix
    · exact absurd mem_cons_self hw
    · exact hsuffix
  · exact absurd (mem_append_right x mem_cons_self) hw

/-- A marker after the first is in the escaped name itself. -/
theorem marker_of_later {front name : List Char} {q : Nat} (hq : front.length < q)
    (h : Occurs.At (APPLICATION_NAME_MARKER ++ ['"'])
      (front ++ (APPLICATION_NAME_MARKER ++ '"' :: (name.flatMap escaped ++ ['"', ']']))) q) :
    APPLICATION_NAME_MARKER <:+ name.flatMap escaped := by
  obtain ⟨r, hr⟩ := h
  generalize htext : APPLICATION_NAME_MARKER ++ '"' :: (name.flatMap escaped ++ ['"', ']']) = text at hr
  rw [drop_append, drop_eq_nil_of_le hq.le, nil_append] at hr
  -- what stands before the later quote, from the first marker on
  have hsplit : (text.take (q - front.length) ++ APPLICATION_NAME_MARKER) ++ '"' :: r =
      APPLICATION_NAME_MARKER ++ '"' :: (name.flatMap escaped ++ ['"', ']']) := by
    have htake := take_append_drop (q - front.length) text
    rw [← hr] at htake
    rw [htext, ← singleton_append, append_assoc, ← append_assoc APPLICATION_NAME_MARKER]
    exact htake
  have hlong : APPLICATION_NAME_MARKER.length < (text.take (q - front.length) ++ APPLICATION_NAME_MARKER).length := by
    have hpos : 0 < text.length := by
      rw [← htext, length_append, length_cons]
      omega
    rw [length_append, length_take]
    omega
  have hmarker : APPLICATION_NAME_MARKER <:+ text.take (q - front.length) ++ APPLICATION_NAME_MARKER := suffix_append _ _
  rcases append_eq_append_iff.1 hsplit with ⟨a, ha, -⟩ | ⟨between, hbetween, hrest⟩
  · have hlength := congrArg List.length ha
    rw [length_append] at hlength
    omega
  cases between with
  | nil =>
    rw [hbetween, append_nil] at hlong
    exact absurd hlong (Nat.lt_irrefl _)
  | cons c between =>
    obtain ⟨rfl, htail⟩ := cons.inj hrest
    have hends : APPLICATION_NAME_MARKER <:+ between := suffix_of_quote not_mem_marker.1 (hbetween ▸ hmarker)
    rcases append_eq_append_iff.1 htail with ⟨a, rfl, ha⟩ | ⟨a, hbody, ha⟩
    · rcases a with _ | ⟨d, _ | ⟨e, a⟩⟩
      · rwa [append_nil] at hends
      · exact absurd (cons.inj (cons.inj ha).2).1 (by decide)
      · simp at ha
    · cases a with
      | nil =>
        rw [append_nil] at hbody
        rwa [hbody]
      | cons d a =>
        -- within the name's spelling a backslash stands before a quote, and no space
        obtain ⟨rfl, -⟩ := cons.inj ha
        obtain ⟨before, rfl⟩ := Json.body_quote hbody
        obtain ⟨front', hfront⟩ := hends
        have hlast := congrArg List.getLast? hfront
        have hspace : APPLICATION_NAME_MARKER.getLast? = some ' ' := by decide
        rw [getLast?_concat, getLast?_append, hspace, some_or] at hlast
        exact absurd (some.inj hlast) (by decide)

theorem rfind_last : Occurs.rfind (APPLICATION_NAME_MARKER ++ ['"']) (front ++ (APPLICATION_NAME_MARKER ++ (['"'] ++ [']']))) =
      some front.length := by
  refine (Occurs.rfind_eq_some needle_ne_nil).2 ⟨?_, fun q hq hat => ?_⟩
  · rw [Occurs.At, drop_left, ← append_assoc]
    exact prefix_append _ _
  · have hlength := hat.le_length needle_ne_nil
    simp only [length_append, length_cons, length_nil] at hlength
    obtain rfl : q = front.length + 1 := by omega
    rw [Occurs.At, drop_append, drop_eq_nil_of_le (by omega), nil_append, Nat.add_sub_cancel_left] at hat
    exact absurd hat (by decide)

theorem holderApplicationName_named [Json.Reader] (name : String) :
    holderApplicationName (front ++ (APPLICATION_NAME_MARKER ++ (quoted name ++ [']']))) =
      if EndsWithMarker name.toList then none else some name := by
  have hquoted : quoted name ++ [']'] = '"' :: (name.toList.flatMap escaped ++ ['"', ']']) := by
    rw [quoted, cons_append, append_assoc]
    rfl
  split
  · next hends =>
    obtain ⟨body, hbody⟩ := marker_suffix_iff.2 hends
    have hsplit : front ++ (APPLICATION_NAME_MARKER ++ (quoted name ++ [']'])) =
        (front ++ (APPLICATION_NAME_MARKER ++ '"' :: body)) ++ (APPLICATION_NAME_MARKER ++ (['"'] ++ [']'])) := by
      rw [hquoted, ← hbody]
      simp
    rw [hsplit, holderApplicationName_of_rfind (rfind_last _), eq_none_iff_forall_ne_some]
    -- one quote alone is no string
    intro s hread
    obtain ⟨front, body, blanks, hone, -⟩ := Json.Reader.string_quote hread
    have hlength := congrArg List.length hone
    simp only [length_append, length_cons, length_nil] at hlength
    omega
  · next hends =>
    rw [holderApplicationName_of_rfind, Json.Reader.string_quoted]
    refine (Occurs.rfind_eq_some needle_ne_nil).2 ⟨?_, fun q hq hat => hends (marker_suffix_iff.1 ?_)⟩
    · rw [Occurs.At, drop_left, hquoted, ← singleton_append, ← append_assoc]
      exact prefix_append _ _
    · rw [hquoted] at hat
      exact marker_of_later hq hat

theorem holderApplicationName_nameless [Json.Reader] : holderApplicationName (front ++ Nat.toDigits 10 n ++ [']']) = none := by
  rw [eq_none_iff_forall_ne_some]
  intro name h
  simp only [holderApplicationName, bind_eq_bind, bind_eq_some_iff, dropPrefix?_eq_some_iff,
    dropSuffix?_eq_some_iff, beq_iff_eq] at h
  obtain ⟨start, -, spelled, ⟨marker, hmarker, -⟩, inner, ⟨bracket, rfl, rfl⟩, hread⟩ := h
  obtain ⟨opening, body, blanks, rfl, hblanks⟩ := Json.Reader.string_quote hread
  have htext := take_append_drop start (front ++ Nat.toDigits 10 n ++ [']'])
  rw [hmarker, ← append_assoc, ← append_assoc] at htext
  have hinner := congrArg List.getLast? (append_cancel_right htext)
  rw [← append_assoc, getLast?_append_cons, getLast?_append] at hinner
  have hne : Nat.toDigits 10 n ≠ [] := Nat.toDigits_ne_nil
  rw [getLast?_eq_some_getLast hne, some_or] at hinner
  have hdigit : ((Nat.toDigits 10 n).getLast hne).isDigit = true :=
    Nat.isDigit_of_mem_toDigits (by decide) (by decide) (getLast_mem hne)
  rcases mem_cons.1 (mem_of_getLast? hinner) with hquote | hblank
  · rw [hquote] at hdigit
    cases hdigit
  · have hall : ([' ', '\n', '\t', '\r'].all fun c => !c.isDigit) = true := by decide
    have hc := List.all_eq_true.1 hall _ (contains_iff_mem.1 (List.all_eq_true.1 hblanks _ hblank))
    rw [hdigit] at hc
    cases hc

/-! ## Looking a holder up -/

namespace LockHolder

/-- What `locked_by` is to give: a text that the column holds, in which the application name is found again wherever it fits
beside the pid, and no name otherwise. -/
def LooksUp [Json.Reader] (holder : LockHolder) : Prop :=
  width holder.render ≤ LOCKED_BY_CHARS ∧
    holderApplicationName holder.render =
      if width (holder.suffix false false true) ≤ LOCKED_BY_CHARS then some holder.applicationName else none

theorem holderApplicationName_render [Json.Reader] (holder : LockHolder) : holderApplicationName holder.render =
    if width (holder.suffix false false true) ≤ LOCKED_BY_CHARS ∧ ¬ EndsWithMarker holder.applicationName.toList then
      some holder.applicationName else none := by
  obtain ⟨-, hnamed, hnameless⟩ := holder.fitting_spec
  by_cases hfits : width (holder.suffix false false true) ≤ LOCKED_BY_CHARS
  · obtain ⟨host, job, hfitting⟩ := hnamed hfits
    rw [render, hfitting, suffix_named, ← append_assoc, holderApplicationName_named]
    by_cases hends : EndsWithMarker holder.applicationName.toList
    · rw [if_pos hends, if_neg fun h => h.2 hends]
    · rw [if_neg hends, if_pos ⟨hfits, hends⟩]
  · rw [render, hnameless hfits, suffix_nameless, ← append_assoc, ← append_assoc, holderApplicationName_nameless,
      if_neg fun h => hfits h.1]

theorem not_looksUp [Json.Reader] {holder : LockHolder} (hfits : width (holder.suffix false false true) ≤ LOCKED_BY_CHARS)
    (hends : EndsWithMarker holder.applicationName.toList) : ¬ holder.LooksUp := by
  rintro ⟨-, h⟩
  rw [holderApplicationName_render, if_neg fun h => h.2 hends, if_pos hfits] at h
  cases h

/-- A holder can be looked up exactly where its name's spelling does not end with the marker, or does not fit. -/
theorem looksUp_iff [Json.Reader] (holder : LockHolder) : holder.LooksUp ↔
    ¬ (width (holder.suffix false false true) ≤ LOCKED_BY_CHARS ∧ EndsWithMarker holder.applicationName.toList) := by
  constructor
  · exact fun h ⟨hfits, hends⟩ => not_looksUp hfits hends h
  · intro h
    refine ⟨holder.width_render, ?_⟩
    rw [holderApplicationName_render]
    by_cases hfits : width (holder.suffix false false true) ≤ LOCKED_BY_CHARS
    · rw [if_pos ⟨hfits, fun hends => h ⟨hfits, hends⟩⟩, if_pos hfits]
    · rw [if_neg fun h => hfits h.1, if_neg hfits]

/-- A session that calls itself `application_name ` cannot be looked up. -/
theorem not_looksUp_marker : ¬ @LooksUp Json.ofQuoted ⟨"leon", none, 1, none, "application_name "⟩ :=
  @not_looksUp Json.ofQuoted _ (by decide) (.inl ⟨[], rfl⟩)

end LockHolder

end Pbps.Ledger
