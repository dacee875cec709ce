/-
Module identities as text (`RoutineId` and `ModuleId` of `module.rs`): the shape decides the variant, and an argument list
is split at the commas that separate arguments.
-/
import Pbps.Modules.Argument

namespace Pbps

open TypeRef (trim lowerAscii)
open RoutineArg (Kept fold)
open List Option Except
open String (ofList_toList toList_ofList)

/-! ## Splitting -/

def openAfter (parens brackets : Nat) (c : Char) : Option (Nat × Nat) :=
  if c = '(' then some (parens + 1, brackets)
  else if c = ')' then if parens = 0 then none else some (parens - 1, brackets)
  else if c = '[' then some (parens, brackets + 1)
  else if c = ']' then if brackets = 0 then none else some (parens, brackets - 1)
  else some (parens, brackets)

/-- The parts between the commas that stand outside quotes, parentheses and brackets. The escape character of a `UESCAPE`
clause is stepped over with its quotes. -/
def splitTopLevel : Bool → Nat → Nat → List Char → Option (List (List Char))
  | true, _, _, [] => none
  | false, parens, brackets, [] => if parens = 0 ∧ brackets = 0 then some [[]] else none
  | true, parens, brackets, c :: cs =>
    if c = '"' then
      match cs with
      | '"' :: cs => (splitTopLevel true parens brackets cs).map (·.modifyHead ('"' :: '"' :: ·))
      | cs => (splitTopLevel false parens brackets cs).map (·.modifyHead ('"' :: ·))
    else (splitTopLevel true parens brackets cs).map (·.modifyHead (c :: ·))
  | false, parens, brackets, c :: cs =>
    if c = '\'' then
      match cs with
      | escape :: '\'' :: cs =>
        (splitTopLevel false parens brackets cs).map (·.modifyHead ('\'' :: escape :: '\'' :: ·))
      | cs => (splitTopLevel false parens brackets cs).map (·.modifyHead ('\'' :: ·))
    else if c = ',' ∧ parens = 0 ∧ brackets = 0 then (splitTopLevel false 0 0 cs).map ([] :: ·)
    else
      (openAfter parens brackets c).bind fun opened =>
        (splitTopLevel (c = '"') opened.1 opened.2 cs).map (·.modifyHead (c :: ·))

variable {parens brackets : Nat} {c : Char} {cs : List Char}

theorem splitTopLevel_inside : splitTopLevel true parens brackets (c :: cs) = if c = '"' then
      if cs.head? = some '"' then (splitTopLevel true parens brackets cs.tail).map (·.modifyHead ('"' :: '"' :: ·))
      else (splitTopLevel false parens brackets cs).map (·.modifyHead ('"' :: ·))
    else (splitTopLevel true parens brackets cs).map (·.modifyHead (c :: ·)) := by
  rw [splitTopLevel.eq_def]
  dsimp only
  split
  · split
    · rfl
    · next hne =>
      rw [if_neg]
      intro heq
      obtain ⟨cs', rfl⟩ := head?_eq_some_iff.1 heq
      exact hne cs' rfl
  · rfl

theorem splitTopLevel_outside (hquote : c ≠ '\'') :
    splitTopLevel false parens brackets (c :: cs) =
      if c = ',' ∧ parens = 0 ∧ brackets = 0 then (splitTopLevel false 0 0 cs).map ([] :: ·)
      else
        (openAfter parens brackets c).bind fun opened =>
          (splitTopLevel (c = '"') opened.1 opened.2 cs).map (·.modifyHead (c :: ·)) := by
  rw [splitTopLevel.eq_def]
  exact if_neg hquote

def joined (args : List (List Char)) : List Char := List.intercalate [','] args

/-! ## Identities -/

inductive ModuleIdError where
  | shape (text : String)
  | emptySegment (text : String)
  | notARoutine (text : String)
  | argument (whole argument : String) (reason : RoutineArgError)
  deriving DecidableEq, Repr

def RoutineId.raw (r : RoutineId) : String :=
  String.ofList (r.name.raw.toList ++ '(' :: (joined (r.args.map String.toList) ++ [')']))

namespace ModuleId

def raw : ModuleId → String
  | .named n => n.raw
  | .routine r => r.raw
  | .trigger on name => String.ofList (on.raw.toList ++ '.' :: name.toList)

/-- One argument of a list, whose error names it and the whole text. -/
def readArg (alphanumeric : Char → Bool) (whole : String) (arg : List Char) : Except ModuleIdError String :=
  ((RoutineArg.parse alphanumeric arg).mapError (.argument whole (String.ofList (trim arg)))).map String.ofList

def fromStr (alphanumeric : Char → Bool) (s : String) : Except ModuleIdError ModuleId :=
  let text := s.toList
  if text.contains '(' then
    let after := (text.dropWhile (· ≠ '(')).tail
    if after.getLast? ≠ some ')' then .error (.shape s)
    else
      match TableName.parse (String.ofList (text.takeWhile (· ≠ '('))) with
      | .error _ => .error (.shape s)
      | .ok name =>
        let args := after.dropLast
        if (trimAscii args).isEmpty then .ok (.routine ⟨name, []⟩)
        else
          match splitTopLevel false 0 0 args with
          | none => .error (.shape s)
          | some parts => (parts.mapM (readArg alphanumeric s)).map fun types => .routine ⟨name, types⟩
  else
    let parts := splitDots text
    if parts.any (·.isEmpty) then .error (.emptySegment s)
    else
      match parts with
      | [schema, name] => .ok (.named ⟨String.ofList schema, String.ofList name⟩)
      | [schema, table, name] =>
        .ok (.trigger ⟨String.ofList schema, String.ofList table⟩ (String.ofList name))
      | _ => .error (.shape s)

end ModuleId

/-- Through the module identity, where a signature is told from a plain name. -/
def RoutineId.fromStr (alphanumeric : Char → Bool) (s : String) : Except ModuleIdError RoutineId :=
  match ModuleId.fromStr alphanumeric s with
  | .error e => .error e
  | .ok (.routine r) => .ok r
  | .ok _ => .error (.notARoutine s)

/-! ## A list of arguments, split again -/

def EndsArgument (tail : List Char) : Prop := tail = [] ∨ ∃ rest, tail = ',' :: rest

variable {opened : Nat × Nat} {s : RoutineArg.Reader}

theorem splitTopLevel_cons (hquote : c ≠ '\'') (hcomma : ¬ (c = ',' ∧ parens = 0 ∧ brackets = 0))
    (hopened : openAfter parens brackets c = some opened) : splitTopLevel false parens brackets (c :: cs) =
      (splitTopLevel (c = '"') opened.1 opened.2 cs).map (·.modifyHead (c :: ·)) := by
  rw [splitTopLevel_outside hquote, if_neg hcomma, hopened]
  rfl

theorem splitTopLevel_nest (h : s.nest c = some opened) : splitTopLevel false s.parens s.brackets (c :: cs) =
      (splitTopLevel (c = '"') opened.1 opened.2 cs).map (·.modifyHead (c :: ·)) := by
  rw [RoutineArg.Reader.nest] at h
  refine splitTopLevel_cons ?_ ?_ ?_
  · rintro rfl
    cases h
  · rintro ⟨rfl, hclosed⟩
    simp [hclosed] at h
  · rw [openAfter]
    split_ifs at h ⊢ <;> simp_all

theorem splitTopLevel_quoted (hc : c ≠ '"') :
    splitTopLevel true parens brackets (c :: cs) = (splitTopLevel true parens brackets cs).map (·.modifyHead (c :: ·)) := by
  rw [splitTopLevel_inside, if_neg hc]

theorem splitTopLevel_doubled : splitTopLevel true parens brackets ('"' :: '"' :: cs) =
    (splitTopLevel true parens brackets cs).map (·.modifyHead ('"' :: '"' :: ·)) := by
  rw [splitTopLevel_inside, if_pos rfl]
  exact if_pos rfl

theorem splitTopLevel_close (h : cs.head? ≠ some '"') : splitTopLevel true parens brackets ('"' :: cs) =
      (splitTopLevel false parens brackets cs).map (·.modifyHead ('"' :: ·)) := by
  rw [splitTopLevel_inside, if_pos rfl, if_neg h]

theorem splitTopLevel_comma : splitTopLevel false 0 0 (',' :: cs) = (splitTopLevel false 0 0 cs).map ([] :: ·) := by
  have hcomma : ',' = ',' ∧ 0 = 0 ∧ 0 = 0 := ⟨rfl, rfl, rfl⟩
  rw [splitTopLevel_outside (by decide), if_pos hcomma]

theorem map_modifyHead (front : List Char) {after : List Char} {parts : Option (List (List Char))} :
    (parts.map (·.modifyHead (after ++ ·))).map (·.modifyHead (front ++ ·)) =
      parts.map (·.modifyHead ((front ++ after) ++ ·)) := by
  rw [Option.map_map]
  congr 1
  funext parts
  cases parts with
  | nil => rfl
  | cons p parts => simp

theorem splitTopLevel_fold {q : Bool} {out : List Char} (h : fold q s cs = some out) (tail : List Char)
    (htail : EndsArgument tail) : splitTopLevel q s.parens s.brackets (out ++ tail) =
      (splitTopLevel false 0 0 tail).map (·.modifyHead (out ++ ·)) := by
  fun_induction fold q s cs generalizing out with
  | case1 => cases h
  | case2 s hclosed =>
    cases h
    rw [hclosed.1, hclosed.2, nil_append]
    have hid : (fun parts : List (List Char) => parts.modifyHead (([] : List Char) ++ ·)) = id := by
      funext parts
      cases parts <;> rfl
    rw [hid, Option.map_id, id]
  | case3 => cases h
  | case4 s cs ih =>
    obtain ⟨out, hout, rfl⟩ := map_eq_some_iff.1 h
    rw [cons_append, cons_append, splitTopLevel_doubled, ih hout]
    exact map_modifyHead ['"', '"']
  | case5 s cs hcs ih =>
    obtain ⟨out, hout, rfl⟩ := map_eq_some_iff.1 h
    have hhead : cs.head? ≠ some '"' := by
      intro heq
      obtain ⟨cs', rfl⟩ := head?_eq_some_iff.1 heq
      exact hcs cs' rfl
    have hout' : (out ++ tail).head? ≠ some '"' := by
      have hne := RoutineArg.head_fold_ne hout rfl (.inr hhead)
      cases out with
      | cons c out => exact hne
      | nil =>
        rcases htail with rfl | ⟨rest, rfl⟩
        · exact fun heq => by cases heq
        · exact fun heq => absurd (some.inj heq) (by decide)
    rw [cons_append, splitTopLevel_close hout', ih hout]
    exact map_modifyHead ['"']
  | case6 s c cs hc ih =>
    obtain ⟨out, hout, rfl⟩ := map_eq_some_iff.1 h
    rw [cons_append, splitTopLevel_quoted hc, ih hout]
    exact map_modifyHead [c]
  | case7 s c cs hc ih => exact ih h
  | case8 s c cs hc ih =>
    obtain ⟨opened, hnest, h⟩ := bind_eq_some_iff.1 h
    obtain ⟨out, hout, rfl⟩ := map_eq_some_iff.1 h
    have hlower : splitTopLevel false s.parens s.brackets (lowerAscii c :: (out ++ tail)) =
        (splitTopLevel false 0 0 tail).map (·.modifyHead ((lowerAscii c :: out) ++ ·)) := by
      have hquote : (lowerAscii c = '"') = (c = '"') := propext ((RoutineArg.sameClass_lowerAscii c).marks '"' (by decide))
      rw [splitTopLevel_nest ((RoutineArg.nest_lowerAscii s c).trans hnest)]
      simp only [hquote]
      rw [ih opened hout]
      exact map_modifyHead [lowerAscii c]
    split
    · rw [append_assoc, singleton_append, cons_append, splitTopLevel_cons (by decide) (by simp) rfl]
      refine (congrArg (Option.map _) hlower).trans ?_
      exact map_modifyHead [' ']
    · exact hlower

theorem splitTopLevel_joined {args : List (List Char)} (hne : args ≠ []) (h : ∀ arg ∈ args, ∃ cs, fold false {} cs = some arg) :
    splitTopLevel false 0 0 (joined args) = some args := by
  induction args with
  | nil => exact absurd rfl hne
  | cons arg rest ih =>
    obtain ⟨cs, hfold⟩ := h arg mem_cons_self
    cases rest with
    | nil =>
      have hsplit := splitTopLevel_fold hfold [] (.inl rfl)
      rw [append_nil] at hsplit
      rw [joined, intercalate_singleton]
      exact hsplit.trans (by simp [splitTopLevel])
    | cons next rest =>
      have hrest := ih (cons_ne_nil _ _) fun a ha => h a (mem_cons_of_mem _ ha)
      have hsplit := splitTopLevel_fold hfold (',' :: joined (next :: rest)) (.inr ⟨_, rfl⟩)
      rw [splitTopLevel_comma, hrest] at hsplit
      rw [joined, intercalate_cons_cons, append_assoc, singleton_append]
      exact hsplit.trans (by simp)

/-! ## Reading an identity again -/

def argTexts (s : String) : List (List Char) :=
  let args := ((s.toList.dropWhile (· ≠ '(')).tail).dropLast
  if (trimAscii args).isEmpty then [] else (splitTopLevel false 0 0 args).getD []

theorem argTexts_of_not_mem {s : String} (h : '(' ∉ s.toList) : argTexts s = [] := by
  have hdrop : s.toList.dropWhile (· ≠ '(') = [] := by
    rw [dropWhile_eq_nil_iff]
    intro c hc
    rw [decide_eq_true_eq]
    rintro rfl
    exact h hc
  rw [argTexts, hdrop]
  rfl

theorem trimAscii_ne_nil (hc : isAsciiWhitespace c = false) : trimAscii (c :: cs) ≠ [] := by
  intro h
  rw [trimAscii, dropWhile_cons_of_neg (by simp [hc]), reverse_eq_nil_iff, dropWhile_eq_nil_iff] at h
  have hspace := h c (by simp)
  rw [hc] at hspace
  cases hspace

namespace ModuleId

variable {alphanumeric : Char → Bool}

variable {whole : String} {r : RoutineId} {m : ModuleId}

theorem readArg_eq_ok {text : List Char} {arg : String} :
    readArg alphanumeric whole text = .ok arg ↔ RoutineArg.parse alphanumeric text = .ok arg.toList := by
  rw [readArg, map_eq_ok]
  constructor
  · rintro ⟨out, hout, rfl⟩
    rw [toList_ofList]
    exact mapError_eq_ok.1 hout
  · exact fun h => ⟨arg.toList, mapError_eq_ok.2 h, ofList_toList⟩

theorem trimAscii_joined_ne_nil {args : List (List Char)} (hne : args ≠ [])
    (h : ∀ arg ∈ args, ∃ text, RoutineArg.parse alphanumeric text = .ok arg) : trimAscii (joined args) ≠ [] := by
  cases args with
  | nil => exact absurd rfl hne
  | cons arg rest =>
    obtain ⟨text, hparse⟩ := h arg mem_cons_self
    obtain ⟨htrim, harg, -⟩ := RoutineArg.raw_of_parse hparse
    obtain ⟨c, cs, rfl⟩ := exists_cons_of_ne_nil harg
    have hc : isAsciiWhitespace c = false := RoutineArg.head_trimAscii (s := c :: cs) (by rw [htrim]; rfl)
    cases rest with
    | nil => exact trimAscii_ne_nil hc
    | cons next rest =>
      rw [joined, intercalate_cons_cons, cons_append, cons_append]
      exact trimAscii_ne_nil hc

theorem mapM_readArg_self {args : List String} : (args.map String.toList).mapM (readArg alphanumeric whole) =
    .ok args ↔ ∀ arg ∈ args, RoutineArg.parse alphanumeric arg.toList = .ok arg.toList := by
  rw [mapM_eq_ok, forall₂_map_left_iff, forall₂_same]
  simp only [readArg_eq_ok]

theorem fromStr_raw_routine (hname : TableName.parse r.name.raw = .ok r.name) (hparen : '(' ∉ r.name.raw.toList)
    (hargs : ∀ arg ∈ r.args, ∃ text, RoutineArg.parse alphanumeric text = .ok arg.toList) :
    fromStr alphanumeric r.raw = .ok (.routine r) ↔
      ∀ arg ∈ r.args, RoutineArg.parse alphanumeric arg.toList = .ok arg.toList := by
  obtain ⟨name, args⟩ := r
  have hne : ∀ c ∈ name.raw.toList, decide (c ≠ '(') = true := by
    intro c hc
    rw [decide_eq_true_eq]
    rintro rfl
    exact hparen hc
  have htake : (RoutineId.raw ⟨name, args⟩).toList.takeWhile (· ≠ '(') = name.raw.toList := by
    rw [RoutineId.raw, toList_ofList, takeWhile_append_of_pos hne, takeWhile_cons_of_neg (by simp),
      append_nil]
  have hdrop : ((RoutineId.raw ⟨name, args⟩).toList.dropWhile (· ≠ '(')).tail = joined (args.map String.toList) ++ [')'] := by
    rw [RoutineId.raw, toList_ofList, dropWhile_append_of_pos hne, dropWhile_cons_of_neg (by simp),
      tail_cons]
  have hcontains : (RoutineId.raw ⟨name, args⟩).toList.contains '(' = true := by
    rw [RoutineId.raw, toList_ofList]
    simp
  rw [fromStr]
  dsimp only
  rw [if_pos hcontains, htake, hdrop, getLast?_concat, if_neg (not_not_intro rfl), ofList_toList, hname,
    dropLast_concat]
  dsimp only
  cases args with
  | nil => simp [joined, trimAscii]
  | cons arg rest =>
    have hparsed : ∀ a ∈ (arg :: rest).map String.toList, ∃ text, RoutineArg.parse alphanumeric text = .ok a := by
      intro a ha
      obtain ⟨arg, harg, rfl⟩ := List.mem_map.1 ha
      exact hargs arg harg
    have hfolded : ∀ a ∈ (arg :: rest).map String.toList, ∃ cs, fold false {} cs = some a := by
      intro a ha
      obtain ⟨text, htext⟩ := hparsed a ha
      obtain ⟨plain, -, -, hplain⟩ := RoutineArg.parse_eq_ok htext
      exact ⟨plain, hplain⟩
    have htrim := trimAscii_joined_ne_nil (by simp) hparsed
    rw [if_neg fun hempty => htrim (List.isEmpty_iff.1 hempty), splitTopLevel_joined (by simp) hfolded]
    dsimp only
    rw [map_eq_ok, ← mapM_readArg_self]
    constructor
    · rintro ⟨types, htypes, heq⟩
      obtain rfl : types = arg :: rest := by cases heq; rfl
      exact htypes
    · exact fun htypes => ⟨_, htypes, rfl⟩

variable {s : String}

theorem routine_of_fromStr (h : fromStr alphanumeric s = .ok (.routine r)) :
    TableName.parse r.name.raw = .ok r.name ∧ '(' ∉ r.name.raw.toList ∧
      Forall₂ (fun text (arg : String) => RoutineArg.parse alphanumeric text = .ok arg.toList) (argTexts s) r.args := by
  rw [fromStr] at h
  dsimp only at h
  split at h
  · split at h
    · cases h
    · split at h
      · cases h
      · next name hname =>
        have hraw := Load.raw_of_parse hname
        have hparse : TableName.parse name.raw = .ok name := by
          rw [← hname, ← hraw, ofList_toList]
        have hparen : '(' ∉ name.raw.toList := by
          rw [hraw]
          intro hmem
          exact absurd (mem_takeWhile_imp hmem) (by simp)
        rw [argTexts]
        split at h
        · next hempty =>
          cases h
          rw [if_pos hempty]
          exact ⟨hparse, hparen, .nil⟩
        · next hempty =>
          rw [if_neg hempty]
          split at h
          · cases h
          · next parts hparts =>
            obtain ⟨types, htypes, heq⟩ := map_eq_ok.1 h
            cases heq
            rw [hparts, getD_some]
            refine ⟨hparse, hparen, (mapM_eq_ok.1 htypes).imp ?_⟩
            exact fun _ _ => readArg_eq_ok.1
  · split at h
    · cases h
    · split at h <;> cases h

theorem exists_routine_of_fromStr (h : fromStr alphanumeric s = .ok m) (hparen : '(' ∈ s.toList) : ∃ r, m = .routine r := by
  rw [fromStr] at h
  dsimp only at h
  rw [if_pos (by simpa using hparen)] at h
  split at h
  · cases h
  · split at h
    · cases h
    · split at h
      · exact ⟨_, (ok.inj h).symm⟩
      · split at h
        · cases h
        · obtain ⟨types, -, rfl⟩ := map_eq_ok.1 h
          exact ⟨_, rfl⟩

theorem raw_of_fromStr (h : fromStr alphanumeric s = .ok m) (hparen : '(' ∉ s.toList) : m.raw = s := by
  rw [fromStr] at h
  dsimp only at h
  rw [if_neg (by simpa using hparen)] at h
  have hdots := Load.intercalate_splitDots s.toList
  rw [← String.toList_inj, ← hdots]
  split at h
  · cases h
  · split at h
    · next schema name hsplit =>
      cases h
      rw [hsplit, intercalate_cons_cons, intercalate_singleton, raw, Load.raw_toList]
      simp
    · next schema table name hsplit =>
      cases h
      rw [hsplit, intercalate_cons_cons, intercalate_cons_cons, intercalate_singleton, raw, toList_ofList,
        Load.raw_toList]
      simp
    · cases h

end ModuleId

theorem ModuleId.reads_back_iff {alphanumeric : Char → Bool} {s : String} {m : ModuleId} (h : fromStr alphanumeric s = .ok m) :
    fromStr alphanumeric m.raw = .ok m ↔ ∀ text ∈ argTexts s, Kept alphanumeric text := by
  by_cases hparen : '(' ∈ s.toList
  · obtain ⟨r, rfl⟩ := exists_routine_of_fromStr h hparen
    obtain ⟨hname, hplain, hargs⟩ := routine_of_fromStr h
    have hread : ∀ arg ∈ r.args, ∃ text, RoutineArg.parse alphanumeric text = .ok arg.toList := by
      intro arg harg
      obtain ⟨text, -, htext⟩ := hargs.exists_of_mem_right harg
      exact ⟨text, htext⟩
    rw [raw, fromStr_raw_routine hname hplain hread]
    constructor
    · intro hall text htext
      obtain ⟨arg, harg, hparse⟩ := hargs.exists_of_mem_left htext
      exact (RoutineArg.parse_parsed_iff hparse).1 (hall arg harg)
    · intro hall arg harg
      obtain ⟨text, htext, hparse⟩ := hargs.exists_of_mem_right harg
      exact (RoutineArg.parse_parsed_iff hparse).2 (hall text htext)
  · rw [raw_of_fromStr h hparen, argTexts_of_not_mem hparen]
    exact ⟨fun _ _ hmem => absurd hmem not_mem_nil, fun _ => h⟩

/-- Arguments and identities are read from their raw forms as themselves just where each argument is `Kept`: no `$` outside
quotes owes its place in an identifier to layout that goes. -/
theorem ModuleId.raw_reads_back_iff (alphanumeric : Char → Bool) : (∀ text out, RoutineArg.parse alphanumeric text = .ok out →
      (RoutineArg.parse alphanumeric out = .ok out ↔ Kept alphanumeric text)) ∧ ∀ s m, fromStr alphanumeric s = .ok m →
      (fromStr alphanumeric m.raw = .ok m ↔ ∀ text ∈ argTexts s, Kept alphanumeric text) :=
  ⟨fun _ _ => RoutineArg.parse_parsed_iff, fun _ _ => reads_back_iff⟩

namespace Quoted

/-- A routine whose argument is an array of a type with a comma and a parenthesis in its name. -/
def routine : ModuleId := .routine ⟨⟨"app", "f"⟩, ["\"a,b)\"[]", "integer"]⟩

theorem raw_reads_back_iff_quoted : ModuleId.fromStr isAsciiAlphanumeric routine.raw = .ok routine ↔
    ∀ text ∈ argTexts "app.f(U&\"a!002Cb)\" UESCAPE '!' [], INTEGER )", Kept isAsciiAlphanumeric text :=
  (ModuleId.raw_reads_back_iff isAsciiAlphanumeric).2 _ _ (by decide +kernel)

end Quoted

/-- A number ended by layout goes on over a dot without it, and a `$` after it is then no byte of a name. -/
theorem ModuleId.fromStr_raw_number :
    (¬ ∀ text out, RoutineArg.parse isAsciiAlphanumeric text = .ok out → RoutineArg.parse isAsciiAlphanumeric out = .ok out) ∧
      ¬ ∀ s m, fromStr isAsciiAlphanumeric s = .ok m → fromStr isAsciiAlphanumeric m.raw = .ok m := by
  constructor
  · intro h
    have hread : RoutineArg.parse isAsciiAlphanumeric "1. a$b".toList = .ok "1.a$b".toList := by decide +kernel
    exact absurd (h _ _ hread) (by decide +kernel)
  · intro h
    have hread : fromStr isAsciiAlphanumeric "app.f(1. a$b)" = .ok (.routine ⟨⟨"app", "f"⟩, ["1.a$b"]⟩) := by decide +kernel
    exact absurd (h _ _ hread) (by decide +kernel)

end Pbps
