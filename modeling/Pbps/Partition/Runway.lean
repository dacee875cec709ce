/-
How far a range series reaches past the rows it holds (`pbps-pg`'s `partition_runway.rs`): the horizon a project sets, what
it asks of a series, and the verdict.
-/
import Pbps.Partition.Step

namespace Pbps.Partition

open TypeRef (trim)

def Key.name : Key → String
  | .date => "date"
  | .timestamp => "timestamp"
  | .timestampTz => "timestamptz"
  | .integer int => int.name

/-! ## Ranges -/

/-- A bound as the engine printed it, and what it is worth. -/
structure End (key : Key) where
  text : String
  val : Val
  read : readVal key text = .ok val

/-- One range partition: no lower end is `MINVALUE`, and no upper end `MAXVALUE`. -/
structure Range (key : Key) where
  lo : Option (End key)
  hi : Option (End key)

variable {key : Key}

def isOpenEnded (ranges : List (Range key)) : Bool := ranges.any (·.hi.isNone)

def Range.endVal (r : Range key) : WithBot Val := r.hi.map (·.val)

def newestFirst (ranges : List (Range key)) : List (Range key) := ranges.insertionSort fun a b => b.endVal ≤ a.endVal

/-! ## The horizon -/

/-- How far ahead of its rows a series must reach: twice the newest partition's width, so many partitions, or so much of a
date or time key's range. -/
inductive Horizon where
  | default
  | partitions (k : Nat)
  | width (step : Step) (text : String)

/-- Why a text is not a horizon. -/
inductive HorizonRefusal where
  | notACount (text : String)
  | step (reason : StepRefusal)

/-- `partition_runway:` as written, or its absence. -/
def Horizon.parse : Option String → Except HorizonRefusal Horizon
  | none => .ok .default
  | some text =>
    let text := trim text.toList
    if ¬ text.isEmpty ∧ text.all isAsciiDigit = true then
      let n := digitsValue text
      if 0 < n ∧ n < 2 ^ 32 then .ok (.partitions n) else .error (.notACount (String.ofList text))
    else
      match parseStepAs "partition_runway" (String.ofList text) with
      | .ok step => .ok (.width step (String.ofList text))
      | .error reason => .error (.step reason)

/-! ## Widths -/

/-- A distance on the key's axis. -/
inductive Width where
  | months (n : Int)
  | seconds (s : Int)
  deriving DecidableEq, Repr

def widthOf (step : Step) : Width :=
  match step.mode with
  | .days => .seconds (step.len * 86400)
  | .months => .months step.len

def YEARS (y : Int) : Prop := 1 ≤ y ∧ y ≤ 9999

instance (y : Int) : Decidable (YEARS y) := inferInstanceAs (Decidable (_ ∧ _))

/-- A value moved forward by so many widths, unless that leaves the calendar. A day that the target month lacks is its
last. -/
def add (c : Civil) (width : Width) (times : Int) : Option Civil :=
  match width with
  | .months n =>
    let total := c.y * 12 + (c.m - 1) + n * times
    let y := total / 12
    let m := total % 12 + 1
    if YEARS y then some { c with y, m, d := min c.d (daysInMonth y m) } else none
  | .seconds s =>
    let total := daysFromCivil c.y c.m c.d * 86400 + c.secs + s * times
    let (y, m, d) := civilFromDays (total / 86400)
    if YEARS y then some ⟨y, m, d, total % 86400, c.micros⟩ else none

def Civil.Aligned (c : Civil) : Prop := c.d = 1 ∧ c.secs = 0 ∧ c.micros = 0

instance (c : Civil) : Decidable c.Aligned := inferInstanceAs (Decidable (_ ∧ _))

/-- The distance of two values: whole months where both begin a month, and seconds otherwise; or none, of a fraction of a
second. -/
def widthBetween (a b : Civil) : Option Width :=
  if b ≤ a then none
  else if a.Aligned ∧ b.Aligned then some (.months (b.y * 12 + b.m - (a.y * 12 + a.m)))
  else if a.micros ≠ 0 ∨ b.micros ≠ 0 then none
  else
    let seconds := fun c : Civil => daysFromCivil c.y c.m c.d * 86400 + c.secs
    some (.seconds (seconds b - seconds a))

/-- A width as `--every` would write it. -/
def everyOf : Width → Option String
  | .months n => if n % 12 = 0 then some (toString (n / 12) ++ "year") else some (toString n ++ "month")
  | .seconds s =>
    if s % 86400 = 0 then
      let days := s / 86400
      if days % 7 = 0 then some (toString (days / 7) ++ "week") else some (toString days ++ "day")
    else none

/-! ## What the horizon asks -/

/-- A target past the key's axis: the edge it passes, and why it cannot be asked of a series that ends. -/
structure Beyond where
  edge : String
  undetermined : String

/-- What the horizon asks of the series, worked out against one occupied partition. -/
inductive Need where
  /-- So many partitions end after the reference. -/
  | partitions (k : Nat)
  /-- Some partition ends at or after a value. -/
  | until_ (v : Val)
  /-- A point past the key's axis, which no partition can end at. -/
  | beyond (b : Beyond)

def plural (n : Nat) : String := if n = 1 then s!"{n} partition" else s!"{n} partitions"

def pastTheCalendar (horizon heldFrom remedy : String) : Beyond where
  edge := "year 9999, the last the calendar supports"
  undetermined := s!"{horizon}, counted from `{heldFrom}`, reaches past the supported calendar, which ends in year 9999: " ++
    remedy

def pastTheLargest (horizon heldFrom : String) (int : IntType) (remedy : String) : Beyond where
  edge := s!"the largest {int.name} value, {int.max}"
  undetermined := s!"{horizon}, counted from `{heldFrom}`, reaches past the largest {int.name} value, {int.max}, " ++
    s!"and no larger value fits: {remedy}"

def TWICE : String := "twice the newest partition's width"

/-- What the default horizon asks. A newest partition that has no width is asked for two partitions. -/
def needTwice (key : Key) (reference : End key) (newest : Range key) : Need :=
  match newest.lo, newest.hi with
  | some lo, some hi =>
    match reference.val, lo.val, hi.val with
    | .time c, .time a, .time b =>
      match widthBetween a b with
      | some w =>
        match add c w 2 with
        | some until_ => .until_ (.time until_)
        | none => .beyond (pastTheCalendar s!"the default horizon, {TWICE}" reference.text
            "set partition_runway to a count of partitions, as `3`")
      | none => .partitions 2
    | .int r, .int a, .int b =>
      match key with
      | .integer int =>
        let target := r + 2 * (b - a)
        if target > int.max then
          .beyond (pastTheLargest s!"the default horizon, {TWICE}" reference.text int
            "set partition_runway to a count of partitions, as `3`")
        else .until_ (.int target)
      | .date | .timestamp | .timestampTz => .partitions 2
    | _, _, _ => .partitions 2
  | _, _ => .partitions 2

def need (key : Key) (horizon : Horizon) (reference : End key) (newest : Range key) : Except String (Need × String) :=
  match horizon with
  | .partitions k => .ok (.partitions k, plural k)
  | .width step text =>
    match reference.val with
    | .time c =>
      match add c (widthOf step) 1 with
      | some until_ => .ok (.until_ (.time until_), text)
      | none => .ok (.beyond (pastTheCalendar s!"partition_runway `{text}`" reference.text
          "write a shorter width, or a count of partitions, as `3`"), text)
    | .int _ => .error (s!"partition_runway `{text}` is a width of time, and this key is a {key.name}: write a count of " ++
        "partitions, as `3`")
  | .default => .ok (needTwice key reference newest, TWICE)

/-- Whether ranges reach what is needed, measured from the reference. -/
def covers (ranges : List (Range key)) (reference : Val) (need : Need) : Bool :=
  isOpenEnded ranges ||
    match need with
    | .partitions k => k ≤ (ranges.filterMap (·.hi)).countP fun hi => reference < hi.val
    | .until_ v => (ranges.filterMap (·.hi)).any fun hi => v ≤ hi.val
    | .beyond _ => false

/-! ## The verdict -/

/-- What the horizon asks a series to reach, as the finding says it. -/
inductive Reach where
  | partitions (k : Nat)
  | until_ (text : String)
  | beyond (edge : String)
  deriving DecidableEq, Repr

/-- A series that does not reach the horizon: where it ends, where the newest rows are held from, what it should reach and
the horizon in words, the newest partition's width as `--every` spells it, and whether the declarations reach it. -/
structure Short where
  frontier : String
  heldFrom : String
  reach : Reach
  horizon : String
  every : Option String
  declaredCovers : Bool
  deriving DecidableEq, Repr

inductive Verdict where
  | covered
  | short (s : Short)
  deriving DecidableEq, Repr

def Need.reach (key : Key) : Need → Reach
  | .partitions k => .partitions k
  | .until_ (.time c) => .until_ (String.ofList (fmtCivil key c))
  | .until_ (.int i) => .until_ (toString i)
  | .beyond b => .beyond b.edge

/-- The width of the newest partition, as `--every` would write it. -/
def everyFor (newest : Range key) : Option String :=
  match newest.lo, newest.hi with
  | some lo, some hi =>
    match lo.val, hi.val with
    | .time a, .time b => (widthBetween a b).bind everyOf
    | .int a, .int b => some (toString (b - a))
    | _, _ => none
  | _, _ => none

/-- Whether the catalog reaches the horizon past the newest partition that holds a row; and what the declarations give. -/
def assess (key : Key) (catalog declared : List (Range key)) (occupied : Range key) (horizon : Horizon) :
    Except String Verdict :=
  if isOpenEnded catalog then .ok .covered
  else
    match newestFirst catalog with
    | [] => .ok .covered
    | newest :: _ =>
      match newest.hi with
      | none => .ok .covered
      | some frontier =>
        match occupied.lo.or occupied.hi with
        | none => .error "the partition holding the newest rows has no bound"
        | some reference => do
          let (needed, words) ← need key horizon reference newest
          if covers catalog reference.val needed then return .covered
          let declaredCovers := covers declared reference.val needed
          match needed, declaredCovers with
          | .beyond b, false => .error b.undetermined
          | _, _ =>
            return .short ⟨frontier.text, reference.text, needed.reach key, words, everyFor newest, declaredCovers⟩

end Pbps.Partition
