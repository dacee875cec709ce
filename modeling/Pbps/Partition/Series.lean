/-
A series of range partitions generated from the declarations (`pbps-pg`'s `partition_series.rs`): what the declarations
say of the parent, and the partitions that carry it from where its last range ends to a stated end.
-/
import Pbps.Partition.Step

namespace Pbps.Partition

def MAX_PER_RUN : Int := 2000

/-- What is asked: the declarations, the parent, the step and the end as written, and where the first partition starts
where the parent declares no range. -/
structure RangeSeriesRequest where
  schema : Schema
  parent : TableName
  every : String
  until_ : String
  from_ : Option String := none

/-- One range partition to add: its name and its bound. -/
structure SeriesPartition where
  name : TableName
  from_ : String
  to_ : String
  deriving DecidableEq, Repr

/-- Where a series starts, and the partitions to add, in order. -/
structure RangeSeries where
  start : String
  partitions : List SeriesPartition
  deriving DecidableEq, Repr

/-- What gave the value a series starts at. -/
inductive Origin where
  | partition (name : TableName) (text : String)
  | from_ (text : String)
  deriving DecidableEq, Repr

/-- Why no series is generated, with what the refusal names. -/
inductive Refusal where
  | undeclared (parent : TableName)
  | isPartition (parent of : TableName)
  | noPartitionBy (parent : TableName)
  | notRange (parent : TableName) (strategy : PartitionStrategy)
  | external (parent : TableName)
  | keyColumns (parent : TableName) (count : Nat)
  | keyUndeclared (parent : TableName) (column : ColumnName)
  | keyType (parent : TableName) (column : ColumnName) (ty : ColumnType)
  | notARange (name : TableName)
  | boundWidth (name : TableName) (from_ to_ : Nat)
  | reachesMaxValue (name : TableName)
  | endsAtMinValue (name : TableName)
  | nameTooLong (name : String) (bytes : Nat)
  | nameTaken (name : TableName)
  | negativeName (parent : String) (lo : Int)
  | tooMany (count : Int)
  | step (reason : StepRefusal)
  | integerStep (int : IntType) (every : String)
  | endUnread (name : TableName) (text : String) (why : Unread)
  | untilUnread (text : String) (why : Unread)
  | fromUnread (text : String) (why : Unread)
  | fromNotAccepted (from_ : String) (parent : TableName) (end_ : String)
  | noStart (parent : TableName) (key : Key)
  | untilNotAfter (until_ start : String)
  | startOffGrid (origin : Origin) (mode : Mode) (nearest : List Char × Option (List Char))
  | untilOffGrid (until_ every start : String) (nearest : List Char × Option (List Char))
  | untilOffIntegers (until_ step start lower : Int) (upper : Option Int)
  deriving DecidableEq

/-! ## The declarations -/

/-- What the declarations say about the parent: its key, and each of its range partitions with its upper end. -/
structure Declared where
  key : Key
  ends : List (TableName × String)

/-- Where a table that is the parent's partition ends, if it has an end. -/
def endOf (parent : TableName) (name : TableName) (table : Table) : Except Refusal (Option String) :=
  match table.partitionOf with
  | none => .ok none
  | some of =>
    if of.parent ≠ parent then .ok none
    else
      match of.bound with
      | .default => .ok none
      | .list _ | .hash _ _ => .error (.notARange name)
      | .range from_ to_ =>
        match from_, to_ with
        | [_], [.maxValue] => .error (.reachesMaxValue name)
        | [_], [.minValue] => .error (.endsAtMinValue name)
        | [_], [.value text] => .ok (some text)
        | _, _ => .error (.boundWidth name from_.length to_.length)

/-- The ends of the parent's partitions, in the order of the tables. -/
def endsOf (parent : TableName) (tables : List (TableName × Table)) : Except Refusal (List (TableName × String)) :=
  tables.foldlM (fun ends e => do
    match ← endOf parent e.1 e.2 with
    | none => return ends
    | some text => return ends ++ [(e.1, text)]) []

def keyOf (schema : Schema) (parent : TableName) : Except Refusal Key :=
  match schema.tables[parent]? with
  | none => .error (.undeclared parent)
  | some table =>
    match table.partitionOf with
    | some of => .error (.isPartition parent of.parent)
    | none =>
      match table.partitionBy with
      | none => .error (.noPartitionBy parent)
      | some by_ =>
        if by_.strategy ≠ .range then .error (.notRange parent by_.strategy)
        else if by_.external then .error (.external parent)
        else
          match by_.columns with
          | [column] =>
            match table.columns.lookup column with
            | none => .error (.keyUndeclared parent column)
            | some c =>
              match Key.of c.ty with
              | none => .error (.keyType parent column c.ty)
              | some key => .ok key
          | columns => .error (.keyColumns parent columns.length)

variable (req : RangeSeriesRequest)

def inspect : Except Refusal Declared := do
  let key ← keyOf req.schema req.parent
  let ends ← endsOf req.parent req.schema.tables.toList
  return ⟨key, ends⟩

/-! ## The series -/

/-- A name for a new partition, refused where the engine would truncate it or a declaration holds it. -/
def named (suffix : String) : Except Refusal TableName :=
  let name : TableName := ⟨req.parent.schema, req.parent.name ++ "_" ++ suffix⟩
  if name.name.utf8ByteSize > Pg.MAX_IDENT_BYTES then .error (.nameTooLong name.name name.name.utf8ByteSize)
  else if req.schema.tables.contains name then .error (.nameTaken name)
  else .ok name

section Frontier

variable {α : Type} [LT α] [DecidableLT α]

/-- The highest declared end so far, with the partition and the text it is of, and one more. -/
def higher (read : String → Except Unread α) (frontier : Option (α × TableName × String)) (e : TableName × String) :
    Except Refusal (Option (α × TableName × String)) :=
  match read e.2 with
  | .error why => .error (.endUnread e.1 e.2 why)
  | .ok v =>
    match frontier with
    | none => .ok (some (v, e))
    | some (best, was) => .ok (if best < v then some (v, e) else some (best, was))

/-- The value a series starts at, its text, and what gave it: the highest declared end, or `--from`. -/
def startOf (req : RangeSeriesRequest) (key : Key) (read : String → Except Unread α) :
    Option (α × TableName × String) → Except Refusal (α × String × Origin)
  | some (v, name, text) =>
    match req.from_ with
    | some from_ => .error (.fromNotAccepted from_ req.parent text)
    | none => .ok (v, text, .partition name text)
  | none =>
    match req.from_ with
    | some from_ =>
      match read from_ with
      | .error why => .error (.fromUnread from_ why)
      | .ok v => .ok (v, from_, .from_ from_)
    | none => .error (.noStart req.parent key)

end Frontier

def temporal (declared : Declared) : Except Refusal RangeSeries := do
  let key := declared.key
  let step ← (parseStep req.every).mapError .step
  let frontier ← declared.ends.foldlM (higher (readCivil key)) none
  let until_ ← (readCivil key req.until_).mapError (.untilUnread req.until_)
  let (start, startText, origin) ← startOf req key (readCivil key) frontier
  if until_ ≤ start ∧ declared.ends = [] then throw (.untilNotAfter req.until_ startText)
  -- A frontier off the grid is refused before the answer that there is nothing to add.
  let from_ := position step.mode start
  if from_.above then
    throw (.startOffGrid origin step.mode (nearestValues key step.mode from_.floor (from_.floor + 1)))
  if until_ ≤ start then return ⟨startText, []⟩
  let to_ := position step.mode until_
  let diff := to_.floor - from_.floor
  let lower := from_.floor + diff / step.len * step.len
  if to_.above ∨ lower ≠ to_.floor then
    throw (.untilOffGrid req.until_ req.every startText (nearestValues key step.mode lower (lower + step.len)))
  let count := diff / step.len
  if count > MAX_PER_RUN then throw (.tooMany count)
  let partitions ← (List.range count.toNat).mapM fun (i : Nat) => do
    let lo := from_.floor + i * step.len
    let hi := lo + step.len
    let name ← named req (String.ofList (suffix step.unit step.mode lo))
    return ⟨name, String.ofList (spell key step.mode lo), String.ofList (spell key step.mode hi)⟩
  return ⟨startText, partitions⟩

def parseIntegerStep (int : IntType) (every : String) : Except Refusal Int :=
  let text := TypeRef.trim every.toList
  let n := digitsValue text
  if 0 < n ∧ text.length ≤ 20 ∧ text.all isAsciiDigit = true then .ok n
  else .error (.integerStep int (String.ofList text))

def integers (declared : Declared) (int : IntType) : Except Refusal RangeSeries := do
  let step ← parseIntegerStep int req.every
  let frontier ← declared.ends.foldlM (higher (readInteger int)) none
  let until_ ← (readInteger int req.until_).mapError (.untilUnread req.until_)
  let (start, _, _) ← startOf req (.integer int) (readInteger int) frontier
  if until_ ≤ start then
    if declared.ends = [] then throw (.untilNotAfter req.until_ (toString start))
    return ⟨toString start, []⟩
  let diff := until_ - start
  if diff % step ≠ 0 then
    let lower := start + diff / step * step
    let upper := lower + step
    throw (.untilOffIntegers until_ step start lower (if upper ≤ int.max then some upper else none))
  let count := diff / step
  if count > MAX_PER_RUN then throw (.tooMany count)
  let partitions ← (List.range count.toNat).mapM fun (i : Nat) => do
    let lo := start + i * step
    let hi := lo + step
    if lo < 0 then throw (.negativeName req.parent.name lo)
    let name ← named req (toString lo)
    return ⟨name, toString lo, toString hi⟩
  return ⟨toString start, partitions⟩

/-- The partitions that extend the parent's declared ranges to the stated end. -/
def series : Except Refusal RangeSeries := do
  let declared ← inspect req
  match declared.key with
  | .integer int => integers req declared int
  | .date | .timestamp | .timestampTz => temporal req declared

end Pbps.Partition
