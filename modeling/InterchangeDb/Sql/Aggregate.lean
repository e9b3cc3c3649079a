import InterchangeDb.Lib.Sort
import InterchangeDb.Lib.Stream
import InterchangeDb.Sql.Inference

/-! Aggregates over the rows of a query, whole or by group. The map of groups is drained in an order of its own. -/
namespace InterchangeDb
namespace AggregateSpec

section Types

/-- The type of an argument, or an error that names the aggregate. -/
def requireArgType (arg : Expression) (types : List ColumnType) (label : String) : Except Error ColumnType :=
  match arg.columnType types with
  | some ty => .ok ty
  | none => .error (.sqlParse s!"{label}: cannot infer argument type")

def outputType (types : List ColumnType) : AggregateSpec → Except Error ColumnType
  | .countStar => .ok .int64
  | .count arg distinct => do
    let _ ← requireArgType arg types (if distinct then "COUNT(DISTINCT)" else "COUNT")
    return .int64
  | .sum arg => do
    match ← requireArgType arg types "SUM" with
    | .int32 => return .int64
    | .int64 => return .int64
    | .decimal precision scale => return .decimal precision scale
    | other => .error (.sqlParse s!"SUM of non-numeric type {other.debug} not supported")
  | .min arg => requireArgType arg types "MIN"
  | .max arg => requireArgType arg types "MAX"
  | .avg arg => do
    match ← requireArgType arg types "AVG" with
    | .int32 => return .decimal 18 4
    | .int64 => return .decimal 18 4
    | .decimal precision scale => return .decimal precision scale
    | other => .error (.sqlParse s!"AVG of non-numeric type {other.debug} not supported")

private def stem : AggregateSpec → String
  | .countStar => "count_star"
  | .count _ false => "count"
  | .count _ true => "count_distinct"
  | .sum _ => "sum"
  | .min _ => "min"
  | .max _ => "max"
  | .avg _ => "avg"

/-- None for a panic: a bare column that the input does not have. -/
def outputName (columns : List ColumnDef) (agg : AggregateSpec) : Option String :=
  match agg.arg with
  | none => some agg.stem
  | some (.column i) => (columns[i]?).map (fun col => agg.stem ++ "_" ++ col.name)
  | some _ => some (agg.stem ++ "_expr")

end Types

end AggregateSpec

section Columns
variable {S : Type}

variable (columns : List ColumnDef)

def columnsAt (cols : List Nat) : Option (List ColumnDef) := cols.mapM (fun c => columns[c]?)

def aggregateColumn (agg : AggregateSpec) : Action S Error ColumnDef := do
  let name ← .ofOption (agg.outputName columns)
  let ty ← .ofExcept (agg.outputType (columns.map (·.ty)))
  return ⟨name,ty,true,none⟩

/-- The keys of the groups, then one column for each aggregate. -/
def aggregateOutputColumns (groupBy : List Nat) (aggregates : List AggregateSpec) :
    Action S Error (List ColumnDef) := do
  let keys ← .ofOption (columnsAt columns groupBy)
  let results ← aggregates.mapM (aggregateColumn columns)
  return keys ++ results

def computeColumn (e : Expression) : Action S Error ColumnDef :=
  match e.columnType (columns.map (·.ty)) with
  | none => do
    let text ← .ofOption e.display
    .throw (.sqlParse ("compute: cannot infer type of expression \x60" ++ text ++ "\x60"))
  | some ty =>
    match e with
    | .column i => do
      let col ← .ofOption (columns[i]?)
      return ⟨col.name,ty,col.nullable,none⟩
    | _ => return ⟨"expr",ty,true,none⟩

def computeOutputColumns (exprs : List Expression) : Action S Error (List ColumnDef) :=
  exprs.mapM (computeColumn columns)

end Columns

inductive AggState where
  | count (n : Nat)
  | distinctSet (seen : List Value)
  | sumInt (sum : Option (BitVec 64))
  | sumDecimal (sum : Option Decimal)
  | minMaxValue (best : Option Value)
  | avgInt (sum : Option (BitVec 64)) (count : Nat)
  | avgDecimal (sum : Option Decimal) (count : Nat)
  deriving DecidableEq, Repr

section Accumulators
variable {S : Type}

/-- A sum outside the word is an error. -/
def checkedSum (acc v : BitVec 64) (name : String) : Except Error (BitVec 64) :=
  match checkedInt 64 (acc.toInt + v.toInt) with
  | some sum => .ok sum
  | none => .error (.numericOverflow s!"{name}: {acc.toInt} + {v.toInt} exceeds i64")

/-- A decimal added to those before it. -/
def decimalSum (acc : Option Decimal) (d : Decimal) (name : String) : Except Error Decimal :=
  match acc with
  | none => .ok d
  | some prev =>
    match prev.add d with
    | .ok sum => .ok sum
    | .error e => .error (.sqlParse s!"{name}: {e.display}")

namespace AggState

def newFor (types : List ColumnType) : AggregateSpec → Except Error AggState
  | .countStar => .ok (.count 0)
  | .count _ distinct => .ok (if distinct then .distinctSet [] else .count 0)
  | .min _ => .ok (.minMaxValue none)
  | .max _ => .ok (.minMaxValue none)
  | .sum arg => do
    match ← AggregateSpec.requireArgType arg types "SUM" with
    | .int32 => return .sumInt none
    | .int64 => return .sumInt none
    | .decimal _ _ => return .sumDecimal none
    | other => .error (.sqlParse s!"SUM of non-numeric type {other.debug} not supported")
  | .avg arg => do
    match ← AggregateSpec.requireArgType arg types "AVG" with
    | .int32 => return .avgInt none 0
    | .int64 => return .avgInt none 0
    | .decimal _ _ => return .avgDecimal none 0
    | other => .error (.sqlParse s!"AVG of non-numeric type {other.debug} not supported")

/-- The better of two values, the older one at a tie; values that do not compare are a panic. -/
def better (wantSmaller : Bool) (prev v : Value) : Option Value :=
  (prev.compareSql v).map (fun ord => if ord = (if wantSmaller then .gt else .lt) then v else prev)

def updateMinMax (wantSmaller : Bool) (best : Option Value) (value : Option Value) : Action S Error AggState :=
  match value with
  | none => return .minMaxValue best
  | some .null => return .minMaxValue best
  | some v =>
    match best with
    | none => return .minMaxValue (some v)
    | some prev => do
      let v ← .ofOption (better wantSmaller prev v)
      return .minMaxValue (some v)

/-- The integer a sum takes in, if there is one. -/
def intArg (name : String) : Option Value → Except Error (Option (BitVec 64))
  | none => .ok none
  | some .null => .ok none
  | some (.int32 n) => .ok (some (n.signExtend 64))
  | some (.int64 n) => .ok (some n)
  | some other => .error (.sqlParse s!"{name} expected integer, got {other.debug}")

def decimalArg (name : String) : Option Value → Except Error (Option Decimal)
  | none => .ok none
  | some .null => .ok none
  | some (.decimal d) => .ok (some d)
  | some other => .error (.sqlParse s!"{name}(Decimal) got {other.debug}")

/-- One more row; a state of another aggregate is a panic. -/
def update (agg : AggregateSpec) (state : AggState) (value : Option Value) : Action S Error AggState :=
  match agg, state with
  | .countStar, .count n => return .count (n + 1)
  | .count _ false, .count n => return .count (if value = none ∨ value = some .null then n else n + 1)
  | .count _ true, .distinctSet seen =>
    return .distinctSet (match value with
      | none => seen
      | some v => if v = .null ∨ v ∈ seen then seen else v::seen)
  | .sum _, .sumInt acc => do
    match ← .ofExcept (intArg "SUM" value) with
    | none => return .sumInt acc
    | some n => do
      let sum ← .ofExcept (checkedSum (acc.getD 0) n "SUM")
      return .sumInt (some sum)
  | .sum _, .sumDecimal acc => do
    match ← .ofExcept (decimalArg "SUM" value) with
    | none => return .sumDecimal acc
    | some d => do
      let sum ← .ofExcept (decimalSum acc d "SUM")
      return .sumDecimal (some sum)
  | .min _, .minMaxValue best => updateMinMax true best value
  | .max _, .minMaxValue best => updateMinMax false best value
  | .avg _, .avgInt acc k => do
    match ← .ofExcept (intArg "AVG" value) with
    | none => return .avgInt acc k
    | some n => do
      let sum ← .ofExcept (checkedSum (acc.getD 0) n "AVG")
      return .avgInt (some sum) (k + 1)
  | .avg _, .avgDecimal acc k => do
    match ← .ofExcept (decimalArg "AVG" value) with
    | none => return .avgDecimal acc k
    | some d => do
      let sum ← .ofExcept (decimalSum acc d "AVG")
      return .avgDecimal (some sum) (k + 1)
  | _, _ => .crash

/-- The average of integers has four digits behind the point. -/
def averageInt (sum : BitVec 64) (k : Nat) : Except Error Value :=
  let mantissa := divRoundHalfAway (sum.toInt * 10000) k
  match checkedInt 64 mantissa with
  | some m => .ok (.decimal ⟨m,4⟩)
  | none => .error (.numericOverflow s!"AVG result mantissa {mantissa} exceeds i64")

def finalize (agg : AggregateSpec) (state : AggState) : Action S Error Value :=
  match agg, state with
  | .countStar, .count n => return .int64 (BitVec.ofNat 64 n)
  | .count _ false, .count n => return .int64 (BitVec.ofNat 64 n)
  | .count _ true, .distinctSet seen => return .int64 (BitVec.ofNat 64 seen.length)
  | .sum _, .sumInt acc => return (acc.map .int64).getD .null
  | .sum _, .sumDecimal acc => return (acc.map .decimal).getD .null
  | .min _, .minMaxValue best => return best.getD .null
  | .max _, .minMaxValue best => return best.getD .null
  | .avg _, .avgInt none _ => return .null
  | .avg _, .avgInt (some sum) k => if k = 0 then return .null else .ofExcept (averageInt sum k)
  | .avg _, .avgDecimal none _ => return .null
  | .avg _, .avgDecimal (some d) k =>
    if k = 0 then return .null
    else return .decimal ⟨BitVec.ofInt 64 (divRoundHalfAway d.mantissa.toInt k),d.scale⟩
  | _, _ => .crash

end AggState

def AggregateSpec.argValue (agg : AggregateSpec) (row : Row) : Option (Option Value) :=
  match agg.arg with
  | none => some none
  | some e => (e.eval .empty row).map some

def newStates (types : List ColumnType) (aggregates : List AggregateSpec) : Except Error (List AggState) :=
  aggregates.mapM (AggState.newFor types)

def updateStates (row : Row) : List AggregateSpec → List AggState → Action S Error (List AggState)
  | agg::aggregates, state::states => do
    let value ← .ofOption (agg.argValue row)
    let state ← state.update agg value
    let states ← updateStates row aggregates states
    return state::states
  | _, _ => return []

def finalizeStates : List AggregateSpec → List AggState → Action S Error (List Value)
  | agg::aggregates, state::states => do
    let value ← state.finalize agg
    let values ← finalizeStates aggregates states
    return value::values
  | _, _ => return []

end Accumulators

section Groups
variable {S : Type}

def maxGroupCount : Nat := 2^20

abbrev Group := List Value × List AggState

/-- NULL comes first. -/
def compareGroupKey : Value → Value → Option Ordering
  | .null, .null => some .eq
  | .null, _ => some .lt
  | _, .null => some .gt
  | a, b => a.compareSql b

/-- Position by position; none for a panic. -/
def compareKeys : List Value → List Value → Option Ordering
  | [], [] => some .eq
  | a::as, b::bs =>
    match compareGroupKey a b with
    | some .eq => compareKeys as bs
    | other => other
  | _, _ => none

def setStates (key : List Value) (states : List AggState) : List Group → List Group
  | [] => []
  | g::groups => if g.1 = key then (key,states)::groups else g::setStates key states groups

def groupRow (types : List ColumnType) (groupBy : List Nat) (aggregates : List AggregateSpec) (groups : List Group)
    (row : Row) : Action S Error (List Group) := do
  let key ← .ofOption (groupBy.mapM (fun c => row[c]?))
  match groups.find? (fun g => decide (g.1 = key)) with
  | some g => do
    let states ← updateStates row aggregates g.2
    return setStates key states groups
  | none => do
    .check (decide (groups.length < maxGroupCount))
    let states ← .ofExcept (newStates types aggregates)
    let states ← updateStates row aggregates states
    return groups ++ [(key,states)]

def finalizeGroup (aggregates : List AggregateSpec) (g : Group) : Action S Error Row := do
  let values ← finalizeStates aggregates g.2
  return g.1 ++ values

/-- The order in which a hash map gives its entries; every map has its own. -/
structure HashOrder where
  drain : List Group → List Group
  perm : ∀ groups, (drain groups).Perm groups

/-- Groups as they are given out; none for a panic. -/
def HashOrder.sorted (order : HashOrder) (groups : List Group) : Option (List Group) :=
  sortBy (fun a b => compareKeys a.1 b.1) (order.drain groups)

end Groups

end InterchangeDb
