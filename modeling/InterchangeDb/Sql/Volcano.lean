import InterchangeDb.Sql.PhysOp

/-! Pull execution: a plan is built into an operator, a schema with the stream of its rows. -/
namespace InterchangeDb

structure Operator (S : Type) where
  schema : RowSchema
  rows : Stream S Error Row

section Pipeline
variable {S : Type}

/-- Keep a row if the condition is TRUE. A condition without a correlated subquery never looks at the evaluators, so the
two ways of compiling it are one. -/
def keepRow (x : ExecContext S) (p : Predicate) (row : Row) : Action S Error (Option Row) :=
  .query (fun s => do
    let verdict ← p.eval .empty x.sets (x.rowEvaluators s) row
    match verdict.fault with
    | some e => some (.error e)
    | none => some (.ok (if verdict.truth = some true then some row else none)))

def projectRow (cols : List Nat) (row : Row) : Action S Error (Option Row) :=
  some <$> .ofOption (cols.mapM (fun c => row[c]?))

def computeRow (exprs : List Expression) (row : Row) : Action S Error (Option Row) :=
  some <$> .ofOption (exprs.mapM (fun e => e.eval .empty row))

def projectedColumns (columns : List ColumnDef) (cols : List Nat) : Except Error (List ColumnDef) :=
  cols.mapM (fun c =>
    match columns[c]? with
    | some col => .ok col
    | none => .error (.internal s!"projection column index {c} out of range (child has {columns.length} columns)"))

def maxDerivedRows : Nat := 2^20

def materialize (rows : List Row) (row : Row) : Action S Error (List Row) := do
  .check (decide (rows.length < maxDerivedRows))
  return rows ++ [row]

end Pipeline

section Sorting
variable {S : Type}

/-- NULL is greater than every value, before the direction is applied. -/
def compareSortKey (dir : OrderDir) (a b : Value) : Option Ordering :=
  let raw := match a, b with
    | .null, .null => some .eq
    | .null, _ => some .gt
    | _, .null => some .lt
    | a, b => a.compareSql b
  match dir with
  | .asc => raw
  | .desc => raw.map Ordering.swap

/-- None for a panic: a column outside the row, or values that do not compare. -/
def compareRows : List (Nat × OrderDir) → Row → Row → Option Ordering
  | [], _, _ => some .eq
  | (col,dir)::keys, a, b => do
    let ord ← compareSortKey dir (← a[col]?) (← b[col]?)
    if ord = .eq then compareRows keys a b else some ord

def sortedRows (keys : List (Nat × OrderDir)) (rows : List Row) : Stream S Error Row :=
  .ofAction (.ofOption (sortBy (compareRows keys) rows)) .ofList

end Sorting

section Joins
variable {S : Type}

def conditionCompiles : Option Predicate → Bool
  | none => true
  | some p => p.compiles .empty 0 0

/-- The condition of a join over both rows; without one, every pair passes. -/
def joinPredicate (on : Option Predicate) (outer inner : Row) : Option Bool :=
  match on with
  | none => some true
  | some p => (p.eval .empty [] [] (outer ++ inner)).map (fun verdict => decide (verdict.truth = some true))

/-- The pairs of an outer row with the inner rows that pass, or the row with nulls if an outer join finds none. -/
def joinMatches (kind : JoinKind) (rightWidth : Nat) (passes : Row → Option Bool) (outer : Row) :
    List Row → Bool → Stream S Error Row
  | [], matched =>
    if kind = .leftOuter ∧ matched = false then .yield (outer ++ List.replicate rightWidth .null) .done else .done
  | inner::rows, matched =>
    match passes inner with
    | none => .crash
    | some true => .yield (outer ++ inner) (joinMatches kind rightWidth passes outer rows true)
    | some false => joinMatches kind rightWidth passes outer rows matched

def nestedLoop (kind : JoinKind) (rightWidth : Nat) (on : Option Predicate) (innerRows : List Row)
    (outer : Stream S Error Row) : Stream S Error Row :=
  outer.flatMap (fun row => joinMatches kind rightWidth (joinPredicate on row) row innerRows false)

/-- One more row of the inner side in the table; a null key never matches. -/
def hashRow (innerKeyCol : Nat) (table : List (Value × Row)) (row : Row) : Action S Error (List (Value × Row)) := do
  let key ← .ofOption (row[innerKeyCol]?)
  return if key = .null then table else table ++ [(key.joinKeyNormalized,row)]

def hashCandidates (table : List (Value × Row)) (key : Value) : List Row :=
  if key = .null then [] else (table.filter (fun entry => decide (entry.1 = key.joinKeyNormalized))).map (·.2)

def hashProbe (kind : JoinKind) (rightWidth outerKeyCol : Nat) (residual : Option Predicate) (table : List (Value × Row))
    (outer : Stream S Error Row) : Stream S Error Row :=
  outer.flatMap (fun row =>
    match row[outerKeyCol]? with
    | none => .crash
    | some key => joinMatches kind rightWidth (joinPredicate residual row) row (hashCandidates table key) false)

/-- The key to look up for an outer row: none inside if it can match nothing, none for a panic. -/
def probeKey (types : List ColumnType) (row : Row) : List Nat → List Nat → Option (Option (List Value))
  | k::keys, c::cols => do
    let v ← row[k]?
    if v = .null then some none
    else do
      let ty ← types[c]?
      match v.coerceExact ty with
      | none => some none
      | some v => (probeKey types row keys cols).map (fun rest => rest.map (v :: ·))
  | _, _ => some (some [])

/-- The row still has the values it was found by. -/
def matchesProbe (row : Row) : List Nat → List Value → Option Bool
  | c::cols, v::lead => do
    let w ← row[c]?
    if w.compareSql v = some .eq then matchesProbe row cols lead else some false
  | _, _ => some true

def recheckRows (cols : List Nat) (lead : List Value) : List Row → Option (List Row)
  | [] => some []
  | row::rows => do
    let found ← matchesProbe row cols lead
    let rest ← recheckRows cols lead rows
    some (if found then row::rest else rest)

/-- The rows of a table that an index finds for an outer row. -/
def probeIndex (x : ExecContext S) (t : Table) (ix : IndexHandle) (outerKeyCols : List Nat) (row : Row) :
    Action S Error (List Row) := do
  match ← .ofOption (probeKey t.schema.columnTypes row outerKeyCols ix.definition.columns) with
  | none => return []
  | some lead => do
    let rows ← (t.indexScan ix lead).exec x.handle
    .ofOption (recheckRows ix.definition.columns lead rows)

def indexNestedLoop (x : ExecContext S) (t : Table) (ix : IndexHandle) (outerKeyCols : List Nat)
    (outer : Stream S Error Row) : Stream S Error Row :=
  outer.flatMap (fun row => .ofAction (probeIndex x t ix outerKeyCols row) (fun rows => .ofList (rows.map (row ++ ·))))

end Joins

section Merge
variable {S : Type}

/-- The right side of a merge join: the run of rows with one key, a row that was read past it, the rows to come, and
the last key that was read. -/
structure MergeState (S : Type) where
  run : List Row
  runKey : Option Value
  pending : Option Row
  right : Stream S Error Row
  lastRight : Option Value

/-- The keys of each side have to ascend; nulls and keys that do not compare are passed over. -/
def ascends (last : Option Value) (key : Value) : Bool :=
  match last with
  | none => true
  | some previous => key = .null || key.compareSql previous ≠ some .lt

def lastKey (last : Option Value) (key : Value) : Option Value := if key = .null then last else some key

/-- The rest of a run, then go on; the first row with another key is kept back. -/
def collectRun (keyCol : Nat) (target : Value) (next : MergeState S → Stream S Error Row) :
    Stream S Error Row → Option Value → List Row → Stream S Error Row
  | .done, last, run => next ⟨run,some target,none,.done,last⟩
  | .fail e, _, _ => .fail e
  | .crash, _, _ => .crash
  | .read f, last, run => .read (fun s => collectRun keyCol target next (f s) last run)
  | .write s rest, last, run => .write s (collectRun keyCol target next rest last run)
  | .yield row rest, last, run =>
    match row[keyCol]? with
    | none => .crash
    | some key =>
      if ascends last key then
        if key.compareSql target = some .eq then collectRun keyCol target next rest (lastKey last key) (run ++ [row])
        else next ⟨run,some target,some row,rest,lastKey last key⟩
      else .crash

/-- Pass over the rows below the target. -/
def findRun (keyCol : Nat) (target : Value) (next : MergeState S → Stream S Error Row) :
    Stream S Error Row → Option Value → Stream S Error Row
  | .done, last => next ⟨[],none,none,.done,last⟩
  | .fail e, _ => .fail e
  | .crash, _ => .crash
  | .read f, last => .read (fun s => findRun keyCol target next (f s) last)
  | .write s rest, last => .write s (findRun keyCol target next rest last)
  | .yield row rest, last =>
    match row[keyCol]? with
    | none => .crash
    | some key =>
      if ascends last key then
        if key = .null then findRun keyCol target next rest (lastKey last key)
        else match key.compareSql target with
          | some .gt => next ⟨[],none,some row,rest,lastKey last key⟩
          | some .eq => collectRun keyCol target next rest (lastKey last key) [row]
          | _ => findRun keyCol target next rest (lastKey last key)
      else .crash

/-- Advance the right side to the run of a key, starting with the row that was kept back. -/
def buildRun (keyCol : Nat) (target : Value) (m : MergeState S) (next : MergeState S → Stream S Error Row) :
    Stream S Error Row :=
  match m.pending with
  | none => findRun keyCol target next m.right m.lastRight
  | some row =>
    match row[keyCol]? with
    | none => .crash
    | some key =>
      if key = .null then findRun keyCol target next m.right m.lastRight
      else match key.compareSql target with
        | some .gt => next ⟨[],none,some row,m.right,m.lastRight⟩
        | some .eq => collectRun keyCol target next m.right m.lastRight [row]
        | _ => findRun keyCol target next m.right m.lastRight

/-- Each left row with the run of its key. A run that was just built has the key of the row. -/
def mergeRows (leftKeyCol rightKeyCol : Nat) : Stream S Error Row → Option Value → MergeState S → Stream S Error Row
  | .done, _, _ => .done
  | .fail e, _, _ => .fail e
  | .crash, _, _ => .crash
  | .read f, last, m => .read (fun s => mergeRows leftKeyCol rightKeyCol (f s) last m)
  | .write s rest, last, m => .write s (mergeRows leftKeyCol rightKeyCol rest last m)
  | .yield row rest, last, m =>
    match row[leftKeyCol]? with
    | none => .crash
    | some key =>
      let rebuilt := buildRun rightKeyCol key m (fun m =>
        (Stream.ofList (m.run.map (row ++ ·))).append (mergeRows leftKeyCol rightKeyCol rest (lastKey last key) m))
      if ascends last key then
        if key = .null then mergeRows leftKeyCol rightKeyCol rest (lastKey last key) m
        else match m.runKey with
          | none => rebuilt
          | some runKey =>
            match key.compareSql runKey with
            | some .eq =>
              (Stream.ofList (m.run.map (row ++ ·))).append (mergeRows leftKeyCol rightKeyCol rest (lastKey last key) m)
            | some .lt => mergeRows leftKeyCol rightKeyCol rest (lastKey last key) m
            | _ => rebuilt
      else .crash

def merge (leftKeyCol rightKeyCol : Nat) (left right : Stream S Error Row) : Stream S Error Row :=
  mergeRows leftKeyCol rightKeyCol left none ⟨[],none,none,right,none⟩

def checkMergeKey (side : String) (keyCol : Nat) (s : RowSchema) : Except Error Unit :=
  if keyCol ≥ s.columns.length then
    .error (.internal s!"merge join {side} key column {keyCol} out of range ({s.columns.length} columns)")
  else .ok ()

end Merge

section Aggregation
variable {S : Type}

def aggregateSchema (columns : List ColumnDef) : RowSchema := ⟨"aggregate",0,columns,[]⟩

def argsCompile (aggregates : List AggregateSpec) : Bool :=
  (aggregates.filterMap AggregateSpec.arg).all (fun e => e.compiles .empty)

/-- One row for the whole input, even if it is empty. -/
def ungrouped (types : List ColumnType) (aggregates : List AggregateSpec) (input : Stream S Error Row) :
    Stream S Error Row :=
  .ofAction (.ofExcept (newStates types aggregates)) (fun states =>
    input.gather (fun states row => updateStates row aggregates states)
      (fun states => .ofAction (finalizeStates aggregates states) (fun row => .ofList [row])) states)

/-- All groups are finished before the first is given. -/
def emitGroups (order : HashOrder) (aggregates : List AggregateSpec) (groups : List Group) : Stream S Error Row :=
  match order.sorted groups with
  | none => .crash
  | some groups => .ofOutcome (Action.outcome (groups.mapM (finalizeGroup aggregates)))

def grouped (order : HashOrder) (types : List ColumnType) (groupBy : List Nat) (aggregates : List AggregateSpec)
    (input : Stream S Error Row) : Stream S Error Row :=
  input.gather (groupRow types groupBy aggregates) (emitGroups order aggregates) []

end Aggregation

section Writes
variable {S : Type}

/-- A row to update: its key and its new values. -/
abbrev StagedUpdate := List Value × List (Nat × Value)

def stageUpdate (t : Table) (set : List (Nat × Expression)) (staged : List StagedUpdate) (row : Row) :
    Action S Error (List StagedUpdate) := do
  .check (decide (row.length = t.schema.columns.length))
  let changes ← .ofOption (set.mapM (fun clause => (clause.2.eval .empty row).map (fun v => (clause.1,v))))
  return staged ++ [(t.schema.pkValues row,changes)]

/-- A column outside the table is a panic, after the checks of the changes before it. -/
def checkedChanges (t : Table) : List (Nat × Value) → Action S Error (List (Fin t.schema.columns.length × Value))
  | [] => return []
  | (i,v)::changes =>
    if h : i < t.schema.columns.length then do
      .ofExcept (Table.checkChanges t.schema [(⟨i,h⟩,v)])
      let rest ← checkedChanges t changes
      return (⟨i,h⟩,v)::rest
    else .crash

def applyUpdates (x : ExecContext S) (t : Table) : List StagedUpdate → Action S Error Unit
  | [] => return ()
  | (pk,changes)::staged => do
    let changes ← checkedChanges t changes
    (t.updateColumns pk changes).exec x.handle
    applyUpdates x t staged

/-- All rows are read before the first is written. -/
def updating (x : ExecContext S) (t : Table) (set : List (Nat × Expression)) (input : Stream S Error Row) :
    Stream S Error Row :=
  input.gather (stageUpdate t set)
    (fun staged => .ofAction (applyUpdates x t staged) (fun _ => .ofList (Table.affected staged.length))) []

def stageDelete (t : Table) (staged : List (List Value)) (row : Row) : Action S Error (List (List Value)) := do
  .check (decide (row.length = t.schema.columns.length))
  return staged ++ [t.schema.pkValues row]

def deleting (x : ExecContext S) (t : Table) (input : Stream S Error Row) : Stream S Error Row :=
  input.gather (stageDelete t)
    (fun staged => .ofAction ((Table.each t.deleteByPk staged).exec x.handle)
      (fun _ => .ofList (Table.affected staged.length))) []

end Writes

namespace Volcano
variable {S : Type}

def build (x : ExecContext S) : PhysOp → HashOrders → Action S Error (Operator S)
  | .seqScan table, _ => do
    let t ← .ofExcept (x.resolveTable table)
    let rows ← t.scan.exec x.handle
    return ⟨.ofTable t.schema,.ofList rows⟩
  | .indexScan table index lead, _ => do
    let t ← .ofExcept (x.resolveTable table)
    let ix ← .ofExcept (t.findIndex index)
    let rows ← (t.indexScan ix lead).exec x.handle
    return ⟨.ofTable t.schema,.ofList rows⟩
  | .pkLookup table pk, _ => do
    let t ← .ofExcept (x.resolveTable table)
    let row ← (t.getByPk pk).exec x.handle
    return ⟨.ofTable t.schema,.ofList row.toList⟩
  | .derivedScan name subplan schema, orders => do
    let child ← build x subplan (orders.child false)
    return ⟨⟨name,0,schema,[]⟩,child.rows.gather materialize .ofList []⟩
  | .filter input predicate, orders => do
    let child ← build x input (orders.child false)
    .check (predicate.compiles .empty x.sets.length x.evaluators.length)
    return ⟨child.schema,child.rows.filterMap (keepRow x predicate)⟩
  | .projection input cols, orders => do
    let child ← build x input (orders.child false)
    let columns ← .ofExcept (projectedColumns child.schema.columns cols)
    return ⟨child.schema.withColumns columns,child.rows.filterMap (projectRow cols)⟩
  | .compute input exprs, orders => do
    let child ← build x input (orders.child false)
    let columns ← .lift (computeOutputColumns child.schema.columns exprs)
    .check (exprs.all (fun e => e.compiles .empty))
    return ⟨child.schema.withColumns columns,child.rows.filterMap (computeRow exprs)⟩
  | .nestedLoopJoin outer inner on kind, orders => do
    let outer ← build x outer (orders.child false)
    let inner ← build x inner (orders.child true)
    .check (conditionCompiles on)
    let innerRows ← inner.rows.collect
    return ⟨outer.schema.concat inner.schema (kind = .leftOuter),
      nestedLoop kind inner.schema.columns.length on innerRows outer.rows⟩
  | .indexNestedLoopJoin outer innerTable innerIndex outerKeyCols, orders => do
    let outer ← build x outer (orders.child false)
    let t ← .ofExcept (x.resolveTable innerTable)
    let ix ← .ofExcept (t.findIndex innerIndex)
    if outerKeyCols.length ≠ ix.definition.columns.length then
      .throw (.indexLookupArity ix.definition.name ix.definition.columns.length outerKeyCols.length)
    else
      return ⟨outer.schema.concat (.ofTable t.schema) false,indexNestedLoop x t ix outerKeyCols outer.rows⟩
  | .hashJoin outer inner outerKeyCol innerKeyCol kind residual, orders => do
    let outer ← build x outer (orders.child false)
    let inner ← build x inner (orders.child true)
    -- An inner join has no residual: the code leaves it out.
    let residual := if kind = .leftOuter then residual else none
    .check (conditionCompiles residual)
    let table ← inner.rows.fold (hashRow innerKeyCol) []
    return ⟨outer.schema.concat inner.schema (kind = .leftOuter),
      hashProbe kind inner.schema.columns.length outerKeyCol residual table outer.rows⟩
  | .mergeJoin left right leftKeyCol rightKeyCol, orders => do
    let left ← build x left (orders.child false)
    let right ← build x right (orders.child true)
    .ofExcept (checkMergeKey "left" leftKeyCol left.schema)
    .ofExcept (checkMergeKey "right" rightKeyCol right.schema)
    return ⟨left.schema.concat right.schema false,merge leftKeyCol rightKeyCol left.rows right.rows⟩
  | .hashAggregate input groupBy aggregates, orders => do
    let child ← build x input (orders.child false)
    if aggregates.isEmpty then .throw (.sqlParse "HashAggregate requires at least one aggregate")
    else do
      .check (groupBy.all (fun c => decide (c < child.schema.columns.length)))
      let columns ← .lift (aggregateOutputColumns child.schema.columns groupBy aggregates)
      .check (argsCompile aggregates)
      return ⟨aggregateSchema columns,
        if groupBy.isEmpty then ungrouped child.schema.types aggregates child.rows
        else grouped (orders []) child.schema.types groupBy aggregates child.rows⟩
  | .sort input keys, orders => do
    let child ← build x input (orders.child false)
    if keys.isEmpty then .throw (.sqlParse "Sort requires at least one sort key")
    else return ⟨child.schema,child.rows.gather (fun rows row => return rows ++ [row]) (sortedRows keys) []⟩
  | .limit input maxRows, orders => do
    let child ← build x input (orders.child false)
    return ⟨child.schema,child.rows.take maxRows⟩
  | .insert table rows, _ => do
    let t ← .ofExcept (x.resolveTable table)
    return ⟨.countResult "rows_inserted",.ofAction ((t.insertRows rows).exec x.handle) .ofList⟩
  | .update table input set, orders => do
    let t ← .ofExcept (x.resolveTable table)
    let child ← build x input (orders.child false)
    .check (set.all (fun clause => clause.2.compiles .empty))
    return ⟨.countResult "rows_updated",updating x t set child.rows⟩
  | .delete table input, orders => do
    let t ← .ofExcept (x.resolveTable table)
    let child ← build x input (orders.child false)
    return ⟨.countResult "rows_deleted",deleting x t child.rows⟩

def execute (x : ExecContext S) (plan : PhysOp) (orders : HashOrders) : Action S Error (RowSchema × List Row) := do
  let root ← build x plan orders
  let rows ← root.rows.collect
  return (root.schema,rows)

end Volcano

end InterchangeDb
