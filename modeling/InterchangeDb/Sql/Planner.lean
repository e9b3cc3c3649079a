import InterchangeDb.Sql.Columns
import InterchangeDb.Sql.Cost
import InterchangeDb.Sql.Updates

/-! Planning of bound statements: joins in the order of the FROM clause, each conjunct at the table it is about. -/
namespace InterchangeDb

inductive JoinAlgorithm where
  | nestedLoop
  | indexNestedLoop
  | hash
  deriving DecidableEq, Repr

/-- By the shape of the condition, or by estimated cost. -/
inductive JoinSelection (F : Type) where
  | heuristic
  | costBased (costModel : CostModel F) (stats : QueryStats)

/-- Statements other than queries are carried out by the session. -/
inductive PhysicalPlan where
  | query (op : PhysOp)
  | descriptor

def getTable (tables : List Table) (name : String) : Except Error Table :=
  match tables.find? (fun t => decide (t.schema.name = name)) with
  | some t => .ok t
  | none => .error (.tableNotFound name)

section Relations

/-- What a name of the FROM clause stands for: the result of a query, or a table. -/
inductive Relation where
  | derived (columns : List ColumnDef)
  | table (t : Table)

namespace Relation

def columnCount : Relation → Nat
  | .derived columns => columns.length
  | .table t => t.schema.columns.length

/-- The result of a query counts as table zero. -/
def tableId : Relation → Nat
  | .derived _ => 0
  | .table t => t.schema.tableId.val

/-- No index leads into the result of a query. -/
def indexes : Relation → List IndexHandle
  | .derived _ => []
  | .table t => t.indexes

def pkLookup (p : Predicate) : Relation → Option (List Value)
  | .derived _ => none
  | .table t => tryLowerPkLookup p t.schema

end Relation

/-- The queries of the FROM clause come before the tables of the catalog. -/
def resolveRelation (tables : List Table) (derived : List (String × List ColumnDef)) (name : String) : Except Error Relation :=
  match derived.find? (fun d => decide (d.1 = name)) with
  | some d => .ok (.derived d.2)
  | none => (getTable tables name).map .table

structure TableRange where
  start : Nat
  stop : Nat

def TableRange.has (range : TableRange) (c : Nat) : Bool := decide (range.start ≤ c) && decide (c < range.stop)

/-- The columns of each joined table, after those of the left one. -/
def tableRanges (tables : List Table) (derived : List (String × List ColumnDef)) :
    Nat → List JoinClause → Except Error (List TableRange)
  | _, [] => .ok []
  | start, join::joins => do
    let right ← resolveRelation tables derived join.rightTable
    let ranges ← tableRanges tables derived (start + right.columnCount) joins
    return ⟨start,start + right.columnCount⟩::ranges

/-- A conjunct about the left table alone. -/
def leftOnly (width : Nat) (p : Predicate) : Bool :=
  !(referencedColumns p).isEmpty && (referencedColumns p).all (fun c => decide (c < width))

/-- A conjunct about one joined table alone. -/
def rightOnly (range : TableRange) (p : Predicate) : Bool :=
  !(referencedColumns p).isEmpty && (referencedColumns p).all range.has

def predicateTouchesRange (p : Predicate) (range : TableRange) : Bool := (referencedColumns p).any range.has

end Relations

section Leaves

def filtered (op : PhysOp) (preds : List Predicate) : PhysOp :=
  match andAll preds with
  | some p => .filter op p
  | none => op

/-- The first conjunct that leads to a row or to an index, and the conjuncts that are still to be checked. -/
def lowerAccess (relation : Relation) (name : String) : List Predicate → Option (Option PhysOp × List Predicate)
  | [] => some (none,[])
  | p::preds =>
    match relation.pkLookup p with
    | some pk => some (some (.pkLookup name pk),preds)
    | none => do
      match ← tryLowerIndexPredicate p relation.indexes with
      | .matched handle lead recheck => some (some (.indexScan name handle.definition.name lead),recheck::preds)
      | .unmatched p =>
        let (access,leftover) ← lowerAccess relation name preds
        some (access,p::leftover)

/-- The plan of the query of the FROM clause with a name. -/
def leafOf (leaves : List (String × PhysOp)) (name : String) : Option PhysOp :=
  (leaves.find? (fun leaf => decide (leaf.1 = name))).map Prod.snd

/-- The leaf of a relation with the conditions about it; none for a panic. -/
def buildLeftLeaf (preds : List Predicate) (relation : Relation) (name : String) (leaves : List (String × PhysOp)) :
    Option PhysOp :=
  match leafOf leaves name with
  | some scan => some (filtered scan preds)
  | none => do
    let (access,leftover) ← lowerAccess relation name preds
    return filtered (access.getD (.seqScan name)) leftover

/-- The conditions count the columns of a joined table from its offset. -/
def buildRightLeaf (preds : List Predicate) (relation : Relation) (name : String) (offset : Nat)
    (leaves : List (String × PhysOp)) : Option PhysOp := do
  let preds ← preds.mapM (fun p => shiftPredicate p (-offset))
  buildLeftLeaf preds relation name leaves

end Leaves

section Keys

/-- An equality of a column of the outer tuple and one of the inner table. -/
def extractEquiJoinKeys (p : Predicate) (outerOffset : Nat) : Option (Nat × Nat) :=
  match p with
  | .compare .eq (.column l) (.column r) =>
    if l < outerOffset ∧ outerOffset ≤ r then some (l,r - outerOffset)
    else if r < outerOffset ∧ outerOffset ≤ l then some (r,l - outerOffset)
    else none
  | _ => none

/-- The first equality of an ON condition, and the rest of the condition. -/
def splitOuterHashOn (on : Predicate) (outerOffset : Nat) : Option ((Nat × Nat) × Option Predicate) :=
  let conjuncts := flattenConjuncts on
  match conjuncts.findIdx? (fun c => (extractEquiJoinKeys c outerOffset).isSome) with
  | none => none
  | some pos => do
    let keys ← extractEquiJoinKeys (← conjuncts[pos]?) outerOffset
    return (keys,andAll (conjuncts.eraseIdx pos))

/-- The first index on the inner column alone. -/
def tryMatchInlj (p : Predicate) (outerOffset : Nat) (indexes : List IndexHandle) : Option (Nat × IndexHandle) := do
  let (outerCol,innerCol) ← extractEquiJoinKeys p outerOffset
  let ix ← indexes.find? (fun ix => decide (ix.definition.columns = [innerCol]))
  return (outerCol,ix)

/-- A join without a condition takes an equality of the WHERE clause about its table. -/
def promote (on : Option Predicate) (residual : List Predicate) (outerOffset : Nat) (range : TableRange) :
    Option Predicate × List Predicate :=
  match on with
  | some p => (some p,residual)
  | none =>
    match residual.findIdx? (fun c => (extractEquiJoinKeys c outerOffset).isSome && predicateTouchesRange c range) with
    | some pos => (residual[pos]?,residual.eraseIdx pos)
    | none => (none,residual)

end Keys

section Costs
variable {F : Type} [Arith F]
open Arith

def chooseJoinAlgorithm (model : CostModel F) (outerCard innerCard edgeSel : F) (hashAvailable inljAvailable : Bool) :
    JoinAlgorithm :=
  let nlj := (JoinAlgorithm.nestedLoop,model.scalar (model.costNestedLoopJoin outerCard innerCard))
  let (build,probe) := if le outerCard innerCard then (outerCard,innerCard) else (innerCard,outerCard)
  let hash := model.scalar (model.costHashJoin build probe)
  let best := if hashAvailable && lt hash nlj.2 then (JoinAlgorithm.hash,hash) else nlj
  let inlj := model.scalar (model.costIndexNestedLoopJoin outerCard (max (mul innerCard edgeSel) (lit 0)))
  if inljAvailable && lt inlj best.2 then .indexNestedLoop else best.1

end Costs

section Joins
variable {F : Type} [Arith F]
open Arith

/-- The plan of the tables joined so far, and the conjuncts that are not placed yet. -/
structure Planning (F : Type) where
  current : PhysOp
  residual : List Predicate
  outerOffset : Nat
  outerCard : F

/-- What the planner reads: the tables, the queries of the FROM clause and their plans. -/
structure PlanSources where
  tables : List Table
  derived : List (String × List ColumnDef)
  leaves : List (String × PhysOp)

variable (selection : JoinSelection F)

/-- A LEFT OUTER join; without a condition a panic. -/
def planLeftOuter (src : PlanSources) (st : Planning F) (range : TableRange) (right : Relation)
    (name : String) (on : Option Predicate) : Option (PhysOp × F) := do
  let on ← on
  let split := splitOuterHashOn on st.outerOffset
  let (useHash,outerCard) := match selection with
    | .heuristic => (split.isSome,st.outerCard)
    | .costBased model stats =>
      let innerCard := stats.rowCount right.tableId
      let edgeSel := match split with
        | some ((_,innerCol),_) => joinSelectivity 0 (stats.ndv right.tableId innerCol)
        | none => lit 1
      (split.isSome && chooseJoinAlgorithm model st.outerCard innerCard edgeSel true false == JoinAlgorithm.hash,
        max (max (mul (mul st.outerCard innerCard) edgeSel) st.outerCard) (lit 1))
  let inner ← buildRightLeaf [] right name range.start src.leaves
  if useHash then do
    let ((outerCol,innerCol),residual) ← split
    return (.hashJoin st.current inner outerCol innerCol .leftOuter residual,outerCard)
  else return (.nestedLoopJoin st.current inner (some on) .leftOuter,outerCard)

/-- An inner join by one of the algorithms. The probes of an index take no conditions about the inner table, so those stay. -/
def planInnerJoin (algorithm : JoinAlgorithm) (src : PlanSources) (st : Planning F) (range : TableRange) (right : Relation)
    (name : String) (on : Option Predicate) (rightPreds residual : List Predicate) : Option (PhysOp × List Predicate) :=
  match algorithm with
  | .indexNestedLoop => do
    let (outerCol,handle) ← tryMatchInlj (← on) st.outerOffset right.indexes
    return (.indexNestedLoopJoin st.current name handle.definition.name [outerCol],residual ++ rightPreds)
  | .hash => do
    let (outerCol,innerCol) ← extractEquiJoinKeys (← on) st.outerOffset
    let inner ← buildRightLeaf rightPreds right name range.start src.leaves
    return (.hashJoin st.current inner outerCol innerCol .inner none,residual)
  | .nestedLoop => do
    let inner ← buildRightLeaf rightPreds right name range.start src.leaves
    return (.nestedLoopJoin st.current inner on .inner,residual)

/-- The algorithm of an inner join, and the estimated number of its rows. -/
def innerAlgorithm (st : Planning F) (right : Relation) (on : Option Predicate) :
    JoinAlgorithm × F :=
  let keys := on.bind (fun p => extractEquiJoinKeys p st.outerOffset)
  let inlj := on.bind (fun p => tryMatchInlj p st.outerOffset right.indexes)
  match selection with
  | .heuristic => (if inlj.isSome then .indexNestedLoop else if keys.isSome then .hash else .nestedLoop,st.outerCard)
  | .costBased model stats =>
    let innerCard := stats.rowCount right.tableId
    let edgeSel := match keys with
      | some (_,innerCol) => joinSelectivity 0 (stats.ndv right.tableId innerCol)
      | none => lit 1
    (chooseJoinAlgorithm model st.outerCard innerCard edgeSel keys.isSome inlj.isSome,
      max (mul (mul st.outerCard innerCard) edgeSel) (lit 1))

def planJoin (src : PlanSources) (st : Planning F) (range : TableRange) (join : JoinClause) :
    Action Unit Error (Planning F) := do
  let right ← .ofExcept (resolveRelation src.tables src.derived join.rightTable)
  let (on,residual) := promote join.on st.residual st.outerOffset range
  match join.kind with
  | .leftOuter => do
    let (op,outerCard) ← .ofOption (planLeftOuter selection src st range right join.rightTable on)
    return ⟨op,residual,st.outerOffset + right.columnCount,outerCard⟩
  | .inner => do
    let rightPreds := residual.filter (rightOnly range)
    let keep := residual.filter (fun p => !rightOnly range p)
    let (algorithm,outerCard) := innerAlgorithm selection st right on
    let (op,residual) ← .ofOption (planInnerJoin algorithm src st range right join.rightTable on rightPreds keep)
    return ⟨op,residual,st.outerOffset + right.columnCount,outerCard⟩

def planJoins (selection : JoinSelection F) (src : PlanSources) : Planning F → List TableRange → List JoinClause →
    Action Unit Error (Planning F)
  | st, range::ranges, join::joins => do
    let st ← planJoin selection src st range join
    planJoins selection src st ranges joins
  | st, _, _ => return st

/-- Filter, aggregate, HAVING, sort, display and limit, above the joined tables. -/
def applySelectSpine (current : PhysOp) (residual : List Predicate) (block : QueryBlock) : Action Unit Error PhysOp := do
  .check (block.having.isNone || !block.aggregates.isEmpty)
  .check (block.selectList.isEmpty || !block.aggregates.isEmpty || block.projection.isEmpty)
  let aggregated := !block.aggregates.isEmpty
  let op := filtered current residual
  let op := if aggregated then filtered (.hashAggregate op block.projection block.aggregates) block.having.toList else op
  let op := if block.orderBy.isEmpty then op else .sort op block.orderBy
  let op := if aggregated || block.projection.isEmpty then op else .projection op block.projection
  let op := if block.selectList.isEmpty then op else .compute op block.selectList
  return match block.limit with
    | some n => .limit op n
    | none => op

/-- Without joins the whole WHERE clause is about the one table. -/
def planSelect (src : PlanSources) (block : QueryBlock) : Action Unit Error PhysOp := do
  let left ← .ofExcept (resolveRelation src.tables src.derived block.table)
  let ranges ← .ofExcept (tableRanges src.tables src.derived left.columnCount block.joins)
  let conjuncts := (block.filter.map flattenConjuncts).getD []
  let toLeft (p : Predicate) : Bool := block.joins.isEmpty || leftOnly left.columnCount p
  let current ← .ofOption (buildLeftLeaf (conjuncts.filter toLeft) left block.table src.leaves)
  let outerCard := match selection with
    | .costBased _ stats => stats.rowCount left.tableId
    | .heuristic => lit 0
  let st ← planJoins selection src ⟨current,conjuncts.filter (fun p => !toLeft p),left.columnCount,outerCard⟩ ranges block.joins
  applySelectSpine st.current st.residual block

end Joins

section Statements
variable {F : Type} [Arith F]

/-- The values of an INSERT name no columns. -/
def planInsert (tables : List Table) (name : String) (rows : List (List Expression)) : Action Unit Error PhysOp := do
  .check (rows.all (fun row => row.all (fun e => e.compiles .empty)))
  let rows ← .ofOption (rows.mapM (fun row => row.mapM (fun e => e.eval .empty [])))
  let _ ← .ofExcept (getTable tables name)
  return .insert name rows

def derivedSchemas (derived : List DerivedTable) : List (String × List ColumnDef) :=
  derived.map (fun | .mk name _ schema => (name,schema))

variable (selection : JoinSelection F) (tables : List Table)

mutual

def planInner : LogicalPlan → Action Unit Error PhysicalPlan
  | .select block derived _ _ _ => do
    let leaves ← planDerivedLeaves derived
    .query <$> planSelect selection ⟨tables,derivedSchemas derived,leaves⟩ block
  | .insert name rows => .query <$> planInsert tables name rows
  | .update name setClauses filter => do
    let t ← .ofExcept (getTable tables name)
    .query <$> .ofOption (planUpdate t setClauses filter)
  | .delete name filter => do
    let t ← .ofExcept (getTable tables name)
    let child ← .ofOption (planAccess t filter)
    return .query (.delete name child)
  | .explain inner => do
    let _ ← planInner inner
    planSubqueriesOf inner
    return .descriptor
  | .createTable _ _ _ | .createIndex _ _ _ _ | .analyze _ | .beginTxn | .commitTxn | .abortTxn => return .descriptor

/-- The plan of each query of the FROM clause under its name; the last of a name counts. -/
def planDerivedLeaves : List DerivedTable → Action Unit Error (List (String × PhysOp))
  | [] => return []
  | d::derived => do
    let leaf ← planDerivedLeaf d
    let leaves ← planDerivedLeaves derived
    return leaves ++ [leaf]

def planDerivedLeaf : DerivedTable → Action Unit Error (String × PhysOp)
  | .mk name inner schema => do
    match ← planInner inner with
    | .query subplan => return (name,.derivedScan name subplan schema)
    | .descriptor => .throw (.internal "derived table subquery did not lower to a query")

/-- EXPLAIN also plans the subqueries, those inside the FROM clause too. -/
def planSubqueriesOf : LogicalPlan → Action Unit Error Unit
  | .select _ derived scalarSubqueries inSubqueries correlatedSubqueries => do
    planAll scalarSubqueries
    planAll inSubqueries
    planAll correlatedSubqueries
    planDerivedSubqueries derived
  | _ => return ()

def planAll : List LogicalPlan → Action Unit Error Unit
  | [] => return ()
  | inner::plans => do
    let _ ← planInner inner
    planAll plans

def planDerivedSubqueries : List DerivedTable → Action Unit Error Unit
  | [] => return ()
  | d::derived => do
    planSubqueriesOfDerived d
    planDerivedSubqueries derived

def planSubqueriesOfDerived : DerivedTable → Action Unit Error Unit
  | .mk _ inner _ => planSubqueriesOf inner

end

end Statements

end InterchangeDb
