import InterchangeDb.Sql.Aggregate

/-! Physical plans, and what an operator needs to run. -/
namespace InterchangeDb

/-- One node of a physical plan. Tables and indexes are found by name when the node is built. -/
inductive PhysOp where
  | seqScan (table : String)
  | indexScan (table index : String) (lead : List Value)
  | pkLookup (table : String) (pk : List Value)
  | derivedScan (name : String) (subplan : PhysOp) (schema : List ColumnDef)
  | filter (input : PhysOp) (predicate : Predicate)
  | projection (input : PhysOp) (cols : List Nat)
  | compute (input : PhysOp) (exprs : List Expression)
  | nestedLoopJoin (outer inner : PhysOp) (on : Option Predicate) (kind : JoinKind)
  | indexNestedLoopJoin (outer : PhysOp) (innerTable innerIndex : String) (outerKeyCols : List Nat)
  | hashJoin (outer inner : PhysOp) (outerKeyCol innerKeyCol : Nat) (kind : JoinKind) (residual : Option Predicate)
  | mergeJoin (left right : PhysOp) (leftKeyCol rightKeyCol : Nat)
  | hashAggregate (input : PhysOp) (groupBy : List Nat) (aggregates : List AggregateSpec)
  | sort (input : PhysOp) (keys : List (Nat × OrderDir))
  | limit (input : PhysOp) (maxRows : Nat)
  | insert (table : String) (rows : List Row)
  | update (table : String) (input : PhysOp) (set : List (Nat × Expression))
  | delete (table : String) (input : PhysOp)

/-- The calls of a statement on the engines. -/
structure Handle (S : Type) where
  lockForWrite : Bytes → Action S Error Unit
  get : Bytes → Action S Error (Option Bytes)
  put : Bytes → Bytes → Action S Error Unit
  delete : Bytes → Action S Error Unit
  scan : Bound Bytes → Bound Bytes → Action S Error (List (Bytes × Bytes))
  indexScan : Nat → Bound Bytes → Bound Bytes → Action S Error (List (Bytes × Bytes))
  indexPut : Nat → Bytes → Action S Error Unit
  indexDelete : Nat → Bytes → Action S Error Unit
  createIndex : IndexDef → Action S Error Nat

/-- Run the calls of a statement one after the other. -/
def Statement.exec {S R : Type} (h : Handle S) : Statement R → Action S Error R
  | .done result => .ofExcept result
  | .lockForWrite key next => do
    h.lockForWrite key
    next.exec h
  | .get key next => do
    let value ← h.get key
    (next value).exec h
  | .put key value next => do
    h.put key value
    next.exec h
  | .delete key next => do
    h.delete key
    next.exec h
  | .scan lo hi next => do
    let entries ← h.scan lo hi
    (next entries).exec h
  | .indexScan index lo hi next => do
    let entries ← h.indexScan index lo hi
    (next entries).exec h
  | .indexPut index key next => do
    h.indexPut index key
    next.exec h
  | .indexDelete index key next => do
    h.indexDelete index key
    next.exec h
  | .createIndex definition next => do
    let index ← h.createIndex definition
    (next index).exec h

theorem Statement.exec_bind {S R T : Type} (h : Handle S) (p : Statement R) (f : R → Statement T) :
    (p >>= f).exec h = p.exec h >>= fun r => (f r).exec h := by
  change (p.bind f).exec h = _
  induction p with
  | done result => cases result <;> rfl
  | lockForWrite _ _ ih | delete _ _ ih | get _ _ ih | createIndex _ _ ih | scan _ _ _ ih
  | indexScan _ _ _ _ ih | put _ _ _ ih | indexPut _ _ _ ih | indexDelete _ _ _ ih =>
    simp [Statement.bind,exec,ih,bind_assoc]

structure RowSchema where
  name : String
  tableId : Nat
  columns : List ColumnDef
  primaryKey : List Nat
  deriving DecidableEq

namespace RowSchema

def types (s : RowSchema) : List ColumnType := s.columns.map (·.ty)

def ofTable (s : Schema) : RowSchema := ⟨s.name,s.tableId.val,s.columns,s.primaryKey.map (·.val)⟩

def countResult (column : String) : RowSchema := ⟨"dml_result",0,[⟨column,.int64,false,none⟩],[]⟩

/-- A column of the inner side of a join: with the name of the table before it if the outer side has its name. -/
def joinedColumn (outer inner : RowSchema) (rightNullable : Bool) (col : ColumnDef) : ColumnDef :=
  { col with
    name := if outer.columns.any (fun c => c.name == col.name) then inner.name ++ "." ++ col.name else col.name
    nullable := col.nullable || rightNullable }

def concat (outer inner : RowSchema) (rightNullable : Bool) : RowSchema :=
  ⟨outer.name ++ "_join_" ++ inner.name,0,outer.columns ++ inner.columns.map (joinedColumn outer inner rightNullable),[]⟩

/-- A schema with other columns and no key. -/
def withColumns (s : RowSchema) (columns : List ColumnDef) : RowSchema := { s with columns := columns, primaryKey := [] }

end RowSchema

/-- The rows of a correlated subquery over the state it is asked in. -/
abbrev StateEvaluator (S : Type) := List Value → S → Option (Except Error (List Row))

/-- The orders of the hash maps of a plan, by the way from its root. -/
abbrev HashOrders := List Bool → HashOrder

/-- The order of hashing itself. -/
def asHashed : HashOrders := fun _ => ⟨id,fun _ => .refl _⟩

def HashOrders.child (orders : HashOrders) (second : Bool) : HashOrders := fun path => orders (second::path)

structure ExecContext (S : Type) where
  handle : Handle S
  tables : List Table
  sets : List InSubquerySet
  evaluators : List (StateEvaluator S)

namespace ExecContext
variable {S : Type}

def resolveTable (x : ExecContext S) (name : String) : Except Error Table :=
  match x.tables.find? (fun t => decide (t.schema.name = name)) with
  | some t => .ok t
  | none => .error (.tableNotFound name)

def rowEvaluators (x : ExecContext S) (s : S) : List RowEvaluator := x.evaluators.map (fun evaluator values => evaluator values s)

end ExecContext

def Table.findIndex (t : Table) (name : String) : Except Error IndexHandle :=
  match t.indexes.find? (fun ix => decide (ix.definition.name = name)) with
  | some ix => .ok ix
  | none => .error (.indexNotFound name)

end InterchangeDb
