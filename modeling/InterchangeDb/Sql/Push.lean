import InterchangeDb.Sql.Volcano

/-! Push execution: the source of a plan hands its rows to a chain of sinks, which may stop it. -/
namespace InterchangeDb

/-- A sink and those behind it. A grouped aggregate has the types of its input from the build. -/
inductive Sink where
  | collector
  | filter (predicate : Predicate) (out : Sink)
  | projection (cols : List Nat) (out : Sink)
  | compute (exprs : List Expression) (out : Sink)
  | limit (maxRows : Nat) (out : Sink)
  | groupedAggregate (order : HashOrder) (types : List ColumnType) (groupBy : List Nat) (aggregates : List AggregateSpec)
      (out : Sink)

namespace Sink
variable {S : Type}

/-- What changes while rows come in: the rows that were collected, how many a limit lets through, the groups so far. -/
def State : Sink → Type
  | .collector => List Row
  | .filter _ out => out.State
  | .projection _ out => out.State
  | .compute _ out => out.State
  | .limit _ out => Nat × out.State
  | .groupedAggregate _ _ _ _ out => List Group × out.State

def init : (k : Sink) → k.State
  | .collector => ([] : List Row)
  | .filter _ out => out.init
  | .projection _ out => out.init
  | .compute _ out => out.init
  | .limit maxRows out => (maxRows,out.init)
  | .groupedAggregate _ _ _ _ out => ([],out.init)

def collectRow (rows : List Row) (row : Row) : List Row := rows ++ [row]

/-- Hand a row to a sink through a change that may drop it. -/
def pushThrough {K : Type} (push : K → Row → Action S Error (Stream.Flow × K)) (f : Row → Action S Error (Option Row)) (st : K)
    (row : Row) : Action S Error (Stream.Flow × K) := do
  match ← f row with
  | none => return (.continue,st)
  | some row => push st row

def push (x : ExecContext S) : (k : Sink) → k.State → Row → Action S Error (Stream.Flow × k.State)
  | .collector, rows, row => return (.continue,collectRow rows row)
  | .filter predicate out, st, row => pushThrough (out.push x) (keepRow x predicate) st row
  | .projection cols out, st, row => pushThrough (out.push x) (projectRow cols) st row
  | .compute exprs out, st, row => pushThrough (out.push x) (computeRow exprs) st row
  | .limit _ _, (0,st), _ => return (.stop,(0,st))
  | .limit _ out, (n+1,st), row => do
    let (flow,st) ← out.push x st row
    return (if n = 0 then .stop else flow,(n,st))
  | .groupedAggregate _ types groupBy aggregates _, (groups,st), row => do
    let groups ← groupRow types groupBy aggregates groups row
    return (.continue,(groups,st))

/-- The groups in order, each finished when it is asked for. -/
def emitLazily (order : HashOrder) (aggregates : List AggregateSpec) (groups : List Group) : Stream S Error Row :=
  match order.sorted groups with
  | none => .crash
  | some groups => .ofOutcomes (groups.map (fun g => (finalizeGroup aggregates g).outcome))

def finish (x : ExecContext S) : (k : Sink) → k.State → Action S Error k.State
  | .collector, rows => return rows
  | .filter _ out, st => out.finish x st
  | .projection _ out, st => out.finish x st
  | .compute _ out, st => out.finish x st
  | .limit _ out, (n,st) => do
    let st ← out.finish x st
    return (n,st)
  | .groupedAggregate order _ _ aggregates out, (groups,st) => do
    let st ← Stream.feed (out.push x) (out.finish x) (emitLazily order aggregates groups) st
    return ([],st)

/-- Hand over rows as they come, then the end. -/
def drive (x : ExecContext S) (k : Sink) (rows : Stream S Error Row) : Action S Error k.State :=
  Stream.feed (k.push x) (k.finish x) rows k.init

end Sink

/-- A pipeline is run by giving it the sink it feeds. -/
structure Pipeline (S : Type) where
  schema : RowSchema
  run : (out : Sink) → Action S Error out.State

namespace Push
variable {S : Type}

/-- The rows of a table, each decoded when it is asked for. -/
def scanRows (x : ExecContext S) (t : Table) : Stream S Error Row :=
  .ofAction (.ofExcept (TableId.next t.schema.tableId)) (fun nextTid =>
    .ofAction (x.handle.scan (.included (makeRowKey t.schema.tableId [])) (.excluded (makeRowKey nextTid [])))
      (fun entries => .ofExcepts (entries.map (fun entry => Tuple.decode t.schema.columnTypes entry.2))))

/-- What has no sink of its own: the operator for pulling, with its rows handed on. -/
def delegate (x : ExecContext S) (plan : PhysOp) (orders : HashOrders) : Action S Error (Pipeline S) := do
  let op ← Volcano.build x plan orders
  return ⟨op.schema,fun out => out.drive x op.rows⟩

def build (x : ExecContext S) : PhysOp → HashOrders → Action S Error (Pipeline S)
  | .seqScan table, _ => do
    let t ← .ofExcept (x.resolveTable table)
    return ⟨.ofTable t.schema,fun out => out.drive x (scanRows x t)⟩
  | .filter input predicate, orders => do
    .check (predicate.compiles .empty x.sets.length x.evaluators.length)
    let child ← build x input (orders.child false)
    return ⟨child.schema,fun out => child.run (.filter predicate out)⟩
  | .limit input maxRows, orders => do
    let child ← build x input (orders.child false)
    return ⟨child.schema,fun out => Prod.snd <$> child.run (.limit maxRows out)⟩
  | .projection input cols, orders => do
    let child ← build x input (orders.child false)
    let columns ← .ofExcept (projectedColumns child.schema.columns cols)
    return ⟨child.schema.withColumns columns,fun out => child.run (.projection cols out)⟩
  | .compute input exprs, orders => do
    .check (exprs.all (fun e => e.compiles .empty))
    let child ← build x input (orders.child false)
    let columns ← .lift (computeOutputColumns child.schema.columns exprs)
    return ⟨child.schema.withColumns columns,fun out => child.run (.compute exprs out)⟩
  | .hashAggregate input groupBy aggregates, orders =>
    if groupBy.isEmpty then delegate x (.hashAggregate input groupBy aggregates) orders
    else do
      .check (argsCompile aggregates)
      let child ← build x input (orders.child false)
      let columns ← .lift (aggregateOutputColumns child.schema.columns groupBy aggregates)
      return ⟨aggregateSchema columns,fun out =>
        Prod.snd <$> child.run (.groupedAggregate (orders []) child.schema.types groupBy aggregates out)⟩
  | plan, orders => delegate x plan orders

def execute (x : ExecContext S) (plan : PhysOp) (orders : HashOrders) : Action S Error (RowSchema × List Row) := do
  let pipeline ← build x plan orders
  let rows ← pipeline.run .collector
  return (pipeline.schema,(rows : List Row))

end Push

end InterchangeDb
