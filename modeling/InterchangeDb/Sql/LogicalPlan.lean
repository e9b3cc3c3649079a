import InterchangeDb.Sql.Expr

/-! Bound statements, and the values put into them before they are planned. -/
namespace InterchangeDb

inductive JoinKind where
  | inner
  | leftOuter
  deriving DecidableEq, Repr

inductive OrderDir where
  | asc
  | desc
  deriving DecidableEq, Repr

inductive AggregateSpec where
  | countStar
  | count (arg : Expression) (distinct : Bool)
  | sum (arg : Expression)
  | min (arg : Expression)
  | max (arg : Expression)
  | avg (arg : Expression)

def AggregateSpec.arg : AggregateSpec → Option Expression
  | .countStar => none
  | .count arg _ | .sum arg | .min arg | .max arg | .avg arg => some arg

/-- A comma join has no condition. -/
structure JoinClause where
  rightTable : String
  rightAlias : Option String
  on : Option Predicate
  kind : JoinKind

/-- What a SELECT holds besides the queries inside it. Columns count through the joined tables in the order of the
FROM clause; above an aggregate they count through its groups and results. -/
structure QueryBlock where
  table : String
  joins : List JoinClause
  projection : List Nat
  aggregates : List AggregateSpec
  selectList : List Expression
  filter : Option Predicate
  orderBy : List (Nat × OrderDir)
  having : Option Predicate
  limit : Option Nat

mutual

inductive LogicalPlan where
  | createTable (name : String) (columns : List ColumnDef) (primaryKey : List Nat)
  | createIndex (name table : String) (columns : List Nat) (unique : Bool)
  | select (block : QueryBlock) (derived : List DerivedTable)
      (scalarSubqueries inSubqueries correlatedSubqueries : List LogicalPlan)
  | insert (table : String) (rows : List (List Expression))
  | update (table : String) (setClauses : List (Nat × Expression)) (filter : Option Predicate)
  | delete (table : String) (filter : Option Predicate)
  | analyze (table : String)
  | beginTxn
  | commitTxn
  | abortTxn
  | explain (plan : LogicalPlan)

inductive DerivedTable where
  | mk (name : String) (plan : LogicalPlan) (schema : List ColumnDef)

end

section Substitution

def JoinClause.mapSlots (f : Filling) (j : JoinClause) : Except Error JoinClause := do
  let on ← j.on.mapM (Predicate.mapSlots f)
  return { j with on := on }

mutual

/-- Aggregates, the plans of subqueries and an explained statement are carried through as they are. -/
def LogicalPlan.substituteParams (params : List Value) : LogicalPlan → Except Error LogicalPlan
  | .select block derived scalarSubqueries inSubqueries correlatedSubqueries => do
    let derived ← DerivedTable.substituteAll params derived
    let joins ← block.joins.mapM (JoinClause.mapSlots (bindParams params))
    let filter ← block.filter.mapM (Predicate.mapSlots (bindParams params))
    let having ← block.having.mapM (Predicate.mapSlots (bindParams params))
    let selectList ← block.selectList.mapM (Expression.mapSlots (bindParams params))
    return .select { block with joins := joins, filter := filter, having := having, selectList := selectList } derived
      scalarSubqueries inSubqueries correlatedSubqueries
  | .insert table rows => do
    let rows ← rows.mapM (List.mapM (Expression.mapSlots (bindParams params)))
    return .insert table rows
  | .update table setClauses filter => do
    let setClauses ← setClauses.mapM (fun clause => do return (clause.1,← clause.2.mapSlots (bindParams params)))
    let filter ← filter.mapM (Predicate.mapSlots (bindParams params))
    return .update table setClauses filter
  | .delete table filter => do
    let filter ← filter.mapM (Predicate.mapSlots (bindParams params))
    return .delete table filter
  | other => return other

def DerivedTable.substituteParams (params : List Value) : DerivedTable → Except Error DerivedTable
  | .mk name plan schema => do
    let plan ← plan.substituteParams params
    return .mk name plan schema

def DerivedTable.substituteAll (params : List Value) : List DerivedTable → Except Error (List DerivedTable)
  | [] => return []
  | d::ds => do
    let d ← d.substituteParams params
    let ds ← DerivedTable.substituteAll params ds
    return d::ds

end

end Substitution

section Sites

inductive Site where
  | expression (e : Expression)
  | predicate (p : Predicate)

def AggregateSpec.sites (aggregates : List AggregateSpec) : List Site :=
  (aggregates.filterMap AggregateSpec.arg).map .expression

/-- The sites of a SELECT besides the arguments of its aggregates. -/
def QueryBlock.plainSites (block : QueryBlock) : List Site :=
  (block.joins.filterMap JoinClause.on).map .predicate ++ block.filter.toList.map .predicate ++
    block.having.toList.map .predicate ++ block.selectList.map .expression

mutual

/-- Every expression and every condition of a statement and of all that is inside it. -/
def LogicalPlan.sites : LogicalPlan → List Site
  | .select block derived scalarSubqueries inSubqueries correlatedSubqueries =>
    block.plainSites ++ DerivedTable.allSites derived ++ AggregateSpec.sites block.aggregates ++
      LogicalPlan.allSites scalarSubqueries ++ LogicalPlan.allSites inSubqueries ++
      LogicalPlan.allSites correlatedSubqueries
  | .insert _ rows => rows.flatten.map .expression
  | .update _ setClauses filter =>
    setClauses.map (fun clause => .expression clause.2) ++ filter.toList.map .predicate
  | .delete _ filter => filter.toList.map .predicate
  | .explain plan => plan.sites
  | _ => []

def DerivedTable.sites : DerivedTable → List Site
  | .mk _ plan _ => plan.sites

def DerivedTable.allSites : List DerivedTable → List Site
  | [] => []
  | d::ds => d.sites ++ DerivedTable.allSites ds

def LogicalPlan.allSites : List LogicalPlan → List Site
  | [] => []
  | plan::plans => plan.sites ++ LogicalPlan.allSites plans

end

end Sites

end InterchangeDb
