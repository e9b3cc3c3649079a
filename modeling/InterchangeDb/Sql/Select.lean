import InterchangeDb.Sql.Table

/-! SELECT. A statement runs its subqueries first and then its plan, all through one engine handle. -/
namespace InterchangeDb

structure InSubquerySet where
  values : List Value
  hasNull : Bool
  nonempty : Bool

def maxInSubqueryRows : Nat := 2^20

def scalarValueOf : List Row → Except Error Value
  | [] => .ok .null
  | [row] => .ok (row.headD .null)
  | rows => .error (.sqlParse s!"scalar subquery returned {rows.length} rows (expected at most 1)")

def materializeInSet (rows : List Row) : Except Error InSubquerySet :=
  if rows.length > maxInSubqueryRows then
    .error (.sqlParse
      s!"IN subquery produced {rows.length} rows, exceeding MAX_IN_SUBQUERY_ROWS ({maxInSubqueryRows})")
  else
    let values := rows.map (fun row => row.headD .null)
    .ok ⟨(values.filter (fun v => decide (v ≠ .null))).map Value.joinKeyNormalized,decide (.null ∈ values),!rows.isEmpty⟩

/-- A correlated subquery, run for the values of an outer row. -/
abbrev CorrelatedEvaluator := List Value → Statement (List Row)

/-- A resolved plan, run with the sets and evaluators of the whole statement. -/
abbrev Executor := List InSubquerySet → List CorrelatedEvaluator → Statement (List Row)

/-- A bound SELECT: its subqueries by kind, its correlated templates, and the plan for the values of its scalar
subqueries and its resolved derived tables. -/
inductive Select where
  | mk (scalarSubqueries inSubqueries derived : List Select) (correlatedSubqueries : List CorrelatedEvaluator)
      (plan : List Value → List Executor → Executor)

mutual

def Select.resolveSubqueries : Select → Statement (Executor × List InSubquerySet × List CorrelatedEvaluator)
  | .mk scalarSubqueries inSubqueries derived correlatedSubqueries plan => do
    let values ← Select.resolveScalars scalarSubqueries
    let inSets ← Select.resolveIns inSubqueries
    let (plans,inSets,correlated) ← Select.resolveDerived derived inSets correlatedSubqueries
    return (plan values plans,inSets,correlated)

def Select.resolveScalars : List Select → Statement (List Value)
  | [] => return []
  | q::qs => do
    let (plan,inSets,correlated) ← q.resolveSubqueries
    let rows ← plan inSets correlated
    let value ← Statement.ofExcept (scalarValueOf rows)
    let values ← Select.resolveScalars qs
    return value::values

def Select.resolveIns : List Select → Statement (List InSubquerySet)
  | [] => return []
  | q::qs => do
    let (plan,inSets,correlated) ← q.resolveSubqueries
    let rows ← plan inSets correlated
    let inSet ← Statement.ofExcept (materializeInSet rows)
    let inSets ← Select.resolveIns qs
    return inSet::inSets

/-- Derived tables append their sets and evaluators to those of the statement, which works for one source of each. -/
def Select.resolveDerived : List Select → List InSubquerySet → List CorrelatedEvaluator →
    Statement (List Executor × List InSubquerySet × List CorrelatedEvaluator)
  | [], inSets, correlated => return ([],inSets,correlated)
  | d::ds, inSets, correlated => do
    let (plan,dIn,dCorr) ← d.resolveSubqueries
    if !dIn.isEmpty && !inSets.isEmpty then
      .throw (.sqlParse ("session: IN/EXISTS subqueries in BOTH a derived table and its enclosing " ++
        "query (or a sibling derived table) are not supported (recorded lever)"))
    else if !dCorr.isEmpty && !correlated.isEmpty then
      .throw (.sqlParse ("session: correlated subqueries in BOTH a derived table and its enclosing " ++
        "query (or a sibling derived table) are not supported (recorded lever)"))
    else do
      let (plans,inSets,correlated) ← Select.resolveDerived ds (inSets ++ dIn) (correlated ++ dCorr)
      return (plan::plans,inSets,correlated)

end

def Select.execute (q : Select) : Statement (List Row) := do
  let (plan,inSets,correlated) ← q.resolveSubqueries
  plan inSets correlated

end InterchangeDb
