import InterchangeDb.Sql.Numeric
import InterchangeDb.Sql.Select

/-! Expressions and predicates over a row. Compiling and evaluating may panic; debug assertions are taken as checks. -/
namespace InterchangeDb
open List Option

inductive BinaryOp where
  | add | sub | mul | div
  deriving DecidableEq, Repr

inductive CompareOp where
  | eq | neq | lt | lte | gt | gte
  deriving DecidableEq, Repr

mutual

inductive Expression where
  | literal (v : Value)
  | column (i : Nat)
  | parameter (i : Nat)
  | binaryOp (op : BinaryOp) (left right : Expression)
  | extractYear (arg : Expression)
  | case (arms : CaseArms)
  | subqueryResult (slot : Nat)
  | outerRef (k : Nat)
  | correlatedScalar (subquery : Nat) (outerCols : List Nat)
  | substring (input : Expression) (start length : Nat)

/-- The branches of a CASE, then its ELSE if it has one. -/
inductive CaseArms where
  | missing
  | orElse (result : Expression)
  | when (cond : Predicate) (result : Expression) (rest : CaseArms)

/-- An uncorrelated subquery is a test of membership or, without an expression, of existence. -/
inductive Predicate where
  | compare (op : CompareOp) (left right : Expression)
  | and (a b : Predicate)
  | or (a b : Predicate)
  | not (p : Predicate)
  | like (expr : Expression) (pattern : Text)
  | isNull (expr : Expression)
  | inSubquery (expr : Expression) (subquery : Nat) (negated : Bool)
  | existsSubquery (subquery : Nat) (negated : Bool)
  | correlatedExists (subquery : Nat) (outerCols : List Nat) (negated : Bool)

end

section Operators

def orNull (v : Option Value) : Value := v.getD .null

def intOp (op : BinaryOp) (a b : Int) : Option Int :=
  match op with
  | .add => some (a + b)
  | .sub => some (a - b)
  | .mul => some (a * b)
  | .div => if b = 0 then none else some (a.tdiv b)

/-- An error of the arithmetic is a null. -/
def applyDecimalOp (op : BinaryOp) (a b : Decimal) : Value :=
  let result := match op with
    | .add => a.add b
    | .sub => a.sub b
    | .mul => a.mul b
    | .div => a.div b
  match result with
  | .ok d => .decimal d
  | .error _ => .null

def evalBinaryOp (op : BinaryOp) : Value → Value → Value
  | .int32 a, .int32 b => orNull (((intOp op a.toInt b.toInt).bind (checkedInt 32)).map .int32)
  | .int64 a, .int64 b => orNull (((intOp op a.toInt b.toInt).bind (checkedInt 64)).map .int64)
  | .decimal a, .decimal b => applyDecimalOp op a b
  | .int32 a, .decimal b => applyDecimalOp op (.ofInt64 (a.signExtend 64)) b
  | .int64 a, .decimal b => applyDecimalOp op (.ofInt64 a) b
  | .decimal a, .int32 b => applyDecimalOp op a (.ofInt64 (b.signExtend 64))
  | .decimal a, .int64 b => applyDecimalOp op a (.ofInt64 b)
  | _, _ => .null

def CompareOp.holds : CompareOp → Ordering → Bool
  | .eq, ord => ord == .eq
  | .neq, ord => ord != .eq
  | .lt, ord => ord == .lt
  | .lte, ord => ord != .gt
  | .gt, ord => ord == .gt
  | .gte, ord => ord != .lt

def evalCompare (op : CompareOp) (l r : Value) : Option Bool := (l.compareSql r).map op.holds

/-- The year of a date; a day count near the end of the word has none. -/
def evalExtractYear : Value → Option Value
  | .date days => (ymdFromDays days).map (fun date => .int32 (BitVec.ofInt 32 date.1))
  | _ => some .null

/-- Positions count from one. -/
def evalSubstring (start length : Nat) : Value → Option Value
  | .varchar s => if start = 0 then none else some (.varchar (s.slice (start - 1) length))
  | .char s => if start = 0 then none else some (.varchar (s.slice (start - 1) length))
  | _ => some .null

end Operators

section Like

inductive PatChar where
  | lit (c : Bytes)
  | anyOne

/-- The pieces of a pattern between its percent signs. -/
def compileLikePattern : List Bytes → List (List PatChar)
  | [] => [[]]
  | c::chars =>
    if c = [0x25] then []::compileLikePattern chars
    else match compileLikePattern chars with
      | [] => []
      | seg::segments => ((if c = [0x5F] then .anyOne else .lit c)::seg)::segments

def PatChar.accepts : PatChar → Bytes → Bool
  | .lit c, ch => decide (ch = c)
  | .anyOne, _ => true

def segmentMatchesAt (seg : List PatChar) (chars : List Bytes) (start : Nat) : Bool :=
  decide (start + seg.length ≤ chars.length) && (seg.zip (chars.drop start)).all (fun pair => pair.1.accepts pair.2)

/-- The leftmost place between two bounds. -/
def findSegment (seg : List PatChar) (chars : List Bytes) (start bound : Nat) : Option Nat :=
  if seg.length ≤ bound then
    (List.range' start (bound - seg.length + 1 - start)).find? (segmentMatchesAt seg chars)
  else none

/-- Middle pieces in order, each at its leftmost place before the suffix. -/
def matchMiddle (chars : List Bytes) (suffixStart : Nat) : Nat → List (List PatChar) → Bool
  | _, [] => true
  | cursor, seg::segments =>
    match findSegment seg chars cursor suffixStart with
    | none => false
    | some pos => matchMiddle chars suffixStart (pos + seg.length) segments

def likeMatch (segments : List (List PatChar)) (text : Text) : Bool :=
  let chars := text.chars
  match segments with
  | [] => false
  | [seg] => decide (seg.length = chars.length) && segmentMatchesAt seg chars 0
  | lead::rest =>
    let suffix := rest.getLastD []
    let suffixStart := chars.length - suffix.length
    segmentMatchesAt lead chars 0 && decide (suffix.length ≤ chars.length) && decide (lead.length ≤ suffixStart) &&
      segmentMatchesAt suffix chars suffixStart && matchMiddle chars suffixStart lead.length rest.dropLast

def evalLike (pattern : Text) : Value → Option Bool
  | .varchar s => some (likeMatch (compileLikePattern pattern.chars) s)
  | .char s => some (likeMatch (compileLikePattern pattern.chars) s)
  | _ => none

end Like

section Truth

/-- FALSE dominates. -/
def kleeneAnd : Option Bool → Option Bool → Option Bool
  | some false, _ => some false
  | _, some false => some false
  | some true, some true => some true
  | _, _ => none

/-- TRUE dominates. -/
def kleeneOr : Option Bool → Option Bool → Option Bool
  | some true, _ => some true
  | _, some true => some true
  | some false, some false => some false
  | _, _ => none

/-- Membership in a materialized set; nothing is in an empty one, not even a null. -/
def evalIn (probe : Value) (set : InSubquerySet) (negated : Bool) : Option Bool :=
  let raw :=
    if !set.nonempty then some false
    else if probe = .null then none
    else if probe.joinKeyNormalized ∈ set.values then some true
    else if set.hasNull then none
    else some false
  if negated then raw.map not else raw

/-- A truth value, with the first error of a correlated subquery met on the way. -/
structure Verdict where
  truth : Option Bool
  fault : Option Error
  deriving DecidableEq, Repr

/-- A value, with the first error of a correlated subquery. -/
structure Operand where
  value : Value
  fault : Option Error

/-- The rows of a correlated subquery for the values of an outer row; none for a panic. -/
abbrev RowEvaluator := List Value → Option (Except Error (List Row))

def reduceCorrelatedScalar : List Row → Except Error Value
  | [] => .ok .null
  | [row] => .ok (row.headD .null)
  | rows => .error (.sqlParse s!"correlated scalar subquery returned {rows.length} rows (expected at most 1)")

def outerValues (outerCols : List Nat) (row : Row) : Option (List Value) := outerCols.mapM (fun c => row[c]?)

def evalCorrelatedScalar (evaluator : RowEvaluator) (outerCols : List Nat) (row : Row) : Option Operand := do
  let values ← outerValues outerCols row
  let result ← evaluator values
  match result.bind reduceCorrelatedScalar with
  | .ok v => some ⟨v,none⟩
  | .error e => some ⟨.null,some e⟩

def evalCorrelatedExists (evaluator : RowEvaluator) (outerCols : List Nat) (negated : Bool) (row : Row) :
    Option Verdict := do
  let values ← outerValues outerCols row
  match ← evaluator values with
  | .ok rows => some ⟨some (!rows.isEmpty != negated),none⟩
  | .error e => some ⟨none,some e⟩

end Truth

section Evaluation

/-- A leaf that has no value of its own until one is put in its place. -/
inductive Slot where
  | parameter (i : Nat)
  | subqueryResult (slot : Nat)
  | outerRef (k : Nat)
  deriving DecidableEq, Repr

def Slot.expr : Slot → Expression
  | .parameter i => .parameter i
  | .subqueryResult slot => .subqueryResult slot
  | .outerRef k => .outerRef k

/-- Values to read slots from. The code compiles with none. -/
structure Slots where
  params : List Value
  scalars : List Value
  outer : List Value

namespace Slots

def empty : Slots := ⟨[],[],[]⟩

def get (env : Slots) : Slot → Option Value
  | .parameter i => env.params[i]?
  | .subqueryResult slot => env.scalars[slot]?
  | .outerRef k => env.outer[k]?

end Slots

mutual

def Expression.compiles (env : Slots) : Expression → Bool
  | .literal _ => true
  | .column _ => true
  | .parameter i => (env.get (.parameter i)).isSome
  | .binaryOp _ left right => left.compiles env && right.compiles env
  | .extractYear arg => arg.compiles env
  | .case arms => arms.compiles env
  | .subqueryResult slot => (env.get (.subqueryResult slot)).isSome
  | .outerRef k => (env.get (.outerRef k)).isSome
  | .correlatedScalar _ _ => false
  | .substring input _ _ => input.compiles env

/-- The conditions of a CASE have no sets and no evaluators. -/
def CaseArms.compiles (env : Slots) : CaseArms → Bool
  | .missing => true
  | .orElse result => result.compiles env
  | .when cond result rest => cond.compiles env 0 0 && result.compiles env && rest.compiles env

/-- Every subquery needs its set or its evaluator; there are so many of each. A correlated scalar stands for itself
on one side of a comparison only. -/
def Predicate.compiles (env : Slots) (sets evaluators : Nat) : Predicate → Bool
  | .compare _ left right =>
    (match left with
      | .correlatedScalar subquery _ => decide (subquery < evaluators)
      | _ => left.compiles env) &&
    (match right with
      | .correlatedScalar subquery _ => decide (subquery < evaluators)
      | _ => right.compiles env)
  | .and a b => a.compiles env sets evaluators && b.compiles env sets evaluators
  | .or a b => a.compiles env sets evaluators && b.compiles env sets evaluators
  | .not p => p.compiles env sets evaluators
  | .like expr _ => expr.compiles env
  | .isNull expr => expr.compiles env
  | .inSubquery expr subquery _ => decide (subquery < sets) && expr.compiles env
  | .existsSubquery subquery _ => decide (subquery < sets)
  | .correlatedExists subquery _ _ => decide (subquery < evaluators)

end

mutual

/-- The compiled closure; none for a panic, as for a column outside the row. -/
def Expression.eval (env : Slots) : Expression → Row → Option Value
  | .literal v, _ => some v
  | .column i, row => row[i]?
  | .parameter i, _ => env.get (.parameter i)
  | .binaryOp op left right, row => do
    let l ← left.eval env row
    let r ← right.eval env row
    some (evalBinaryOp op l r)
  | .extractYear arg, row => (arg.eval env row).bind evalExtractYear
  | .case arms, row => arms.eval env row
  | .subqueryResult slot, _ => env.get (.subqueryResult slot)
  | .outerRef k, _ => env.get (.outerRef k)
  | .correlatedScalar _ _, _ => none
  | .substring input start length, row => (input.eval env row).bind (evalSubstring start length)

/-- The first branch whose condition is TRUE. -/
def CaseArms.eval (env : Slots) : CaseArms → Row → Option Value
  | .missing, _ => some .null
  | .orElse result, row => result.eval env row
  | .when cond result rest, row => do
    let verdict ← cond.eval env [] [] row
    if verdict.truth = some true then result.eval env row else rest.eval env row

/-- AND and OR leave out their right side when the left decides. -/
def Predicate.eval (env : Slots) (sets : List InSubquerySet) (evaluators : List RowEvaluator) :
    Predicate → Row → Option Verdict
  | .compare op left right, row => do
    let l ← (match left with
      | .correlatedScalar subquery outerCols => do evalCorrelatedScalar (← evaluators[subquery]?) outerCols row
      | _ => (left.eval env row).map (fun v => ⟨v,none⟩))
    let r ← (match right with
      | .correlatedScalar subquery outerCols => do evalCorrelatedScalar (← evaluators[subquery]?) outerCols row
      | _ => (right.eval env row).map (fun v => ⟨v,none⟩))
    some ⟨evalCompare op l.value r.value,l.fault.or r.fault⟩
  | .and a b, row => do
    let av ← a.eval env sets evaluators row
    if av.truth = some false then some av
    else do
      let bv ← b.eval env sets evaluators row
      some ⟨kleeneAnd av.truth bv.truth,av.fault.or bv.fault⟩
  | .or a b, row => do
    let av ← a.eval env sets evaluators row
    if av.truth = some true then some av
    else do
      let bv ← b.eval env sets evaluators row
      some ⟨kleeneOr av.truth bv.truth,av.fault.or bv.fault⟩
  | .not p, row => do
    let v ← p.eval env sets evaluators row
    some ⟨v.truth.map not,v.fault⟩
  | .like expr pattern, row => do
    let v ← expr.eval env row
    some ⟨evalLike pattern v,none⟩
  | .isNull expr, row => do
    let v ← expr.eval env row
    some ⟨some (decide (v = .null)),none⟩
  | .inSubquery expr subquery negated, row => do
    let set ← sets[subquery]?
    let v ← expr.eval env row
    some ⟨evalIn v set negated,none⟩
  | .existsSubquery subquery negated, _ => do
    let set ← sets[subquery]?
    some ⟨some (set.nonempty != negated),none⟩
  | .correlatedExists subquery outerCols negated, row => do
    evalCorrelatedExists (← evaluators[subquery]?) outerCols negated row

end

variable (env : Slots)

/-- One side of a comparison. -/
def Expression.operandCompiles (evaluators : Nat) (e : Expression) : Bool :=
  match e with
  | .correlatedScalar subquery _ => decide (subquery < evaluators)
  | _ => e.compiles env

def Expression.operand (evaluators : List RowEvaluator) (e : Expression) (row : Row) : Option Operand :=
  match e with
  | .correlatedScalar subquery outerCols => do evalCorrelatedScalar (← evaluators[subquery]?) outerCols row
  | _ => (e.eval env row).map (fun v => ⟨v,none⟩)

theorem Predicate.compiles_compare (sets evaluators : Nat) (op : CompareOp) (left right : Expression) :
    (Predicate.compare op left right).compiles env sets evaluators =
      (left.operandCompiles env evaluators && right.operandCompiles env evaluators) := by
  unfold compiles Expression.operandCompiles
  rfl

theorem Predicate.eval_compare (sets : List InSubquerySet) (evaluators : List RowEvaluator)
    (op : CompareOp) (left right : Expression) (row : Row) :
    (Predicate.compare op left right).eval env sets evaluators row = (do
      let l ← left.operand env evaluators row
      let r ← right.operand env evaluators row
      some ⟨evalCompare op l.value r.value,l.fault.or r.fault⟩) := by
  unfold eval Expression.operand
  rfl

theorem Predicate.eval_and (sets : List InSubquerySet) (evaluators : List RowEvaluator) (a b : Predicate)
    (row : Row) : (Predicate.and a b).eval env sets evaluators row = (do
      let av ← a.eval env sets evaluators row
      if av.truth = some false then some av
      else do
        let bv ← b.eval env sets evaluators row
        some ⟨kleeneAnd av.truth bv.truth,av.fault.or bv.fault⟩) := by
  rw [eval]

theorem kleeneAnd_eq_true {a b : Option Bool} : kleeneAnd a b = some true ↔ a = some true ∧ b = some true := by
  revert a b
  decide

end Evaluation

section Substitution

mutual

/-- The slots that occur, from left to right. -/
def Expression.slots : Expression → List Slot
  | .literal _ => []
  | .column _ => []
  | .parameter i => [.parameter i]
  | .binaryOp _ left right => left.slots ++ right.slots
  | .extractYear arg => arg.slots
  | .case arms => arms.slots
  | .subqueryResult slot => [.subqueryResult slot]
  | .outerRef k => [.outerRef k]
  | .correlatedScalar _ _ => []
  | .substring input _ _ => input.slots

def CaseArms.slots : CaseArms → List Slot
  | .missing => []
  | .orElse result => result.slots
  | .when cond result rest => cond.slots ++ result.slots ++ rest.slots

def Predicate.slots : Predicate → List Slot
  | .compare _ left right => left.slots ++ right.slots
  | .and a b => a.slots ++ b.slots
  | .or a b => a.slots ++ b.slots
  | .not p => p.slots
  | .like expr _ => expr.slots
  | .isNull expr => expr.slots
  | .inSubquery expr _ _ => expr.slots
  | .existsSubquery _ _ => []
  | .correlatedExists _ _ _ => []

end

/-- What to put in the place of a slot; none leaves it as it is. -/
abbrev Filling := Slot → Except Error (Option Value)

def Filling.fill (f : Filling) (s : Slot) : Except Error Expression := do
  match ← f s with
  | some v => return .literal v
  | none => return s.expr

mutual

def Expression.mapSlots (f : Filling) : Expression → Except Error Expression
  | .literal v => return .literal v
  | .column i => return .column i
  | .parameter i => f.fill (.parameter i)
  | .binaryOp op left right => do
    let left ← left.mapSlots f
    let right ← right.mapSlots f
    return .binaryOp op left right
  | .extractYear arg => do
    let arg ← arg.mapSlots f
    return .extractYear arg
  | .case arms => do
    let arms ← arms.mapSlots f
    return .case arms
  | .subqueryResult slot => f.fill (.subqueryResult slot)
  | .outerRef k => f.fill (.outerRef k)
  | .correlatedScalar subquery outerCols => return .correlatedScalar subquery outerCols
  | .substring input start length => do
    let input ← input.mapSlots f
    return .substring input start length

def CaseArms.mapSlots (f : Filling) : CaseArms → Except Error CaseArms
  | .missing => return .missing
  | .orElse result => do
    let result ← result.mapSlots f
    return .orElse result
  | .when cond result rest => do
    let cond ← cond.mapSlots f
    let result ← result.mapSlots f
    let rest ← rest.mapSlots f
    return .when cond result rest

/-- A correlated subquery is carried through untouched. -/
def Predicate.mapSlots (f : Filling) : Predicate → Except Error Predicate
  | .compare op left right => do
    let left ← left.mapSlots f
    let right ← right.mapSlots f
    return .compare op left right
  | .and a b => do
    let a ← a.mapSlots f
    let b ← b.mapSlots f
    return .and a b
  | .or a b => do
    let a ← a.mapSlots f
    let b ← b.mapSlots f
    return .or a b
  | .not p => do
    let p ← p.mapSlots f
    return .not p
  | .like expr pattern => do
    let expr ← expr.mapSlots f
    return .like expr pattern
  | .isNull expr => do
    let expr ← expr.mapSlots f
    return .isNull expr
  | .inSubquery expr subquery negated => do
    let expr ← expr.mapSlots f
    return .inSubquery expr subquery negated
  | .existsSubquery subquery negated => return .existsSubquery subquery negated
  | .correlatedExists subquery outerCols negated => return .correlatedExists subquery outerCols negated

end

def bindParams (params : List Value) : Filling
  | .parameter i =>
    match params[i]? with
    | some v => .ok (some v)
    | none => .error (.sqlParse
        s!"prepared statement: parameter ${i + 1} not bound (only {params.length} provided)")
  | _ => .ok none

/-- The values of scalar subqueries. -/
def bindScalars (values : List Value) : Filling
  | .subqueryResult slot =>
    match values[slot]? with
    | some v => .ok (some v)
    | none => .error (.internal
        s!"scalar-subquery slot {slot} has no resolved value (only {values.length} resolved)")
  | _ => .ok none

/-- The values of an outer row. -/
def bindOuter (values : List Value) : Filling
  | .outerRef k =>
    match values[k]? with
    | some v => .ok (some v)
    | none => .error (.internal s!"OuterRef slot {k} has no value (only {values.length} supplied)")
  | _ => .ok none

def Expression.substituteParams (e : Expression) (params : List Value) : Except Error Expression :=
  e.mapSlots (bindParams params)

def Predicate.substituteParams (p : Predicate) (params : List Value) : Except Error Predicate :=
  p.mapSlots (bindParams params)

def Expression.substituteSubqueryResults (e : Expression) (values : List Value) : Except Error Expression :=
  e.mapSlots (bindScalars values)

def Predicate.substituteSubqueryResults (p : Predicate) (values : List Value) : Except Error Predicate :=
  p.mapSlots (bindScalars values)

def Expression.substituteOuterRefs (e : Expression) (values : List Value) : Except Error Expression :=
  e.mapSlots (bindOuter values)

def Predicate.substituteOuterRefs (p : Predicate) (values : List Value) : Except Error Predicate :=
  p.mapSlots (bindOuter values)

end Substitution

section SubstitutionSpec

def Slot.replace (g : Slot → Option Value) (s : Slot) : Expression :=
  match g s with
  | some v => .literal v
  | none => s.expr

mutual

/-- The outcome of a substitution that meets no error. -/
def Expression.replace (g : Slot → Option Value) : Expression → Expression
  | .literal v => .literal v
  | .column i => .column i
  | .parameter i => Slot.replace g (.parameter i)
  | .binaryOp op left right => .binaryOp op (left.replace g) (right.replace g)
  | .extractYear arg => .extractYear (arg.replace g)
  | .case arms => .case (arms.replace g)
  | .subqueryResult slot => Slot.replace g (.subqueryResult slot)
  | .outerRef k => Slot.replace g (.outerRef k)
  | .correlatedScalar subquery outerCols => .correlatedScalar subquery outerCols
  | .substring input start length => .substring (input.replace g) start length

def CaseArms.replace (g : Slot → Option Value) : CaseArms → CaseArms
  | .missing => .missing
  | .orElse result => .orElse (result.replace g)
  | .when cond result rest => .when (cond.replace g) (result.replace g) (rest.replace g)

def Predicate.replace (g : Slot → Option Value) : Predicate → Predicate
  | .compare op left right => .compare op (left.replace g) (right.replace g)
  | .and a b => .and (a.replace g) (b.replace g)
  | .or a b => .or (a.replace g) (b.replace g)
  | .not p => .not (p.replace g)
  | .like expr pattern => .like (expr.replace g) pattern
  | .isNull expr => .isNull (expr.replace g)
  | .inSubquery expr subquery negated => .inSubquery (expr.replace g) subquery negated
  | .existsSubquery subquery negated => .existsSubquery subquery negated
  | .correlatedExists subquery outerCols negated => .correlatedExists subquery outerCols negated

end

section Outcome
variable {f : Filling} {g : Slot → Option Value}

private theorem fill_eq {s : Slot} (h : f s = .ok (g s)) : f.fill s = .ok (s.replace g) := by
  unfold Filling.fill Slot.replace
  rw [h]
  cases g s <;> rfl

mutual

theorem Expression.mapSlots_eq (e : Expression) (h : ∀ s ∈ e.slots, f s = .ok (g s)) :
    e.mapSlots f = .ok (e.replace g) := by
  cases e with
  | literal | column | correlatedScalar => rfl
  | parameter | subqueryResult | outerRef => exact fill_eq (h _ mem_cons_self)
  | binaryOp op left right =>
    rw [Expression.slots,forall_mem_append] at h
    rw [Expression.mapSlots,left.mapSlots_eq h.1,right.mapSlots_eq h.2]
    rfl
  | extractYear arg | substring arg =>
    rw [Expression.mapSlots,arg.mapSlots_eq h]
    rfl
  | case arms =>
    rw [Expression.mapSlots,arms.mapSlots_eq h]
    rfl

theorem CaseArms.mapSlots_eq (arms : CaseArms) (h : ∀ s ∈ arms.slots, f s = .ok (g s)) :
    arms.mapSlots f = .ok (arms.replace g) := by
  cases arms with
  | missing => rfl
  | orElse result =>
    rw [CaseArms.mapSlots,result.mapSlots_eq h]
    rfl
  | «when» cond result rest =>
    rw [CaseArms.slots,forall_mem_append,forall_mem_append] at h
    rw [CaseArms.mapSlots,cond.mapSlots_eq h.1.1,result.mapSlots_eq h.1.2,rest.mapSlots_eq h.2]
    rfl

theorem Predicate.mapSlots_eq (p : Predicate) (h : ∀ s ∈ p.slots, f s = .ok (g s)) :
    p.mapSlots f = .ok (p.replace g) := by
  cases p with
  | compare op left right | and left right | or left right =>
    rw [Predicate.slots,forall_mem_append] at h
    rw [Predicate.mapSlots,left.mapSlots_eq h.1,right.mapSlots_eq h.2]
    rfl
  | not p | like p | isNull p | inSubquery p =>
    rw [Predicate.mapSlots,p.mapSlots_eq h]
    rfl
  | existsSubquery | correlatedExists => rfl

end

private theorem slots_replace (s : Slot) : (s.replace g).slots = [s].filter (fun s => (g s).isNone) := by
  unfold Slot.replace
  cases hg : g s with
  | none =>
    cases s <;> simp [Slot.expr,Expression.slots,hg]
  | some v => simp [Expression.slots,hg]

mutual

theorem Expression.slots_replace (e : Expression) : (e.replace g).slots = e.slots.filter (fun s => (g s).isNone) := by
  cases e with
  | literal | column | correlatedScalar => rfl
  | parameter | subqueryResult | outerRef => exact slots_replace _
  | binaryOp op left right =>
    simp [Expression.replace,Expression.slots,filter_append,left.slots_replace,right.slots_replace]
  | extractYear arg | substring arg | case arg => exact arg.slots_replace

theorem CaseArms.slots_replace (arms : CaseArms) :
    (arms.replace g).slots = arms.slots.filter (fun s => (g s).isNone) := by
  cases arms with
  | missing => rfl
  | orElse result => exact result.slots_replace
  | «when» cond result rest =>
    simp [CaseArms.replace,CaseArms.slots,filter_append,cond.slots_replace,result.slots_replace,
      rest.slots_replace]

theorem Predicate.slots_replace (p : Predicate) : (p.replace g).slots = p.slots.filter (fun s => (g s).isNone) := by
  cases p with
  | compare op left right | and left right | or left right =>
    simp [Predicate.replace,Predicate.slots,filter_append,left.slots_replace,right.slots_replace]
  | not p | like p | isNull p | inSubquery p => exact p.slots_replace
  | existsSubquery | correlatedExists => rfl

end

mutual

theorem Expression.replace_self (e : Expression) (h : ∀ s ∈ e.slots, g s = none) : e.replace g = e := by
  cases e with
  | literal | column | correlatedScalar => rfl
  | parameter | subqueryResult | outerRef =>
    rw [Expression.replace,Slot.replace,h _ mem_cons_self]
    rfl
  | binaryOp op left right =>
    rw [Expression.slots,forall_mem_append] at h
    rw [Expression.replace,left.replace_self h.1,right.replace_self h.2]
  | extractYear arg | substring arg | case arg => rw [Expression.replace,arg.replace_self h]

theorem CaseArms.replace_self (arms : CaseArms) (h : ∀ s ∈ arms.slots, g s = none) : arms.replace g = arms := by
  cases arms with
  | missing => rfl
  | orElse result => rw [CaseArms.replace,result.replace_self h]
  | «when» cond result rest =>
    rw [CaseArms.slots,forall_mem_append,forall_mem_append] at h
    rw [CaseArms.replace,cond.replace_self h.1.1,result.replace_self h.1.2,rest.replace_self h.2]

theorem Predicate.replace_self (p : Predicate) (h : ∀ s ∈ p.slots, g s = none) : p.replace g = p := by
  cases p with
  | compare op left right | and left right | or left right =>
    rw [Predicate.slots,forall_mem_append] at h
    rw [Predicate.replace,left.replace_self h.1,right.replace_self h.2]
  | not p | like p | isNull p | inSubquery p => rw [Predicate.replace,p.replace_self h]
  | existsSubquery | correlatedExists => rfl

end

variable {env env' : Slots}

private theorem compiles_replace {s : Slot} (h : (g s).or (env'.get s) = env.get s) :
    (s.replace g).compiles env' = s.expr.compiles env := by
  unfold Slot.replace
  cases hg : g s with
  | none =>
    rw [hg,none_or] at h
    cases s <;> simp [Slot.expr,Expression.compiles,h]
  | some v =>
    rw [hg,some_or] at h
    cases s <;> simp [Slot.expr,Expression.compiles,← h,isSome_some]

private theorem eval_replace {s : Slot} (h : (g s).or (env'.get s) = env.get s) (row : Row) :
    (s.replace g).eval env' row = s.expr.eval env row := by
  unfold Slot.replace
  cases hg : g s with
  | none =>
    rw [hg,none_or] at h
    cases s <;> simp [Slot.expr,Expression.eval,h]
  | some v =>
    rw [hg,some_or] at h
    cases s <;> simp [Slot.expr,Expression.eval,← h]

private theorem operandCompiles_replace {e : Expression} (h : (e.replace g).compiles env' = e.compiles env)
    (evaluators : Nat) : (e.replace g).operandCompiles env' evaluators = e.operandCompiles env evaluators := by
  cases e with
  | correlatedScalar => rfl
  | parameter i | subqueryResult i | outerRef i =>
    have hplain (s : Slot) : (s.replace g).operandCompiles env' evaluators = (s.replace g).compiles env' := by
      unfold Slot.replace
      cases g s with
      | none => cases s <;> rfl
      | some v => rfl
    exact (hplain _).trans h
  | literal | column | binaryOp | extractYear | case | substring => exact h

private theorem operand_replace {e : Expression} (h : ∀ row, (e.replace g).eval env' row = e.eval env row)
    (evaluators : List RowEvaluator) (row : Row) :
    (e.replace g).operand env' evaluators row = e.operand env evaluators row := by
  have hmap := congrArg (Option.map (fun v => (⟨v,none⟩ : Operand))) (h row)
  cases e with
  | correlatedScalar => rfl
  | parameter i | subqueryResult i | outerRef i =>
    have hplain (s : Slot) : (s.replace g).operand env' evaluators row =
        ((s.replace g).eval env' row).map (fun v => ⟨v,none⟩) := by
      unfold Slot.replace
      cases g s with
      | none => cases s <;> rfl
      | some v => rfl
    exact (hplain _).trans hmap
  | literal | column | binaryOp | extractYear | case | substring => exact hmap

mutual

/-- An expression compiles after a substitution when it did with the values at hand. -/
theorem Expression.compiles_replace (e : Expression) (h : ∀ s ∈ e.slots, (g s).or (env'.get s) = env.get s) :
    (e.replace g).compiles env' = e.compiles env := by
  cases e with
  | literal | column | correlatedScalar => rfl
  | parameter | subqueryResult | outerRef => exact compiles_replace (h _ mem_cons_self)
  | binaryOp op left right =>
    rw [Expression.slots,forall_mem_append] at h
    simp [Expression.replace,Expression.compiles,left.compiles_replace h.1,right.compiles_replace h.2]
  | extractYear arg | substring arg | case arg => exact arg.compiles_replace h

theorem CaseArms.compiles_replace (arms : CaseArms) (h : ∀ s ∈ arms.slots, (g s).or (env'.get s) = env.get s) :
    (arms.replace g).compiles env' = arms.compiles env := by
  cases arms with
  | missing => rfl
  | orElse result => exact result.compiles_replace h
  | «when» cond result rest =>
    rw [CaseArms.slots,forall_mem_append,forall_mem_append] at h
    simp [CaseArms.replace,CaseArms.compiles,cond.compiles_replace h.1.1,result.compiles_replace h.1.2,
      rest.compiles_replace h.2]

theorem Predicate.compiles_replace (p : Predicate) (h : ∀ s ∈ p.slots, (g s).or (env'.get s) = env.get s)
    (sets evaluators : Nat) : (p.replace g).compiles env' sets evaluators = p.compiles env sets evaluators := by
  cases p with
  | compare op left right =>
    rw [Predicate.slots,forall_mem_append] at h
    rw [Predicate.replace,Predicate.compiles_compare,Predicate.compiles_compare,
      operandCompiles_replace (left.compiles_replace h.1),operandCompiles_replace (right.compiles_replace h.2)]
  | and a b | or a b =>
    rw [Predicate.slots,forall_mem_append] at h
    simp [Predicate.replace,Predicate.compiles,a.compiles_replace h.1,b.compiles_replace h.2]
  | not p => exact p.compiles_replace h sets evaluators
  | like e | isNull e => exact e.compiles_replace h
  | inSubquery e => simp only [Predicate.replace,Predicate.compiles,e.compiles_replace h]
  | existsSubquery | correlatedExists => rfl

end

mutual

/-- After a substitution an expression is worth what it was worth with the values at hand. -/
theorem Expression.eval_replace (e : Expression) (h : ∀ s ∈ e.slots, (g s).or (env'.get s) = env.get s) (row : Row) :
    (e.replace g).eval env' row = e.eval env row := by
  cases e with
  | literal | column | correlatedScalar => rfl
  | parameter | subqueryResult | outerRef => exact eval_replace (h _ mem_cons_self) row
  | binaryOp op left right =>
    rw [Expression.slots,forall_mem_append] at h
    simp [Expression.replace,Expression.eval,left.eval_replace h.1,right.eval_replace h.2]
  | extractYear arg | substring arg => simp only [Expression.replace,Expression.eval,arg.eval_replace h]
  | case arms => exact arms.eval_replace h row

theorem CaseArms.eval_replace (arms : CaseArms) (h : ∀ s ∈ arms.slots, (g s).or (env'.get s) = env.get s) (row : Row) :
    (arms.replace g).eval env' row = arms.eval env row := by
  cases arms with
  | missing => rfl
  | orElse result => exact result.eval_replace h row
  | «when» cond result rest =>
    rw [CaseArms.slots,forall_mem_append,forall_mem_append] at h
    simp [CaseArms.replace,CaseArms.eval,cond.eval_replace h.1.1,result.eval_replace h.1.2,rest.eval_replace h.2]

theorem Predicate.eval_replace (p : Predicate) (h : ∀ s ∈ p.slots, (g s).or (env'.get s) = env.get s)
    (sets : List InSubquerySet) (evaluators : List RowEvaluator) (row : Row) :
    (p.replace g).eval env' sets evaluators row = p.eval env sets evaluators row := by
  cases p with
  | compare op left right =>
    rw [Predicate.slots,forall_mem_append] at h
    rw [Predicate.replace,Predicate.eval_compare,Predicate.eval_compare,operand_replace (left.eval_replace h.1),
      operand_replace (right.eval_replace h.2)]
  | and a b | or a b =>
    rw [Predicate.slots,forall_mem_append] at h
    simp [Predicate.replace,Predicate.eval,a.eval_replace h.1,b.eval_replace h.2]
  | not p => simp only [Predicate.replace,Predicate.eval,p.eval_replace h]
  | like e | isNull e | inSubquery e => simp only [Predicate.replace,Predicate.eval,e.eval_replace h]
  | existsSubquery | correlatedExists => rfl

end

-- one pass fills the slots that have a value in the given part of the environment
private theorem filled_eval (f : Filling) (g : Slot → Option Value) (env' : Slots) (p : Predicate)
    (h : ∀ s ∈ p.slots, (env.get s).isSome = true) (hf : ∀ s v, env.get s = some v → f s = .ok (g s))
    (hg : ∀ s, (g s).or (env'.get s) = env.get s) :
    ∃ q, p.mapSlots f = .ok q ∧ (∀ s ∈ q.slots, (env'.get s).isSome = true) ∧
      ∀ sets ev row, q.eval env' sets ev row = p.eval env sets ev row := by
  refine ⟨p.replace g,p.mapSlots_eq fun s hs => ?_,fun s hs => ?_,p.eval_replace fun s _ => hg s⟩
  · obtain ⟨v,hv⟩ := isSome_iff_exists.mp (h s hs)
    exact hf s v hv
  · rw [p.slots_replace,mem_filter,isNone_iff_eq_none] at hs
    have hsome := h s hs.1
    rwa [← hg s,hs.2,none_or] at hsome

/-- A condition whose slots have values stands, after the three substitutions, for itself with these values, and has no
slots left when it is compiled. -/
theorem Predicate.substituted_eval (p : Predicate) (env : Slots) (h : ∀ s ∈ p.slots, (env.get s).isSome = true) :
    ∃ p₁ p₂ q, p.substituteParams env.params = .ok p₁ ∧ p₁.substituteSubqueryResults env.scalars = .ok p₂ ∧
      p₂.substituteOuterRefs env.outer = .ok q ∧ q.slots = [] ∧
      ∀ sets ev row, q.eval .empty sets ev row = p.eval env sets ev row := by
  obtain ⟨params,scalars,outer⟩ := env
  obtain ⟨p₁,h₁,hs₁,he₁⟩ := filled_eval (bindParams params) (Slots.get ⟨params,[],[]⟩) ⟨[],scalars,outer⟩ p h
    (by rintro (i | i | i) v hv <;> first | rfl | simp only [bindParams,show params[i]? = some v from hv,Slots.get])
    (by rintro (i | i | i) <;> first | rfl | exact Option.or_none)
  obtain ⟨p₂,h₂,hs₂,he₂⟩ := filled_eval (bindScalars scalars) (Slots.get ⟨[],scalars,[]⟩) ⟨[],[],outer⟩ p₁ hs₁
    (by rintro (i | i | i) v hv <;> first | rfl | simp only [bindScalars,show scalars[i]? = some v from hv,Slots.get])
    (by rintro (i | i | i) <;> first | rfl | exact Option.or_none)
  obtain ⟨q,hq,hs,he⟩ := filled_eval (bindOuter outer) (Slots.get ⟨[],[],outer⟩) .empty p₂ hs₂
    (by rintro (i | i | i) v hv <;> first | rfl | simp only [bindOuter,show outer[i]? = some v from hv,Slots.get])
    (by rintro (i | i | i) <;> first | rfl | exact Option.or_none)
  refine ⟨p₁,p₂,q,h₁,h₂,hq,eq_nil_iff_forall_not_mem.mpr fun s hmem => ?_,fun sets ev row => ?_⟩
  · have hsome := hs s hmem
    cases s <;> cases hsome
  · rw [he,he₂,he₁]

theorem Predicate.substituted_eval_comparison :
    let p : Predicate := .compare .lt (.parameter 0) (.subqueryResult 0)
    ∃ p₁ p₂ q, p.substituteParams [.int64 1] = .ok p₁ ∧ p₁.substituteSubqueryResults [.int64 2] = .ok p₂ ∧
      p₂.substituteOuterRefs [] = .ok q ∧ q.slots = [] ∧
      ∀ sets ev row, q.eval .empty sets ev row = p.eval ⟨[.int64 1],[.int64 2],[]⟩ sets ev row :=
  Predicate.substituted_eval _ ⟨[.int64 1],[.int64 2],[]⟩ (by decide)

end Outcome

end SubstitutionSpec

end InterchangeDb
