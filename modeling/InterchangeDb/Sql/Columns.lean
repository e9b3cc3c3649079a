import InterchangeDb.Sql.Expr

/-! The columns that expressions refer to, and what the planners do with them. -/
namespace InterchangeDb
open List Option

section References

mutual

/-- Of a correlated subquery only the outer columns are of this row. -/
def columnsInExpr : Expression → List Nat
  | .column i => [i]
  | .literal _ | .parameter _ | .subqueryResult _ | .outerRef _ => []
  | .correlatedScalar _ outerCols => outerCols
  | .binaryOp _ left right => columnsInExpr left ++ columnsInExpr right
  | .extractYear arg => columnsInExpr arg
  | .substring input _ _ => columnsInExpr input
  | .case arms => columnsInArms arms

def columnsInArms : CaseArms → List Nat
  | .missing => []
  | .orElse result => columnsInExpr result
  | .«when» cond result rest => referencedColumns cond ++ columnsInExpr result ++ columnsInArms rest

def referencedColumns : Predicate → List Nat
  | .compare _ left right => columnsInExpr left ++ columnsInExpr right
  | .and a b | .or a b => referencedColumns a ++ referencedColumns b
  | .not p => referencedColumns p
  | .like expr _ | .isNull expr | .inSubquery expr _ _ => columnsInExpr expr
  | .existsSubquery _ _ => []
  | .correlatedExists _ outerCols _ => outerCols

end

end References

section Moving

mutual

/-- Every column by its new number; none for a panic. -/
def Expression.mapColumns (f : Nat → Option Nat) : Expression → Option Expression
  | .column i => (f i).map .column
  | .correlatedScalar subquery outerCols => (outerCols.mapM f).map (.correlatedScalar subquery)
  | .binaryOp op left right => do
    let left ← left.mapColumns f
    let right ← right.mapColumns f
    return .binaryOp op left right
  | .extractYear arg => (arg.mapColumns f).map .extractYear
  | .substring input start length => (input.mapColumns f).map (fun input => .substring input start length)
  | .case arms => (arms.mapColumns f).map .case
  | .literal v => some (.literal v)
  | .parameter i => some (.parameter i)
  | .subqueryResult slot => some (.subqueryResult slot)
  | .outerRef k => some (.outerRef k)

def CaseArms.mapColumns (f : Nat → Option Nat) : CaseArms → Option CaseArms
  | .missing => some .missing
  | .orElse result => (result.mapColumns f).map .orElse
  | .«when» cond result rest => do
    let cond ← cond.mapColumns f
    let result ← result.mapColumns f
    let rest ← rest.mapColumns f
    return .«when» cond result rest

def Predicate.mapColumns (f : Nat → Option Nat) : Predicate → Option Predicate
  | .compare op left right => do
    let left ← left.mapColumns f
    let right ← right.mapColumns f
    return .compare op left right
  | .and a b => do
    let a ← a.mapColumns f
    let b ← b.mapColumns f
    return .and a b
  | .or a b => do
    let a ← a.mapColumns f
    let b ← b.mapColumns f
    return .or a b
  | .not p => (p.mapColumns f).map .not
  | .like expr pattern => (expr.mapColumns f).map (fun expr => .like expr pattern)
  | .isNull expr => (expr.mapColumns f).map .isNull
  | .inSubquery expr subquery negated => (expr.mapColumns f).map (fun expr => .inSubquery expr subquery negated)
  | .existsSubquery subquery negated => some (.existsSubquery subquery negated)
  | .correlatedExists subquery outerCols negated =>
    (outerCols.mapM f).map (fun outerCols => .correlatedExists subquery outerCols negated)

end

/-- A column shifted below zero is a panic. -/
def shiftColumn (delta : Int) (i : Nat) : Option Nat := if 0 ≤ (i : Int) + delta then some ((i : Int) + delta).toNat else none

def shiftPredicate (p : Predicate) (delta : Int) : Option Predicate := p.mapColumns (shiftColumn delta)

end Moving

section Moved
variable {f : Nat → Option Nat} {row row' : Row}

/-- A column has a new number, under which the other row has its value. -/
def Moves (f : Nat → Option Nat) (row row' : Row) (c : Nat) : Prop := ∃ c', f c = some c' ∧ row'[c']? = row[c]?

private theorem outerValues_moved {cols : List Nat} (h : ∀ c ∈ cols, Moves f row row' c) :
    ∃ cols', cols.mapM f = some cols' ∧ outerValues cols' row' = outerValues cols row := by
  induction cols with
  | nil => exact ⟨[],rfl,rfl⟩
  | cons c cols ih =>
    obtain ⟨⟨c',hc,hrow⟩,hcols⟩ := forall_mem_cons.mp h
    obtain ⟨cols',hmap,hvalues⟩ := ih hcols
    unfold outerValues at hvalues ⊢
    exact ⟨c'::cols',by simp [hc,hmap],by rw [mapM_cons,mapM_cons,hrow,hvalues]⟩

private theorem and_map {A B : Type} {g : A → B} {x y : Option A} (h : x = y) : x = y ∧ x.map g = y.map g := ⟨h,congrArg _ h⟩

mutual

private theorem Expression.eval_moved (e : Expression) (h : ∀ c ∈ columnsInExpr e, Moves f row row' c) :
    ∃ e', e.mapColumns f = some e' ∧ ∀ env evaluators, e'.eval env row' = e.eval env row ∧
      e'.operand env evaluators row' = e.operand env evaluators row := by
  cases e with
  | literal | parameter | subqueryResult | outerRef => exact ⟨_,rfl,fun _ _ => ⟨rfl,rfl⟩⟩
  | column i =>
    obtain ⟨c,hc,hrow⟩ := h i mem_cons_self
    exact ⟨.column c,congrArg (Option.map _) hc,fun _ _ => and_map hrow⟩
  | correlatedScalar q cols =>
    obtain ⟨cols',hmap,hvalues⟩ := outerValues_moved h
    refine ⟨_,congrArg (Option.map _) hmap,fun _ _ => ⟨rfl,?_⟩⟩
    simp only [Expression.operand,evalCorrelatedScalar,hvalues,columnsInExpr]
  | binaryOp op left right =>
    rw [columnsInExpr,forall_mem_append] at h
    obtain ⟨l,hl,hle⟩ := left.eval_moved h.1
    obtain ⟨r,hr,hre⟩ := right.eval_moved h.2
    refine ⟨.binaryOp op l r,by rw [Expression.mapColumns,hl,hr]; rfl,fun env ev => and_map ?_⟩
    rw [Expression.eval,(hle env ev).1,(hre env ev).1,Expression.eval]
  | extractYear arg | substring arg =>
    obtain ⟨a,ha,hae⟩ := arg.eval_moved h
    exact ⟨_,congrArg (Option.map _) ha,fun env ev => and_map (congrArg (Option.bind · _) (hae env ev).1)⟩
  | case arms =>
    obtain ⟨a,ha,hae⟩ := arms.eval_moved h
    exact ⟨_,congrArg (Option.map _) ha,fun env _ => and_map (hae env)⟩

private theorem CaseArms.eval_moved (arms : CaseArms) (h : ∀ c ∈ columnsInArms arms, Moves f row row' c) :
    ∃ arms', arms.mapColumns f = some arms' ∧ ∀ env, arms'.eval env row' = arms.eval env row := by
  cases arms with
  | missing => exact ⟨_,rfl,fun _ => rfl⟩
  | orElse result =>
    obtain ⟨r,hr,hre⟩ := result.eval_moved h
    exact ⟨_,congrArg (Option.map _) hr,fun env => (hre env []).1⟩
  | «when» cond result rest =>
    rw [columnsInArms,forall_mem_append,forall_mem_append] at h
    obtain ⟨c,hc,hce⟩ := cond.eval_moved h.1.1
    obtain ⟨r,hr,hre⟩ := result.eval_moved h.1.2
    obtain ⟨a,ha,hae⟩ := rest.eval_moved h.2
    refine ⟨.when c r a,by rw [CaseArms.mapColumns,hc,hr,ha]; rfl,fun env => ?_⟩
    rw [CaseArms.eval,hce,(hre env []).1,hae,CaseArms.eval]

private theorem Predicate.eval_moved (p : Predicate) (h : ∀ c ∈ referencedColumns p, Moves f row row' c) :
    ∃ p', p.mapColumns f = some p' ∧ ∀ env sets ev, p'.eval env sets ev row' = p.eval env sets ev row := by
  cases p with
  | compare op left right =>
    rw [referencedColumns,forall_mem_append] at h
    obtain ⟨l,hl,hle⟩ := left.eval_moved h.1
    obtain ⟨r,hr,hre⟩ := right.eval_moved h.2
    refine ⟨.compare op l r,by rw [Predicate.mapColumns,hl,hr]; rfl,fun env _ ev => ?_⟩
    rw [Predicate.eval_compare,(hle env ev).2,(hre env ev).2,Predicate.eval_compare]
  | and a b | or a b =>
    rw [referencedColumns,forall_mem_append] at h
    obtain ⟨a',ha,hae⟩ := a.eval_moved h.1
    obtain ⟨b',hb,hbe⟩ := b.eval_moved h.2
    refine ⟨_,by rw [Predicate.mapColumns,ha,hb]; rfl,fun env sets ev => ?_⟩
    rw [Predicate.eval,hae,hbe,Predicate.eval]
  | not p =>
    obtain ⟨p',hp,hpe⟩ := p.eval_moved h
    refine ⟨_,congrArg (Option.map _) hp,fun env sets ev => ?_⟩
    rw [Predicate.eval,hpe,Predicate.eval]
  | like e | isNull e | inSubquery e =>
    obtain ⟨e',he,hee⟩ := e.eval_moved h
    refine ⟨_,congrArg (Option.map _) he,fun env sets ev => ?_⟩
    rw [Predicate.eval,(hee env ev).1,Predicate.eval]
  | existsSubquery => exact ⟨_,rfl,fun _ _ _ => rfl⟩
  | correlatedExists q cols negated =>
    obtain ⟨cols',hmap,hvalues⟩ := outerValues_moved h
    refine ⟨_,congrArg (Option.map _) hmap,fun env sets ev => ?_⟩
    simp only [Predicate.eval,evalCorrelatedExists,hvalues,referencedColumns]

end

/-- A condition on the columns of one table, shifted back by the columns in front of it, gives on the row of the table
what it gives on the joined row. -/
theorem shiftPredicate_eval (p : Predicate) (front row back : Row)
    (h : ∀ c ∈ referencedColumns p, front.length ≤ c ∧ c < front.length + row.length) :
    ∃ p', shiftPredicate p (-front.length) = some p' ∧
      ∀ env sets ev, p'.eval env sets ev row = p.eval env sets ev (front ++ (row ++ back)) := by
  refine p.eval_moved fun c hc => ⟨c - front.length,?_,?_⟩
  · have := (h c hc).1
    rw [shiftColumn,if_pos (by omega)]
    exact congrArg some (by omega)
  · have := h c hc
    rw [getElem?_append_right this.1,getElem?_append_left (by omega)]

theorem shiftPredicate_eval_second : ∃ p', shiftPredicate (.compare .eq (.column 1) (.literal (.int64 5))) (-1) = some p' ∧
    ∀ env sets ev, p'.eval env sets ev [.int64 5] =
      Predicate.eval env sets ev (.compare .eq (.column 1) (.literal (.int64 5))) [.int64 3,.int64 5,.null] :=
  shiftPredicate_eval _ [.int64 3] [.int64 5] [.null] (by decide)

end Moved

section Conjuncts

/-- The conjuncts from left to right. -/
def flattenConjuncts : Predicate → List Predicate
  | .and a b => flattenConjuncts a ++ flattenConjuncts b
  | p => [p]

/-- One condition again, associated to the left. -/
def andAll : List Predicate → Option Predicate
  | [] => none
  | p::preds => some (preds.foldl .and p)

section Regrouping
variable (env : Slots) (sets : List InSubquerySet) (ev : List RowEvaluator) (row : Row)

private theorem kleeneAnd_assoc : ∀ a b c, kleeneAnd (kleeneAnd a b) c = kleeneAnd a (kleeneAnd b c) := by decide

private theorem kleeneAnd_eq_false : ∀ a b, kleeneAnd a b = some false ↔ a = some false ∨ b = some false := by decide

-- FALSE on the left hides what follows, and the first fault stays the first
private theorem eval_and_assoc (a b c : Predicate) :
    (Predicate.and (.and a b) c).eval env sets ev row = (Predicate.and a (.and b c)).eval env sets ev row := by
  simp only [Predicate.eval_and]
  cases a.eval env sets ev row with
  | none => rfl
  | some u =>
    by_cases hu : u.truth = some false
    · simp [hu]
    · cases b.eval env sets ev row with
      | none => simp [hu]
      | some v =>
        by_cases hv : v.truth = some false <;>
          simp [hu,hv,kleeneAnd_assoc,kleeneAnd_eq_false,Option.or_assoc,Option.bind_assoc]

private theorem foldl_and_eval (p q : Predicate) (preds : List Predicate) :
    (preds.foldl Predicate.and (.and p q)).eval env sets ev row = (Predicate.and p (preds.foldl .and q)).eval env sets ev row := by
  induction preds using reverseRecOn with
  | nil => rfl
  | append_singleton preds r ih =>
    rw [foldl_concat,foldl_concat,← eval_and_assoc,Predicate.eval_and,ih,← Predicate.eval_and]

end Regrouping

/-- A condition taken apart into its conjuncts and put together again has the same verdict, with the same fault. -/
theorem andAll_flattenConjuncts (p : Predicate) : ∃ q, andAll (flattenConjuncts p) = some q ∧
    ∀ env sets ev row, q.eval env sets ev row = p.eval env sets ev row := by
  fun_induction flattenConjuncts p with
  | case1 a b iha ihb =>
    obtain ⟨_,ha,hae⟩ := iha
    obtain ⟨_,hb,hbe⟩ := ihb
    cases hca : flattenConjuncts a with
    | nil => simp [hca,andAll] at ha
    | cons p ps =>
      cases hcb : flattenConjuncts b with
      | nil => simp [hcb,andAll] at hb
      | cons q qs =>
        rw [hca] at ha
        rw [hcb] at hb
        cases ha
        cases hb
        refine ⟨(ps ++ q::qs).foldl .and p,rfl,fun env sets ev row => ?_⟩
        rw [foldl_append,foldl_cons,foldl_and_eval,Predicate.eval_and,hae,hbe,← Predicate.eval_and]
  | case2 p => exact ⟨p,rfl,fun _ _ _ _ => rfl⟩

end Conjuncts

end InterchangeDb
