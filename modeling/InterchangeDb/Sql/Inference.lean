import InterchangeDb.Sql.LogicalPlan

/-! Static types of expressions: the value of an expression is null or of the type that is inferred. -/
namespace InterchangeDb
open Option

section Inference

private def decimalType (precision : Fin 256) (scale : Nat) : Option ColumnType :=
  if h : scale < 19 then some (.decimal precision ⟨scale,h⟩) else none

/-- Scales as the arithmetic of decimals makes them. -/
def decimalOpType (op : BinaryOp) (precision : Fin 256) (s1 s2 : Fin 19) : Option ColumnType :=
  match op with
  | .add | .sub => if s1 = s2 then some (.decimal precision s1) else none
  | .mul => decimalType precision (s1.val + s2.val)
  | .div => some (.decimal precision (max s1 s2))

def inferBinaryOpType (op : BinaryOp) : ColumnType → ColumnType → Option ColumnType
  | .int32, .int32 => some .int32
  | .int64, .int64 => some .int64
  | .decimal precision s1, .decimal _ s2 => decimalOpType op precision s1 s2
  | .int32, .decimal precision scale => decimalOpType op precision 0 scale
  | .int64, .decimal precision scale => decimalOpType op precision 0 scale
  | .decimal precision scale, .int32 => decimalOpType op precision scale 0
  | .decimal precision scale, .int64 => decimalOpType op precision scale 0
  | _, _ => none

/-- Decimals of one scale agree, whatever their precision. -/
def unifyCaseType : ColumnType → ColumnType → Option ColumnType
  | .decimal p1 s1, .decimal p2 s2 => if s1 = s2 then some (.decimal (max p1 p2) s1) else none
  | a, b => if a = b then some a else none

def Expression.isNullLiteral : Expression → Bool
  | .literal .null => true
  | _ => false

/-- The type of the results of a CASE with one more; a null has no type and is skipped. -/
def caseAccumulate (acc : Option ColumnType) (isNull : Bool) (result : Option ColumnType) : Option (Option ColumnType) :=
  if isNull then some acc
  else do
    let ty ← result
    match acc with
    | none => some (some ty)
    | some existing => (unifyCaseType existing ty).map some

mutual

/-- None for an expression whose type is not known before it runs. -/
def Expression.columnType (types : List ColumnType) : Expression → Option ColumnType
  | .literal v => v.typeOf
  | .column i => types[i]?
  | .parameter _ => none
  | .subqueryResult _ => none
  | .outerRef _ => none
  | .correlatedScalar _ _ => none
  | .binaryOp op left right => do
    let l ← left.columnType types
    let r ← right.columnType types
    inferBinaryOpType op l r
  | .extractYear arg =>
    match arg.columnType types with
    | some .date => some .int32
    | _ => none
  | .substring input _ length =>
    match input.columnType types with
    | some (.varchar _) => some (.varchar (Fin.ofNat 65536 (min length u16Max)))
    | some (.char _) => some (.varchar (Fin.ofNat 65536 (min length u16Max)))
    | _ => none
  | .case arms => (arms.columnType types none).join

/-- The type of the results after those seen so far. -/
def CaseArms.columnType (types : List ColumnType) : CaseArms → Option ColumnType → Option (Option ColumnType)
  | .missing, acc => some acc
  | .orElse result, acc => caseAccumulate acc result.isNullLiteral (result.columnType types)
  | .when _ result rest, acc => do
    let acc ← caseAccumulate acc result.isNullLiteral (result.columnType types)
    rest.columnType types acc

end

end Inference

section Display

private def padded (width : Nat) (n : Int) : String :=
  let sign := if n < 0 then "-" else ""
  let digits := toString n.natAbs
  sign ++ String.ofList (List.replicate (width - sign.length - digits.length) '0') ++ digits

def BinaryOp.symbol : BinaryOp → String
  | .add => "+"
  | .sub => "-"
  | .mul => "*"
  | .div => "/"

def CaseArms.branchCount : CaseArms → Nat
  | .missing => 0
  | .orElse _ => 0
  | .when _ _ rest => rest.branchCount + 1

def CaseArms.hasElse : CaseArms → Bool
  | .missing => false
  | .orElse _ => true
  | .when _ _ rest => rest.hasElse

/-- The text of an expression in a message; a date outside the calendar has none. -/
def Expression.display : Expression → Option String
  | .column i => some s!"c{i}"
  | .literal (.int32 n) => some s!"{n.toInt}"
  | .literal (.int64 n) => some s!"{n.toInt}"
  | .literal .null => some "NULL"
  | .literal (.date days) => (ymdFromDays days).map (fun date =>
      "DATE '" ++ padded 4 date.1 ++ "-" ++ padded 2 date.2.1 ++ "-" ++ padded 2 date.2.2 ++ "'")
  | .literal v => some v.debug
  | .parameter i => some s!"${i + 1}"
  | .subqueryResult slot => some s!"subq{slot}"
  | .outerRef k => some s!"outer{k}"
  | .correlatedScalar subquery _ => some s!"correlated{subquery}"
  | .binaryOp op left right => do
    let l ← left.display
    let r ← right.display
    some s!"({l} {op.symbol} {r})"
  | .extractYear arg => do
    let a ← arg.display
    some s!"EXTRACT(YEAR FROM {a})"
  | .substring input start length => do
    let i ← input.display
    some s!"SUBSTRING({i} FROM {start} FOR {length})"
  | .case arms => some ("CASE(" ++ toString arms.branchCount ++ " branches" ++ (if arms.hasElse then ", else" else "") ++ ")")

end Display

section Soundness
open KeyEnc (Fits)
variable {v w : Value} {ty : ColumnType} {op : BinaryOp} {precision : Fin 256}

theorem Value.matchesType_null (ty : ColumnType) : Value.null.matchesType ty = true := by
  cases ty <;> rfl

theorem Value.matchesType_of_typeOf (h : v.typeOf = some ty) : v.matchesType ty = true := by
  cases v with
  | null => cases h
  | decimal d =>
    cases h
    exact decide_eq_true rfl
  | int32 | int64 | varchar | char | bytes | timestamp | boolean | date =>
    cases h
    rfl

private theorem applyDecimalOp_matches {a b : Decimal}
    (h : decimalOpType op precision a.scale b.scale = some ty) : (applyDecimalOp op a b).matchesType ty = true := by
  unfold applyDecimalOp
  dsimp only
  split
  case h_2 => exact Value.matchesType_null ty
  case h_1 d hd =>
    cases op with
    | add =>
      obtain ⟨hs,hscale⟩ := Decimal.add_scale hd
      rw [decimalOpType,if_pos hs] at h
      cases h
      exact decide_eq_true hscale
    | sub =>
      obtain ⟨hs,hscale⟩ := Decimal.sub_scale hd
      rw [decimalOpType,if_pos hs] at h
      cases h
      exact decide_eq_true hscale
    | mul =>
      have hscale := Decimal.mul_scale hd
      rw [decimalOpType,decimalType,dif_pos (hscale ▸ d.scale.isLt)] at h
      cases h
      exact decide_eq_true (Fin.ext hscale)
    | div =>
      cases h
      exact decide_eq_true (Decimal.div_scale hd)

private theorem int_result {w : Nat} {a b : Int} {wrap : BitVec w → Value} (hwrap : ∀ n, (wrap n).matchesType ty = true) :
    ((((intOp op a b).bind (checkedInt w)).map wrap).getD .null).matchesType ty = true := by
  cases (intOp op a b).bind (checkedInt w) with
  | none => exact Value.matchesType_null ty
  | some n => exact hwrap n

theorem evalBinaryOp_matches {l r : Value} {tl tr : ColumnType} (hl : l.matchesType tl = true)
    (hr : r.matchesType tr = true) (h : inferBinaryOpType op tl tr = some ty) :
    (evalBinaryOp op l r).matchesType ty = true := by
  by_cases hln : l = .null
  · subst hln
    have hnull : evalBinaryOp op .null r = .null := by cases r <;> rfl
    rw [hnull]
    exact Value.matchesType_null ty
  by_cases hrn : r = .null
  · subst hrn
    have hnull : evalBinaryOp op l .null = .null := by cases l <;> rfl
    rw [hnull]
    exact Value.matchesType_null ty
  unfold inferBinaryOpType at h
  split at h
  · obtain ⟨a,rfl⟩ := Value.int32_of_matches hln hl
    obtain ⟨b,rfl⟩ := Value.int32_of_matches hrn hr
    cases h
    exact int_result (fun n => rfl)
  · obtain ⟨a,rfl⟩ := Value.int64_of_matches hln hl
    obtain ⟨b,rfl⟩ := Value.int64_of_matches hrn hr
    cases h
    exact int_result (fun n => rfl)
  · obtain ⟨a,rfl⟩ := Value.decimal_of_matches hln hl
    obtain ⟨b,rfl⟩ := Value.decimal_of_matches hrn hr
    exact applyDecimalOp_matches h
  · obtain ⟨a,rfl⟩ := Value.int32_of_matches hln hl
    obtain ⟨b,rfl⟩ := Value.decimal_of_matches hrn hr
    exact applyDecimalOp_matches h
  · obtain ⟨a,rfl⟩ := Value.int64_of_matches hln hl
    obtain ⟨b,rfl⟩ := Value.decimal_of_matches hrn hr
    exact applyDecimalOp_matches h
  · obtain ⟨a,rfl⟩ := Value.decimal_of_matches hln hl
    obtain ⟨b,rfl⟩ := Value.int32_of_matches hrn hr
    exact applyDecimalOp_matches h
  · obtain ⟨a,rfl⟩ := Value.decimal_of_matches hln hl
    obtain ⟨b,rfl⟩ := Value.int64_of_matches hrn hr
    exact applyDecimalOp_matches h
  · cases h

/-- Types with the same values; precisions and lengths do not tell values apart. -/
def ColumnType.Alike (a b : ColumnType) : Prop := ∀ v : Value, v.matchesType a = v.matchesType b

private theorem unifyCaseType_alike {a b c : ColumnType} (h : unifyCaseType a b = some c) : a.Alike c ∧ b.Alike c := by
  unfold unifyCaseType at h
  split at h
  · split_ifs at h with hs
    cases h
    subst hs
    exact ⟨fun v => by cases v <;> rfl,fun v => by cases v <;> rfl⟩
  · split_ifs at h with hs
    cases h
    exact ⟨fun v => rfl,fun v => hs ▸ rfl⟩

private theorem evalExtractYear_matches (h : evalExtractYear v = some w) : w.matchesType .int32 = true := by
  cases v with
  | date days =>
    obtain ⟨date,-,rfl⟩ := map_eq_some_iff.mp h
    rfl
  | int32 | int64 | varchar | char | bytes | decimal | timestamp | boolean | null =>
    cases h
    rfl

private theorem evalSubstring_matches {start length : Nat} (h : evalSubstring start length v = some w)
    (n : Fin 65536) : w.matchesType (.varchar n) = true := by
  cases v with
  | varchar s | char s =>
    simp only [evalSubstring] at h
    split_ifs at h
    cases h
    rfl
  | int32 | int64 | bytes | decimal | timestamp | boolean | null | date =>
    cases h
    rfl

private theorem caseAccumulate_cases {acc acc' result : Option ColumnType} {isNull : Bool}
    (h : caseAccumulate acc isNull result = some acc') : isNull = true ∧ acc' = acc ∨
      ∃ ty c, result = some ty ∧ acc' = some c ∧ ty.Alike c ∧ ∀ existing, acc = some existing → existing.Alike c := by
  unfold caseAccumulate at h
  split_ifs at h with hn
  · exact .inl ⟨hn,(some.inj h).symm⟩
  · obtain ⟨ty,hty,h⟩ := bind_eq_some_iff.mp h
    cases acc with
    | none =>
      cases h
      exact .inr ⟨ty,ty,hty,rfl,fun _ => rfl,nofun⟩
    | some existing =>
      obtain ⟨c,hc,rfl⟩ := map_eq_some_iff.mp h
      obtain ⟨he,ht⟩ := unifyCaseType_alike hc
      exact .inr ⟨ty,c,hty,rfl,ht,fun e h => some.inj h ▸ he⟩

private theorem caseArms_columnType_alike {arms : CaseArms} {types : List ColumnType} {acc acc' : Option ColumnType}
    (h : arms.columnType types acc = some acc') : ∀ existing, acc = some existing → ∃ c, acc' = some c ∧ existing.Alike c := by
  have hone : ∀ {isNull result acc acc'}, caseAccumulate acc isNull result = some acc' →
      ∀ existing, acc = some existing → ∃ c, acc' = some c ∧ existing.Alike c := by
    intro isNull result acc acc' h existing hex
    rcases caseAccumulate_cases h with ⟨-,rfl⟩ | ⟨ty,c,-,rfl,-,hacc⟩
    · exact ⟨existing,hex,fun _ => rfl⟩
    · exact ⟨c,rfl,hacc existing hex⟩
  match arms, h with
  | .missing, h =>
    cases h
    exact fun existing hex => ⟨existing,hex,fun _ => rfl⟩
  | .orElse result, h => exact hone h
  | .when cond result rest, h =>
    obtain ⟨acc₁,hacc₁,hrest⟩ := bind_eq_some_iff.mp h
    intro existing hex
    obtain ⟨c,rfl,hc⟩ := hone hacc₁ existing hex
    obtain ⟨c',hc',hcc⟩ := caseArms_columnType_alike hrest c rfl
    exact ⟨c',hc',fun v => (hc v).trans (hcc v)⟩

private theorem eval_isNullLiteral {e : Expression} (h : e.isNullLiteral = true) {env : Slots} {row : Row}
    (hv : e.eval env row = some v) : v = .null := by
  cases e with
  | literal w =>
    cases w with
    | null => exact (some.inj hv).symm
    | int32 | int64 | varchar | char | bytes | decimal | timestamp | boolean | date => cases h
  | column | parameter | binaryOp | extractYear | case | subqueryResult | outerRef | correlatedScalar | substring => cases h

mutual
variable {types : List ColumnType}

/-- A value has the type that is inferred for its expression. -/
theorem Expression.eval_matches (e : Expression) {ty : ColumnType} {env : Slots} {row : Row}
    {v : Value} (hty : e.columnType types = some ty) (hrow : Fits row types) (hv : e.eval env row = some v) :
    v.matchesType ty = true := by
  cases e with
  | literal w =>
    cases hv
    exact Value.matchesType_of_typeOf hty
  | column i =>
    obtain ⟨hi,rfl⟩ := getElem?_eq_some_iff.mp hv
    obtain ⟨hi',rfl⟩ := getElem?_eq_some_iff.mp hty
    exact hrow.get hi hi'
  | parameter | subqueryResult | outerRef | correlatedScalar => cases hty
  | binaryOp op left right =>
    obtain ⟨tl,htl,hty⟩ := bind_eq_some_iff.mp hty
    obtain ⟨tr,htr,hty⟩ := bind_eq_some_iff.mp hty
    obtain ⟨l,hl,hv⟩ := bind_eq_some_iff.mp hv
    obtain ⟨r,hr,hv⟩ := bind_eq_some_iff.mp hv
    cases hv
    exact evalBinaryOp_matches (left.eval_matches htl hrow hl) (right.eval_matches htr hrow hr) hty
  | extractYear arg =>
    obtain ⟨w,-,hv⟩ := bind_eq_some_iff.mp hv
    simp only [Expression.columnType] at hty
    split at hty
    · cases hty
      exact evalExtractYear_matches hv
    · cases hty
  | substring input start length =>
    obtain ⟨w,-,hv⟩ := bind_eq_some_iff.mp hv
    simp only [Expression.columnType] at hty
    split at hty
    · cases hty
      exact evalSubstring_matches hv _
    · cases hty
      exact evalSubstring_matches hv _
    · cases hty
  | case arms => exact arms.eval_matches (join_eq_some_iff.mp hty) hrow hv ty rfl

theorem CaseArms.eval_matches (arms : CaseArms) {acc acc' : Option ColumnType} {env : Slots}
    {row : Row} {v : Value} (hty : arms.columnType types acc = some acc') (hrow : Fits row types)
    (hv : arms.eval env row = some v) : ∀ ty, acc' = some ty → v.matchesType ty = true := by
  cases arms with
  | missing =>
    cases hty
    cases hv
    exact fun ty _ => Value.matchesType_null ty
  | orElse result =>
    rcases caseAccumulate_cases hty with ⟨hnull,rfl⟩ | ⟨ty,c,hresult,rfl,hc,-⟩
    · exact fun ty _ => eval_isNullLiteral hnull hv ▸ Value.matchesType_null ty
    · intro ty' h
      cases h
      rw [← hc v]
      exact result.eval_matches hresult hrow hv
  | «when» cond result rest =>
    obtain ⟨acc₁,hacc₁,hrest⟩ := bind_eq_some_iff.mp hty
    obtain ⟨verdict,-,hv⟩ := bind_eq_some_iff.mp hv
    have hkeep := caseArms_columnType_alike hrest
    have hfirst : result.eval env row = some v → ∀ ty, acc' = some ty → v.matchesType ty = true := by
      intro hv ty hty
      rcases caseAccumulate_cases hacc₁ with ⟨hnull,-⟩ | ⟨tr,c,hresult,rfl,hc,-⟩
      · exact eval_isNullLiteral hnull hv ▸ Value.matchesType_null ty
      · obtain ⟨c',rfl,hc'⟩ := hkeep c rfl
        cases hty
        rw [← hc' v,← hc v]
        exact result.eval_matches hresult hrow hv
    split_ifs at hv with hcond
    · exact hfirst hv
    · exact rest.eval_matches hrest hrow hv

end

end Soundness

end InterchangeDb
