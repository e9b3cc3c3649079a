import InterchangeDb.Sql.Tuple

/-! Tables and indexes as the catalog declares them, and the constraints on the values of a row. -/
namespace InterchangeDb
open List

structure ColumnDef where
  name : String
  ty : ColumnType
  nullable : Bool
  default : Option Value
  deriving DecidableEq, Repr

/-- A table the catalog accepted: its key is not empty, and no column of the key may be null. -/
structure Schema where
  name : String
  tableId : Fin 4294967296
  columns : List ColumnDef
  primaryKey : List (Fin columns.length)
  keyed : primaryKey ≠ []
  keyNotNull : ∀ i ∈ primaryKey, (columns.get i).nullable = false

namespace Schema

def columnTypes (s : Schema) : List ColumnType := s.columns.map (·.ty)

def pkTypes (s : Schema) : List ColumnType := s.primaryKey.map (fun i => (s.columns.get i).ty)

def pkValues (s : Schema) (row : Row) : List Value := s.primaryKey.map (fun i => row.getD i.val .null)

end Schema

structure IndexDef where
  name : String
  tableId : Fin 4294967296
  columns : List Nat
  unique : Bool
  deriving DecidableEq, Repr

structure IndexHandle where
  id : Nat
  definition : IndexDef
  /-- The types of the indexed columns, then those of the primary key. -/
  keyTypes : List ColumnType
  deriving DecidableEq, Repr

variable (s : Schema)

def Schema.handle (id : Nat) (definition : IndexDef) : IndexHandle :=
  ⟨id,definition,definition.columns.map (fun i => (s.columnTypes.getD i .int32)) ++ s.pkTypes⟩

private def violation (column : String) (rule : ConstraintRule) : Except Error Unit :=
  .error (.constraintViolation column rule)

def checkArity (values : Row) : Except Error Unit :=
  if values.length ≠ s.columns.length then
    violation s!"<row of {s.name}>" (.arity s.columns.length values.length)
  else .ok ()

/-- One check for every column and its value, the first violation counts. -/
def checkEach (check : ColumnDef → Value → Except Error Unit) : List ColumnDef → Row → Except Error Unit
  | col::columns, val::values => do
    check col val
    checkEach check columns values
  | _, _ => .ok ()

variable (col : ColumnDef)

def checkNullabilityOne (val : Value) : Except Error Unit :=
  if val = .null ∧ col.nullable = false ∧ col.default = none then violation col.name .notNull else .ok ()

def checkTypeCompatOne (val : Value) : Except Error Unit :=
  if val.matchesType col.ty then .ok () else violation col.name (.typeMismatch col.ty val.typeOf)

def checkValueBoundsOne (val : Value) : Except Error Unit :=
  match col.ty, val with
  | .varchar max, .varchar s => if s.val.length > max.val then violation col.name (.varcharTooLong max.val) else .ok ()
  | .char max, .char s => if s.val.length > max.val then violation col.name (.charTooLong max.val) else .ok ()
  | .bytes max, .bytes b => if b.length > max.val then violation col.name (.bytesTooLong max.val) else .ok ()
  | .decimal precision scale, .decimal d =>
    if d.scale ≠ scale then violation col.name (.decimalScaleMismatch scale.val d.scale.val)
    else if d.exceedsPrecision precision.val then violation col.name (.decimalPrecisionExceeded precision.val)
    else .ok ()
  | _, _ => .ok ()

def checkNullability (values : Row) : Except Error Unit := checkEach checkNullabilityOne s.columns values
def checkTypeCompat (values : Row) : Except Error Unit := checkEach checkTypeCompatOne s.columns values
def checkValueBounds (values : Row) : Except Error Unit := checkEach checkValueBoundsOne s.columns values

def checkPkNotNull (values : Row) : Except Error Unit :=
  s.primaryKey.forM (fun i =>
    if values.getD i.val .null = .null then violation (s.columns.get i).name .pkNotNull else .ok ())

/-- A null gives way to the default of its column. -/
def applyDefaults (values : Row) : Row :=
  if values.length ≠ s.columns.length then values
  else List.zipWith (fun col val => if val = .null then col.default.getD .null else val) s.columns values

def validateAndDefault (values : Row) : Except Error Row := do
  checkArity s values
  let values := applyDefaults s values
  checkNullability s values
  checkTypeCompat s values
  checkValueBounds s values
  checkPkNotNull s values
  return values

/-- The values of a type: null, or one of its kind within its length or its precision. -/
def ColumnType.Admits : ColumnType → Value → Prop
  | _, .null => True
  | .int32, .int32 _ | .int64, .int64 _ | .timestamp, .timestamp _ | .boolean, .boolean _ | .date, .date _ => True
  | .varchar max, .varchar s => s.val.length ≤ max.val
  | .char max, .char s => s.val.length ≤ max.val
  | .bytes max, .bytes b => b.length ≤ max.val
  | .decimal precision scale, .decimal d => d.scale = scale ∧ d.mantissa.toInt.natAbs < 10^precision.val
  | _, _ => False

def ColumnDef.Holds (v : Value) : Prop := col.ty.Admits v ∧ (col.nullable = false → v ≠ .null)

/-- One value for each column, which may hold it. -/
def Schema.Valid (row : Row) : Prop := List.Forall₂ (fun v col => ColumnDef.Holds col v) row s.columns

theorem ColumnType.Admits.matchesType {ty : ColumnType} {v : Value} (h : ty.Admits v) : v.matchesType ty = true := by
  cases v <;> cases ty <;> first | rfl | exact h.elim | exact decide_eq_true h.1

theorem Schema.Valid.fits {s : Schema} {row : Row} (h : s.Valid row) : KeyEnc.Fits row s.columnTypes := by
  rw [KeyEnc.Fits,Schema.columnTypes,forall₂_map_right_iff]
  exact h.imp fun _ _ hv => hv.1.matchesType

theorem Schema.Valid.pkValues_ne_null {s : Schema} {row : Row} (h : s.Valid row) : ∀ v ∈ s.pkValues row, v ≠ .null := by
  intro v hv
  obtain ⟨i,hi,rfl⟩ := mem_map.mp hv
  have hlt : i.val < row.length := h.length_eq.symm ▸ i.isLt
  have hcol := (forall₂_iff_get.mp h).2 i.val hlt i.isLt
  rw [getD_eq_getElem?_getD,getElem?_eq_getElem hlt]
  exact hcol.2 (s.keyNotNull i hi)

private theorem checkEach_ok {check : ColumnDef → Value → Except Error Unit} {columns : List ColumnDef} {values : Row}
    (hl : values.length = columns.length) (h : checkEach check columns values = .ok ()) :
    List.Forall₂ (fun v col => check col v = .ok ()) values columns := by
  induction columns generalizing values with
  | nil =>
    obtain rfl := length_eq_zero_iff.mp hl
    exact .nil
  | cons col columns ih =>
    cases values with
    | nil => simp at hl
    | cons v values =>
      obtain ⟨_,hc,hrest⟩ := bind_eq_ok h
      exact .cons hc (ih (by simpa using hl) hrest)

theorem admits_of_checked {col : ColumnDef} {v : Value} (htype : checkTypeCompatOne col v = .ok ())
    (hbounds : checkValueBoundsOne col v = .ok ()) : col.ty.Admits v := by
  obtain ⟨name,ty,nullable,default⟩ := col
  have hm : v.matchesType ty = true := by
    unfold checkTypeCompatOne at htype
    split_ifs at htype with hm
    · exact hm
    · cases htype
  cases v with
  | null | int32 | int64 | timestamp | boolean | date => cases ty <;> trivial
  | varchar s | char s | bytes s =>
    cases ty <;> cases hm
    simp only [checkValueBoundsOne] at hbounds
    split_ifs at hbounds with hlen
    · cases hbounds
    · exact not_lt.mp hlen
  | decimal d =>
    cases ty <;> first | cases hm | skip
    simp only [checkValueBoundsOne] at hbounds
    split_ifs at hbounds with hscale hexceeds
    · cases hbounds
    · cases hbounds
    · exact ⟨not_not.mp hscale,Decimal.lt_of_not_exceedsPrecision hexceeds⟩

private theorem forall₂_and {A B : Type} {P Q : A → B → Prop} {as : List A} {bs : List B} (hp : List.Forall₂ P as bs)
    (hq : List.Forall₂ Q as bs) : List.Forall₂ (fun a b => P a b ∧ Q a b) as bs := by
  induction hp with
  | nil => exact .nil
  | cons h _ ih =>
    cases hq with
    | cons h' hq => exact .cons ⟨h,h'⟩ (ih hq)

private theorem forall₂_zipWith {A B : Type} {P : B → A → Prop} {f : A → B → B} {as : List A} {bs : List B}
    (hl : bs.length = as.length) (h : ∀ a ∈ as, ∀ b, P (f a b) a) : List.Forall₂ P (List.zipWith f as bs) as := by
  induction as generalizing bs with
  | nil => cases bs <;> exact .nil
  | cons a as ih =>
    cases bs with
    | nil => simp at hl
    | cons b bs =>
      exact .cons (h a mem_cons_self b)
        (ih (by simpa using hl) (fun x hx => h x (mem_cons_of_mem _ hx)))

/-- What passes the checks of an INSERT is valid, if no column that may not be null has null as its default. -/
theorem validateAndDefault_valid {s : Schema} (hdefault : ∀ col ∈ s.columns, col.nullable = false → col.default ≠ some .null)
    {values row : Row} (h : validateAndDefault s values = .ok row) : s.Valid row := by
  obtain ⟨_,harity,h⟩ := bind_eq_ok h
  obtain ⟨_,hnull,h⟩ := bind_eq_ok h
  obtain ⟨_,htype,h⟩ := bind_eq_ok h
  obtain ⟨_,hbounds,h⟩ := bind_eq_ok h
  obtain ⟨_,_,h⟩ := bind_eq_ok h
  cases h
  have hlen : values.length = s.columns.length := by
    unfold checkArity at harity
    split_ifs at harity with hne
    · cases harity
    · exact not_not.mp hne
  have hrow : applyDefaults s values =
      zipWith (fun col val => if val = .null then col.default.getD .null else val) s.columns values := by
    rw [applyDefaults,if_neg (not_not.mpr hlen)]
  have hlen' : (applyDefaults s values).length = s.columns.length := by
    rw [hrow]
    simp [hlen]
  -- a null that is left in a column with a default is that default
  have hleft : List.Forall₂ (fun v col => v = .null → col.nullable = false → col.default = none)
      (applyDefaults s values) s.columns := by
    rw [hrow]
    refine forall₂_zipWith hlen fun col hcol val hv hnot => ?_
    cases hd : col.default with
    | none => rfl
    | some d =>
      refine absurd hd (fun hd' => hdefault col hcol hnot (hd'.trans (congrArg some ?_)))
      split_ifs at hv with hval
      · rw [hd] at hv
        exact hv
      · exact absurd hv hval
  have hchecked := forall₂_and (forall₂_and (checkEach_ok hlen' htype) (checkEach_ok hlen' hbounds))
    (forall₂_and (checkEach_ok hlen' hnull) hleft)
  refine hchecked.imp fun v col hv => ⟨admits_of_checked hv.1.1 hv.1.2,fun hnot hnull => ?_⟩
  have hcheck := hv.2.1
  rw [checkNullabilityOne,if_pos ⟨hnull,hnot,hv.2.2 hnull hnot⟩] at hcheck
  cases hcheck

end InterchangeDb
