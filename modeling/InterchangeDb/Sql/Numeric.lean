import InterchangeDb.Sql.Value

/-! Arithmetic of decimals and the comparison of values. A result outside the word is an error, never wrapped. -/
namespace InterchangeDb

/-- A number that fits a signed word. -/
def checkedInt (w : Nat) (n : Int) : Option (BitVec w) :=
  if -2^(w-1) ≤ n ∧ n < 2^(w-1) then some (BitVec.ofInt w n) else none

/-- Division that rounds half away from zero. -/
def divRoundHalfAway (num den : Int) : Int :=
  let quotient := num.tdiv den
  if den.natAbs ≤ 2 * (num.tmod den).natAbs then
    if decide (num < 0) = decide (den < 0) then quotient + 1 else quotient - 1
  else quotient

namespace Decimal

def maxScale : Nat := 18

private def arithmeticError (msg : String) : Except Error Decimal := .error (.decimalArithmetic msg)

def add (a b : Decimal) : Except Error Decimal :=
  if a.scale ≠ b.scale then arithmeticError s!"add: scale mismatch: {a.scale.val} vs {b.scale.val}"
  else match checkedInt 64 (a.mantissa.toInt + b.mantissa.toInt) with
    | none => arithmeticError s!"add: overflow: {a.mantissa.toInt} + {b.mantissa.toInt}"
    | some mantissa => .ok ⟨mantissa,a.scale⟩

def sub (a b : Decimal) : Except Error Decimal :=
  if a.scale ≠ b.scale then arithmeticError s!"sub: scale mismatch: {a.scale.val} vs {b.scale.val}"
  else match checkedInt 64 (a.mantissa.toInt - b.mantissa.toInt) with
    | none => arithmeticError s!"sub: overflow: {a.mantissa.toInt} - {b.mantissa.toInt}"
    | some mantissa => .ok ⟨mantissa,a.scale⟩

def mul (a b : Decimal) : Except Error Decimal :=
  if h : a.scale.val + b.scale.val < 19 then
    match checkedInt 64 (a.mantissa.toInt * b.mantissa.toInt) with
    | none => arithmeticError s!"mul: mantissa overflow: {a.mantissa.toInt} * {b.mantissa.toInt}"
    | some mantissa => .ok ⟨mantissa,⟨a.scale.val + b.scale.val,h⟩⟩
  else arithmeticError s!"mul: result scale {a.scale.val + b.scale.val} exceeds MAX_SCALE {maxScale}"

/-- The digits of a decimal at a scale not below its own. -/
def rescaleMantissa (d : Decimal) (scale : Fin 19) : Int := d.mantissa.toInt * 10^(scale.val - d.scale.val)

/-- The quotient at the larger of the two scales. The numerator has to fit 128 bits. -/
def div (a b : Decimal) : Except Error Decimal :=
  if b.mantissa = 0 then arithmeticError "div: division by zero"
  else
    let scale := max a.scale b.scale
    match checkedInt 128 (a.rescaleMantissa scale * 10^scale.val) with
    | none =>
      arithmeticError s!"div: numerator overflow: {a.mantissa.toInt} / {b.mantissa.toInt} at scale {scale.val}"
    | some numerator =>
      match checkedInt 64 (divRoundHalfAway numerator.toInt (b.rescaleMantissa scale)) with
      | none =>
        arithmeticError s!"div: result mantissa overflows i64: {a.mantissa.toInt} / {b.mantissa.toInt} at scale {scale.val}"
      | some mantissa => .ok ⟨mantissa,scale⟩

theorem add_scale {a b d : Decimal} (h : a.add b = .ok d) : a.scale = b.scale ∧ d.scale = a.scale := by
  unfold add at h
  split at h
  · cases h
  · next hs =>
    split at h
    · cases h
    · cases h
      exact ⟨not_not.mp hs,rfl⟩

theorem sub_scale {a b d : Decimal} (h : a.sub b = .ok d) : a.scale = b.scale ∧ d.scale = a.scale := by
  unfold sub at h
  split at h
  · cases h
  · next hs =>
    split at h
    · cases h
    · cases h
      exact ⟨not_not.mp hs,rfl⟩

theorem mul_scale {a b d : Decimal} (h : a.mul b = .ok d) : d.scale.val = a.scale.val + b.scale.val := by
  unfold mul at h
  split at h
  · split at h
    · cases h
    · cases h
      rfl
  · cases h

theorem div_scale {a b d : Decimal} (h : a.div b = .ok d) : d.scale = max a.scale b.scale := by
  unfold div at h
  split at h
  · cases h
  · dsimp only at h
    split at h
    · cases h
    · split at h
      · cases h
      · cases h
        rfl

/-- An integer as a decimal without digits behind the point. -/
def ofInt64 (n : BitVec 64) : Decimal := ⟨n,0⟩

def compare (a b : Decimal) : Ordering :=
  if a.scale = b.scale then cmp a.mantissa.toInt b.mantissa.toInt
  else cmp (a.mantissa.toInt * 10^b.scale.val) (b.mantissa.toInt * 10^a.scale.val)

def compareInt (n : Int) (d : Decimal) : Ordering := cmp (n * 10^d.scale.val) d.mantissa.toInt

end Decimal

namespace Value

/-- The order of SQL: none for a null and for values of unlike kinds. Numbers compare by what they are worth. -/
def compareSql : Value → Value → Option Ordering
  | .int32 a, .int32 b => some (cmp a.toInt b.toInt)
  | .int64 a, .int64 b => some (cmp a.toInt b.toInt)
  | .int32 a, .int64 b => some (cmp a.toInt b.toInt)
  | .int64 a, .int32 b => some (cmp a.toInt b.toInt)
  | .varchar a, .varchar b => some (cmp a.val b.val)
  | .char a, .char b => some (cmp a.val b.val)
  | .varchar a, .char b => some (cmp a.val b.val)
  | .char a, .varchar b => some (cmp a.val b.val)
  | .bytes a, .bytes b => some (cmp a b)
  | .boolean a, .boolean b => some (cmp a b)
  | .timestamp a, .timestamp b => some (cmp a.toInt b.toInt)
  | .date a, .date b => some (cmp a.toInt b.toInt)
  | .decimal a, .decimal b => some (a.compare b)
  | .int32 a, .decimal d => some (d.compareInt a.toInt)
  | .int64 a, .decimal d => some (d.compareInt a.toInt)
  | .decimal d, .int32 b => some (d.compareInt b.toInt).swap
  | .decimal d, .int64 b => some (d.compareInt b.toInt).swap
  | _, _ => none

def decimalExact (mantissa : Int) (scale : Fin 19) : Option Value :=
  (checkedInt 64 mantissa).map (fun m => .decimal ⟨m,scale⟩)

/-- The integer a decimal is worth. -/
def intExact (d : Decimal) : Option Int :=
  if d.mantissa.toInt.tmod (10^d.scale.val) = 0 then some (d.mantissa.toInt.tdiv (10^d.scale.val)) else none

/-- The value of a type that is worth the same, if there is one. -/
def coerceExact : Value → ColumnType → Option Value
  | .int64 n, .int32 => (checkedInt 32 n.toInt).map .int32
  | .int32 n, .int64 => some (.int64 (n.signExtend 64))
  | .int32 n, .decimal _ scale => decimalExact (n.toInt * 10^scale.val) scale
  | .int64 n, .decimal _ scale => decimalExact (n.toInt * 10^scale.val) scale
  | .decimal d, .int32 => (intExact d).bind (fun n => (checkedInt 32 n).map .int32)
  | .decimal d, .int64 => (intExact d).map (fun n => .int64 (BitVec.ofInt 64 n))
  | .decimal d, .decimal _ scale =>
    if d.scale = scale then some (.decimal d)
    else if d.scale < scale then decimalExact (d.mantissa.toInt * 10^(scale.val - d.scale.val)) scale
    else if d.mantissa.toInt.tmod (10^(d.scale.val - scale.val)) = 0 then
      some (.decimal ⟨BitVec.ofInt 64 (d.mantissa.toInt.tdiv (10^(d.scale.val - scale.val))),scale⟩)
    else none
  | .varchar s, .char _ => some (.char s)
  | .char s, .varchar _ => some (.varchar s)
  | v, ty => if v.matchesType ty then some v else none

end Value

/-- The civil date of a day counted from 1970-01-01. The shift to the era may leave the word. -/
def ymdFromDays (days : BitVec 32) : Option (Int × Int × Int) :=
  (checkedInt 32 (days.toInt + 719468)).map (fun shifted =>
    let days : Int := shifted.toInt
    let era : Int := (if 0 ≤ days then days else days - 146096).tdiv 146097
    let dayOfEra : Int := days - era * 146097
    let yearOfEra : Int := (dayOfEra - dayOfEra / 1460 + dayOfEra / 36524 - dayOfEra / 146096) / 365
    let year : Int := yearOfEra + era * 400
    let dayOfYear : Int := dayOfEra - (365 * yearOfEra + yearOfEra / 4 - yearOfEra / 100)
    let monthPrime : Int := (5 * dayOfYear + 2) / 153
    let day : Int := dayOfYear - (153 * monthPrime + 2) / 5 + 1
    let month : Int := if monthPrime < 10 then monthPrime + 3 else monthPrime - 9
    (if month ≤ 2 then year + 1 else year,month,day))

end InterchangeDb
