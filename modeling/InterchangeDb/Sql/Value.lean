import InterchangeDb.Common

/-! Values of columns. A text is its UTF-8 bytes; a decimal is a mantissa with a scale. -/
namespace InterchangeDb
open List Bool

private def isContinuation (b : Byte) : Bool := decide (0x80 ≤ b.val ∧ b.val ≤ 0xBF)

/-- The second byte of a sequence of three: neither overlong nor a surrogate. -/
private def isSecondOfThree (a b : Byte) : Bool :=
  if a.val = 0xE0 then decide (0xA0 ≤ b.val ∧ b.val ≤ 0xBF)
  else if a.val = 0xED then decide (0x80 ≤ b.val ∧ b.val ≤ 0x9F)
  else isContinuation b

/-- The second byte of a sequence of four, up to the last code point. -/
private def isSecondOfFour (a b : Byte) : Bool :=
  if a.val = 0xF0 then decide (0x90 ≤ b.val ∧ b.val ≤ 0xBF)
  else if a.val = 0xF4 then decide (0x80 ≤ b.val ∧ b.val ≤ 0x8F)
  else isContinuation b

def validUtf8 : Bytes → Bool
  | [] => true
  | a::rest =>
    if a.val < 0x80 then validUtf8 rest
    else match rest with
      | [] => false
      | b::rest =>
        if 0xC2 ≤ a.val ∧ a.val ≤ 0xDF then isContinuation b && validUtf8 rest
        else match rest with
          | [] => false
          | c::rest =>
            if 0xE0 ≤ a.val ∧ a.val ≤ 0xEF then isSecondOfThree a b && isContinuation c && validUtf8 rest
            else match rest with
              | [] => false
              | d::rest => decide (0xF0 ≤ a.val ∧ a.val ≤ 0xF4) && isSecondOfFour a b && isContinuation c &&
                  isContinuation d && validUtf8 rest

abbrev Text := { s : Bytes // validUtf8 s = true }

/-- The encodings of the characters, one by one. -/
def utf8Chars : Bytes → List Bytes
  | [] => []
  | a::rest =>
    if a.val < 0x80 then [a]::utf8Chars rest
    else match rest with
      | [] => [[a]]
      | b::rest =>
        if 0xC2 ≤ a.val ∧ a.val ≤ 0xDF then [a,b]::utf8Chars rest
        else match rest with
          | [] => [[a,b]]
          | c::rest =>
            if 0xE0 ≤ a.val ∧ a.val ≤ 0xEF then [a,b,c]::utf8Chars rest
            else match rest with
              | [] => [[a,b,c]]
              | d::rest => [a,b,c,d]::utf8Chars rest

private theorem validUtf8_append_char {s c : Bytes} (hs : validUtf8 s = true) (hc : c ∈ utf8Chars s) (rest : Bytes) :
    validUtf8 (c ++ rest) = validUtf8 rest := by
  fun_induction validUtf8 s with
  | case1 => cases hc
  | case2 a s ha ih =>
    unfold utf8Chars at hc
    rw [if_pos ha,mem_cons] at hc
    obtain rfl | hc := hc
    · simp only [cons_append,nil_append]
      rw [validUtf8.eq_def]
      simp [if_pos ha]
    · exact ih hs hc
  | case3 => cases hs
  | case4 a ha b s hb ih =>
    rw [and_eq_true] at hs
    unfold utf8Chars at hc
    simp only [if_neg ha,if_pos hb,mem_cons] at hc
    obtain rfl | hc := hc
    · simp only [cons_append,nil_append]
      rw [validUtf8.eq_def]
      simp [if_neg ha,if_pos hb,hs.1,Bool.true_and]
    · exact ih hs.2 hc
  | case5 => cases hs
  | case6 a ha b hb c' s hc' ih =>
    simp only [and_eq_true] at hs
    unfold utf8Chars at hc
    simp only [if_neg ha,if_neg hb,if_pos hc',mem_cons] at hc
    obtain rfl | hc := hc
    · simp only [cons_append,nil_append]
      rw [validUtf8.eq_def]
      simp [if_neg ha,if_neg hb,if_pos hc',hs.1.1,hs.1.2,Bool.true_and]
    · exact ih hs.2 hc
  | case7 => cases hs
  | case8 a ha b hb c' hc' d s ih =>
    simp only [and_eq_true] at hs
    unfold utf8Chars at hc
    simp only [if_neg ha,if_neg hb,if_neg hc',mem_cons] at hc
    obtain rfl | hc := hc
    · simp only [cons_append,nil_append]
      rw [validUtf8.eq_def]
      simp [if_neg ha,if_neg hb,if_neg hc',hs.1.1.1.1,hs.1.1.1.2,hs.1.1.2,hs.1.2,Bool.true_and]
    · exact ih hs.2 hc

private theorem validUtf8_flatten {s : Bytes} (hs : validUtf8 s = true) {chars : List Bytes}
    (h : ∀ c ∈ chars, c ∈ utf8Chars s) : validUtf8 chars.flatten = true := by
  induction chars with
  | nil => rfl
  | cons c chars ih =>
    rw [flatten_cons,validUtf8_append_char hs (h c mem_cons_self)]
    exact ih (fun c hc => h c (mem_cons_of_mem _ hc))

def Text.chars (s : Text) : List Bytes := utf8Chars s.val

/-- At most a number of characters from a position on. -/
def Text.slice (s : Text) (start length : Nat) : Text :=
  ⟨((s.chars.drop start).take length).flatten,
    validUtf8_flatten s.property (fun _ hc => mem_of_mem_drop (mem_of_mem_take hc))⟩

instance neZero_19 : NeZero 19 := ⟨by decide⟩

structure Decimal where
  mantissa : BitVec 64
  scale : Fin 19
  deriving DecidableEq, Repr

inductive Value where
  | int32 (n : BitVec 32)
  | int64 (n : BitVec 64)
  | varchar (s : Text)
  | char (s : Text)
  | bytes (b : Bytes)
  | decimal (d : Decimal)
  | timestamp (t : BitVec 64)
  | boolean (b : Bool)
  | null
  | date (days : BitVec 32)
  deriving DecidableEq, Repr

abbrev Row := List Value

/-- Strip trailing zeros behind the point. -/
def Decimal.stripZeros (mantissa : BitVec 64) : Nat → BitVec 64 × Nat
  | 0 => (mantissa,0)
  | scale+1 => if mantissa.srem 10 = 0 then stripZeros (mantissa.sdiv 10) scale else (mantissa,scale + 1)

def Decimal.exceedsPrecision (d : Decimal) (precision : Nat) : Bool :=
  if d.mantissa = 0 then false else decide (min (10^precision) u64Max ≤ d.mantissa.toInt.natAbs)

theorem Decimal.lt_of_not_exceedsPrecision {d : Decimal} {precision : Nat} (h : ¬d.exceedsPrecision precision = true) :
    d.mantissa.toInt.natAbs < 10^precision := by
  unfold exceedsPrecision at h
  split_ifs at h with hzero
  · rw [hzero]
    exact Nat.pow_pos (by decide)
  · exact (not_le.mp (of_decide_eq_false (not_eq_true _ ▸ h))).trans_le (min_le_left _ _)

namespace Value

/-- The form in which values that compare as equal are the same. -/
def joinKeyNormalized : Value → Value
  | .int32 n => .int64 (n.signExtend 64)
  | .char s => .varchar s
  | .decimal d =>
    let stripped := Decimal.stripZeros d.mantissa d.scale.val
    if stripped.2 = 0 then .int64 stripped.1 else .decimal ⟨stripped.1,Fin.ofNat 19 stripped.2⟩
  | other => other

/-- A null fits every column. -/
def matchesType : Value → ColumnType → Bool
  | .null, _ => true
  | .int32 _, .int32 => true
  | .int64 _, .int64 => true
  | .varchar _, .varchar _ => true
  | .char _, .char _ => true
  | .bytes _, .bytes _ => true
  | .decimal d, .decimal _ scale => decide (d.scale = scale)
  | .timestamp _, .timestamp => true
  | .boolean _, .boolean => true
  | .date _, .date => true
  | _, _ => false

section Matches

variable {v : Value} (hn : v ≠ .null)
include hn

theorem int32_of_matches (h : v.matchesType .int32 = true) : ∃ n, v = .int32 n := by
  cases v <;> first | exact ⟨_,rfl⟩ | exact absurd rfl hn | cases h

theorem int64_of_matches (h : v.matchesType .int64 = true) : ∃ n, v = .int64 n := by
  cases v <;> first | exact ⟨_,rfl⟩ | exact absurd rfl hn | cases h

theorem decimal_of_matches {precision : Fin 256} {scale : Fin 19} (h : v.matchesType (.decimal precision scale) = true) :
    ∃ b, v = .decimal ⟨b,scale⟩ := by
  cases v with
  | decimal d => exact ⟨d.mantissa,by rw [← of_decide_eq_true h]⟩
  | null => exact absurd rfl hn
  | _ => cases h

end Matches

private def saturatingU16 (n : Nat) : Fin 65536 := Fin.ofNat 65536 (min n u16Max)

def typeOf : Value → Option ColumnType
  | .null => none
  | .int32 _ => some .int32
  | .int64 _ => some .int64
  | .varchar s => some (.varchar (saturatingU16 s.val.length))
  | .char s => some (.char (saturatingU16 s.val.length))
  | .bytes b => some (.bytes (saturatingU16 b.length))
  | .decimal d => some (.decimal 18 d.scale)
  | .timestamp _ => some .timestamp
  | .boolean _ => some .boolean
  | .date _ => some .date

/-- The characters of a text in a message; those of ASCII stand for themselves. -/
private def debugText (s : Text) : String :=
  "\"" ++ String.ofList (s.val.map (fun b => Char.ofNat b.val)) ++ "\""

def debug : Value → String
  | .int32 n => s!"Int32({n.toInt})"
  | .int64 n => s!"Int64({n.toInt})"
  | .varchar s => "Varchar(" ++ debugText s ++ ")"
  | .char s => "Char(" ++ debugText s ++ ")"
  | .bytes b => "Bytes([" ++ String.intercalate ", " (b.map (fun x => toString x.val)) ++ "])"
  | .decimal d => s!"Decimal(Decimal \x7b mantissa: {d.mantissa.toInt}, scale: {d.scale.val} \x7d)"
  | .timestamp t => s!"Timestamp({t.toInt})"
  | .boolean b => s!"Boolean({b})"
  | .null => "Null"
  | .date days => s!"Date({days.toInt})"

end Value
end InterchangeDb
