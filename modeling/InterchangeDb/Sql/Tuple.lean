import InterchangeDb.Sql.KeyEnc

/-! Rows as byte strings: a bitmap of the nulls, then the other values in column order. -/
namespace InterchangeDb
open List
namespace Tuple
open KeyEnc (Fits hexByte stripPadding textOf)
variable {i k : Nat} {values : Row} {v : Value} {ty : ColumnType} {bs bytes : Bytes} {types : List ColumnType}

/-- Eight flags in a byte, the first in the lowest bit. -/
def packByte (flags : Nat → Bool) : Byte :=
  Fin.ofNat 256 (((List.range 8).map (fun i => if flags i then 2^i else 0)).sum)

/-- One bit for every column, set for a null. -/
def nullBitmap (values : Row) : Bytes :=
  (List.range ((values.length + 7) / 8)).map (fun j =>
    packByte (fun i => decide (values[8 * j + i]? = some .null)))

def isNullBitSet (bitmap : Bytes) (col : Nat) : Bool := decide ((bitmap.getD (col / 8) 0).val / 2^(col % 8) % 2 = 1)

def encodeValue : ColumnType → Value → Except Error Bytes
  | .int32, .int32 n => .ok (toLeBytes 4 n.toNat)
  | .int64, .int64 n => .ok (toLeBytes 8 n.toNat)
  | .date, .date days => .ok (toLeBytes 4 days.toNat)
  | .boolean, .boolean b => .ok [if b then 0x01 else 0x00]
  | .timestamp, .timestamp t => .ok (toLeBytes 8 t.toNat)
  | .decimal _ _, .decimal d => .ok (toLeBytes 8 d.mantissa.toNat)
  | .char n, .char s =>
    if (0 : Byte) ∈ s.val then .error (.storageCorrupted "tuple::encode Char: embedded NUL byte not allowed")
    else if s.val.length > n.val then
      .error (.storageCorrupted s!"tuple::encode Char: value length {s.val.length} exceeds Char({n.val})")
    else .ok (s.val ++ List.replicate (n.val - s.val.length) 0)
  | .varchar n, .varchar s =>
    if s.val.length > n.val then
      .error (.storageCorrupted s!"tuple::encode Varchar: value length {s.val.length} exceeds Varchar({n.val})")
    else .ok (toLeBytes 2 s.val.length ++ s.val)
  | .bytes n, .bytes b =>
    if b.length > n.val then
      .error (.storageCorrupted s!"tuple::encode Bytes: value length {b.length} exceeds Bytes({n.val})")
    else .ok (toLeBytes 2 b.length ++ b)
  | t, v => .error (.storageCorrupted
      s!"tuple::encode: type mismatch: value {v.debug} cannot encode under column type {t.debug}")

/-- The bytes of the values that are not null. -/
def encodeColumns : List ColumnType → Row → Except Error Bytes
  | ty::types, v::values =>
    if v = .null then encodeColumns types values
    else do
      let bytes ← encodeValue ty v
      let rest ← encodeColumns types values
      return bytes ++ rest
  | _, _ => .ok []

def encode (types : List ColumnType) (values : Row) : Except Error Bytes :=
  if types.length ≠ values.length then
    .error (.storageCorrupted s!"tuple::encode: arity mismatch: {types.length} types, {values.length} values")
  else (encodeColumns types values).map (nullBitmap values ++ ·)

private def need (n : Nat) (bytes : Bytes) (message : String) (value : Bytes → Value) : Except Error (Value × Nat) :=
  if bytes.length < n then .error (.storageCorrupted message) else .ok (value (bytes.take n),n)

private def lengthPrefixed (kind : String) (bytes : Bytes) : Except Error Bytes :=
  if bytes.length < 2 then .error (.storageCorrupted s!"tuple::decode {kind}: need length prefix")
  else
    let len := fromLeBytes (bytes.take 2)
    if bytes.length < 2 + len then
      .error (.storageCorrupted
        s!"tuple::decode {kind}: need {len} bytes after prefix, got {bytes.length - 2}")
    else .ok ((bytes.drop 2).take len)

def decodeValue : ColumnType → Bytes → Except Error (Value × Nat)
  | .int32, bytes => need 4 bytes "tuple::decode Int32: need 4 bytes" (fun b => .int32 (BitVec.ofNat 32 (fromLeBytes b)))
  | .date, bytes => need 4 bytes "tuple::decode Date: need 4 bytes" (fun b => .date (BitVec.ofNat 32 (fromLeBytes b)))
  | .int64, bytes => need 8 bytes "tuple::decode Int64: need 8 bytes" (fun b => .int64 (BitVec.ofNat 64 (fromLeBytes b)))
  | .boolean, bytes =>
    match bytes with
    | [] => .error (.storageCorrupted "tuple::decode Boolean: need 1 byte")
    | b::_ =>
      if b = 0x00 then .ok (.boolean false,1)
      else if b = 0x01 then .ok (.boolean true,1)
      else .error (.storageCorrupted s!"tuple::decode Boolean: invalid byte 0x{hexByte b}")
  | .timestamp, bytes =>
    need 8 bytes "tuple::decode Timestamp: need 8 bytes" (fun b => .timestamp (BitVec.ofNat 64 (fromLeBytes b)))
  | .decimal _ scale, bytes =>
    need 8 bytes "tuple::decode Decimal: need 8 bytes" (fun b => .decimal ⟨BitVec.ofNat 64 (fromLeBytes b),scale⟩)
  | .char n, bytes =>
    if bytes.length < n.val then
      .error (.storageCorrupted s!"tuple::decode Char: need {n.val} bytes, got {bytes.length}")
    else (textOf (stripPadding (bytes.take n.val)) "tuple::decode Char: invalid UTF-8").map (fun s => (.char s,n.val))
  | .varchar _, bytes => do
    let raw ← lengthPrefixed "Varchar" bytes
    let s ← textOf raw "tuple::decode Varchar: invalid UTF-8"
    return (.varchar s,2 + raw.length)
  | .bytes _, bytes => do
    let raw ← lengthPrefixed "Bytes" bytes
    return (.bytes raw,2 + raw.length)

/-- The values from a column on, and what is left behind them. -/
def decodeColumns (bitmap : Bytes) : Nat → List ColumnType → Bytes → Except Error (Row × Bytes)
  | _, [], bytes => .ok ([],bytes)
  | i, ty::types, bytes =>
    if isNullBitSet bitmap i then do
      let (values,rest) ← decodeColumns bitmap (i + 1) types bytes
      return (.null::values,rest)
    else do
      let (value,consumed) ← decodeValue ty bytes
      let (values,rest) ← decodeColumns bitmap (i + 1) types (bytes.drop consumed)
      return (value::values,rest)

def decode (types : List ColumnType) (bytes : Bytes) : Except Error Row :=
  let bitmapLen := (types.length + 7) / 8
  if bytes.length < bitmapLen then
    .error (.storageCorrupted
      s!"tuple::decode: not enough bytes for null bitmap: need {bitmapLen}, got {bytes.length}")
  else do
    let (values,rest) ← decodeColumns (bytes.take bitmapLen) 0 types (bytes.drop bitmapLen)
    if rest = [] then return values
    else .error (.storageCorrupted s!"tuple::decode: trailing bytes: {rest.length} unread")

private theorem packByte_bits : ∀ a b c d e f g h : Bool, ∀ i : Fin 8,
    decide ((packByte (fun i => [a,b,c,d,e,f,g,h].getD i false)).val / 2^i.val % 2 = 1) =
      [a,b,c,d,e,f,g,h].getD i.val false := by decide +kernel

private theorem packByte_bit (flags : Nat → Bool) (hi : i < 8) :
    decide ((packByte flags).val / 2^i % 2 = 1) = flags i := by
  have hpack : packByte flags = packByte (fun i =>
      [flags 0,flags 1,flags 2,flags 3,flags 4,flags 5,flags 6,flags 7].getD i false) := rfl
  have hbits := packByte_bits (flags 0) (flags 1) (flags 2) (flags 3) (flags 4) (flags 5) (flags 6) (flags 7) ⟨i,hi⟩
  rw [hpack,hbits]
  interval_cases i <;> rfl

theorem isNullBitSet_nullBitmap (hv : values[i]? = some v) :
    isNullBitSet (nullBitmap values) i = decide (v = .null) := by
  have hi : i < values.length := (List.getElem?_eq_some_iff.mp hv).1
  have hj : i / 8 < (values.length + 7) / 8 := by omega
  have hget : (nullBitmap values).getD (i / 8) 0 =
      packByte (fun r => decide (values[8 * (i / 8) + r]? = some .null)) := by
    rw [nullBitmap,getD_eq_getElem?_getD,getElem?_map,getElem?_range hj]
    rfl
  rw [isNullBitSet,hget,packByte_bit _ (Nat.mod_lt _ (by decide)),Nat.div_add_mod,hv]
  simp

@[simp] theorem length_nullBitmap (values : Row) : (nullBitmap values).length = (values.length + 7) / 8 := by
  simp [nullBitmap]

private theorem need_toLeBytes (w n : Nat) (rest : Bytes) (message : String) (value : Bytes → Value) :
    need w (toLeBytes w n ++ rest) message value = .ok (value (toLeBytes w n),w) := by
  rw [need,if_neg (by simp),take_left' (by simp)]

private theorem lengthPrefixed_append {raw : Bytes} (h : raw.length ≤ u16Max) (kind : String) (rest : Bytes) :
    lengthPrefixed kind (toLeBytes 2 raw.length ++ (raw ++ rest)) = .ok raw := by
  have hval : fromLeBytes (toLeBytes 2 raw.length) = raw.length :=
    fromLeBytes_toLeBytes_of_lt (lt_of_le_of_lt h (by decide))
  rw [lengthPrefixed,if_neg (by rw [length_append, length_toLeBytes]; omega),
    take_left' (length_toLeBytes 2 raw.length),hval]
  simp

/-- A value decodes to what was encoded, whatever follows it. -/
theorem decodeValue_encodeValue (hm : v.matchesType ty = true)
    (h : encodeValue ty v = .ok bs) (rest : Bytes) : decodeValue ty (bs ++ rest) = .ok (v,bs.length) := by
  have h32 : ∀ n : BitVec 32, BitVec.ofNat 32 (fromLeBytes (toLeBytes 4 n.toNat)) = n := fun n => by
    rw [fromLeBytes_toLeBytes_of_lt n.isLt,BitVec.ofNat_toNat,BitVec.setWidth_eq]
  have h64 : ∀ n : BitVec 64, BitVec.ofNat 64 (fromLeBytes (toLeBytes 8 n.toNat)) = n := fun n => by
    rw [fromLeBytes_toLeBytes_of_lt n.isLt,BitVec.ofNat_toNat,BitVec.setWidth_eq]
  cases v with
  | null => cases ty <;> cases h
  | int32 | date =>
    cases ty <;> cases h
    rw [decodeValue,need_toLeBytes,h32,length_toLeBytes]
  | int64 | timestamp =>
    cases ty <;> cases h
    rw [decodeValue,need_toLeBytes,h64,length_toLeBytes]
  | boolean b =>
    cases ty <;> cases h
    cases b <;> rfl
  | decimal d =>
    cases ty <;> cases h
    obtain ⟨mantissa,scale⟩ := d
    cases of_decide_eq_true hm
    rw [decodeValue,need_toLeBytes,h64,length_toLeBytes]
  | char s =>
    cases ty with
    | char n =>
      simp only [encodeValue] at h
      split_ifs at h with hz hn
      cases h
      have hlen : (s.val ++ List.replicate (n.val - s.val.length) 0).length = n.val := by
        simp only [length_append,length_replicate]
        omega
      rw [decodeValue,if_neg (by rw [length_append, hlen]; omega),take_left' hlen,
        KeyEnc.stripPadding_padded hz,KeyEnc.textOf_val,hlen]
      rfl
    | _ => cases h
  | varchar s =>
    cases ty with
    | varchar n =>
      simp only [encodeValue] at h
      split_ifs at h with hn
      cases h
      have hle : s.val.length ≤ u16Max := (not_lt.mp hn).trans (Nat.le_of_lt_succ n.isLt)
      simp [decodeValue,lengthPrefixed_append hle,KeyEnc.textOf_val,bind,Except.bind,pure,Except.pure]
    | _ => cases h
  | bytes b =>
    cases ty with
    | bytes n =>
      simp only [encodeValue] at h
      split_ifs at h with hn
      cases h
      have hle : b.length ≤ u16Max := (not_lt.mp hn).trans (Nat.le_of_lt_succ n.isLt)
      simp [decodeValue,lengthPrefixed_append hle,bind,Except.bind,pure,Except.pure]
    | _ => cases h

private theorem decodeColumns_encodeColumns {full : Row} (hf : Fits values types)
    (hd : full.drop i = values) (h : encodeColumns types values = .ok bs) (rest : Bytes) :
    decodeColumns (nullBitmap full) i types (bs ++ rest) = .ok (values,rest) := by
  induction hf generalizing i bs with
  | nil =>
    cases h
    rfl
  | @cons v ty vs types hm hf ih =>
    have hv : full[i]? = some v := by
      rw [← head?_drop,hd]
      rfl
    have htail : full.drop (i + 1) = vs := by rw [← tail_drop,hd,tail_cons]
    rw [decodeColumns,isNullBitSet_nullBitmap hv]
    rw [encodeColumns] at h
    by_cases hnull : v = .null
    · rw [if_pos hnull] at h
      rw [if_pos (decide_eq_true hnull),ih htail h,hnull]
      rfl
    · rw [if_neg hnull] at h
      rw [if_neg (by simpa using hnull)]
      obtain ⟨b,hb,h⟩ := bind_eq_ok h
      obtain ⟨tail,hr,h⟩ := bind_eq_ok h
      cases h
      rw [append_assoc,decodeValue_encodeValue hm hb]
      simp only [bind,Except.bind,drop_left,ih htail hr]
      rfl

theorem decode_encode (hf : Fits values types) (h : encode types values = .ok bs) : decode types bs = .ok values := by
  rw [encode,if_neg (not_not.mpr hf.length_eq.symm)] at h
  obtain ⟨body,hc,rfl⟩ := map_eq_ok h
  have hlen : (nullBitmap values).length = (types.length + 7) / 8 := by rw [length_nullBitmap,hf.length_eq]
  have hcols := decodeColumns_encodeColumns hf (drop_zero (l := values)) hc []
  rw [append_nil] at hcols
  simp only [decode,length_append,hlen,take_left' hlen,drop_left' hlen,hcols]
  rw [if_neg (by omega)]
  rfl

private theorem need_matches {n : Nat} {message : String} {value : Bytes → Value}
    (hvalue : ∀ b, (value b).matchesType ty = true) (h : need n bytes message value = .ok (v,k)) :
    v.matchesType ty = true := by
  unfold need at h
  split_ifs at h
  cases h
  exact hvalue _

private theorem decodeValue_matches (h : decodeValue ty bytes = .ok (v,k)) : v.matchesType ty = true := by
  cases ty with
  | int32 | int64 | date | timestamp =>
    rw [decodeValue] at h
    exact need_matches (fun _ => rfl) h
  | decimal precision scale =>
    rw [decodeValue] at h
    refine need_matches (fun b => ?_) h
    exact decide_eq_true rfl
  | boolean =>
    cases bytes with
    | nil => cases h
    | cons b rest =>
      simp only [decodeValue] at h
      split_ifs at h <;> cases h <;> rfl
  | char n =>
    simp only [decodeValue] at h
    split_ifs at h
    obtain ⟨s,-,hs⟩ := map_eq_ok h
    cases hs
    rfl
  | varchar n =>
    obtain ⟨raw,-,h⟩ := bind_eq_ok h
    obtain ⟨s,-,h⟩ := bind_eq_ok h
    cases h
    rfl
  | bytes n =>
    obtain ⟨raw,-,h⟩ := bind_eq_ok h
    cases h
    rfl

private theorem decodeColumns_fits {bitmap : Bytes} {rest : Bytes}
    (h : decodeColumns bitmap i types bytes = .ok (values,rest)) : Fits values types := by
  induction types generalizing i bytes values with
  | nil =>
    cases h
    exact .nil
  | cons ty types ih =>
    unfold decodeColumns at h
    split_ifs at h
    · obtain ⟨⟨vs,rest'⟩,hvs,h⟩ := bind_eq_ok h
      cases h
      exact .cons (by cases ty <;> rfl) (ih hvs)
    · obtain ⟨⟨v,consumed⟩,hv,h⟩ := bind_eq_ok h
      obtain ⟨⟨vs,rest'⟩,hvs,h⟩ := bind_eq_ok h
      cases h
      exact .cons (decodeValue_matches hv) (ih hvs)

/-- A row that is read has a value of its type in every column. -/
theorem decode_fits (h : decode types bytes = .ok values) :
    Fits values types := by
  simp only [decode] at h
  split_ifs at h
  obtain ⟨⟨vs,rest⟩,hvs,h⟩ := bind_eq_ok h
  split_ifs at h
  cases h
  exact decodeColumns_fits hvs

end Tuple
end InterchangeDb
