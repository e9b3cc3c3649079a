import InterchangeDb.Sql.Value

/-! The order-preserving encoding of key components: a sentinel for null, then a form that shows where it ends. -/
namespace InterchangeDb
open List Except
namespace KeyEnc
variable {bs full : Bytes} {vs values ws : List Value} {types ts us : List ColumnType}

def nullSentinel : Byte := 0x00
def presentSentinel : Byte := 0x01

def int32SignMask : BitVec 32 := 1#32 <<< 31
def int64SignMask : BitVec 64 := 1#64 <<< 63

def encodeInt32 (n : BitVec 32) : Bytes := toBeBytes 4 (n ^^^ int32SignMask).toNat
def encodeInt64 (n : BitVec 64) : Bytes := toBeBytes 8 (n ^^^ int64SignMask).toNat

def encodeChar (s : Bytes) (targetLen : Nat) : Except Error Bytes :=
  if (0 : Byte) ∈ s then .error (.storageCorrupted "encode_char: embedded NUL byte not allowed in Char")
  else if s.length > targetLen then
    .error (.storageCorrupted s!"encode_char: value length {s.length} exceeds Char({targetLen})")
  else .ok (s ++ List.replicate (targetLen - s.length) 0)

/-- A zero byte is escaped; two zero bytes end the component. -/
def encodeEscaped : Bytes → Bytes
  | [] => [0x00,0x00]
  | b::bs => if b = 0 then 0x00 :: 0xFF :: encodeEscaped bs else b :: encodeEscaped bs

def encodeOne : Value → ColumnType → Except Error Bytes
  | .null, _ => .ok [nullSentinel]
  | .int32 n, .int32 => .ok (presentSentinel :: encodeInt32 n)
  | .date days, .date => .ok (presentSentinel :: encodeInt32 days)
  | .boolean b, .boolean => .ok [presentSentinel,if b then 0x01 else 0x00]
  | .int64 n, .int64 => .ok (presentSentinel :: encodeInt64 n)
  | .timestamp t, .timestamp => .ok (presentSentinel :: encodeInt64 t)
  | .decimal d, .decimal _ _ => .ok (presentSentinel :: encodeInt64 d.mantissa)
  | .char s, .char n => (encodeChar s.val n.val).map (presentSentinel :: ·)
  | .varchar s, .varchar _ => .ok (presentSentinel :: encodeEscaped s.val)
  | .bytes b, .bytes _ => .ok (presentSentinel :: encodeEscaped b)
  | v, t => .error (.storageCorrupted
      s!"encode_one: type mismatch: value {v.debug} cannot encode under column type {t.debug}")

def encodeAll : List Value → List ColumnType → Except Error Bytes
  | v::vs, t::ts => do
    let bytes ← encodeOne v t
    let rest ← encodeAll vs ts
    return bytes ++ rest
  | _, _ => .ok []

def encodeKeyComponents (values : List Value) (types : List ColumnType) : Except Error Bytes :=
  if values.length ≠ types.length then
    .error (.storageCorrupted
      s!"encode_key_components: arity mismatch: {values.length} values, {types.length} types")
  else encodeAll values types

variable (bytes : Bytes)

def decodeInt32 : Except Error (BitVec 32 × Nat) :=
  if bytes.length < 4 then .error (.storageCorrupted "decode_int32: need 4 bytes, got fewer")
  else .ok (BitVec.ofNat 32 (fromBeBytes (bytes.take 4)) ^^^ int32SignMask,4)

def decodeInt64 : Except Error (BitVec 64 × Nat) :=
  if bytes.length < 8 then .error (.storageCorrupted "decode_int64: need 8 bytes, got fewer")
  else .ok (BitVec.ofNat 64 (fromBeBytes (bytes.take 8)) ^^^ int64SignMask,8)

/-- Two digits of a byte in a message. -/
def hexByte (b : Byte) : String := String.ofList [Nat.digitChar (b.val / 16),Nat.digitChar (b.val % 16)]

def decodeBoolean : Bytes → Except Error (Bool × Nat)
  | [] => .error (.storageCorrupted "decode_boolean: need 1 byte, got 0")
  | b::_ =>
    if b = 0x00 then .ok (false,1)
    else if b = 0x01 then .ok (true,1)
    else .error (.storageCorrupted s!"decode_boolean: invalid byte 0x{hexByte b}")

/-- Without the zero bytes at the end. -/
def stripPadding (raw : Bytes) : Bytes := (raw.reverse.dropWhile (fun b => decide (b = 0))).reverse

def textOf (raw : Bytes) (message : String) : Except Error Text :=
  if h : validUtf8 raw = true then .ok ⟨raw,h⟩ else .error (.storageCorrupted message)

def decodeChar (targetLen : Nat) : Except Error (Text × Nat) :=
  if bytes.length < targetLen then
    .error (.storageCorrupted s!"decode_char: need {targetLen} bytes, got {bytes.length}")
  else (textOf (stripPadding (bytes.take targetLen)) "decode_char: invalid UTF-8").map (·,targetLen)

def decodeEscaped : Bytes → Except Error (Bytes × Nat)
  | [] => .error (.storageCorrupted "decode_escaped: missing terminator")
  | [b] =>
    if b = 0x00 then .error (.storageCorrupted "decode_escaped: truncated after 0x00")
    else .error (.storageCorrupted "decode_escaped: missing terminator")
  | a::b::bs =>
    if a = 0x00 then
      if b = 0x00 then .ok ([],2)
      else if b = 0xFF then (decodeEscaped bs).map (fun (out,n) => (0x00::out,n + 2))
      else .error (.storageCorrupted s!"decode_escaped: invalid escape 0x00 0x{hexByte b}")
    else (decodeEscaped (b::bs)).map (fun (out,n) => (a::out,n + 1))

def decodeOne (ty : ColumnType) : Except Error (Value × Nat) :=
  match bytes with
  | [] => .error (.storageCorrupted "decode_one: empty input")
  | sentinel::body =>
    if sentinel = nullSentinel then .ok (.null,1)
    else if sentinel ≠ presentSentinel then
      .error (.storageCorrupted s!"decode_one: invalid sentinel 0x{hexByte sentinel}")
    else match ty with
      | .int32 => (decodeInt32 body).map (fun (n,consumed) => (.int32 n,1 + consumed))
      | .date => (decodeInt32 body).map (fun (days,consumed) => (.date days,1 + consumed))
      | .boolean => (decodeBoolean body).map (fun (b,consumed) => (.boolean b,1 + consumed))
      | .int64 => (decodeInt64 body).map (fun (n,consumed) => (.int64 n,1 + consumed))
      | .timestamp => (decodeInt64 body).map (fun (t,consumed) => (.timestamp t,1 + consumed))
      | .decimal _ scale => (decodeInt64 body).map (fun (mantissa,consumed) => (.decimal ⟨mantissa,scale⟩,1 + consumed))
      | .char n => (decodeChar body n.val).map (fun (s,consumed) => (.char s,1 + consumed))
      | .varchar _ => do
        let (raw,consumed) ← decodeEscaped body
        let s ← textOf raw "decode Varchar: invalid UTF-8"
        return (.varchar s,1 + consumed)
      | .bytes _ => (decodeEscaped body).map (fun (raw,consumed) => (.bytes raw,1 + consumed))

/-- The values of the components and what is left behind them. -/
def decodeAll : Bytes → List ColumnType → Except Error (List Value × Bytes)
  | bytes, [] => .ok ([],bytes)
  | bytes, ty::types => do
    let (value,consumed) ← decodeOne bytes ty
    let (values,rest) ← decodeAll (bytes.drop consumed) types
    return (value::values,rest)

def decodeKeyComponents (types : List ColumnType) : Except Error (List Value) := do
  let (values,rest) ← decodeAll bytes types
  if rest = [] then return values
  else .error (.storageCorrupted
    s!"trailing bytes after decoding {types.length} components: {rest.length} unread")

private def incrementReversed : Bytes → Option Bytes
  | [] => none
  | b::bs => if b.val < 0xFF then some ((b + 1)::bs) else incrementReversed bs

/-- The least byte string above every extension of a prefix; there is none above bytes 255. -/
def prefixIncrement : Option Bytes := (incrementReversed bytes.reverse).map List.reverse

/-- The upper end of a scan over the extensions of a prefix. -/
def prefixEnd : Bound Bytes :=
  match prefixIncrement bytes with
  | some upper => .excluded upper
  | none => .unbounded

@[simp] theorem length_encodeInt32 (n : BitVec 32) : (encodeInt32 n).length = 4 := length_toBeBytes _ _

@[simp] theorem length_encodeInt64 (n : BitVec 64) : (encodeInt64 n).length = 8 := length_toBeBytes _ _

theorem decodeInt32_encodeInt32 (n : BitVec 32) (rest : Bytes) : decodeInt32 (encodeInt32 n ++ rest) = .ok (n,4) := by
  have hval : fromBeBytes (encodeInt32 n) = (n ^^^ int32SignMask).toNat := fromBeBytes_toBeBytes_of_lt (BitVec.isLt _)
  rw [decodeInt32,if_neg (by simp),take_left' (by simp),hval,BitVec.ofNat_toNat,BitVec.setWidth_eq,
    BitVec.xor_assoc,BitVec.xor_self,BitVec.xor_zero]

theorem decodeInt64_encodeInt64 (n : BitVec 64) (rest : Bytes) : decodeInt64 (encodeInt64 n ++ rest) = .ok (n,8) := by
  have hval : fromBeBytes (encodeInt64 n) = (n ^^^ int64SignMask).toNat := fromBeBytes_toBeBytes_of_lt (BitVec.isLt _)
  rw [decodeInt64,if_neg (by simp),take_left' (by simp),hval,BitVec.ofNat_toNat,BitVec.setWidth_eq,
    BitVec.xor_assoc,BitVec.xor_self,BitVec.xor_zero]

theorem decodeEscaped_encodeEscaped (bs rest : Bytes) :
    decodeEscaped (encodeEscaped bs ++ rest) = .ok (bs,(encodeEscaped bs).length) := by
  induction bs with
  | nil => simp [encodeEscaped,decodeEscaped]
  | cons b bs ih =>
    rw [encodeEscaped]
    split_ifs with hb
    · subst hb
      simp [decodeEscaped,ih,Except.map]
    · obtain ⟨c,cs,hc⟩ : ∃ c cs, encodeEscaped bs ++ rest = c::cs := by
        cases bs with
        | nil => exact ⟨_,_,rfl⟩
        | cons x xs =>
          rw [encodeEscaped]
          split_ifs <;> exact ⟨_,_,rfl⟩
      rw [cons_append,hc,decodeEscaped,if_neg hb,← hc,ih]
      rfl

theorem stripPadding_padded {s : Bytes} (hs : (0 : Byte) ∉ s) (k : Nat) : stripPadding (s ++ List.replicate k 0) = s := by
  have hdrop : (s.reverse).dropWhile (fun b => decide (b = 0)) = s.reverse := by
    cases hr : s.reverse with
    | nil => rfl
    | cons b bs =>
      have hb : b ≠ 0 := by
        rintro rfl
        exact hs (mem_reverse.mp (hr ▸ mem_cons_self))
      rw [dropWhile_cons,if_neg (by simpa using hb)]
  rw [stripPadding,reverse_append,reverse_replicate,dropWhile_append_of_pos (by simp),hdrop,
    reverse_reverse]

theorem textOf_val (s : Text) (message : String) : textOf s.val message = .ok s := dif_pos s.2

theorem decodeChar_encodeChar {s : Text} {n : Nat} (h : encodeChar s.val n = .ok bs) (rest : Bytes) :
    decodeChar (bs ++ rest) n = .ok (s,n) ∧ bs.length = n := by
  unfold encodeChar at h
  split_ifs at h with hz hn
  cases h
  have hlen : (s.val ++ replicate (n - s.val.length) 0).length = n := by
    simp only [length_append,length_replicate]
    omega
  refine ⟨?_,hlen⟩
  rw [decodeChar,if_neg (by rw [length_append, hlen]; omega),take_left' hlen,stripPadding_padded hz,
    textOf_val]
  rfl

/-- A component decodes to what was encoded, whatever follows it. -/
theorem decodeOne_encodeOne {v : Value} {ty : ColumnType} (hm : v.matchesType ty = true)
    (h : encodeOne v ty = .ok bs) (rest : Bytes) : decodeOne (bs ++ rest) ty = .ok (v,bs.length) := by
  cases v with
  | null =>
    cases h
    rfl
  | int32 | date =>
    cases ty <;> cases h
    simp [decodeOne,nullSentinel,presentSentinel,decodeInt32_encodeInt32,Except.map]
  | int64 | timestamp =>
    cases ty <;> cases h
    simp [decodeOne,nullSentinel,presentSentinel,decodeInt64_encodeInt64,Except.map]
  | boolean b =>
    cases ty <;> cases h
    cases b <;> rfl
  | decimal d =>
    cases ty <;> cases h
    cases of_decide_eq_true hm
    simp [decodeOne,nullSentinel,presentSentinel,decodeInt64_encodeInt64,Except.map]
  | varchar s =>
    cases ty <;> cases h
    simp [decodeOne,nullSentinel,presentSentinel,decodeEscaped_encodeEscaped,textOf_val,bind,Except.bind,pure,
      Except.pure,Nat.add_comm]
  | bytes b =>
    cases ty <;> cases h
    simp [decodeOne,nullSentinel,presentSentinel,decodeEscaped_encodeEscaped,Except.map,Nat.add_comm]
  | char s =>
    cases ty with
    | char n =>
      obtain ⟨raw,hc,rfl⟩ := map_eq_ok h
      obtain ⟨hd,hl⟩ := decodeChar_encodeChar hc rest
      simp [decodeOne,nullSentinel,presentSentinel,hd,hl,Except.map,Nat.add_comm]
    | _ => cases h

def Fits (values : List Value) (types : List ColumnType) : Prop :=
  List.Forall₂ (fun v ty => Value.matchesType v ty = true) values types

theorem encodeAll_cons {v : Value} {ty : ColumnType} (h : encodeAll (v::vs) (ty::types) = .ok bs) :
    ∃ b rest, encodeOne v ty = .ok b ∧ encodeAll vs types = .ok rest ∧ bs = b ++ rest := by
  obtain ⟨b,hb,h⟩ := bind_eq_ok h
  obtain ⟨rest,hr,h⟩ := bind_eq_ok h
  cases h
  exact ⟨b,rest,hb,hr,rfl⟩

theorem decodeAll_encodeAll (hf : Fits values types)
    (h : encodeAll values types = .ok bs) (rest : Bytes) : decodeAll (bs ++ rest) types = .ok (values,rest) := by
  induction hf generalizing bs with
  | nil =>
    cases h
    rfl
  | cons hm hf ih =>
    obtain ⟨b,tail,hb,ht,rfl⟩ := encodeAll_cons h
    rw [decodeAll,append_assoc,decodeOne_encodeOne hm hb]
    simp only [bind,Except.bind,drop_left,ih ht]
    rfl

theorem decodeKeyComponents_encodeKeyComponents (hf : Fits values types) (h : encodeKeyComponents values types = .ok bs) :
    decodeKeyComponents bs types = .ok values := by
  rw [encodeKeyComponents,if_neg (not_not.mpr hf.length_eq)] at h
  have hd := decodeAll_encodeAll hf h []
  rw [append_nil] at hd
  simp [decodeKeyComponents,hd,bind,Except.bind,pure,Except.pure]

theorem encodeAll_append (hl : vs.length = ts.length) (h : encodeAll (vs ++ ws) (ts ++ us) = .ok full) :
    ∃ a b, encodeAll vs ts = .ok a ∧ encodeAll ws us = .ok b ∧ full = a ++ b := by
  induction vs generalizing ts full with
  | nil =>
    obtain rfl := length_eq_zero_iff.mp hl.symm
    exact ⟨[],full,rfl,h,rfl⟩
  | cons v vs ih =>
    cases ts with
    | nil => simp at hl
    | cons t ts =>
      obtain ⟨b,rest,hb,hrest,rfl⟩ := encodeAll_cons h
      obtain ⟨x,y,hx,hy,rfl⟩ := ih (by simpa using hl) hrest
      refine ⟨b ++ x,y,?_,hy,by simp⟩
      simp [encodeAll,hb,hx,bind,Except.bind,pure,Except.pure]

/-- A key begins with the encoding of some components exactly if they are its leading ones. -/
theorem isPrefixOf_iff {qs : List Value} (hf : Fits vs ts) (hq : Fits qs ts)
    {p : Bytes} (h : encodeAll (vs ++ ws) (ts ++ us) = .ok full) (hp : encodeAll qs ts = .ok p) :
    p <+: full ↔ qs = vs := by
  obtain ⟨a,b,ha,-,rfl⟩ := encodeAll_append hf.length_eq h
  constructor
  · rintro ⟨r,hr⟩
    have h1 := decodeAll_encodeAll hq hp r
    rw [hr,decodeAll_encodeAll hf ha b] at h1
    exact (Prod.mk.inj (ok.inj h1)).1.symm
  · rintro rfl
    obtain rfl : p = a := ok.inj (hp.symm.trans ha)
    exact prefix_append _ _

private theorem incrementReversed_append (xs : Bytes) (b : Byte) :
    incrementReversed (xs ++ [b]) =
      match incrementReversed xs with
      | some ys => some (ys ++ [b])
      | none => if b.val < 0xFF then some [b + 1] else none := by
  induction xs with
  | nil => rfl
  | cons x xs ih =>
    rw [cons_append,incrementReversed,incrementReversed]
    by_cases hx : x.val < 0xFF
    · rw [if_pos hx,if_pos hx]
      rfl
    · rw [if_neg hx,if_neg hx]
      exact ih

theorem prefixIncrement_cons (b : Byte) (bs : Bytes) :
    prefixIncrement (b::bs) =
      match prefixIncrement bs with
      | some upper => some (b::upper)
      | none => if b.val < 0xFF then some [b + 1] else none := by
  rw [prefixIncrement,prefixIncrement,reverse_cons,incrementReversed_append]
  cases incrementReversed bs.reverse with
  | some ys => simp
  | none =>
    split_ifs <;> rfl

theorem prefixEnd_cons (b c : Byte) (bs cs : Bytes) :
    (prefixEnd (b::bs)).below (c::cs) = true ↔ c < b ∨ (c = b ∧ (prefixEnd bs).below cs = true) := by
  unfold prefixEnd
  rw [prefixIncrement_cons]
  cases prefixIncrement bs with
  | some upper => simp [Bound.below,cons_lt_cons_iff]
  | none =>
    simp only [Bound.below,and_true,Fin.lt_def,Fin.ext_iff]
    split_ifs with hlt
    · have hval : (b + 1).val = b.val + 1 := by
        exact Nat.mod_eq_of_lt (by simp; omega)
      simp only [decide_eq_true_eq,cons_lt_cons_iff,not_lt_nil,and_false,or_false,Fin.lt_def,hval]
      omega
    · simp only [true_iff]
      omega

/-- The scan from a prefix to its end finds the keys with this prefix. -/
theorem prefixEnd_iff (p k : Bytes) :
    (Bound.included p).above k = true ∧ (prefixEnd p).below k = true ↔ p <+: k := by
  induction p generalizing k with
  | nil => simp [Bound.above,Bound.below,prefixEnd,prefixIncrement,incrementReversed,Bytes.nil_le]
  | cons b bs ih =>
    cases k with
    | nil => simp [Bound.above,← not_lt]
    | cons c cs =>
      rw [prefixEnd_cons,cons_prefix_cons,← ih cs]
      simp only [Bound.above,decide_eq_true_eq,Bytes.cons_le_iff]
      constructor
      · rintro ⟨h1 | ⟨rfl,h1⟩,h2 | ⟨h2,h3⟩⟩
        · exact absurd h1 h2.not_gt
        · exact absurd h1 (h2 ▸ lt_irrefl _)
        · exact absurd h2 (lt_irrefl _)
        · exact ⟨rfl,h1,h3⟩
      · rintro ⟨rfl,h1,h2⟩
        exact ⟨.inr ⟨rfl,h1⟩,.inr ⟨rfl,h2⟩⟩

end KeyEnc
end InterchangeDb
