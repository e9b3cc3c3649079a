import InterchangeDb.Wal.Record

/-! Round trip of log records whose fields fit their widths; lengths of keys and values keep 16 bits. -/
namespace InterchangeDb
open List
variable {n o : Nat} {a b c : Bytes}

private theorem pow_le_of_u16 (h : n ≤ u16Max) : n % 256^2 = n :=
  Nat.mod_eq_of_lt (lt_of_le_of_lt h (by norm_num [u16Max]))

private theorem pow_le_of_u32 (h : n ≤ u32Max) : n % 256^4 = n :=
  Nat.mod_eq_of_lt (lt_of_le_of_lt h (by norm_num [u32Max]))

private theorem pow_le_of_u64 (h : n ≤ u64Max) : n % 256^8 = n :=
  Nat.mod_eq_of_lt (lt_of_le_of_lt h (by norm_num [u64Max]))

@[simp] theorem length_encodeField (bs : Bytes) : (encodeField bs).length = 2 + bs.length := by
  simp [encodeField]

private theorem readLe_field (ho : o = a.length) (h : b.length ≤ u16Max) :
    readLe 2 (a ++ (encodeField b ++ c)) o = b.length := by
  rw [encodeField,append_assoc,readLe_mid ho,pow_le_of_u16 h]

private theorem slice_field (ho : o = a.length + 2) :
    slice (a ++ (encodeField b ++ c)) o b.length = b := by
  rw [encodeField,append_assoc,← append_assoc]
  exact slice_mid (by simpa using ho) rfl

private theorem readLe_first (h : b.length ≤ u16Max) : readLe 2 (encodeField b ++ c) 0 = b.length := readLe_field (a := []) rfl h

private theorem slice_first : slice (encodeField b ++ c) 2 b.length = b := slice_field (a := []) rfl

private theorem readLe_second (h : b.length ≤ u16Max) :
    readLe 2 (encodeField a ++ (encodeField b ++ c)) (2 + a.length) = b.length := readLe_field (by simp) h

private theorem slice_second : slice (encodeField a ++ (encodeField b ++ c)) (2 + a.length + 2) b.length = b :=
  slice_field (by simp)

private theorem decodeOldValue_encodeOldValue {old : Option Bytes} (name : String) (h : ∀ ov ∈ old, ov.length ≤ u16Max) :
    decodeOldValue name (a ++ encodeOldValue old) a.length = .ok old := by
  cases old with
  | none => simp [decodeOldValue,encodeOldValue]
  | some ov =>
    have hov := h ov rfl
    have hsplit : a ++ encodeOldValue (some ov) = (a ++ [1]) ++ (encodeField ov ++ []) := by
      simp [encodeOldValue]
    have hread : readLe 2 (a ++ encodeOldValue (some ov)) (a.length + 1) = ov.length := by
      rw [hsplit]
      exact readLe_field (by simp) hov
    have hslice : slice (a ++ encodeOldValue (some ov)) (a.length + 3) ov.length = ov := by
      rw [hsplit]
      exact slice_field (by simp)
    have htag : (a ++ encodeOldValue (some ov)).getD a.length 0 = 1 := by
      simp [encodeOldValue]
    have hlen : (a ++ encodeOldValue (some ov)).length = a.length + 3 + ov.length := by
      simp [encodeOldValue]
      omega
    simp only [decodeOldValue,htag,hread,hslice,hlen,if_true]
    rw [if_neg (by omega),if_neg (by omega)]

private theorem readLe_ids (ids : List Nat) (h : ∀ i ∈ ids, i ≤ u64Max) (a c : Bytes) :
    (List.range ids.length).map (fun i => readLe 8 (a ++ (ids.flatMap (toLeBytes 8) ++ c)) (a.length + i * 8)) =
      ids := by
  induction ids generalizing a with
  | nil => rfl
  | cons x ids ih =>
    have hx : readLe 8 (a ++ ((x::ids).flatMap (toLeBytes 8) ++ c)) a.length = x := by
      rw [flatMap_cons,append_assoc,readLe_mid rfl,pow_le_of_u64 (h x mem_cons_self)]
    rw [length_cons,range_succ_eq_map,map_cons,map_map,zero_mul,add_zero,hx]
    apply congrArg (x :: ·)
    have hrest := ih (fun i hi => h i (mem_cons_of_mem _ hi)) (a ++ toLeBytes 8 x)
    simp only [append_assoc,length_append,length_toLeBytes] at hrest
    refine .trans (map_congr_left ?_) hrest
    intro i _
    simp only [Function.comp_apply,flatMap_cons,append_assoc]
    congr 1
    omega

/-- Every field of the payload fits its width. -/
def LogPayload.Fits : LogPayload → Prop
  | .put key value => key.length ≤ u16Max ∧ value.length ≤ u16Max
  | .delete key => key.length ≤ u16Max
  | .begin => True
  | .commit commitTs => commitTs ≤ u64Max
  | .abort => True
  | .checkpoint ids oracleTs nextTxnId =>
    ids.length ≤ u32Max ∧ (∀ i ∈ ids, i ≤ u64Max) ∧ oracleTs ≤ u64Max ∧ nextTxnId ≤ u64Max
  | .txnPut key value old => key.length ≤ u16Max ∧ value.length ≤ u16Max ∧ ∀ ov ∈ old, ov.length ≤ u16Max
  | .txnDelete key old => key.length ≤ u16Max ∧ ∀ ov ∈ old, ov.length ≤ u16Max

instance (p : LogPayload) : Decidable p.Fits := by
  cases p <;> unfold LogPayload.Fits <;> infer_instance

theorem LogPayload.decode_encode {p : LogPayload} (h : p.Fits) :
    LogPayload.decode p.recordType p.encode = .ok p := by
  cases p with
  | begin | abort => rfl
  | commit ts =>
    have hr : readLe 8 (toLeBytes 8 ts) 0 = ts := by
      have hmid := readLe_mid (a := []) (c := []) (w := 8) (n := ts) rfl
      rw [pow_le_of_u64 h] at hmid
      simpa using hmid
    simp [decode,recordType,encode,hr]
  | delete key =>
    have hencode : (delete key).encode = encodeField key ++ [] := (append_nil _).symm
    simp only [decode,recordType,hencode,readLe_first h,slice_first,length_append,length_encodeField]
    rw [if_neg (by omega),if_neg (by omega)]
  | put key value =>
    obtain ⟨hk,hv⟩ := h
    have hencode : (put key value).encode = encodeField key ++ (encodeField value ++ []) := by simp [encode]
    simp only [decode,recordType,hencode,readLe_first hk,slice_first,readLe_second hv,slice_second,
      length_append,length_encodeField]
    rw [if_neg (by omega),if_neg (by omega),if_neg (by omega)]
  | checkpoint ids ots nid =>
    obtain ⟨hc,hi,ho,hn⟩ := h
    have hr : readLe 4 (checkpoint ids ots nid).encode 0 = ids.length := by
      refine trans ?_ (pow_le_of_u32 hc)
      exact readLe_mid (a := []) rfl
    have hids : (range ids.length).map
        (fun i => readLe 8 (checkpoint ids ots nid).encode (4 + i * 8)) = ids := by
      have hread := readLe_ids ids hi (toLeBytes 4 ids.length) (toLeBytes 8 ots ++ toLeBytes 8 nid)
      rwa [length_toLeBytes] at hread
    have hots : readLe 8 (checkpoint ids ots nid).encode (4 + ids.length * 8) = ots := by
      rw [encode,← append_assoc,readLe_mid (by simp),pow_le_of_u64 ho]
    have hnid : readLe 8 (checkpoint ids ots nid).encode (4 + ids.length * 8 + 8) = nid := by
      have hmid := readLe_mid (a := toLeBytes 4 ids.length ++ (ids.flatMap (toLeBytes 8) ++ toLeBytes 8 ots))
        (c := []) (w := 8) (n := nid) (o := 4 + ids.length * 8 + 8) (by simp; omega)
      rw [pow_le_of_u64 hn] at hmid
      rw [encode]
      simpa [append_assoc] using hmid
    have hlen : (checkpoint ids ots nid).encode.length = 4 + ids.length * 8 + 16 := by
      simp [encode]
      omega
    simp only [decode,recordType,hr,hids,hots,hnid,hlen]
    rw [if_neg (by omega),if_neg (by omega),if_pos (by omega),if_pos (by omega)]
  | txnPut key value old =>
    obtain ⟨hk,hv,ho⟩ := h
    have hd : decodeOldValue "TxnPut" (encodeField key ++ (encodeField value ++ encodeOldValue old))
        (2 + key.length + 2 + value.length) = .ok old := by
      have hold := decodeOldValue_encodeOldValue (a := encodeField key ++ encodeField value) "TxnPut" ho
      simpa [← add_assoc] using hold
    have hold : 1 ≤ (encodeOldValue old).length := by cases old <;> simp [encodeOldValue]
    simp only [decode,recordType,encode,readLe_first hk,slice_first,readLe_second hv,
      slice_second,hd,length_append,length_encodeField]
    rw [if_neg (by omega),if_neg (by omega),if_neg (by omega)]
    rfl
  | txnDelete key old =>
    obtain ⟨hk,ho⟩ := h
    have hd : decodeOldValue "TxnDelete" (encodeField key ++ encodeOldValue old) (2 + key.length) = .ok old := by
      simpa using decodeOldValue_encodeOldValue (a := encodeField key) "TxnDelete" ho
    have hold : 1 ≤ (encodeOldValue old).length := by cases old <;> simp [encodeOldValue]
    simp only [decode,recordType,encode,readLe_first hk,slice_first,hd,length_append,
      length_encodeField]
    rw [if_neg (by omega),if_neg (by omega)]
    rfl

namespace LogRecord
variable {r : LogRecord}

/-- Every field of the record fits its width, and the record its size limit. -/
@[mk_iff]
structure Fits (r : LogRecord) : Prop where
  lsn : r.lsn < u64Max
  txnId : r.txnId ≤ u64Max
  prevLsn : r.prevLsn ≤ u64Max
  payload : r.payload.Fits
  size : r.size ≤ maxRecordSize

instance (r : LogRecord) : Decidable r.Fits := decidable_of_iff' _ (fits_iff r)

@[simp] theorem length_body (r : LogRecord) : r.body.length = r.size - crcSize := by
  simp [body,size,headerSize,crcSize]
  omega

private theorem readLe_length (h : r.Fits) {rest : Bytes} :
    readLe 4 (toLeBytes 4 r.size ++ rest) 0 = r.size := by
  have hmid := readLe_mid (a := []) (c := rest) (w := 4) (n := r.size) rfl
  rwa [Nat.mod_eq_of_lt (lt_of_le_of_lt h.size (by norm_num [maxRecordSize]))] at hmid

variable [Crc32]

@[simp] theorem length_bytes (r : LogRecord) : r.bytes.length = r.size := by
  simp [bytes,size,headerSize,crcSize]

private theorem bytes_append (r : LogRecord) (rest : Bytes) :
    r.bytes ++ rest = toLeBytes 4 r.size ++ (r.bytes.drop 4 ++ rest) := by
  simp [bytes,body]

private theorem header_fields (h : r.Fits) :
    r.bytes.getD 4 0 = r.payload.recordType.toU8 ∧ readLe 8 r.bytes 5 = r.lsn ∧
    readLe 8 r.bytes 13 = r.txnId ∧ readLe 8 r.bytes 21 = r.prevLsn ∧
    slice r.bytes headerSize r.payload.encode.length = r.payload.encode := by
  set crc := toLeBytes 4 (Crc32.hash r.body) with hcrc
  have hb : r.bytes = toLeBytes 4 r.size ++ (r.payload.recordType.toU8 :: (toLeBytes 8 r.lsn ++
      (toLeBytes 8 r.txnId ++ (toLeBytes 8 r.prevLsn ++ (r.payload.encode ++ crc))))) := by
    simp [bytes,body,hcrc]
  -- each field is the middle of a split at its offset
  set a1 := toLeBytes 4 r.size ++ [r.payload.recordType.toU8] with ha1
  set a2 := a1 ++ toLeBytes 8 r.lsn with ha2
  set a3 := a2 ++ toLeBytes 8 r.txnId with ha3
  set a4 := a3 ++ toLeBytes 8 r.prevLsn with ha4
  have h1 : r.bytes = a1 ++ (toLeBytes 8 r.lsn ++
      (toLeBytes 8 r.txnId ++ (toLeBytes 8 r.prevLsn ++ (r.payload.encode ++ crc)))) := by
    simp [hb,ha1]
  have h2 : r.bytes = a2 ++ (toLeBytes 8 r.txnId ++ (toLeBytes 8 r.prevLsn ++ (r.payload.encode ++ crc))) := by
    simp [h1,ha2]
  have h3 : r.bytes = a3 ++ (toLeBytes 8 r.prevLsn ++ (r.payload.encode ++ crc)) := by
    simp [h2,ha3]
  have h4 : r.bytes = a4 ++ (r.payload.encode ++ crc) := by
    simp [h3,ha4]
  refine ⟨?_,?_,?_,?_,?_⟩
  · simp [hb,getD]
  · rw [h1,readLe_mid (by simp [ha1]),pow_le_of_u64 h.lsn.le]
  · rw [h2,readLe_mid (by simp [ha1, ha2]),pow_le_of_u64 h.txnId]
  · rw [h3,readLe_mid (by simp [ha1, ha2, ha3]),pow_le_of_u64 h.prevLsn]
  · rw [h4]
    exact slice_mid (by simp [ha1,ha2,ha3,ha4,headerSize]) rfl

private theorem stored_crc (r : LogRecord) : readLe 4 r.bytes (r.size - 4) = Crc32.hash r.body := by
  have hmid := readLe_mid (a := r.body) (c := []) (w := 4) (n := Crc32.hash r.body) (o := r.size - 4)
    (length_body r).symm
  have hlt := Crc32.hash_lt r.body
  rw [Nat.mod_eq_of_lt (lt_of_lt_of_le hlt (by norm_num)),append_nil] at hmid
  exact hmid

theorem decode_bytes (h : r.Fits) (rest : Bytes) :
    decode (r.bytes ++ rest) = .ok (r,r.bytes.length) := by
  have hsize : r.size = 29 + r.payload.encode.length + 4 := rfl
  have hmin : minRecordSize = 33 := rfl
  have hlen : readLe 4 (r.bytes ++ rest) 0 = r.size := by
    rw [bytes_append]
    exact readLe_length h
  have htake : (r.bytes ++ rest).take r.size = r.bytes := take_left' (length_bytes r)
  have hbody : r.bytes.take (r.size - 4) = r.body := take_left' (length_body r)
  obtain ⟨htype,hlsn,htxn,hprev,hpay⟩ := header_fields h
  have hplen : r.size - crcSize - headerSize = r.payload.encode.length := by
    simp only [hsize,crcSize,headerSize]
    omega
  have hmax := h.size
  simp only [decode,hlen,htake,hbody,stored_crc,htype,hlsn,htxn,hprev,hplen,hpay,
    LogRecordType.fromU8_toU8,LogPayload.decode_encode h.payload,length_append,length_bytes]
  rw [if_neg (by omega),if_neg (by omega),if_neg (by omega),if_neg (by omega),if_neg (by simp)]
  rfl

/-- A cut inside a record leaves bytes that do not decode, whatever the checksum. -/
theorem decode_take (h : r.Fits) {n : Nat} (hn : n < r.bytes.length) :
    ∃ e, decode (r.bytes.take n) = .error e := by
  have hsize : r.size = 29 + r.payload.encode.length + 4 := rfl
  have hmin : minRecordSize = 33 := rfl
  have hmax := h.size
  rw [length_bytes] at hn
  have hl : (r.bytes.take n).length = n := by
    rw [length_take,length_bytes]
    omega
  by_cases h4 : n < 4
  · exact ⟨_,by rw [decode,hl,if_pos h4]⟩
  · have hlen : readLe 4 (r.bytes.take n) 0 = r.size := by
      have hsplit : r.bytes.take n = toLeBytes 4 r.size ++ (r.bytes.drop 4).take (n - 4) := by
        have hb := bytes_append r []
        rw [append_nil,append_nil] at hb
        conv_lhs => rw [hb]
        rw [take_append,length_toLeBytes,take_of_length_le (by simp; omega)]
      rw [hsplit]
      exact readLe_length h
    rw [decode]
    simp only [hlen,hl]
    rw [if_neg h4,if_neg (by omega),if_neg (by omega),if_pos hn]
    exact ⟨_,rfl⟩

theorem bytes_ne_nil (r : LogRecord) : r.bytes ≠ [] := by
  intro hnil
  have hlen := length_bytes r
  rw [hnil,length_nil,size,headerSize] at hlen
  omega

def codec : FrameCodec LogRecord Error where
  encode := bytes
  decode := decode
  Valid := Fits
  encode_ne_nil r _ := bytes_ne_nil r
  decode_encode _ rest h := decode_bytes h rest
  decode_torn _ _ h hn := decode_take h hn

end LogRecord
end InterchangeDb
