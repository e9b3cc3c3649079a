import InterchangeDb.Common
import InterchangeDb.Lib.FrameLog

/-! Log records and their binary form. -/
namespace InterchangeDb

/-- The checksum of the record trailer, computed by an external library. -/
class Crc32 where
  hash : Bytes → Nat
  hash_lt : ∀ bs, hash bs < 2^32

namespace Crc32

private def shift (crc : Nat) : Nat := if crc % 2 = 1 then (crc / 2) ^^^ 0xEDB88320 else crc / 2

private def update (crc : Nat) (b : Byte) : Nat := shift^[8] (crc ^^^ b.val)

private theorem shift_lt {crc : Nat} (h : crc < 2^32) : shift crc < 2^32 := by
  unfold shift
  split_ifs
  · exact Nat.xor_lt_two_pow (by omega) (by norm_num)
  · omega

private theorem iterate_shift_lt {crc : Nat} (n : Nat) (h : crc < 2^32) : shift^[n] crc < 2^32 := by
  induction n generalizing crc with
  | zero => exact h
  | succ n ih => exact ih (shift_lt h)

private theorem update_lt {crc : Nat} (b : Byte) (h : crc < 2^32) : update crc b < 2^32 :=
  iterate_shift_lt 8 (Nat.xor_lt_two_pow h (lt_trans b.isLt (by norm_num)))

private theorem foldl_update_lt {crc : Nat} (bs : Bytes) (h : crc < 2^32) : bs.foldl update crc < 2^32 := by
  induction bs generalizing crc with
  | nil => exact h
  | cons b bs ih => exact ih (update_lt b h)

/-- The reflected IEEE polynomial with inverted start and result. -/
instance ieee : Crc32 where
  hash bs := bs.foldl update 0xFFFFFFFF ^^^ 0xFFFFFFFF
  hash_lt bs := Nat.xor_lt_two_pow (foldl_update_lt bs (by norm_num)) (by norm_num)

end Crc32

/-- A 32-bit number as 0x and eight hexadecimal digits. -/
def hex32 (n : Nat) : String :=
  String.ofList ('0' :: 'x' :: (List.range 8).map (fun i => Nat.digitChar (n / 16^(7-i) % 16)))

inductive LogRecordType where
  | put
  | delete
  | begin
  | commit
  | abort
  | checkpoint
  | txnPut
  | txnDelete
  deriving DecidableEq, Repr

namespace LogRecordType

def toU8 : LogRecordType → Byte
  | .put => 1
  | .delete => 2
  | .begin => 3
  | .commit => 4
  | .abort => 5
  | .checkpoint => 6
  | .txnPut => 7
  | .txnDelete => 8

def fromU8 (value : Byte) : Option LogRecordType :=
  match value.val with
  | 1 => some .put
  | 2 => some .delete
  | 3 => some .begin
  | 4 => some .commit
  | 5 => some .abort
  | 6 => some .checkpoint
  | 7 => some .txnPut
  | 8 => some .txnDelete
  | _ => none

theorem fromU8_toU8 (t : LogRecordType) : fromU8 t.toU8 = some t := by
  cases t <;> rfl

end LogRecordType

inductive LogPayload where
  | put (key value : Bytes)
  | delete (key : Bytes)
  | begin
  | commit (commitTs : Nat)
  | abort
  | checkpoint (activeTxnIds : List Nat) (oracleTs nextTxnId : Nat)
  | txnPut (key value : Bytes) (oldValue : Option Bytes)
  | txnDelete (key : Bytes) (oldValue : Option Bytes)
  deriving DecidableEq, Repr

structure LogRecord where
  lsn : Nat
  txnId : Nat
  prevLsn : Nat
  payload : LogPayload
  deriving DecidableEq, Repr

def headerSize : Nat := 29
def crcSize : Nat := 4
def minRecordSize : Nat := headerSize + crcSize
def maxRecordSize : Nat := 64 * 1024 * 1024

def LogPayload.recordType : LogPayload → LogRecordType
  | .put _ _ => .put
  | .delete _ => .delete
  | .begin => .begin
  | .commit _ => .commit
  | .abort => .abort
  | .checkpoint _ _ _ => .checkpoint
  | .txnPut _ _ _ => .txnPut
  | .txnDelete _ _ => .txnDelete

/-- A byte string behind the low 16 bits of its length. -/
def encodeField (bs : Bytes) : Bytes := toLeBytes 2 bs.length ++ bs

def encodeOldValue : Option Bytes → Bytes
  | some ov => 1 :: encodeField ov
  | none => [0]

def LogPayload.encode : LogPayload → Bytes
  | .put key value => encodeField key ++ encodeField value
  | .delete key => encodeField key
  | .begin => []
  | .commit commitTs => toLeBytes 8 commitTs
  | .abort => []
  | .checkpoint ids oracleTs nextTxnId =>
    toLeBytes 4 ids.length ++ (ids.flatMap (toLeBytes 8) ++ (toLeBytes 8 oracleTs ++ toLeBytes 8 nextTxnId))
  | .txnPut key value old => encodeField key ++ (encodeField value ++ encodeOldValue old)
  | .txnDelete key old => encodeField key ++ encodeOldValue old

/-- The optional old value at the end of a transactional payload. -/
def decodeOldValue (name : String) (buf : Bytes) (oo : Nat) : Except Error (Option Bytes) :=
  if buf.getD oo 0 = 1 then
    if buf.length < oo + 3 then .error (.storageCorrupted s!"WAL {name} truncated at old_len")
    else
      let ol := readLe 2 buf (oo + 1)
      if buf.length < oo + 3 + ol then .error (.storageCorrupted s!"WAL {name} truncated at old_value")
      else .ok (some (slice buf (oo + 3) ol))
  else .ok none

def LogPayload.decode (recordType : LogRecordType) (buf : Bytes) : Except Error LogPayload :=
  match recordType with
  | .put =>
    if buf.length < 4 then .error (.storageCorrupted "WAL Put payload too short")
    else
      let keyLen := readLe 2 buf 0
      if buf.length < 2 + keyLen + 2 then .error (.storageCorrupted "WAL Put payload truncated at key")
      else
        let valOffset := 2 + keyLen
        let valLen := readLe 2 buf valOffset
        if buf.length < valOffset + 2 + valLen then
          .error (.storageCorrupted "WAL Put payload truncated at value")
        else .ok (.put (slice buf 2 keyLen) (slice buf (valOffset + 2) valLen))
  | .delete =>
    if buf.length < 2 then .error (.storageCorrupted "WAL Delete payload too short")
    else
      let keyLen := readLe 2 buf 0
      if buf.length < 2 + keyLen then .error (.storageCorrupted "WAL Delete payload truncated")
      else .ok (.delete (slice buf 2 keyLen))
  | .begin => .ok .begin
  | .commit =>
    if buf.length < 8 then .error (.storageCorrupted "WAL Commit payload too short")
    else .ok (.commit (readLe 8 buf 0))
  | .abort => .ok .abort
  | .checkpoint =>
    if buf.length < 4 then .error (.storageCorrupted "WAL Checkpoint payload too short")
    else
      let count := readLe 4 buf 0
      if buf.length < 4 + count * 8 then
        .error (.storageCorrupted "WAL Checkpoint payload truncated")
      else
        let ids := (List.range count).map (fun i => readLe 8 buf (4 + i * 8))
        let tsOffset := 4 + count * 8
        -- older records end before the oracle timestamp or the next id
        let oracleTs := if tsOffset + 8 ≤ buf.length then readLe 8 buf tsOffset else 0
        let nidOffset := tsOffset + 8
        let nextTxnId := if nidOffset + 8 ≤ buf.length then readLe 8 buf nidOffset else 0
        .ok (.checkpoint ids oracleTs nextTxnId)
  | .txnPut =>
    if buf.length < 4 then .error (.storageCorrupted "WAL TxnPut too short")
    else
      let keyLen := readLe 2 buf 0
      if buf.length < 2 + keyLen + 2 then .error (.storageCorrupted "WAL TxnPut truncated at key")
      else
        let vo := 2 + keyLen
        let valLen := readLe 2 buf vo
        if buf.length < vo + 2 + valLen + 1 then
          .error (.storageCorrupted "WAL TxnPut truncated at value")
        else do
          let old ← decodeOldValue "TxnPut" buf (vo + 2 + valLen)
          return .txnPut (slice buf 2 keyLen) (slice buf (vo + 2) valLen) old
  | .txnDelete =>
    if buf.length < 2 then .error (.storageCorrupted "WAL TxnDelete too short")
    else
      let keyLen := readLe 2 buf 0
      if buf.length < 2 + keyLen + 1 then .error (.storageCorrupted "WAL TxnDelete truncated")
      else do
        let old ← decodeOldValue "TxnDelete" buf (2 + keyLen)
        return .txnDelete (slice buf 2 keyLen) old

namespace LogRecord

def begin (txnId : Nat) : LogRecord := ⟨Lsn.invalid, txnId, Lsn.invalid, .begin⟩
def commit (txnId prevLsn commitTs : Nat) : LogRecord := ⟨Lsn.invalid, txnId, prevLsn, .commit commitTs⟩
def abort (txnId prevLsn : Nat) : LogRecord := ⟨Lsn.invalid, txnId, prevLsn, .abort⟩
def txnPut (txnId prevLsn : Nat) (key value : Bytes) (oldValue : Option Bytes) : LogRecord :=
  ⟨Lsn.invalid, txnId, prevLsn, .txnPut key value oldValue⟩
def checkpoint (activeTxnIds : List Nat) (oracleTs nextTxnId : Nat) : LogRecord :=
  ⟨Lsn.invalid, 0, Lsn.invalid, .checkpoint activeTxnIds oracleTs nextTxnId⟩

def size (r : LogRecord) : Nat := headerSize + r.payload.encode.length + crcSize

/-- The bytes covered by the checksum. -/
def body (r : LogRecord) : Bytes :=
  toLeBytes 4 r.size ++ (r.payload.recordType.toU8 :: (toLeBytes 8 r.lsn ++
    (toLeBytes 8 r.txnId ++ (toLeBytes 8 r.prevLsn ++ r.payload.encode))))

variable [Crc32]

def bytes (r : LogRecord) : Bytes := r.body ++ toLeBytes 4 (Crc32.hash r.body)

/-- Oversized records fail the assertion. -/
def encode (r : LogRecord) : Option Bytes := if r.size ≤ maxRecordSize then some r.bytes else none

def decode (buf : Bytes) : Except Error (LogRecord × Nat) :=
  if buf.length < 4 then .error (.storageCorrupted "WAL record too short for length field")
  else
    let length := readLe 4 buf 0
    if length < minRecordSize then
      .error (.storageCorrupted s!"WAL record length {length} below minimum {minRecordSize}")
    else if maxRecordSize < length then
      .error (.storageCorrupted s!"WAL record length {length} exceeds maximum {maxRecordSize}")
    else if buf.length < length then
      .error (.storageCorrupted s!"WAL record truncated: need {length} bytes, have {buf.length}")
    else
      let recordBuf := buf.take length
      let storedCrc := readLe 4 recordBuf (length - 4)
      let computedCrc := Crc32.hash (recordBuf.take (length - 4))
      if storedCrc ≠ computedCrc then
        .error (.storageCorrupted
          s!"WAL record CRC mismatch: stored={hex32 storedCrc}, computed={hex32 computedCrc}")
      else
        let typeByte := recordBuf.getD 4 0
        match LogRecordType.fromU8 typeByte with
        | none => .error (.storageCorrupted s!"WAL invalid record type: {typeByte.val}")
        | some recordType => do
          let payload ← LogPayload.decode recordType (slice recordBuf headerSize (length - crcSize - headerSize))
          return (⟨readLe 8 recordBuf 5,readLe 8 recordBuf 13,readLe 8 recordBuf 21,payload⟩,length)

end LogRecord
end InterchangeDb
