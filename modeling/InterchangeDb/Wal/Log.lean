import InterchangeDb.Wal.Record

/-! The log on disk: segment files, the writer, the reader, and the facade with its durability marks. -/
namespace InterchangeDb

/-- The segment files of a log directory with their ids, in ascending order. -/
abbrev Segments := List (Nat × Bytes)

def defaultMaxSegmentSize : Nat := 16 * 1024 * 1024
def maxSegments : Nat := 100000
def maxRecoveryRecords : Nat := 100000000

variable [Crc32]

/-- Decode from the start of a segment up to its end or the first bytes that do
not decode. -/
def scanSegment (data : Bytes) : List LogRecord × Option Error :=
  scanFrames LogRecord.decode data.length data

/-- The sequence number of the last record of a segment that decodes. -/
def highestLsn (data : Bytes) : Option Nat := (scanSegment data).1.getLast?.map (·.lsn)

/-- The appending side. The active segment holds what is in its file and in the
buffer before it; the first durable bytes are known to be on disk. -/
structure WalWriter where
  closed : Segments
  activeSegmentId : Nat
  active : Bytes
  durable : Nat
  nextLsn : Nat
  maxSegmentSize : Nat

namespace WalWriter

def create : WalWriter := ⟨[], 0, [], 0, 0, defaultMaxSegmentSize⟩

/-- Resume from the files of a directory. The last segment is opened for append
as it is, torn tail included. -/
def openDir (segments : Segments) : WalWriter :=
  match segments.getLast? with
  | none => create
  | some (lastId,lastData) =>
    let highest := (highestLsn lastData).or
      (segments.dropLast.reverse.findSome? (fun s => highestLsn s.2))
    ⟨segments.dropLast, lastId, lastData, lastData.length, highest.elim 0 (· + 1), defaultMaxSegmentSize⟩

/-- The directory as a reader finds it once the buffer is flushed. -/
def segments (w : WalWriter) : Segments := w.closed ++ [(w.activeSegmentId,w.active)]

/-- Sync and close the active segment, and open the next one. -/
def rotateSegment (w : WalWriter) : Option WalWriter :=
  if w.activeSegmentId + 1 < maxSegments then
    some { w with closed := w.segments, activeSegmentId := w.activeSegmentId + 1, active := [], durable := 0 }
  else none

/-- Assign the next sequence number and write the record. A record too large, a
segment id or a sequence number past its end fails an assertion. -/
def append (w : WalWriter) (record : LogRecord) : Option (WalWriter × Nat) :=
  if w.nextLsn < u64Max then do
    let lsn := w.nextLsn
    let encoded ← LogRecord.encode { record with lsn }
    let w' ←
      if 0 < w.active.length ∧ w.maxSegmentSize < w.active.length + encoded.length then w.rotateSegment
      else some w
    return ({ w' with active := w'.active ++ encoded, nextLsn := lsn + 1 },lsn)
  else none

/-- Flush the buffer and fsync the active segment. -/
def sync (w : WalWriter) : WalWriter := { w with durable := w.active.length }

end WalWriter

/-- What the forward iterator yields when nothing bounds it: records from a
sequence number on, segment by segment. A torn tail ends the last segment and
is corruption in an earlier one. -/
def forwardItems (startLsn : Nat) : Segments → List (Except Error LogRecord)
  | [] => []
  | (id,data)::rest =>
    let scanned := scanSegment data
    let records := (scanned.1.filter (fun r => decide (startLsn ≤ r.lsn))).map Except.ok
    match scanned.2 with
    | none => records ++ forwardItems startLsn rest
    | some e =>
      if rest = [] then records
      else records ++ [.error (.storageCorrupted s!"WAL corruption in segment {id}: {Error.display e}")]

/-- The bound on yielded records, checked before anything else is read. -/
def boundItems : Nat → List (Except Error LogRecord) → List (Except Error LogRecord)
  | 0, _ => [.error (.storageCorrupted s!"WAL recovery exceeded {maxRecoveryRecords} records")]
  | _+1, [] => []
  | _+1, (.error e)::_ => [.error e]
  | n+1, (.ok r)::rest => .ok r :: boundItems n rest

def scanForward (segments : Segments) (startLsn : Nat) : List (Except Error LogRecord) :=
  boundItems maxRecoveryRecords (forwardItems startLsn segments)

def collectItems : List (Except Error LogRecord) → Except Error (List LogRecord)
  | [] => .ok []
  | (.error e)::_ => .error e
  | (.ok r)::rest => (collectItems rest).map (r :: ·)

/-- The records before the first error. -/
def okItems : List (Except Error LogRecord) → List LogRecord
  | (.ok r)::rest => r :: okItems rest
  | _ => []

structure Wal where
  writer : WalWriter
  lastCheckpointLsn : Nat
  syncedLsn : Nat

namespace Wal

def findLastCheckpoint (segments : Segments) : Nat :=
  (okItems (scanForward segments 0)).foldl
    (fun last r => if r.payload.recordType = .checkpoint then r.lsn else last) Lsn.invalid

def openDir (segments : Segments) : Wal :=
  let writer := WalWriter.openDir segments
  ⟨writer, findLastCheckpoint writer.segments, 0⟩

def append (w : Wal) (record : LogRecord) : Option (Wal × Nat) := do
  let (writer,lsn) ← w.writer.append record
  return ({ w with writer },lsn)

def sync (w : Wal) : Wal :=
  { w with writer := w.writer.sync, syncedLsn := max w.syncedLsn (w.writer.nextLsn - 1) }

/-- Group commit, led by the caller unless its record is already covered. -/
def syncTo (w : Wal) (targetLsn : Nat) : Wal :=
  if targetLsn ≤ w.syncedLsn then w else w.sync

def setLastCheckpointLsn (w : Wal) (lsn : Nat) : Wal := { w with lastCheckpointLsn := lsn }

/-- Delete the segments before the active one whose records all lie below. -/
def truncateBefore (w : Wal) (lsn : Nat) : Wal :=
  { w with writer := { w.writer with closed := w.writer.closed.filter (fun s =>
      match highestLsn s.2 with
      | some h => !(Lsn.isValid h && decide (h < lsn))
      | none => true) } }

end Wal
end InterchangeDb
