import InterchangeDb.Wal.Log

/-! Crash recovery: classify transactions from the log, then redo the writes of committed ones. -/
namespace InterchangeDb

structure Analysis where
  committed : AList (fun _ : Nat => Nat)
  aborted : Finset Nat
  checkpointOracleTs : Nat
  checkpointMaxTxnId : Nat

namespace Analysis

def new : Analysis := ⟨∅, ∅, 0, 0⟩

def step (a : Analysis) (r : LogRecord) : Analysis :=
  match r.payload with
  | .commit commitTs => { a with committed := a.committed.insert r.txnId commitTs }
  | .abort => { a with aborted := insert r.txnId a.aborted }
  | .checkpoint activeTxnIds oracleTs nextTxnId =>
    let candidate := max (activeTxnIds.foldr max 0) (nextTxnId - 1)
    { a with checkpointOracleTs := oracleTs,
             checkpointMaxTxnId := max a.checkpointMaxTxnId candidate }
  | _ => a

end Analysis

def analyzeTransactions (records : List LogRecord) : Analysis := records.foldl Analysis.step .new

/-- Replay one record; the count is of the records replayed. -/
def redoRecord (committed : Nat → Bool) (s : Engine × Nat) (r : LogRecord) : Engine × Nat :=
  match r.payload with
  | .put key value => (s.1.put key value,s.2 + 1)
  | .delete key => (s.1.delete key,s.2 + 1)
  | .txnPut key value _ => if committed r.txnId then (s.1.put key value,s.2 + 1) else s
  | .txnDelete key _ => if committed r.txnId then (s.1.delete key,s.2 + 1) else s
  | _ => s

def redoCommitted (engine : Engine) (records : List LogRecord) (committed : Nat → Bool) : Engine × Nat :=
  records.foldl (redoRecord committed) (engine,0)

structure RecoveryStats where
  recordsScanned : Nat
  recordsRedone : Nat
  txnsCommitted : Nat
  committedTxns : AList (fun _ : Nat => Nat)
  checkpointOracleTs : Nat
  uncommittedTxns : Finset Nat
  maxTxnId : Nat

/-- The transactions with a record in the log. -/
def seenTxns (records : List LogRecord) : Finset Nat :=
  ((records.map (·.txnId)).filter (· ≠ 0)).toFinset

/-- The three phases over the scanned records. -/
def recoverRecords (records : List LogRecord) (engine : Engine) : Engine × RecoveryStats :=
  let a := analyzeTransactions records
  let isCommitted := fun t => (a.committed.lookup t).isSome
  let redone := redoCommitted engine records isCommitted
  let uncommitted := (seenTxns records).filter (fun t => !isCommitted t && decide (t ∉ a.aborted))
  let maxTxnId := max ((records.map (·.txnId)).foldr max 0) a.checkpointMaxTxnId
  (redone.1,⟨records.length, redone.2, a.committed.entries.length, a.committed, a.checkpointOracleTs,
    uncommitted, maxTxnId⟩)

variable [Crc32]

def recover (segments : Segments) (engine : Engine) (lastCheckpointLsn : Nat) :
    Except Error (Engine × RecoveryStats) := do
  let startLsn := if Lsn.isValid lastCheckpointLsn then lastCheckpointLsn else 0
  let records ← collectItems (scanForward segments startLsn)
  return recoverRecords records engine

end InterchangeDb
