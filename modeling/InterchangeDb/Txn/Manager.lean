import InterchangeDb.Txn.Mvcc
import InterchangeDb.Txn.LockManager

/-! The transaction manager: identifiers, timestamps, the sets of transactions and the isolation policies. -/
namespace InterchangeDb

inductive TxnMode where
  | readOnly
  | readWrite
  deriving DecidableEq, Repr

structure Transaction where
  mode : TxnMode
  lastLsn : Nat
  beginTs : Nat
  snapshot : Snapshot
  deriving DecidableEq, Repr

inductive IsolationPolicy where
  | snapshotIsolation
  | readCommitted
  deriving DecidableEq, Repr

def maxActiveTransactions : Nat := 65536

structure TransactionManager where
  nextTxnId : Nat
  activeTxns : AList (fun _ : Nat => Transaction)
  lockManager : LockState
  /-- The timestamp oracle hands this out next. -/
  nextTs : Nat
  committedTxns : CommittedTxns
  uncommittedTxns : Finset Nat
  abortedTxns : Finset Nat
  checkpointTs : Nat
  policy : IsolationPolicy

/-- A version as the write check sees it. -/
structure VersionRef where
  txnId : Nat
  ts : Nat
  deriving DecidableEq, Repr

namespace TransactionManager
variable (m : TransactionManager)

def withPolicy (policy : IsolationPolicy) : TransactionManager :=
  ⟨1, ∅, .new, 1, ∅, ∅, ∅, 0, policy⟩

/-- The next timestamp; the oracle fails its assertion at the end of its range. -/
def nextTimestamp : Option (TransactionManager × Nat) :=
  if m.nextTs < u64Max then some ({ m with nextTs := m.nextTs + 1 },m.nextTs) else none

/-- Begin a transaction and return its identifier. Running out of identifiers
or timestamps ends the run. -/
def begin (mode : TxnMode) (startLsn : Nat) :
    Option (TransactionManager × Except Error Nat) :=
  if maxActiveTransactions ≤ m.activeTxns.entries.length then
    some (m,.error (.txnLimit maxActiveTransactions))
  else if m.nextTxnId < u64Max then do
    let (m',beginTs) ← m.nextTimestamp
    let txn : Transaction := ⟨mode, startLsn, beginTs, ⟨beginTs⟩⟩
    return ({ m' with nextTxnId := m.nextTxnId + 1, activeTxns := m.activeTxns.insert m.nextTxnId txn },
      .ok m.nextTxnId)
  else none

def transaction (txnId : Nat) : Except Error Transaction :=
  match m.activeTxns.lookup txnId with
  | some txn => .ok txn
  | none => .error (.txnNotActive txnId)

def lastLsn (txnId : Nat) : Except Error Nat := (m.transaction txnId).map (·.lastLsn)
def mode (txnId : Nat) : Except Error TxnMode := (m.transaction txnId).map (·.mode)
def beginTs (txnId : Nat) : Except Error Nat := (m.transaction txnId).map (·.beginTs)
def snapshot (txnId : Nat) : Except Error Snapshot :=
  (m.transaction txnId).map (·.snapshot)

def updateLastLsn (txnId lsn : Nat) : Except Error TransactionManager :=
  (m.transaction txnId).map (fun txn =>
    { m with activeTxns := m.activeTxns.insert txnId { txn with lastLsn := lsn } })

def commit (txnId : Nat) : Except Error TransactionManager :=
  (m.transaction txnId).map (fun _ => { m with activeTxns := m.activeTxns.erase txnId })

/-- Record the abort and remove the transaction from the active set. -/
def abort (txnId : Nat) : Except Error TransactionManager :=
  (m.transaction txnId).map (fun _ =>
    { m with activeTxns := m.activeTxns.erase txnId, abortedTxns := insert txnId m.abortedTxns })

/-- Assign a commit timestamp and publish the transaction as committed. -/
def assignCommitTs (txnId : Nat) :
    Option (TransactionManager × Except Error Nat) :=
  match m.transaction txnId with
  | .error e => some (m,.error e)
  | .ok _ => do
    let (m',commitTs) ← m.nextTimestamp
    return ({ m' with committedTxns := m.committedTxns.insert txnId commitTs },.ok commitTs)

def activeTxnIds : List Nat := m.activeTxns.entries.map (·.1)

def activeReadTimestamps : List Nat := m.activeTxns.entries.map (·.2.beginTs)

/-- The oldest active snapshot, or a default when nothing is active. -/
def oldestActive (default : Nat) : Nat := m.activeReadTimestamps.min?.getD default

def pruneCommittedBelow (bound : Nat) : TransactionManager :=
  { m with committedTxns := retain m.committedTxns (fun commitTs => decide (bound < commitTs)) }

/-- Every writer known not to have committed. -/
def knownNotCommitted : Finset Nat := m.uncommittedTxns ∪ m.abortedTxns

def removeAbortedTxns (ids : Finset Nat) : TransactionManager :=
  { m with abortedTxns := m.abortedTxns \ ids }

def setCheckpointTs (ts : Nat) : TransactionManager := { m with checkpointTs := ts }

def loadUncommittedTxns (txns : Finset Nat) : TransactionManager :=
  { m with uncommittedTxns := txns }

def advanceNextTxnIdPast (maxSeen : Nat) : TransactionManager :=
  { m with nextTxnId := max m.nextTxnId (maxSeen + 1) }

/-- Draw timestamps until the oracle is past a bound. -/
def advanceOraclePast (ts : Nat) : Option TransactionManager :=
  if m.nextTs ≤ ts then
    if ts < u64Max then some { m with nextTs := ts + 1 } else none
  else some m

/-- Seed the committed map from recovery; oracle and identifiers move past it,
and everything up to its last commit counts as before the checkpoint. -/
def loadCommittedTxns (recovered : CommittedTxns) : Option TransactionManager := do
  let maxTs := (recovered.entries.map (·.2)).foldr max 0
  let maxTxnId := (recovered.entries.map (·.1)).foldr max 0
  let m' ← { m with committedTxns := recovered }.advanceOraclePast maxTs
  return { m' with nextTxnId := max m.nextTxnId (maxTxnId + 1), checkpointTs := maxTs }

/-- The snapshot a read of a transaction uses under the policy. -/
def readView (txnId : Nat) : Except Error Snapshot :=
  match m.policy with
  | .snapshotIsolation =>
    if txnId = TxnId.autoCommit then .ok ⟨max m.nextTs m.checkpointTs⟩ else m.snapshot txnId
  | .readCommitted => .ok ⟨max m.nextTs m.checkpointTs⟩

/-- Visibility of a version, the same predicate for every policy. -/
def visible (txnId : Nat) (snapshot : Snapshot) (versionTxnId versionTs : Nat) : Bool :=
  isVisible versionTxnId versionTs txnId snapshot m.committedTxns m.checkpointTs m.knownNotCommitted

/-- The writer of the first version that committed after a snapshot. -/
def conflictingWriter (m : TransactionManager) (beginTs : Nat) : List VersionRef → Option Nat
  | [] => none
  | v::rest =>
    match m.committedTxns.lookup v.txnId with
    | some commitTs => if beginTs < commitTs then some v.txnId else m.conflictingWriter beginTs rest
    | none => m.conflictingWriter beginTs rest

/-- The policy's check of a write against the versions of the key: first
committer wins under snapshot isolation, no check under read committed. -/
def onWrite (versions : List VersionRef) (beginTs : Nat) : Except Error Unit :=
  match m.policy with
  | .snapshotIsolation =>
    match m.conflictingWriter beginTs versions with
    | some writer => .error (.writeConflict writer)
    | none => .ok ()
  | .readCommitted => .ok ()

def validateCommit (txnId : Nat) : Option (TransactionManager × Except Error Nat) :=
  m.assignCommitTs txnId

end TransactionManager
end InterchangeDb
