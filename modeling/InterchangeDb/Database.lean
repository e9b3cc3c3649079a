import InterchangeDb.Txn.Manager
import InterchangeDb.Txn.Gc
import InterchangeDb.Wal.Recovery

/-! The WAL-enabled database. Each call is one atomic step; a call without result has failed an assertion. -/
namespace InterchangeDb

structure Database where
  engine : Engine
  /-- What the engine has on disk since its last flush. -/
  flushed : Engine
  wal : Wal
  mgr : TransactionManager

/-- What a database keeps outside of its transaction manager. -/
structure Storage where
  engine : Engine
  flushed : Engine
  wal : Wal

/-- An operation on the storage that failed: its error, and what it did to the storage. -/
structure Fault where
  error : Error
  damage : Storage → Storage

/-- The operations that fail during a call. -/
structure Faults where
  /-- Reading versions from the engine. -/
  read : Option Fault
  append : Option Fault
  sync : Option Fault
  /-- Writing a version to the engine. -/
  write : Option Fault
  flush : Option Fault
  truncate : Option Fault
  /-- A collection, in its own scan or in the scan after it. -/
  collect : Option Fault

abbrev Faults.none : Faults := ⟨.none,.none,.none,.none,.none,.none,.none⟩

def Fault.leave (x : Fault) (db : Database) : Database :=
  let left := x.damage ⟨db.engine,db.flushed,db.wal⟩
  ⟨left.engine,left.flushed,left.wal,db.mgr⟩

def Fault.fail {α : Type} (x : Fault) (db : Database) : Database × Except Error α := (x.leave db,.error x.error)

namespace Database
variable (db : Database)

/-- Read view, visibility and the version that supplies a read. -/
def txnFind (txnId : Nat) (key : Bytes) :
    Option (Except Error (Option (Nat × MvccValue))) :=
  match db.mgr.readView txnId with
  | .error e => some (.error e)
  | .ok snapshot => mvccFind db.engine key (db.mgr.visible txnId snapshot)

def txnGet (txnId : Nat) (key : Bytes) : Option (Except Error (Option Bytes)) :=
  match db.mgr.readView txnId with
  | .error e => some (.error e)
  | .ok snapshot => mvccGet db.engine key (db.mgr.visible txnId snapshot)

def get (key : Bytes) : Option (Except Error (Option Bytes)) :=
  db.txnGet TxnId.autoCommit key

/-- All versions of a user key, for the write check. -/
def scanVersions (userKey : Bytes) : List (Bytes × Bytes) → Except Error (List VersionRef)
  | [] => .ok []
  | (encodedKey,encodedValue)::rest =>
    match decodeMvccKey encodedKey with
    | .error e => .error e
    | .ok (foundKey,versionTs) =>
      if foundKey ≠ userKey then .ok []
      else match decodeMvccValue encodedValue with
        | .error e => .error e
        | .ok v => (scanVersions userKey rest).map (⟨v.txnId,versionTs⟩ :: ·)

def checkWrite (userKey : Bytes) (beginTs : Nat) : Option (Except Error Unit) :=
  (scanUserKey db.engine userKey).map (fun entries => do
    let versions ← scanVersions userKey entries
    db.mgr.onWrite versions beginTs)

variable [Crc32]

def beginTxn (mode : TxnMode) (f : Faults := .none) : Option (Database × Except Error Nat) :=
  match db.mgr.begin mode Lsn.invalid with
  | none => none
  | some (mgr,.error e) => some ({ db with mgr },.error e)
  | some (mgr,.ok txnId) =>
    match mode with
    | .readOnly => some ({ db with mgr },.ok txnId)
    | .readWrite =>
      match f.append with
      | some x => some (x.fail { db with mgr })
      | none =>
        match db.wal.append (.begin txnId) with
        | none => none
        | some (wal,lsn) =>
          match mgr.updateLastLsn txnId lsn with
          | .error e => some ({ db with mgr, wal },.error e)
          | .ok mgr => some ({ db with mgr, wal },.ok txnId)

/-- Check a write and log it, under its versioned key. -/
def logWrite (txnId : Nat) (key : Bytes) (value : MvccValue) (f : Faults := .none) :
    Option (Database × Except Error Bytes) :=
  match db.mgr.transaction txnId with
  | .error e => some (db,.error e)
  | .ok txn =>
    if txn.mode = .readOnly then some (db,.error (.txnReadOnly txnId))
    else match f.read with
      | some x => some (x.fail db)
      | none =>
        match db.checkWrite key txn.beginTs with
        | none => none
        | some (.error e) => some (db,.error e)
        | some (.ok _) =>
          match encodeMvccKey key txn.beginTs with
          | none => none
          | some mvccKey =>
            match f.append with
            | some x => some (x.fail db)
            | none =>
              match db.wal.append (.txnPut txnId txn.lastLsn mvccKey (encodeMvccValue value) none) with
              | none => none
              | some (wal,lsn) =>
                match db.mgr.updateLastLsn txnId lsn with
                | .error e => some ({ db with wal },.error e)
                | .ok mgr => some ({ db with wal, mgr },.ok mvccKey)

/-- The common body of put and delete: check, log, apply. -/
def write (txnId : Nat) (key : Bytes) (value : MvccValue) (f : Faults := .none) :
    Option (Database × Except Error Unit) :=
  match db.logWrite txnId key value f with
  | none => none
  | some (db,.error e) => some (db,.error e)
  | some (db,.ok mvccKey) =>
    match f.write with
    | some x => some (x.fail db)
    | none => some ({ db with engine := db.engine.put mvccKey (encodeMvccValue value) },.ok ())

def lockForWrite (txnId : Nat) (key : Bytes) : Database × Except Error Unit :=
  let (lockManager,r) := db.mgr.lockManager.acquire txnId key .exclusive
  ({ db with mgr := { db.mgr with lockManager } },r)

omit [Crc32] in
def afterLock (txnId : Nat) (key : Bytes) (body : Database → Option (Database × Except Error Unit)) :
    Option (Database × Except Error Unit) :=
  match db.lockForWrite txnId key with
  | (db,.error e) => some (db,.error e)
  | (db,.ok _) => body db

def txnPut (txnId : Nat) (key value : Bytes) (f : Faults := .none) :
    Option (Database × Except Error Unit) :=
  db.afterLock txnId key (·.write txnId key (.value txnId value) f)

def txnDelete (txnId : Nat) (key : Bytes) (f : Faults := .none) :
    Option (Database × Except Error Unit) :=
  db.afterLock txnId key (·.write txnId key (.tombstone txnId) f)

def releaseAll (m : TransactionManager) (txnId : Nat) : TransactionManager :=
  { m with lockManager := m.lockManager.releaseAll txnId }

/-- The end of a commit: the locks go, then the entry in the active set. -/
def finishCommit (mgr : TransactionManager) (wal : Wal) (txnId : Nat) : Database × Except Error Unit :=
  match (releaseAll mgr txnId).commit txnId with
  | .error e => ({ db with wal, mgr := releaseAll mgr txnId },.error e)
  | .ok mgr => ({ db with wal, mgr },.ok ())

def commitTxn (txnId : Nat) (f : Faults := .none) : Option (Database × Except Error Unit) :=
  match db.mgr.transaction txnId with
  | .error e => some (db,.error e)
  | .ok txn =>
    match db.mgr.validateCommit txnId with
    | none => none
    | some (mgr,.error e) => some ({ db with mgr },.error e)
    | some (mgr,.ok commitTs) =>
      if txn.mode = .readWrite then
        match f.append with
        | some x => some (x.fail { db with mgr })
        | none =>
          match db.wal.append (.commit txnId txn.lastLsn commitTs) with
          | none => none
          | some (wal,lsn) =>
            match f.sync with
            | some x => some (x.fail { db with wal, mgr })
            | none => some (db.finishCommit mgr (wal.syncTo lsn) txnId)
      else some (db.finishCommit mgr db.wal txnId)

def txnAbort (txnId : Nat) (f : Faults := .none) : Option (Database × Except Error Unit) :=
  match db.mgr.transaction txnId with
  | .error e => some (db,.error e)
  | .ok txn =>
    match f.append with
    | some x => some (x.fail db)
    | none =>
      match db.wal.append (.abort txnId txn.lastLsn) with
      | none => none
      | some (wal,lsn) =>
        match f.sync with
        | some x => some (x.fail { db with wal })
        | none =>
          match (releaseAll db.mgr txnId).abort txnId with
          | .error e => some ({ db with wal := wal.syncTo lsn, mgr := releaseAll db.mgr txnId },.error e)
          | .ok mgr => some ({ db with wal := wal.syncTo lsn, mgr },.ok ())

/-- Flush, log the checkpoint record, sync, truncate, then raise the watermark
and prune the committed map. -/
def checkpoint (f : Faults := .none) : Option (Database × Except Error Unit) :=
  match f.flush.or (f.append.or (f.sync.or f.truncate)) with
  | some x => some (x.fail db)
  | none =>
    let oracleTs := db.mgr.nextTs
    match db.wal.append (.checkpoint db.mgr.activeTxnIds oracleTs db.mgr.nextTxnId) with
    | none => none
    | some (wal,lsn) =>
      let wal := (wal.sync.truncateBefore lsn).setLastCheckpointLsn lsn
      let mgr := db.mgr.setCheckpointTs oracleTs
      let bound := min (mgr.oldestActive oracleTs) oracleTs
      some ({ db with flushed := db.engine, wal, mgr := mgr.pruneCommittedBelow bound },.ok ())

omit [Crc32] in
/-- A read finds out whether its transaction is active before it reads. -/
def readFault (txnId : Nat) (f : Faults) : Option Fault :=
  f.read.filter (fun _ => (db.mgr.readView txnId).isOk)

def lowWaterMark : Nat := db.mgr.oldestActive db.mgr.nextTs

def gcView : GcView :=
  ⟨db.lowWaterMark, db.mgr.committedTxns, db.mgr.checkpointTs, db.mgr.knownNotCommitted⟩

/-- Collect, then forget the aborted transactions that own no version any more. -/
def gc : Database × GcStats :=
  let collected := gcCollect db.engine db.gcView
  let aborted := db.mgr.abortedTxns
  let safeToForget := aborted \ stillPresent collected.1 aborted
  ({ db with engine := collected.1, mgr := db.mgr.removeAbortedTxns safeToForget },collected.2)

omit [Crc32] in
/-- Seed the transaction manager from what the log says. -/
def seed (policy : IsolationPolicy) (stats : RecoveryStats) : Option TransactionManager := do
  let mgr ← (TransactionManager.withPolicy policy).loadCommittedTxns stats.committedTxns
  let mgr := (mgr.loadUncommittedTxns stats.uncommittedTxns).advanceNextTxnIdPast stats.maxTxnId
  if 0 < stats.checkpointOracleTs then
    (mgr.setCheckpointTs (max mgr.checkpointTs stats.checkpointOracleTs)).advanceOraclePast stats.checkpointOracleTs
  else return mgr

omit [Crc32] in
def openRecovered (policy : IsolationPolicy) (wal : Wal) (engine : Engine) :
    Except Error (Engine × RecoveryStats) → Option (Except Error Database)
  | .error e => some (.error e)
  | .ok (recovered,stats) => (seed policy stats).map (fun mgr => .ok ⟨recovered, engine, wal, mgr⟩)

/-- Open a log directory over an engine: resume the log, recover, and seed the
transaction manager. -/
def openInner (segments : Segments) (engine : Engine) (policy : IsolationPolicy) :
    Option (Except Error Database) :=
  let wal := Wal.openDir segments
  openRecovered policy wal engine (recover wal.writer.segments engine wal.lastCheckpointLsn)

end Database
end InterchangeDb
