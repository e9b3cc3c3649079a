import InterchangeDb.Txn.Mvcc

/-! Garbage collection of versions: one pass over all of them, user key by user key and newest first. -/
namespace InterchangeDb

structure GcStats where
  versionsScanned : Nat
  versionsRemoved : Nat
  tombstonesRemoved : Nat
  keysProcessed : Nat
  deriving DecidableEq, Repr

/-- What decides whether a version below the watermark is committed. -/
structure GcView where
  lowWaterMark : Nat
  committedTxns : CommittedTxns
  checkpointTs : Nat
  nonCommitted : Finset Nat

def GcView.isCommitted (g : GcView) (versionTxnId versionTs : Nat) : Bool :=
  decide (versionTxnId ∉ g.nonCommitted) &&
    ((g.committedTxns.lookup versionTxnId).isSome || decide (versionTs ≤ g.checkpointTs))

structure GcScan where
  currentUserKey : Option Bytes
  foundKeeper : Bool
  keysToDelete : List Bytes
  stats : GcStats

namespace GcScan

def new : GcScan := ⟨none, false, [], ⟨0, 0, 0, 0⟩⟩

def remove (s : GcScan) (encodedKey : Bytes) (v : MvccValue) : GcScan :=
  { s with
    keysToDelete := s.keysToDelete ++ [encodedKey]
    stats := match v with
      | .tombstone _ => { s.stats with tombstonesRemoved := s.stats.tombstonesRemoved + 1 }
      | .value _ _ => { s.stats with versionsRemoved := s.stats.versionsRemoved + 1 } }

/-- Count a version and reset the keeper at a new user key. -/
def enter (s : GcScan) (userKey : Bytes) : GcScan :=
  let scanned := { s.stats with versionsScanned := s.stats.versionsScanned + 1 }
  if s.currentUserKey = some userKey then { s with stats := scanned }
  else { s with
    currentUserKey := some userKey
    foundKeeper := false
    stats := { scanned with keysProcessed := scanned.keysProcessed + 1 } }

def step (g : GcView) (s : GcScan) (entry : Bytes × Bytes) : GcScan :=
  match decodeMvccKey entry.1 with
  | .error _ => s
  | .ok (userKey,versionTs) =>
    let s := s.enter userKey
    if g.lowWaterMark ≤ versionTs then s
    else match decodeMvccValue entry.2 with
      | .error _ => s
      | .ok v =>
        if !g.isCommitted v.txnId versionTs then s.remove entry.1 v
        else if !s.foundKeeper then { s with foundKeeper := true }
        else s.remove entry.1 v

end GcScan

def gcCollect (engine : Engine) (g : GcView) : Engine × GcStats :=
  let scan := (engine.scan .unbounded .unbounded).foldl (GcScan.step g) .new
  (scan.keysToDelete.foldl Engine.delete engine,scan.stats)

/-- The writers among some ids that still own a version. -/
def stillPresent (engine : Engine) (ids : Finset Nat) : Finset Nat :=
  ids.filter (fun t => (engine.scan .unbounded .unbounded).any (fun entry =>
    (decodeMvccKey entry.1).isOk &&
      match decodeMvccValue entry.2 with
      | .ok v => decide (v.txnId = t)
      | .error _ => false))

end InterchangeDb
