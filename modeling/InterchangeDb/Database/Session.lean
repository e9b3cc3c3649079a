import InterchangeDb.Database
import InterchangeDb.Lib.Run
import InterchangeDb.Txn.Machine

/-! Runs of the database under any interleaving of calls, with the history of its transactions. -/
namespace InterchangeDb

inductive Op where
  | begin (mode : TxnMode)
  | get (txnId : Nat) (key : Bytes)
  | put (txnId : Nat) (key value : Bytes)
  | delete (txnId : Nat) (key : Bytes)
  | commit (txnId : Nat)
  | abort (txnId : Nat)
  | checkpoint
  | gc
  deriving DecidableEq, Repr

inductive Outcome where
  | began (txnId : Nat)
  | read (value : Option Bytes)
  | done
  | collected (stats : GcStats)
  | failed (error : Error)
  deriving DecidableEq, Repr

def Outcome.ofUnit : Except Error Unit → Outcome
  | .ok _ => .done
  | .error e => .failed e

variable [Crc32]

namespace Database

def step (db : Database) (op : Op) (f : Faults := .none) : Option (Database × Outcome) :=
  match op with
  | .begin mode => (db.beginTxn mode f).map (fun (db',r) =>
      (db',match r with
        | .ok txnId => .began txnId
        | .error e => .failed e))
  | .get txnId key =>
    match db.readFault txnId f with
    | some x => some (x.leave db,.failed x.error)
    | none => (db.txnGet txnId key).map (fun r =>
      (db,match r with
        | .ok value => .read value
        | .error e => .failed e))
  | .put txnId key value => (db.txnPut txnId key value f).map (fun (db',r) => (db',.ofUnit r))
  | .delete txnId key => (db.txnDelete txnId key f).map (fun (db',r) => (db',.ofUnit r))
  | .commit txnId => (db.commitTxn txnId f).map (fun (db',r) => (db',.ofUnit r))
  | .abort txnId => (db.txnAbort txnId f).map (fun (db',r) => (db',.ofUnit r))
  | .checkpoint => (db.checkpoint f).map (fun (db',r) => (db',.ofUnit r))
  | .gc =>
    match f.collect with
    | some x => some (x.leave db,.failed x.error)
    | none => some (db.gc.1,.collected db.gc.2)

/-- What a call did to a transaction. Begin and commit draw the next timestamp
of the oracle. -/
def events (db : Database) : Op → Outcome → List Event
  | .begin _, .began txnId => [.began txnId db.mgr.nextTs]
  | .put txnId key value, .done => [.wrote txnId key (some value)]
  | .delete txnId key, .done => [.wrote txnId key none]
  | .commit txnId, .done => [.committed txnId db.mgr.nextTs]
  | .abort txnId, .done => [.aborted txnId]
  | _, _ => []

def fresh (policy : IsolationPolicy) : Database :=
  ⟨OrdMap.empty, OrdMap.empty, Wal.openDir [], .withPolicy policy⟩

end Database

structure Session where
  db : Database
  history : History

namespace Session

def init (policy : IsolationPolicy) : Session := ⟨.fresh policy, []⟩

def step (s : Session) (op : Op) : Option Session :=
  (s.db.step op).map (fun (db,outcome) => ⟨db, s.db.events op outcome ++ s.history⟩)

end Session
end InterchangeDb
