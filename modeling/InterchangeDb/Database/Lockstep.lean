import InterchangeDb.Database.Calls

/-! Databases that differ in store and remembered aborts take the same steps while their write checks agree. -/
namespace InterchangeDb

namespace Database

/-- The database over another store, with another set of aborted transactions. -/
def withStore (db : Database) (engine : Engine) (aborted : Finset Nat) : Database :=
  { db with engine, mgr := { db.mgr with abortedTxns := aborted } }

def Alike (db db' : Database) : Prop := ∃ engine aborted, db' = db.withStore engine aborted

/-- Results that agree, over databases that are alike. -/
def AlikeResults {α : Type} (x y : Database × α) : Prop := y.2 = x.2 ∧ x.1.Alike y.1

private theorem begin_withAborted (m : TransactionManager) (aborted : Finset Nat) (mode : TxnMode) (lsn : Nat) :
    ({ m with abortedTxns := aborted } : TransactionManager).begin mode lsn =
      (m.begin mode lsn).map (fun x => ({ x.1 with abortedTxns := aborted },x.2)) := by
  unfold TransactionManager.begin TransactionManager.nextTimestamp
  by_cases hlim : maxActiveTransactions ≤ m.activeTxns.entries.length
  · simp [hlim]
  · by_cases hid : m.nextTxnId < u64Max <;> by_cases hts : m.nextTs < u64Max <;> simp [hlim,hid,hts]

section

variable [Crc32] {db db' : Database}

section

variable (h : db.Alike db')
include h

theorem beginTxn_alike (mode : TxnMode) :
    Option.Rel AlikeResults (db.beginTxn mode) (db'.beginTxn mode) := by
  obtain ⟨e,a,rfl⟩ := h
  unfold beginTxn
  simp only [withStore,begin_withAborted]
  cases db.mgr.begin mode Lsn.invalid with
  | none => exact .none
  | some x =>
    obtain ⟨m,r⟩ := x
    cases r with
    | error err => exact .some ⟨rfl,e,a,rfl⟩
    | ok t =>
      cases mode with
      | readOnly => exact .some ⟨rfl,e,a,rfl⟩
      | readWrite =>
        simp only [Option.map_some]
        cases db.wal.append (.begin t) with
        | none => exact .none
        | some y =>
          simp only [TransactionManager.updateLastLsn,TransactionManager.transaction]
          cases m.activeTxns.lookup t with
          | none | some => exact .some ⟨rfl,e,a,rfl⟩

private theorem write_alike {t : Nat} {k : Bytes} (v : MvccValue) (hcheck : ∀ b, db'.checkWrite k b = db.checkWrite k b) :
    Option.Rel AlikeResults (db.write t k v) (db'.write t k v) := by
  obtain ⟨e,a,rfl⟩ := h
  unfold write logWrite
  have htxn : (db.withStore e a).mgr.transaction t = db.mgr.transaction t := rfl
  rw [htxn]
  cases hlook : db.mgr.transaction t with
  | error err => exact .some ⟨rfl,e,a,rfl⟩
  | ok txn =>
    have hact := TransactionManager.transaction_eq_ok.mp hlook
    simp only [hcheck]
    split_ifs with hmode
    · exact .some ⟨rfl,e,a,rfl⟩
    · cases db.checkWrite k txn.beginTs with
      | none => exact .none
      | some r =>
        cases r with
        | error err => exact .some ⟨rfl,e,a,rfl⟩
        | ok _ =>
          cases encodeMvccKey k txn.beginTs with
          | none => exact .none
          | some key =>
            have hwal : (db.withStore e a).wal = db.wal := rfl
            simp only [hwal]
            cases db.wal.append (.txnPut t txn.lastLsn key (encodeMvccValue v) none) with
            | none => exact .none
            | some y =>
              simp only [TransactionManager.updateLastLsn_eq y.2 hact,
                TransactionManager.updateLastLsn_eq y.2
                  (show (db.withStore e a).mgr.activeTxns.lookup t = some txn from hact)]
              exact .some ⟨rfl,e.put key (encodeMvccValue v),a,rfl⟩

theorem txnWrite_alike {t : Nat} {k : Bytes} (v : MvccValue)
    (hcheck : ∀ b, (db'.locked t k).checkWrite k b = (db.locked t k).checkWrite k b) :
    Option.Rel AlikeResults (db.afterLock t k (·.write t k v)) (db'.afterLock t k (·.write t k v)) := by
  have hlocked : (db.locked t k).Alike (db'.locked t k) := by
    obtain ⟨e,a,rfl⟩ := h
    exact ⟨e,a,rfl⟩
  have hl : db.lockForWrite t k = (db.locked t k,(db.mgr.lockManager.acquire t k .exclusive).2) := rfl
  have hl' : db'.lockForWrite t k = (db'.locked t k,(db.mgr.lockManager.acquire t k .exclusive).2) := by
    obtain ⟨e,a,rfl⟩ := h
    rfl
  rw [afterLock,afterLock,hl,hl']
  cases (db.mgr.lockManager.acquire t k .exclusive).2 with
  | error err => exact .some ⟨rfl,hlocked⟩
  | ok _ => exact write_alike hlocked v hcheck

theorem commitTxn_alike (t : Nat) :
    Option.Rel AlikeResults (db.commitTxn t) (db'.commitTxn t) := by
  obtain ⟨e,a,rfl⟩ := h
  have hlook : (db.withStore e a).mgr.transaction t = db.mgr.transaction t := rfl
  have hvalid : (db.withStore e a).mgr.validateCommit t =
      (db.mgr.validateCommit t).map (fun x => ({ x.1 with abortedTxns := a },x.2)) := by
    unfold TransactionManager.validateCommit TransactionManager.assignCommitTs TransactionManager.nextTimestamp
    rw [hlook]
    by_cases hts : db.mgr.nextTs < u64Max <;> cases db.mgr.transaction t <;> simp [withStore,hts]
  unfold commitTxn
  rw [hlook,hvalid]
  cases db.mgr.transaction t with
  | error err => exact .some ⟨rfl,e,a,rfl⟩
  | ok txn =>
    cases db.mgr.validateCommit t with
    | none => exact .none
    | some x =>
      obtain ⟨m,r⟩ := x
      cases r with
      | error err => exact .some ⟨rfl,e,a,rfl⟩
      | ok c =>
        have hwal : (db.withStore e a).wal = db.wal := rfl
        have hfinish : ∀ wal, Option.Rel AlikeResults (some (db.finishCommit m wal t))
            (some ((db.withStore e a).finishCommit { m with abortedTxns := a } wal t)) := by
          intro wal
          simp only [finishCommit,releaseAll,TransactionManager.commit,TransactionManager.transaction]
          cases m.activeTxns.lookup t with
          | none | some => exact .some ⟨rfl,e,a,rfl⟩
        simp only [Option.map_some,hwal]
        split_ifs
        · cases db.wal.append (.commit t txn.lastLsn c) with
          | none => exact .none
          | some y => exact hfinish _
        · exact hfinish _

theorem txnAbort_alike (t : Nat) :
    Option.Rel AlikeResults (db.txnAbort t) (db'.txnAbort t) := by
  obtain ⟨e,a,rfl⟩ := h
  have htxn : (db.withStore e a).mgr.transaction t = db.mgr.transaction t := rfl
  have hwal : (db.withStore e a).wal = db.wal := rfl
  unfold txnAbort
  rw [htxn]
  cases hlook : db.mgr.transaction t with
  | error err => exact .some ⟨rfl,e,a,rfl⟩
  | ok txn =>
    have hact := TransactionManager.transaction_eq_ok.mp hlook
    simp only [hwal]
    cases db.wal.append (.abort t txn.lastLsn) with
    | none => exact .none
    | some y =>
      simp only [TransactionManager.abort_eq hact,TransactionManager.abort_eq
        (show (db.withStore e a).mgr.activeTxns.lookup t = some txn from hact)]
      exact .some ⟨rfl,e,insert t a,rfl⟩

end

end
end Database
end InterchangeDb
