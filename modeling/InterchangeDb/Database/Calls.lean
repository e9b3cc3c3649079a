import InterchangeDb.Database.Session

/-! What each call can do: one lemma for each, with the state it leaves. -/
namespace InterchangeDb
open Option

namespace TransactionManager
variable {m m' : TransactionManager} {t lsn : Nat} {txn : Transaction} {mode : TxnMode} {r : Except Error Nat}

theorem transaction_eq_ok :
    m.transaction t = .ok txn ↔ m.activeTxns.lookup t = some txn := by
  unfold transaction
  cases m.activeTxns.lookup t <;> simp

theorem transaction_error {e : Error} (h : m.transaction t = .error e) : m.activeTxns.lookup t = none := by
  refine eq_none_iff_forall_ne_some.mpr (fun txn htxn => ?_)
  rw [transaction_eq_ok.mpr htxn] at h
  cases h

def started (m : TransactionManager) (mode : TxnMode) (lsn : Nat) : TransactionManager :=
  { m with
    nextTxnId := m.nextTxnId + 1
    nextTs := m.nextTs + 1
    activeTxns := m.activeTxns.insert m.nextTxnId ⟨mode, lsn, m.nextTs, ⟨m.nextTs⟩⟩ }

/-- After a record of an active transaction has been logged. -/
def logged (m : TransactionManager) (t : Nat) (txn : Transaction) (lsn : Nat) : TransactionManager :=
  { m with activeTxns := m.activeTxns.insert t { txn with lastLsn := lsn } }

def committed (m : TransactionManager) (t : Nat) : TransactionManager :=
  { m with
    nextTs := m.nextTs + 1
    committedTxns := m.committedTxns.insert t m.nextTs
    activeTxns := m.activeTxns.erase t
    lockManager := m.lockManager.releaseAll t }

def aborted (m : TransactionManager) (t : Nat) : TransactionManager :=
  { m with
    activeTxns := m.activeTxns.erase t
    abortedTxns := insert t m.abortedTxns
    lockManager := m.lockManager.releaseAll t }

theorem begin_cases (h : m.begin mode lsn = some (m',r)) :
    (r = .error (.txnLimit maxActiveTransactions) ∧ m' = m ∧ maxActiveTransactions ≤ m.activeTxns.entries.length) ∨
    (r = .ok m.nextTxnId ∧ m.nextTxnId < u64Max ∧ m.nextTs < u64Max ∧ m' = m.started mode lsn ∧
      ¬maxActiveTransactions ≤ m.activeTxns.entries.length) := by
  unfold begin at h
  split_ifs at h with hlim hid
  · cases h
    exact .inl ⟨rfl,rfl,hlim⟩
  · unfold nextTimestamp at h
    split_ifs at h with hts
    · cases h
      exact .inr ⟨rfl,hid,hts,rfl,hlim⟩
    · cases h

theorem updateLastLsn_eq (lsn : Nat)
    (h : m.activeTxns.lookup t = some txn) : m.updateLastLsn t lsn = .ok (m.logged t txn lsn) := by
  rw [updateLastLsn,transaction_eq_ok.mpr h]
  rfl

theorem started_logged (m : TransactionManager) (mode : TxnMode) (lsn lsn' : Nat) :
    (m.started mode lsn).updateLastLsn m.nextTxnId lsn' = .ok (m.started mode lsn') := by
  rw [updateLastLsn_eq lsn' (AList.lookup_insert _)]
  simp [logged,started,AList.insert_insert]

theorem lookup_pruned {bound t c : Nat} :
    (m.pruneCommittedBelow bound).committedTxns.lookup t = some c ↔ m.committedTxns.lookup t = some c ∧ bound < c := by
  rw [pruneCommittedBelow,lookup_retain,decide_eq_true_eq]

theorem lookup_pruned_cases (m : TransactionManager) (bound t : Nat) :
    (m.pruneCommittedBelow bound).committedTxns.lookup t = m.committedTxns.lookup t ∨
    ∃ c ≤ bound, m.committedTxns.lookup t = some c ∧ (m.pruneCommittedBelow bound).committedTxns.lookup t = none := by
  cases hpruned : (m.pruneCommittedBelow bound).committedTxns.lookup t with
  | some c => exact .inl (lookup_pruned.mp hpruned).1.symm
  | none =>
    cases hc : m.committedTxns.lookup t with
    | none => exact .inl rfl
    | some c =>
      refine .inr ⟨c,not_lt.mp (fun hlt => ?_),rfl,rfl⟩
      rw [lookup_pruned.mpr ⟨hc,hlt⟩] at hpruned
      cases hpruned

/-- After a commit timestamp has been assigned. -/
def stamped (m : TransactionManager) (t : Nat) : TransactionManager :=
  { m with nextTs := m.nextTs + 1, committedTxns := m.committedTxns.insert t m.nextTs }

section

variable (hact : m.activeTxns.lookup t = some txn)
include hact

theorem validateCommit_cases (h : m.validateCommit t = some (m',r)) :
    m.nextTs < u64Max ∧ r = .ok m.nextTs ∧ m' = m.stamped t := by
  rw [validateCommit,assignCommitTs,transaction_eq_ok.mpr hact] at h
  unfold nextTimestamp at h
  split_ifs at h with hts
  · cases h
    exact ⟨hts,rfl,rfl⟩
  · cases h

theorem commit_eq :
    (Database.releaseAll (m.stamped t) t).commit t = .ok (m.committed t) := by
  have hact' : (Database.releaseAll (m.stamped t) t).activeTxns.lookup t = some txn := hact
  rw [commit,transaction_eq_ok.mpr hact']
  rfl

theorem abort_eq :
    (Database.releaseAll m t).abort t = .ok (m.aborted t) := by
  have hact' : (Database.releaseAll m t).activeTxns.lookup t = some txn := hact
  rw [abort,transaction_eq_ok.mpr hact']
  rfl

end

end TransactionManager

/-- The transaction, the key and the version of a write call. -/
def Op.write? : Op → Option (Nat × Bytes × MvccValue)
  | .put t k v => some (t,k,.value t v)
  | .delete t k => some (t,k,.tombstone t)
  | _ => none

theorem Op.write_eq {op : Op} {t : Nat} {k : Bytes} {v : MvccValue} (h : op.write? = some (t,k,v)) :
    v.txnId = t ∧ ∀ db : Database, db.events op .done = [.wrote t k v.data] := by
  cases op with
  | put | delete =>
    cases h
    exact ⟨rfl,fun _ => rfl⟩
  | begin | get | commit | abort | checkpoint | gc => cases h

namespace Database

variable [Crc32] {db db' : Database}
variable {r : Except Error Unit} {t lsn : Nat} {txn : Transaction}

theorem beginTxn_cases {mode : TxnMode} {r : Except Error Nat} (h : db.beginTxn mode = some (db',r)) :
    (r = .error (.txnLimit maxActiveTransactions) ∧ db' = db) ∨
    (∃ wal lsn, r = .ok db.mgr.nextTxnId ∧ db.mgr.nextTxnId < u64Max ∧ db.mgr.nextTs < u64Max ∧
      ((mode = .readOnly ∧ wal = db.wal ∧ lsn = Lsn.invalid) ∨
        (mode = .readWrite ∧ db.wal.append (.begin db.mgr.nextTxnId) = some (wal,lsn))) ∧
      db' = { db with wal, mgr := db.mgr.started mode lsn }) := by
  unfold beginTxn at h
  cases hb : db.mgr.begin mode Lsn.invalid with
  | none => simp [hb] at h
  | some x =>
    obtain ⟨m,rb⟩ := x
    simp only [hb] at h
    rcases TransactionManager.begin_cases hb with ⟨rfl,rfl,-⟩ | ⟨rfl,hid,hts,rfl,-⟩
    · cases h
      exact .inl ⟨rfl,rfl⟩
    · cases mode with
      | readOnly =>
        cases h
        exact .inr ⟨_,Lsn.invalid,rfl,hid,hts,.inl ⟨rfl,rfl,rfl⟩,rfl⟩
      | readWrite =>
        cases ha : db.wal.append (.begin db.mgr.nextTxnId) with
        | none => simp [ha] at h
        | some y =>
          obtain ⟨wal,lsn⟩ := y
          simp only [ha,TransactionManager.started_logged] at h
          cases h
          exact .inr ⟨wal,lsn,rfl,hid,hts,.inr ⟨rfl,rfl⟩,rfl⟩

/-- A write is refused, fails on the storage, or is logged. -/
theorem logWrite_cases {k : Bytes} {v : MvccValue} {f : Faults} {r : Except Error Bytes} (h : db.logWrite t k v f = some (db',r)) :
    (∃ e, r = .error e ∧ db' = db ∧ db.logWrite t k v = some (db',r)) ∨
    (∃ x, (f.read = some x ∨ f.append = some x) ∧ r = .error x.error ∧ db' = x.leave db) ∨
    (∃ txn wal lsn, r = .ok (mvccKey k txn.beginTs) ∧ db.mgr.activeTxns.lookup t = some txn ∧ txn.mode = .readWrite ∧
      db.checkWrite k txn.beginTs = some (.ok ()) ∧ k.length ≤ u32Max ∧
      db.wal.append (.txnPut t txn.lastLsn (mvccKey k txn.beginTs) (encodeMvccValue v) none) = some (wal,lsn) ∧
      db' = { db with wal, mgr := db.mgr.logged t txn lsn } ∧ db.logWrite t k v = some (db',r)) := by
  unfold logWrite at h ⊢
  cases ht : db.mgr.transaction t with
  | error e =>
    simp only [ht] at h
    cases h
    exact .inl ⟨e,rfl,rfl,rfl⟩
  | ok txn =>
    have hlook := TransactionManager.transaction_eq_ok.mp ht
    simp only [ht] at h ⊢
    split_ifs at h ⊢ with hmode
    · cases h
      exact .inl ⟨_,rfl,rfl,rfl⟩
    · cases hread : f.read with
      | some x =>
        simp only [hread] at h
        cases h
        exact .inr (.inl ⟨x,.inl rfl,rfl,rfl⟩)
      | none =>
        simp only [hread] at h
        cases hc : db.checkWrite k txn.beginTs with
        | none => simp [hc] at h
        | some rc =>
          cases rc with
          | error e =>
            simp only [hc] at h
            cases h
            exact .inl ⟨e,rfl,rfl,rfl⟩
          | ok u =>
            simp only [hc,encodeMvccKey] at h ⊢
            split_ifs at h ⊢ with hk
            · cases happ : f.append with
              | some x =>
                simp only [happ] at h
                cases h
                exact .inr (.inl ⟨x,.inr rfl,rfl,rfl⟩)
              | none =>
                cases ha : db.wal.append
                    (.txnPut t txn.lastLsn (mvccKey k txn.beginTs) (encodeMvccValue v) none) with
                | none => simp [happ,ha] at h
                | some y =>
                  obtain ⟨wal,lsn⟩ := y
                  simp only [happ,ha,TransactionManager.updateLastLsn_eq lsn hlook] at h ⊢
                  cases h
                  have hrw : txn.mode = .readWrite := by
                    cases hm : txn.mode with
                    | readOnly => exact absurd hm hmode
                    | readWrite => rfl
                  exact .inr (.inr ⟨txn,wal,lsn,rfl,hlook,hrw,hc,hk,ha,rfl,rfl⟩)

theorem write_cases {k : Bytes} {v : MvccValue} (h : db.write t k v = some (db',r)) :
    (∃ e, r = .error e ∧ db' = db) ∨
    (∃ txn wal lsn, r = .ok () ∧ db.mgr.activeTxns.lookup t = some txn ∧ txn.mode = .readWrite ∧
      db.checkWrite k txn.beginTs = some (.ok ()) ∧ k.length ≤ u32Max ∧
      db.wal.append (.txnPut t txn.lastLsn (mvccKey k txn.beginTs) (encodeMvccValue v) none) = some (wal,lsn) ∧
      db' = { db with
        wal
        mgr := db.mgr.logged t txn lsn
        engine := db.engine.put (mvccKey k txn.beginTs) (encodeMvccValue v) }) := by
  unfold write at h
  cases hl : db.logWrite t k v with
  | none => simp [hl] at h
  | some y =>
    obtain ⟨db₁,r₁⟩ := y
    rcases logWrite_cases hl with ⟨e,rfl,rfl,-⟩ | ⟨x,hx,-⟩ | ⟨txn,wal,lsn,rfl,hlook,hmode,hc,hk,ha,rfl,-⟩
    · rw [hl] at h
      cases h
      exact .inl ⟨e,rfl,rfl⟩
    · simp at hx
    · rw [hl] at h
      cases h
      exact .inr ⟨txn,wal,lsn,rfl,hlook,hmode,hc,hk,ha,rfl⟩

def locked (db : Database) (t : Nat) (k : Bytes) : Database :=
  { db with mgr := { db.mgr with lockManager := (db.mgr.lockManager.acquire t k .exclusive).1 } }

omit [Crc32] in
theorem afterLock_eq (db : Database) (t : Nat) (k : Bytes) :
    (∃ e, (db.mgr.lockManager.acquire t k .exclusive).2 = .error e ∧
      ∀ body, db.afterLock t k body = some (db.locked t k,.error e)) ∨
    ((db.mgr.lockManager.acquire t k .exclusive).2 = .ok () ∧ ∀ body, db.afterLock t k body = body (db.locked t k)) := by
  have hl : db.lockForWrite t k = (db.locked t k,(db.mgr.lockManager.acquire t k .exclusive).2) := rfl
  cases hr : (db.mgr.lockManager.acquire t k .exclusive).2 with
  | error e => exact .inl ⟨e,rfl,fun body => by simp only [afterLock,hl,hr]⟩
  | ok u => exact .inr ⟨rfl,fun body => by simp only [afterLock,hl,hr]⟩

theorem commitTxn_cases (h : db.commitTxn t = some (db',r)) :
    (∃ e, r = .error e ∧ db' = db ∧ db.mgr.activeTxns.lookup t = none) ∨
    (∃ txn wal, r = .ok () ∧ db.mgr.activeTxns.lookup t = some txn ∧ db.mgr.nextTs < u64Max ∧
      ((txn.mode = .readOnly ∧ wal = db.wal) ∨ (txn.mode = .readWrite ∧ ∃ w lsn,
        db.wal.append (.commit t txn.lastLsn db.mgr.nextTs) = some (w,lsn) ∧ wal = w.syncTo lsn)) ∧
      db' = { db with wal, mgr := db.mgr.committed t }) := by
  unfold commitTxn at h
  cases ht : db.mgr.transaction t with
  | error e =>
    simp only [ht] at h
    cases h
    exact .inl ⟨e,rfl,rfl,TransactionManager.transaction_error ht⟩
  | ok txn =>
    have hlook := TransactionManager.transaction_eq_ok.mp ht
    simp only [ht] at h
    cases hv : db.mgr.validateCommit t with
    | none => simp [hv] at h
    | some x =>
      obtain ⟨m,rc⟩ := x
      obtain ⟨hts,rfl,rfl⟩ := TransactionManager.validateCommit_cases hlook hv
      simp only [hv,finishCommit,TransactionManager.commit_eq hlook] at h
      cases hmode : txn.mode with
      | readOnly =>
        rw [if_neg (by simp [hmode])] at h
        cases h
        exact .inr ⟨txn,db.wal,rfl,hlook,hts,.inl ⟨hmode,rfl⟩,rfl⟩
      | readWrite =>
        rw [if_pos hmode] at h
        cases ha : db.wal.append (.commit t txn.lastLsn db.mgr.nextTs) with
        | none => simp [ha] at h
        | some y =>
          obtain ⟨w,lsn⟩ := y
          simp only [ha] at h
          cases h
          exact .inr ⟨txn,_,rfl,hlook,hts,.inr ⟨hmode,w,lsn,ha,rfl⟩,rfl⟩

theorem txnAbort_cases (h : db.txnAbort t = some (db',r)) :
    (∃ e, r = .error e ∧ db' = db ∧ db.mgr.activeTxns.lookup t = none) ∨
    (∃ txn w lsn, r = .ok () ∧ db.mgr.activeTxns.lookup t = some txn ∧
      db.wal.append (.abort t txn.lastLsn) = some (w,lsn) ∧
      db' = { db with wal := w.syncTo lsn, mgr := db.mgr.aborted t }) := by
  unfold txnAbort at h
  cases ht : db.mgr.transaction t with
  | error e =>
    simp only [ht] at h
    cases h
    exact .inl ⟨e,rfl,rfl,TransactionManager.transaction_error ht⟩
  | ok txn =>
    have hlook := TransactionManager.transaction_eq_ok.mp ht
    simp only [ht] at h
    cases ha : db.wal.append (.abort t txn.lastLsn) with
    | none => simp [ha] at h
    | some y =>
      obtain ⟨w,lsn⟩ := y
      simp only [ha,TransactionManager.abort_eq hlook] at h
      cases h
      exact .inr ⟨txn,w,lsn,rfl,hlook,ha,rfl⟩

/-- The bound below which a checkpoint forgets commits. -/
def pruneBound (db : Database) : Nat := min (db.mgr.oldestActive db.mgr.nextTs) db.mgr.nextTs

theorem checkpoint_cases (h : db.checkpoint = some (db',r)) :
    ∃ w lsn, r = .ok () ∧
      db.wal.append (.checkpoint db.mgr.activeTxnIds db.mgr.nextTs db.mgr.nextTxnId) = some (w,lsn) ∧
      db' = { db with
        flushed := db.engine
        wal := (w.sync.truncateBefore lsn).setLastCheckpointLsn lsn
        mgr := (db.mgr.setCheckpointTs db.mgr.nextTs).pruneCommittedBelow db.pruneBound } := by
  simp only [checkpoint,Option.or] at h
  cases ha : db.wal.append (.checkpoint db.mgr.activeTxnIds db.mgr.nextTs db.mgr.nextTxnId) with
  | none => simp [ha] at h
  | some y =>
    obtain ⟨w,lsn⟩ := y
    simp only [ha] at h
    cases h
    exact ⟨w,lsn,rfl,rfl,rfl⟩

inductive Called (db : Database) : Op → Outcome → Database → Prop
  /-- A read, or a call that failed. -/
  | same {op : Op} {out : Outcome} (began : ∀ t, out ≠ .began t) (events : db.events op out = []) : Called db op out db
  /-- A write that failed once it had asked for the lock. -/
  | locked {op : Op} {t : Nat} {k : Bytes} {v : MvccValue} (e : Error) (op_eq : op.write? = some (t,k,v)) :
      Called db op (.failed e) (db.locked t k)
  | began {mode : TxnMode} {wal : Wal} {lsn : Nat} (id : db.mgr.nextTxnId < u64Max) (ts : db.mgr.nextTs < u64Max)
      (log : mode = .readOnly ∧ wal = db.wal ∧ lsn = Lsn.invalid ∨
        mode = .readWrite ∧ db.wal.append (.begin db.mgr.nextTxnId) = some (wal,lsn)) :
      Called db (.begin mode) (.began db.mgr.nextTxnId) { db with wal, mgr := db.mgr.started mode lsn }
  | wrote {op : Op} {t : Nat} {k : Bytes} {v : MvccValue} {db' : Database} (op_eq : op.write? = some (t,k,v))
      (lock : (db.mgr.lockManager.acquire t k .exclusive).2 = .ok ()) (write : (db.locked t k).write t k v = some (db',.ok ())) :
      Called db op .done db'
  | committed {t : Nat} {txn : Transaction} {wal : Wal} (active : db.mgr.activeTxns.lookup t = some txn)
      (ts : db.mgr.nextTs < u64Max)
      (log : txn.mode = .readOnly ∧ wal = db.wal ∨ txn.mode = .readWrite ∧ ∃ w lsn,
        db.wal.append (.commit t txn.lastLsn db.mgr.nextTs) = some (w,lsn) ∧ wal = w.syncTo lsn) :
      Called db (.commit t) .done { db with wal, mgr := db.mgr.committed t }
  | aborted {t : Nat} {txn : Transaction} {w : Wal} {lsn : Nat} (active : db.mgr.activeTxns.lookup t = some txn)
      (log : db.wal.append (.abort t txn.lastLsn) = some (w,lsn)) :
      Called db (.abort t) .done { db with wal := w.syncTo lsn, mgr := db.mgr.aborted t }
  | checkpoint {db' : Database} (call : db.checkpoint = some (db',.ok ())) : Called db .checkpoint .done db'
  | gc : Called db .gc (.collected db.gc.2) db.gc.1

omit [Crc32] in
theorem events_failed (db : Database) (op : Op) (e : Error) : db.events op (.failed e) = [] := by cases op <;> rfl

theorem step_called {op : Op} {out : Outcome} (h : db.step op = some (db',out)) : db.Called op out db' := by
  have hfailed : ∀ e, db.Called op (.failed e) db := fun e => .same (fun _ => nofun) (db.events_failed op e)
  have hwrite : ∀ {t k v r}, op.write? = some (t,k,v) → db.afterLock t k (·.write t k v) = some (db',r) →
      db.Called op (.ofUnit r) db' := by
    intro t k v r hop hw
    rcases db.afterLock_eq t k with ⟨e,-,heq⟩ | ⟨hlock,heq⟩ <;> rw [heq] at hw
    · cases hw
      exact .locked e hop
    · rcases write_cases hw with ⟨e,rfl,rfl⟩ | ⟨_,_,_,rfl,-⟩
      · exact .locked e hop
      · exact .wrote hop hlock hw
  cases op with
  | get t k =>
    obtain ⟨r,_,heq⟩ := map_eq_some_iff.mp h
    cases heq
    cases r with
    | error e => exact hfailed e
    | ok value => exact .same (fun _ => nofun) rfl
  | gc =>
    cases h
    exact .gc
  | begin mode =>
    obtain ⟨⟨d,r⟩,hr,heq⟩ := map_eq_some_iff.mp h
    cases heq
    rcases beginTxn_cases hr with ⟨rfl,rfl⟩ | ⟨wal,lsn,rfl,hid,hts,hlog,rfl⟩
    · exact hfailed _
    · exact .began hid hts hlog
  | put t k v | delete t k =>
    obtain ⟨⟨d,r⟩,hr,heq⟩ := map_eq_some_iff.mp h
    cases heq
    exact hwrite rfl hr
  | commit t =>
    obtain ⟨⟨d,r⟩,hr,heq⟩ := map_eq_some_iff.mp h
    cases heq
    rcases commitTxn_cases hr with ⟨e,rfl,rfl,-⟩ | ⟨txn,wal,rfl,hact,hts,hlog,rfl⟩
    · exact hfailed e
    · exact .committed hact hts hlog
  | abort t =>
    obtain ⟨⟨d,r⟩,hr,heq⟩ := map_eq_some_iff.mp h
    cases heq
    rcases txnAbort_cases hr with ⟨e,rfl,rfl,-⟩ | ⟨txn,w,lsn,rfl,hact,hlog,rfl⟩
    · exact hfailed e
    · exact .aborted hact hlog
  | checkpoint =>
    obtain ⟨⟨d,r⟩,hr,heq⟩ := map_eq_some_iff.mp h
    cases heq
    obtain ⟨-,-,rfl,-⟩ := checkpoint_cases hr
    exact .checkpoint hr

theorem step_flushed {op : Op} {out : Outcome} (h : db.step op = some (db',out)) (hop : op ≠ .checkpoint) :
    db'.flushed = db.flushed := by
  cases step_called h with
  | checkpoint => exact (hop rfl).elim
  | wrote _ _ hw => rcases write_cases hw with ⟨_,_,rfl⟩ | ⟨_,_,_,_,_,_,_,_,_,rfl⟩ <;> rfl
  | same | locked | began | committed | aborted | gc => rfl

theorem txnPut_ok {k v : Bytes} {wal : Wal} (hlock : (db.mgr.lockManager.acquire t k .exclusive).2 = .ok ())
    (hact : db.mgr.activeTxns.lookup t = some txn) (hmode : txn.mode = .readWrite)
    (hcheck : (db.locked t k).checkWrite k txn.beginTs = some (.ok ())) (hk : k.length ≤ u32Max)
    (ha : db.wal.append (.txnPut t txn.lastLsn (mvccKey k txn.beginTs) (encodeMvccValue (.value t v)) none) =
      some (wal,lsn)) :
    db.txnPut t k v = some ({ db.locked t k with
      wal
      mgr := (db.locked t k).mgr.logged t txn lsn
      engine := db.engine.put (mvccKey k txn.beginTs) (encodeMvccValue (.value t v)) },.ok ()) := by
  have hact' : (db.locked t k).mgr.activeTxns.lookup t = some txn := hact
  have ha' : (db.locked t k).wal.append (.txnPut t txn.lastLsn (mvccKey k txn.beginTs)
      (encodeMvccValue (.value t v)) none) = some (wal,lsn) := ha
  have hkey : encodeMvccKey k txn.beginTs = some (mvccKey k txn.beginTs) := if_pos hk
  rcases db.afterLock_eq t k with ⟨e,he,-⟩ | ⟨-,heq⟩
  · rw [hlock] at he
    cases he
  · simp only [txnPut,heq,write,logWrite,TransactionManager.transaction_eq_ok.mpr hact',hmode,hcheck,hkey,ha',
      TransactionManager.updateLastLsn_eq lsn hact',reduceCtorEq,if_false]
    rfl

theorem commitTxn_ok {wal : Wal} (hact : db.mgr.activeTxns.lookup t = some txn) (hmode : txn.mode = .readWrite)
    (hts : db.mgr.nextTs < u64Max) (ha : db.wal.append (.commit t txn.lastLsn db.mgr.nextTs) = some (wal,lsn)) :
    db.commitTxn t = some ({ db with wal := wal.syncTo lsn, mgr := db.mgr.committed t },.ok ()) := by
  have hval : db.mgr.validateCommit t = some (db.mgr.stamped t,.ok db.mgr.nextTs) := by
    simp only [TransactionManager.validateCommit,TransactionManager.assignCommitTs,
      TransactionManager.transaction_eq_ok.mpr hact,TransactionManager.nextTimestamp,if_pos hts]
    rfl
  simp [commitTxn,TransactionManager.transaction_eq_ok.mpr hact,hval,hmode,ha,finishCommit,
    TransactionManager.commit_eq hact]

end Database
end InterchangeDb
