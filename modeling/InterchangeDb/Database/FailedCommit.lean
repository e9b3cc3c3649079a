import InterchangeDb.Database.FailedCalls
import InterchangeDb.Database.Reopen
import InterchangeDb.Txn.LockTable

/-! Commits that fail. The commit timestamp is published before the record is logged and not taken back. -/
namespace InterchangeDb
open List Option AList
namespace Database
variable {m m' : TransactionManager} {writer reader began t : Nat} {db : Database} {segments : Segments}
  {image : Engine} {policy : IsolationPolicy} {records : List LogRecord}

/-- Locks as calls that run one after the other leave them. -/
structure LocksInOrder (m : TransactionManager) : Prop where
  ok : ∃ modes, m.lockManager.Ok modes
  exclusive : m.lockManager.Exclusive

theorem LocksInOrder.releaseAll (h : LocksInOrder m) (t : Nat) :
    (∃ modes, (m.lockManager.releaseAll t).Ok modes) ∧ (m.lockManager.releaseAll t).Exclusive := by
  obtain ⟨modes,hok⟩ := h.ok
  exact ⟨⟨_,hok.releaseAll t⟩,(LockState.releaseAll_spec h.exclusive t).1⟩

theorem LocksInOrder.step (h : ManagerStep m m') (hm : LocksInOrder m) : LocksInOrder m' := by
  cases h with
  | lock t k =>
    obtain ⟨modes,hok⟩ := hm.ok
    exact ⟨hok.acquire_call t k .exclusive,(LockState.acquire_exclusive hm.exclusive t k).1⟩
  | commit _ | abort _ =>
    obtain ⟨hok,hex⟩ := hm.releaseAll _
    exact ⟨hok,hex⟩
  | begin | log | stamp | checkpoint | forget => exact ⟨hm.ok,hm.exclusive⟩

theorem LocksInOrder.not_holds_aborted (h : LocksInOrder m) (t : Nat) (k : Bytes) :
    ¬(m.aborted t).lockManager.Holds t k := by
  obtain ⟨modes,hok⟩ := h.ok
  refine hok.not_holds (fun q ⟨e,he,_⟩ r hr => ?_) k
  rw [LockState.entryOf_eq he,(h.exclusive q e he).1] at hr
  cases hr

/-- Transactions are numbered from one, and read at the timestamp they began at. -/
structure Dated (m : TransactionManager) : Prop where
  nextTxnId : 0 < m.nextTxnId
  active : ∀ {t txn}, m.activeTxns.lookup t = some txn →
    0 < t ∧ t < m.nextTxnId ∧ txn.beginTs < m.nextTs ∧ txn.snapshot.readTs = txn.beginTs

theorem Dated.step (h : ManagerStep m m') (hm : Dated m) : Dated m' := by
  obtain ⟨hid,hts⟩ := h.counters
  refine ⟨lt_of_lt_of_le hm.nextTxnId hid,fun {t txn'} ht => ?_⟩
  rcases h.lookup_active ht with ⟨rfl,hb,hsnap,hlt,hlt'⟩ | ⟨txn,hact,hb,hsnap⟩
  · rw [hb,hsnap]
    exact ⟨hm.nextTxnId,hlt,hlt',rfl⟩
  · obtain ⟨hpos,hlt,hlt',hread⟩ := hm.active hact
    rw [hb,hsnap]
    exact ⟨hpos,lt_of_lt_of_le hlt hid,lt_of_lt_of_le hlt' hts,hread⟩

/-- A reader that began at a timestamp, before the commit timestamp of a writer. -/
structure Shielded (writer reader began : Nat) (m : TransactionManager) : Prop where
  policy : m.policy = .snapshotIsolation
  known : reader < m.nextTxnId
  past : began < m.nextTs
  reads : ∀ {txn}, m.activeTxns.lookup reader = some txn → txn.beginTs = began ∧ txn.snapshot.readTs = began ∧
    ∃ c, m.committedTxns.lookup writer = some c ∧ began < c

/-- No step takes the writer's timestamp away while the reader is active: it holds back the pruning. -/
theorem Shielded.step (h : ManagerStep m m') (hm : Shielded writer reader began m) : Shielded writer reader began m' := by
  obtain ⟨hid,hts⟩ := h.counters
  refine ⟨h.policy.trans hm.policy,lt_of_lt_of_le hm.known hid,lt_of_lt_of_le hm.past hts,fun {txn'} ht => ?_⟩
  rcases h.lookup_active ht with ⟨heq,-⟩ | ⟨txn,hact,hb,hsnap⟩
  · exact (hm.known.ne heq).elim
  · obtain ⟨hbegan,hread,c,hc,hlt⟩ := hm.reads hact
    rw [hb,hsnap]
    refine ⟨hbegan,hread,?_⟩
    rcases h.lookup_committed writer with hsame | ⟨-,hnew⟩ | ⟨-,hold⟩
    · exact ⟨c,hsame.trans hc,hlt⟩
    · exact ⟨_,hnew,hm.past⟩
    · have hle := (hold c hc).trans (oldestActive_le m _ hact)
      omega

/-- No version of the writer supplies a read of the reader. -/
def Unread (db : Database) (writer reader : Nat) : Prop :=
  ∀ key found, db.txnFind reader key = some (.ok (some found)) → found.2.txnId ≠ writer

theorem Shielded.unread (h : Shielded writer reader began db.mgr)
    (hne : reader ≠ writer) (hpos : 0 < reader) : db.Unread writer reader := by
  intro key found hfind hwriter
  have hview : db.mgr.readView reader = db.mgr.snapshot reader := by
    simp only [TransactionManager.readView,h.policy]
    exact if_neg hpos.ne'
  unfold txnFind at hfind
  rw [hview,TransactionManager.snapshot] at hfind
  cases ht : db.mgr.transaction reader with
  | error e => simp [ht,Except.map] at hfind
  | ok txn =>
    simp only [ht,Except.map] at hfind
    obtain ⟨-,hread,c,hc,hlt⟩ := h.reads (TransactionManager.transaction_eq_ok.mp ht)
    have hvis := mvccFind_visible hfind
    rw [TransactionManager.visible,isVisible,hwriter,if_neg hne.symm,hc,hread,decide_eq_true_iff] at hvis
    omega

/-- Known to be unfinished, and not to be active or committed any more. -/
structure Unfinished (t : Nat) (m : TransactionManager) : Prop where
  listed : t ∈ m.uncommittedTxns
  known : t < m.nextTxnId
  inactive : t ∉ m.activeTxns
  uncommitted : m.committedTxns.lookup t = none

theorem Unfinished.step (h : ManagerStep m m') (hm : Unfinished t m) :
    Unfinished t m' := by
  refine ⟨h.uncommittedTxns ▸ hm.listed,lt_of_lt_of_le hm.known h.counters.1,fun hmem => ?_,?_⟩
  · obtain ⟨txn',ht⟩ := isSome_iff_exists.mp (lookup_isSome.mpr hmem)
    rcases h.lookup_active ht with ⟨heq,-⟩ | ⟨txn,hact,-⟩
    · exact hm.known.ne heq
    · exact hm.inactive (lookup_isSome.mp (by rw [hact]; rfl))
  · rcases h.lookup_committed t with hsame | ⟨hact,-⟩ | ⟨hnone,-⟩
    · exact hsame.trans hm.uncommitted
    · exact (hm.inactive hact).elim
    · exact hnone

theorem Unfinished.unread (h : Unfinished t db.mgr) (hne : reader ≠ t) :
    db.Unread t reader := by
  intro key found hfind hwriter
  unfold txnFind at hfind
  cases hview : db.mgr.readView reader with
  | error e => simp [hview] at hfind
  | ok snapshot =>
    rw [hview] at hfind
    have hvis := mvccFind_visible hfind
    have hknown : t ∈ db.mgr.knownNotCommitted := Finset.mem_union_left _ h.listed
    rw [TransactionManager.visible,isVisible,hwriter,if_neg hne.symm,h.uncommitted] at hvis
    simp [hknown] at hvis

variable [Crc32]

private theorem unfinished_of_scan (hpos : 0 < t) (hscan : recoveryScan segments = .ok records)
    (hseen : ∃ r ∈ records, r.txnId = t)
    (hopen : ∀ r ∈ records, r.txnId = t → r.payload ≠ .abort ∧ ∀ c, r.payload ≠ .commit c)
    (h : openInner segments image policy = some (.ok db)) : Unfinished t db.mgr := by
  obtain ⟨hr,-⟩ := opened hscan h
  have hnone : (analyzeTransactions records).committed.lookup t = none := by
    refine eq_none_iff_forall_ne_some.mpr (fun c hc => ?_)
    obtain ⟨r,hr,hrt,hp⟩ := commit_of_lookup hc
    exact (hopen r hr hrt).2 c hp
  refine ⟨(hr.uncommitted t).mpr ⟨hpos.ne',hseen,?_,fun r hr hrt => (hopen r hr hrt).1⟩,?_,?_,hr.committed ▸ hnone⟩
  · exact isSome_eq_false_iff.mpr (isNone_iff_eq_none.mpr hnone)
  · obtain ⟨r,hmem,rfl⟩ := hseen
    exact hr.seen_lt r hmem
  · rw [hr.active]
    exact notMem_empty t

/-- A commit whose record could not be logged. Under snapshot isolation nobody who was active then ever reads
the writer; an abort releases its locks; and after a restart that reads records of the writer, but neither a commit
nor an abort record, nobody reads it. -/
theorem failed_commit_hidden {policy : IsolationPolicy} {as : List Attempt} {db db₁ : Database}
    (hrun : run tryStep (fresh policy) as = some db) {t : Nat} (hactive : t ∈ db.mgr.activeTxns) {f : Faults} {e : Error}
    (hcommit : db.commitTxn t f = some (db₁,.error e)) :
    (policy = .snapshotIsolation → ∀ reader ∈ db.mgr.activeTxns, reader ≠ t → ∀ as' db₂,
      run tryStep db₁ as' = some db₂ → db₂.Unread t reader) ∧
    (∀ as' db₂ f' db₃, run tryStep db₁ as' = some db₂ → db₂.txnAbort t f' = some (db₃,.ok ()) →
      ∀ key, ¬db₃.mgr.lockManager.Holds t key) ∧
    (∀ segments records, recoveryScan segments = .ok records → (∃ r ∈ records, r.txnId = t) →
      (∀ r ∈ records, r.txnId = t → r.payload ≠ .abort ∧ ∀ c, r.payload ≠ .commit c) →
      ∀ image policy' db₂, openInner segments image policy' = some (.ok db₂) →
      ∀ as' db₃, run tryStep db₂ as' = some db₃ → ∀ reader, reader ≠ t → db₃.Unread t reader) := by
  have hdated : Dated db.mgr := by
    refine manager_invariant (fun _ _ => Dated.step) hrun ⟨Nat.one_pos,fun {t txn} ht => ?_⟩
    cases ht
  have hlocks : LocksInOrder db.mgr := by
    refine manager_invariant (fun _ _ => LocksInOrder.step) hrun ⟨⟨_,LockManager.ok_new⟩,LockState.exclusive_new⟩
  have hpolicy : db.mgr.policy = policy :=
    manager_invariant (fun _ _ h (hm : _ = policy) => h.policy.trans hm) hrun rfl
  obtain ⟨txn,hact⟩ := isSome_iff_exists.mp (lookup_isSome.mpr hactive)
  have hstamped : db₁.mgr = db.mgr.stamped t := by
    rcases commitTxn_failed hcommit with hcommit | ⟨e',txn',-,hleft,-⟩
    · rcases commitTxn_cases hcommit with ⟨e',-,-,hno⟩ | ⟨txn',wal,hok,-⟩
      · rw [hno] at hact
        cases hact
      · cases hok
    · exact hleft.mgr
  refine ⟨?_,?_,?_⟩
  · rintro rfl reader hreader hne as' db₂ hrun'
    obtain ⟨rtxn,hrtxn⟩ := isSome_iff_exists.mp (lookup_isSome.mpr hreader)
    obtain ⟨hpos,hlt,hpast,hread⟩ := hdated.active hrtxn
    have hshield : Shielded t reader rtxn.beginTs db₁.mgr := by
      rw [hstamped]
      refine ⟨hpolicy,hlt,Nat.lt_succ_of_lt hpast,fun {txn'} ht' => ?_⟩
      obtain rfl := some.inj (hrtxn.symm.trans ht')
      exact ⟨rfl,hread,_,lookup_insert _,hpast⟩
    exact (manager_invariant (fun _ _ => .step) hrun' hshield).unread hne hpos
  · intro as' db₂ f' db₃ hrun' habort key
    have hlocks' : LocksInOrder db₂.mgr := by
      refine manager_invariant (fun _ _ => .step) hrun' ?_
      rw [hstamped]
      exact ⟨hlocks.ok,hlocks.exclusive⟩
    rcases txnAbort_failed habort with habort | ⟨e',he',-⟩
    · rcases txnAbort_cases habort with ⟨e',he',-⟩ | ⟨txn',w,lsn,-,-,-,rfl⟩
      · cases he'
      · exact hlocks'.not_holds_aborted t key
    · cases he'
  · intro segments records hscan hseen hopen image policy' db₂ hdb₂ as' db₃ hrun' reader hne
    have hunfinished := unfinished_of_scan (hdated.active hact).1 hscan hseen hopen hdb₂
    exact (manager_invariant (fun _ _ => .step) hrun' hunfinished).unread hne

omit [Crc32] in
private def appendFails : Faults := { Faults.none with append := some ⟨.io "append failed",id⟩ }

end Database

private def quietly (op : Op) : Attempt := ⟨.op op,fun _ => .none⟩

private def writerAndReader : Option Database := run Database.tryStep (.fresh .snapshotIsolation)
  [quietly (.begin .readWrite),quietly (.begin .readOnly),quietly (.put 1 [7] [1])]

private def writing : Database := writerAndReader.get (by decide +kernel)

private def unlogged : Database × Except Error Unit := (writing.commitTxn 1 Database.appendFails).get (by decide +kernel)

private def undone : Database × Except Error Unit := (unlogged.1.txnAbort 1).get (by decide +kernel)

/-- A reader that was active when the commit failed does not read it, before or after the abort; the abort releases the
lock; and nobody reads it after a restart without the abort. -/
theorem Database.failed_commit_hidden_older : ∃ db db₁ db₂ db₃, writerAndReader = some db ∧
    db.commitTxn 1 Database.appendFails = some (db₁,.error (.io "append failed")) ∧ db₁.Unread 1 2 ∧
    db₁.txnAbort 1 = some (db₂,.ok ()) ∧ db₂.Unread 1 2 ∧ ¬db₂.mgr.lockManager.Holds 1 [7] ∧
    Database.openInner db₁.wal.writer.segments db₁.engine .snapshotIsolation = some (.ok db₃) ∧
    ∀ reader, reader ≠ 1 → db₃.Unread 1 reader := by
  have hdb : writerAndReader = some writing := (some_get _).symm
  have hcommit : writing.commitTxn 1 appendFails = some (unlogged.1,.error (.io "append failed")) :=
    eq_some_get (by decide +kernel)
  have habort : unlogged.1.txnAbort 1 = some (undone.1,.ok ()) := eq_some_get (by decide +kernel)
  have hwriter : 1 ∈ writing.mgr.activeTxns := by decide +kernel
  have hreader : 2 ∈ writing.mgr.activeTxns := by decide +kernel
  have hopen : ((openInner unlogged.1.wal.writer.segments unlogged.1.engine .snapshotIsolation).bind
      Except.toOption).isSome := by decide +kernel
  have hscan : recoveryScan unlogged.1.wal.writer.segments = .ok [⟨0,1,Lsn.invalid,.begin⟩,
      ⟨1,1,0,.txnPut (mvccKey [7] 1) (encodeMvccValue (.value 1 [1])) none⟩] := by decide +kernel
  generalize writing = db,unlogged.1 = db₁,undone.1 = db₂ at *
  obtain ⟨db₃,hopen⟩ := isSome_iff_exists.mp hopen
  have hopen := eq_some_ok hopen
  have hstep : run tryStep db₁ [quietly (.abort 1)] = some db₂ := by
    simp [run,tryStep,attempt,Database.step,quietly,habort]
  obtain ⟨hunread,hreleased,hrestart⟩ := failed_commit_hidden hdb hwriter hcommit
  exact ⟨db,db₁,db₂,db₃,hdb,hcommit,hunread rfl 2 hreader (by decide) [] db₁ rfl,habort,
    hunread rfl 2 hreader (by decide) _ db₂ hstep,hreleased [] db₁ _ db₂ rfl habort [7],hopen,
    hrestart _ _ hscan (by simp) (by simp) _ _ db₃ hopen [] db₃ rfl⟩

/-- A transaction that begins after the failed commit reads it, also after the abort. -/
theorem Database.failed_commit_read : (Database.fresh .snapshotIsolation).returns
    [quietly (.begin .readWrite),quietly (.put 1 [7] [1]),⟨.op (.commit 1),fun _ => Database.appendFails⟩,
      quietly (.begin .readOnly),quietly (.get 2 [7]),quietly (.abort 1),quietly (.get 2 [7])] =
    some [.began 1,.done,.failed (.io "append failed"),.began 2,.read (some [1]),.done,.read (some [1])] := by
  decide +kernel

end InterchangeDb
