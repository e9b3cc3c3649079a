import InterchangeDb.Database.Reopen

/-! Forgetting old commits that the checkpoint and every active transaction have passed. -/
namespace InterchangeDb
open Finset

/-- The calls that change the transaction manager once it is open. A checkpoint raises the watermark to the oracle. -/
inductive ManagerOp where
  | begin (mode : TxnMode) (startLsn : Nat)
  | updateLastLsn (txnId lsn : Nat)
  | assignCommitTs (txnId : Nat)
  | commit (txnId : Nat)
  | abort (txnId : Nat)
  | checkpoint
  | pruneCommittedBelow (bound : Nat)
  | removeAbortedTxns (ids : Finset Nat)

namespace TransactionManager

/-- A call that is refused leaves the manager as it is. -/
def call (m : TransactionManager) : ManagerOp → Option TransactionManager
  | .begin mode startLsn => (m.begin mode startLsn).map Prod.fst
  | .updateLastLsn txnId lsn => some ((m.updateLastLsn txnId lsn).toOption.getD m)
  | .assignCommitTs txnId => (m.assignCommitTs txnId).map Prod.fst
  | .commit txnId => some ((m.commit txnId).toOption.getD m)
  | .abort txnId => some ((m.abort txnId).toOption.getD m)
  | .checkpoint => some (m.setCheckpointTs m.nextTs)
  | .pruneCommittedBelow bound => some (m.pruneCommittedBelow bound)
  | .removeAbortedTxns ids => some (m.removeAbortedTxns ids)

inductive Stepped (m : TransactionManager) : TransactionManager → Prop where
  | refused : Stepped m m
  | began (mode : TxnMode) (lsn : Nat) : Stepped m (m.started mode lsn)
  | logged {t : Nat} {txn : Transaction} (lsn : Nat) : m.activeTxns.lookup t = some txn → Stepped m (m.logged t txn lsn)
  | stamped {t : Nat} {txn : Transaction} : m.activeTxns.lookup t = some txn → Stepped m (m.stamped t)
  | ended (t : Nat) : Stepped m { m with activeTxns := m.activeTxns.erase t }
  | aborted {t : Nat} {txn : Transaction} : m.activeTxns.lookup t = some txn →
      Stepped m { m with activeTxns := m.activeTxns.erase t, abortedTxns := insert t m.abortedTxns }
  | checkpointed : Stepped m (m.setCheckpointTs m.nextTs)
  | pruned (bound : Nat) : Stepped m (m.pruneCommittedBelow bound)
  | forgot (ids : Finset Nat) : Stepped m (m.removeAbortedTxns ids)

section Steps
variable {m m' : TransactionManager} {op : ManagerOp}

private theorem call_assignCommitTs (m : TransactionManager) {t : Nat} {txn : Transaction} (h : m.activeTxns.lookup t = some txn) :
    m.call (.assignCommitTs t) = if m.nextTs < u64Max then some (m.stamped t) else none := by
  rw [call,assignCommitTs,transaction_eq_ok.mpr h]
  unfold nextTimestamp
  split_ifs <;> rfl

private theorem transaction_eq_error {m : TransactionManager} {t : Nat} (h : m.activeTxns.lookup t = none) :
    m.transaction t = .error (.txnNotActive t) := by
  rw [transaction,h]

theorem call_cases (h : m.call op = some m') : m.Stepped m' := by
  cases op with
  | begin mode lsn =>
    obtain ⟨⟨m₁,r⟩,hbegin,rfl⟩ := Option.map_eq_some_iff.mp h
    rcases begin_cases hbegin with ⟨-,rfl,-⟩ | ⟨-,-,-,rfl,-⟩
    · exact .refused
    · exact .began mode lsn
  | updateLastLsn t lsn =>
    cases h
    cases hact : m.activeTxns.lookup t with
    | none =>
      rw [updateLastLsn,transaction_eq_error hact]
      exact .refused
    | some txn =>
      rw [updateLastLsn_eq lsn hact]
      exact .logged lsn hact
  | assignCommitTs t =>
    cases hact : m.activeTxns.lookup t with
    | none =>
      rw [call,assignCommitTs,transaction_eq_error hact] at h
      cases h
      exact .refused
    | some txn =>
      rw [call_assignCommitTs m hact] at h
      split_ifs at h
      cases h
      exact .stamped hact
  | commit t =>
    cases h
    cases hact : m.activeTxns.lookup t with
    | none =>
      rw [commit,transaction_eq_error hact]
      exact .refused
    | some txn =>
      rw [commit,transaction_eq_ok.mpr hact]
      exact .ended t
  | abort t =>
    cases h
    cases hact : m.activeTxns.lookup t with
    | none =>
      rw [abort,transaction_eq_error hact]
      exact .refused
    | some txn =>
      rw [abort,transaction_eq_ok.mpr hact]
      exact .aborted hact
  | checkpoint =>
    cases h
    exact .checkpointed
  | pruneCommittedBelow bound =>
    cases h
    exact .pruned bound
  | removeAbortedTxns ids =>
    cases h
    exact .forgot ids

end Steps

section Order
variable {m m' : TransactionManager}

/-- The order of the numbers in a manager: readers read at the timestamp they began at, nothing is above the oracle, and a
transaction that has its commit timestamp but has not ended began before it. -/
structure Ordered (m : TransactionManager) : Prop where
  active : ∀ {t txn}, m.activeTxns.lookup t = some txn →
    txn.snapshot.readTs = txn.beginTs ∧ txn.beginTs < m.nextTs ∧ t < m.nextTxnId
  checkpoint : m.checkpointTs ≤ m.nextTs
  committed : ∀ {t c}, m.committedTxns.lookup t = some c → t < m.nextTxnId
  stamped : ∀ {t txn c}, m.activeTxns.lookup t = some txn → m.committedTxns.lookup t = some c → txn.beginTs < c

private theorem lookup_logged {t t' lsn : Nat} {txn txn' : Transaction} (hact : m.activeTxns.lookup t = some txn)
    (h : (m.logged t txn lsn).activeTxns.lookup t' = some txn') :
    ∃ old, m.activeTxns.lookup t' = some old ∧ txn'.snapshot = old.snapshot ∧ txn'.beginTs = old.beginTs := by
  rcases lookup_insert_cases h with ⟨rfl,rfl⟩ | ⟨-,hold⟩
  · exact ⟨txn,hact,rfl,rfl⟩
  · exact ⟨txn',hold,rfl,rfl⟩

theorem Ordered.step (hm : m.Ordered) (h : m.Stepped m') : m'.Ordered := by
  cases h with
  | refused => exact hm
  | began mode lsn =>
    refine ⟨fun {t txn} h => ?_,hm.checkpoint.trans (Nat.le_succ _),fun h => (hm.committed h).trans (Nat.lt_succ_self _),
      fun {t txn c} h hc => ?_⟩
    · rcases lookup_insert_cases h with ⟨rfl,rfl⟩ | ⟨-,hold⟩
      · exact ⟨rfl,Nat.lt_succ_self _,Nat.lt_succ_self _⟩
      · obtain ⟨hread,hbegin,hid⟩ := hm.active hold
        exact ⟨hread,hbegin.trans (Nat.lt_succ_self _),hid.trans (Nat.lt_succ_self _)⟩
    · rcases lookup_insert_cases h with ⟨rfl,rfl⟩ | ⟨-,hold⟩
      · exact absurd (hm.committed hc) (lt_irrefl _)
      · exact hm.stamped hold hc
  | logged lsn hact =>
    refine ⟨fun {t txn} h => ?_,hm.checkpoint,hm.committed,fun {t txn c} h hc => ?_⟩
    · obtain ⟨old,hold,hread,hbegin⟩ := lookup_logged hact h
      rw [hread,hbegin]
      exact hm.active hold
    · obtain ⟨old,hold,-,hbegin⟩ := lookup_logged hact h
      rw [hbegin]
      exact hm.stamped hold hc
  | @stamped t txn hact =>
    obtain ⟨-,hbegin,hid⟩ := hm.active hact
    refine ⟨fun h => ?_,hm.checkpoint.trans (Nat.le_succ _),fun {t' c} h => ?_,fun {t' txn' c} h hc => ?_⟩
    · obtain ⟨hread,hbegin',hid'⟩ := hm.active h
      exact ⟨hread,hbegin'.trans (Nat.lt_succ_self _),hid'⟩
    · rcases lookup_insert_cases h with ⟨rfl,-⟩ | ⟨-,hold⟩
      · exact hid
      · exact hm.committed hold
    · have h' : m.activeTxns.lookup t' = some txn' := h
      rcases lookup_insert_cases hc with ⟨rfl,rfl⟩ | ⟨-,hold⟩
      · exact (hm.active h').2.1
      · exact hm.stamped h' hold
  | ended | aborted =>
    exact ⟨fun h => hm.active (lookup_erase_cases h).2,hm.checkpoint,hm.committed,fun h hc => hm.stamped (lookup_erase_cases h).2 hc⟩
  | checkpointed => exact ⟨hm.active,le_rfl,hm.committed,hm.stamped⟩
  | pruned bound =>
    exact ⟨hm.active,hm.checkpoint,fun h => hm.committed (lookup_pruned.mp h).1,fun h hc => hm.stamped h (lookup_pruned.mp hc).1⟩
  | forgot ids => exact ⟨hm.active,hm.checkpoint,hm.committed,hm.stamped⟩

theorem seed_ordered {policy : IsolationPolicy} {stats : RecoveryStats} (h : Database.seed policy stats = some m) :
    m.Ordered := by
  obtain ⟨n,id,ts,rfl,-,-,hts,-,-,hcommitted,-⟩ := Database.seed_numbers h
  exact ⟨nofun,hts,fun hc => (hcommitted hc).2.2,nofun⟩

end Order

section Settled
variable {m m' : TransactionManager} {bound : Nat}

/-- The checkpoint and every active transaction are past the bound, and no commit up to it is of a transaction known not to
have committed. -/
structure Settled (m : TransactionManager) (bound : Nat) : Prop where
  ordered : m.Ordered
  checkpoint : bound ≤ m.checkpointTs
  active : ∀ {t txn}, m.activeTxns.lookup t = some txn → bound ≤ txn.beginTs
  known : ∀ {t c}, m.committedTxns.lookup t = some c → c ≤ bound → t ∉ m.knownNotCommitted

section

variable (hm : m.Settled bound)
include hm

theorem Settled.step (h : m.Stepped m') : m'.Settled bound := by
  refine ⟨hm.ordered.step h,?_,?_,?_⟩
  · cases h with
    | checkpointed => exact hm.checkpoint.trans hm.ordered.checkpoint
    | refused | began | logged | stamped | ended | aborted | pruned | forgot => exact hm.checkpoint
  · intro t txn ht
    cases h with
    | began mode lsn =>
      rcases lookup_insert_cases ht with ⟨rfl,rfl⟩ | ⟨-,hold⟩
      · exact hm.checkpoint.trans hm.ordered.checkpoint
      · exact hm.active hold
    | logged lsn hact =>
      obtain ⟨old,hold,-,hbegin⟩ := lookup_logged hact ht
      exact hbegin ▸ hm.active hold
    | ended | aborted => exact hm.active ((lookup_erase_cases ht).2)
    | refused | stamped | checkpointed | pruned | forgot => exact hm.active ht
  · intro t c hc hle
    cases h with
    | @stamped t' txn hact =>
      rcases lookup_insert_cases hc with ⟨rfl,rfl⟩ | ⟨-,hold⟩
      · -- the new commit is above the bound, which its transaction began at or after
        have hbegin := (hm.ordered.active hact).2.1
        have hbound := hm.active hact
        omega
      · exact hm.known hold hle
    | @aborted t' txn hact =>
      intro hmem
      rcases mem_union.mp hmem with hu | ha
      · exact hm.known hc hle (mem_union_left _ hu)
      · rcases mem_insert.mp ha with rfl | ha
        · have hstamp := hm.ordered.stamped hact hc
          have hbound := hm.active hact
          omega
        · exact hm.known hc hle (mem_union_right _ ha)
    | pruned => exact hm.known (lookup_pruned.mp hc).1 hle
    | forgot ids =>
      intro hmem
      refine hm.known hc hle (union_subset_union_right sdiff_subset hmem)
    | refused | began | logged | ended | checkpointed => exact hm.known hc hle

theorem Settled.call_pruned (op : ManagerOp) :
    (m.pruneCommittedBelow bound).call op = (m.call op).map (fun m' => m'.pruneCommittedBelow bound) := by
  have htransaction (t : Nat) : (m.pruneCommittedBelow bound).transaction t = m.transaction t := rfl
  cases op with
  | begin mode lsn =>
    simp only [call,begin,nextTimestamp]
    change Option.map Prod.fst (if maxActiveTransactions ≤ m.activeTxns.entries.length then _ else
      if m.nextTxnId < u64Max then (if m.nextTs < u64Max then _ else none).bind _ else none) = _
    split_ifs <;> rfl
  | updateLastLsn t lsn =>
    simp only [call,updateLastLsn,htransaction]
    cases m.transaction t <;> rfl
  | assignCommitTs t =>
    cases hact : m.activeTxns.lookup t with
    | none =>
      simp only [call,assignCommitTs,htransaction,transaction_eq_error hact]
      rfl
    | some txn =>
      have habove : bound < m.nextTs := lt_of_le_of_lt (hm.active hact) (hm.ordered.active hact).2.1
      have hact' : (m.pruneCommittedBelow bound).activeTxns.lookup t = some txn := hact
      rw [call_assignCommitTs _ hact,call_assignCommitTs _ hact']
      change (if m.nextTs < u64Max then _ else none) = _
      split_ifs
      · have hinsert : retain (m.committedTxns.insert t m.nextTs) (fun c => decide (bound < c))
            = (retain m.committedTxns (fun c => decide (bound < c))).insert t m.nextTs :=
          retain_insert _ t (decide_eq_true habove)
        simp [Option.map_some,TransactionManager.stamped,pruneCommittedBelow,hinsert]
      · rfl
  | commit t =>
    simp only [call,commit,htransaction]
    cases m.transaction t <;> rfl
  | abort t =>
    simp only [call,abort,htransaction]
    cases m.transaction t <;> rfl
  | checkpoint | removeAbortedTxns => rfl
  | pruneCommittedBelow bound' =>
    simp only [call,Option.map_some,pruneCommittedBelow]
    rw [retain_comm]

theorem Settled.run_pruned {ops : List ManagerOp} (h : run call m ops = some m') :
    m'.Settled bound ∧ run call (m.pruneCommittedBelow bound) ops = some (m'.pruneCommittedBelow bound) := by
  induction ops generalizing m with
  | nil =>
    cases h
    exact ⟨hm,rfl⟩
  | cons op ops ih =>
    obtain ⟨m₁,hcall,hrest⟩ := run_cons_eq_some h
    rw [run_cons (by rw [hm.call_pruned,hcall,Option.map_some])]
    exact ih (hm.step (call_cases hcall)) hrest

theorem Settled.le_readTs {t : Nat} {snapshot : Snapshot} (h : m.readView t = .ok snapshot) :
    bound ≤ snapshot.readTs := by
  have hlatest : bound ≤ max m.nextTs m.checkpointTs := le_max_of_le_right hm.checkpoint
  unfold readView at h
  split at h
  · split_ifs at h
    · cases h
      exact hlatest
    · obtain ⟨txn,htxn,rfl⟩ := map_eq_ok h
      rw [transaction_eq_ok] at htxn
      rw [(hm.ordered.active htxn).1]
      exact hm.active htxn
  · cases h
    exact hlatest

/-- A reader past the bound sees a version as before, if it was written before its writer's commit. -/
theorem Settled.visible_pruned {snapshot : Snapshot} (hread : bound ≤ snapshot.readTs) (reader : Nat)
    {writer ts : Nat} (hts : ∀ c, m.committedTxns.lookup writer = some c → ts ≤ c) :
    (m.pruneCommittedBelow bound).visible reader snapshot writer ts = m.visible reader snapshot writer ts := by
  have hknown : (m.pruneCommittedBelow bound).knownNotCommitted = m.knownNotCommitted := rfl
  have hcheckpoint : (m.pruneCommittedBelow bound).checkpointTs = m.checkpointTs := rfl
  unfold visible isVisible
  rw [hknown,hcheckpoint]
  rcases lookup_pruned_cases m bound writer with hsame | ⟨c,hle,hc,hnone⟩
  · rw [hsame]
  · have hbound : ts ≤ bound := (hts c hc).trans hle
    rw [hc,hnone]
    by_cases hown : writer = reader
    · rw [if_pos hown,if_pos hown]
    · rw [if_neg hown,if_neg hown]
      change (if ts ≤ m.checkpointTs ∧ writer ∉ m.knownNotCommitted then _ else _) = decide (c ≤ snapshot.readTs)
      rw [if_pos ⟨hbound.trans hm.checkpoint,hm.known hc hle⟩,decide_eq_true (hbound.trans hread),
        decide_eq_true (hle.trans hread)]

end

theorem conflictingWriter_pruned (m : TransactionManager) {beginTs : Nat} (h : bound ≤ beginTs) (versions : List VersionRef) :
    (m.pruneCommittedBelow bound).conflictingWriter beginTs versions = m.conflictingWriter beginTs versions := by
  induction versions with
  | nil => rfl
  | cons v rest ih =>
    unfold conflictingWriter
    rw [ih]
    rcases lookup_pruned_cases m bound v.txnId with hsame | ⟨c,hle,hc,hnone⟩
    · rw [hsame]
    · rw [hc,hnone]
      exact (if_neg (not_lt.mpr (hle.trans h))).symm

end Settled

/-- Forgetting the commits up to a bound that the checkpoint and every active transaction are past changes nothing afterwards:
the manager does the same with every call, and everybody who reads or writes then sees the versions written before their
writer's commit, and is refused writes, as without it. -/
theorem prune_unobservable {policy : IsolationPolicy} {stats : RecoveryStats} {start m : TransactionManager}
    {ops : List ManagerOp} (hopen : Database.seed policy stats = some start) (hrun : run call start ops = some m)
    (hdisjoint : ∀ t ∈ m.knownNotCommitted, m.committedTxns.lookup t = none) {bound : Nat} (hcheckpoint : bound ≤ m.checkpointTs)
    (holdest : ∀ b ∈ m.activeReadTimestamps, bound ≤ b) {later : List ManagerOp} {m' : TransactionManager}
    (hlater : run call m later = some m') :
    run call (m.pruneCommittedBelow bound) later = some (m'.pruneCommittedBelow bound) ∧
    (∀ reader snapshot, m'.readView reader = .ok snapshot →
      ∀ writer ts, (∀ c, m'.committedTxns.lookup writer = some c → ts ≤ c) →
        (m'.pruneCommittedBelow bound).visible reader snapshot writer ts = m'.visible reader snapshot writer ts) ∧
    ∀ writer beginTs, m'.beginTs writer = .ok beginTs → ∀ versions,
      (m'.pruneCommittedBelow bound).onWrite versions beginTs = m'.onWrite versions beginTs := by
  have hordered : m.Ordered := run_keeps (fun _ _ _ _ hs hcall => hs.step (call_cases hcall)) (seed_ordered hopen) hrun
  have hsettled : m.Settled bound := by
    refine ⟨hordered,hcheckpoint,fun {t txn} h => ?_,fun {t c} hc _ hknown => ?_⟩
    · exact holdest _ (List.mem_map.mpr ⟨⟨t,txn⟩,AList.mem_lookup_iff.mp h,rfl⟩)
    · rw [hdisjoint t hknown] at hc
      cases hc
  obtain ⟨hm',hpruned⟩ := hsettled.run_pruned hlater
  refine ⟨hpruned,fun reader snapshot hread writer ts hts => ?_,fun writer beginTs hbegin versions => ?_⟩
  · exact hm'.visible_pruned (hm'.le_readTs hread) reader hts
  · obtain ⟨txn,htxn,rfl⟩ := map_eq_ok hbegin
    rw [transaction_eq_ok] at htxn
    unfold onWrite
    rw [conflictingWriter_pruned m' (hm'.active htxn)]
    rfl

private def fresh : TransactionManager := .withPolicy .snapshotIsolation

private theorem seed_fresh : Database.seed .snapshotIsolation ⟨0,0,0,∅,0,∅,0⟩ = some fresh := rfl

private def checkpointed : TransactionManager :=
  { fresh with
    nextTxnId := 3
    nextTs := 4
    activeTxns := AList.insert 2 ⟨.readWrite,0,3,⟨3⟩⟩ ∅
    committedTxns := AList.insert 1 2 ∅
    checkpointTs := 4 }

private def afterwards : TransactionManager :=
  { checkpointed with
    nextTxnId := 4
    nextTs := 6
    activeTxns := AList.insert 3 ⟨.readWrite,0,4,⟨4⟩⟩ ∅
    committedTxns := AList.insert 2 5 (AList.insert 1 2 ∅) }

/-- A commit is forgotten while a later transaction goes on; the third transaction sees what the first wrote, and loses to
the second. -/
theorem prune_unobservable_later :
    (checkpointed.pruneCommittedBelow 3).committedTxns = ∅ ∧
    run call (checkpointed.pruneCommittedBelow 3) [.begin .readWrite 0,.assignCommitTs 2,.commit 2]
      = some (afterwards.pruneCommittedBelow 3) ∧
    (afterwards.pruneCommittedBelow 3).visible 3 ⟨4⟩ 1 1 = afterwards.visible 3 ⟨4⟩ 1 1 ∧
    afterwards.visible 3 ⟨4⟩ 1 1 = true ∧
    (afterwards.pruneCommittedBelow 3).onWrite [⟨1,1⟩,⟨2,3⟩] 4 = afterwards.onWrite [⟨1,1⟩,⟨2,3⟩] 4 ∧
    afterwards.onWrite [⟨1,1⟩,⟨2,3⟩] 4 = .error (.writeConflict 2) := by
  have hrun : run call fresh [.begin .readWrite 0,.assignCommitTs 1,.commit 1,.begin .readWrite 0,.checkpoint]
      = some checkpointed := rfl
  have hlater : run call checkpointed [.begin .readWrite 0,.assignCommitTs 2,.commit 2] = some afterwards := rfl
  obtain ⟨hpruned,hvisible,hwrite⟩ := prune_unobservable seed_fresh hrun (fun t ht => absurd ht (notMem_empty t))
    (show 3 ≤ checkpointed.checkpointTs by decide) (show ∀ b ∈ checkpointed.activeReadTimestamps, 3 ≤ b by decide) hlater
  refine ⟨rfl,hpruned,hvisible 3 ⟨4⟩ rfl 1 1 (fun c hc => ?_),rfl,hwrite 3 4 rfl _,rfl⟩
  cases hc
  decide

/-- A version above its writer's commit is seen before, and not after. -/
theorem prune_hides_version :
    ∃ m, run call fresh [.begin .readWrite 0,.assignCommitTs 1,.commit 1,.checkpoint] = some m ∧
      m.knownNotCommitted = ∅ ∧ m.activeReadTimestamps = [] ∧ m.checkpointTs = 3 ∧
      m.readView TxnId.autoCommit = .ok ⟨3⟩ ∧ m.visible TxnId.autoCommit ⟨3⟩ 1 4 = true ∧
      (m.pruneCommittedBelow 3).visible TxnId.autoCommit ⟨3⟩ 1 4 = false :=
  ⟨_,rfl,rfl,rfl,rfl,rfl,rfl,rfl⟩

end TransactionManager

end InterchangeDb
