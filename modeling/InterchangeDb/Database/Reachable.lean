import InterchangeDb.Database.Refine
import InterchangeDb.Txn.Visibility

/-! The invariant of every run of a new database, and first-committer-wins. -/
namespace InterchangeDb
open List Option

section

variable [Crc32]

/-- The rules a run follows: its policy, and whether it checkpoints or collects. -/
def runRules (policy : IsolationPolicy) (ops : List Op) : Rules where
  checked := policy = .snapshotIsolation
  checkpoints := .checkpoint ∈ ops
  collects := .gc ∈ ops

namespace Session
variable {policy : IsolationPolicy} {rules : Rules} {s s' : Session} {ops : List Op} {t b : Nat}

structure Inv (policy : IsolationPolicy) (rules : Rules) (s : Session) : Prop where
  sound : s.db.Sound
  policy : s.db.mgr.policy = policy
  mvcc : MvccInv rules s.db.view s.history

omit [Crc32] in
private theorem sound_withPolicy (policy : IsolationPolicy) (wal : Wal) :
    (⟨OrdMap.empty, OrdMap.empty, wal, .withPolicy policy⟩ : Database).Sound where
  versioned := Engine.versioned_empty
  exclusive := LockState.exclusive_new
  nextTxnId := by simp [TransactionManager.withPolicy,u64Max]
  nextTs := by simp [TransactionManager.withPolicy,u64Max]
  active := by
    intro t txn h
    simp [TransactionManager.withPolicy] at h

theorem inv_init (policy : IsolationPolicy) (rules : Rules) : Inv policy rules (init policy) := by
  have hs : (init policy).db.Sound := sound_withPolicy policy _
  refine ⟨hs,rfl,?_⟩
  have hview : ∀ k ts, (init policy).db.view.version k ts = none := fun k ts => Engine.version_empty k ts
  refine ⟨?_,Stored.init hview hs.unshared,fun _ => FirstCommitterWins.init,fun _ => rfl,?_⟩
  · apply Lifecycle.init <;> simp [init,Database.fresh,Database.view,TransactionManager.withPolicy]
  · intro _ t k b hw
    simp [init,lastWrite] at hw

theorem Inv.step {op : Op} (hi : Inv policy rules s) (hchecked : rules.checked → policy = .snapshotIsolation)
    (hrules : rules.collects → rules.checked) (hck : op = .checkpoint → rules.checkpoints)
    (hgc : op = .gc → rules.collects) (h : s.step op = some s') : Inv policy rules s' := by
  obtain ⟨⟨db,out⟩,hstep,rfl⟩ := map_eq_some_iff.mp h
  obtain ⟨hs,hp,hm⟩ := Database.step_refines hi.sound (fun hc => hi.policy.trans (hchecked hc)) hck hgc hstep
  exact ⟨hs,hp.trans hi.policy,hi.mvcc.step hrules hm⟩

structure Allows (policy : IsolationPolicy) (rules : Rules) (ops : List Op) : Prop where
  checked : rules.checked → policy = .snapshotIsolation
  collects : rules.collects → rules.checked
  checkpoint : .checkpoint ∈ ops → rules.checkpoints
  gc : .gc ∈ ops → rules.collects

omit [Crc32] in
theorem allows_runRules (hgc : .gc ∈ ops → policy = .snapshotIsolation) :
    Allows policy (runRules policy ops) ops := ⟨fun hc => hc,hgc,fun hck => hck,fun hgc => hgc⟩

omit [Crc32] in
theorem Allows.mono {ops' : List Op} (h : Allows policy rules ops) (hsub : ops' ⊆ ops) : Allows policy rules ops' :=
  ⟨h.checked,h.collects,fun hck => h.checkpoint (hsub hck),fun hgc => h.gc (hsub hgc)⟩

theorem Allows.inv_step {op : Op} (ha : Allows policy rules ops) (hop : op ∈ ops) (hi : Inv policy rules s)
    (h : s.step op = some s') : Inv policy rules s' :=
  hi.step ha.checked ha.collects (fun heq => ha.checkpoint (heq ▸ hop)) (fun heq => ha.gc (heq ▸ hop)) h

theorem Allows.inv_run (ha : Allows policy rules ops) (hi : Inv policy rules s) (h : run step s ops = some s') :
    Inv policy rules s' := run_keeps (fun _ hop _ _ => ha.inv_step hop) hi h

theorem reachable (hgc : .gc ∈ ops → policy = .snapshotIsolation) (h : run step (init policy) ops = some s) :
    Inv policy (runRules policy ops) s := (allows_runRules hgc).inv_run (inv_init policy _) h

omit [Crc32] in
private theorem length_events (db : Database) (op : Op) (out : Outcome) : (db.events op out).length ≤ 1 := by
  cases op <;> cases out <;> simp [Database.events]

theorem history_suffix (h : run step s ops = some s') : s.history <:+ s'.history := by
  refine run_keeps (P := fun m => s.history <:+ m.history) (fun op _ m m' hsuf hm => ?_) suffix_rfl h
  obtain ⟨⟨db,out⟩,_,rfl⟩ := map_eq_some_iff.mp hm
  exact hsuf.trans (suffix_append _ _)

theorem earlier {s₀ : Session} {h' : History} (h : run step s₀ ops = some s)
    (h₀ : s₀.history <:+ h') (hs : h' <:+ s.history) :
    ∃ before after m, ops = before ++ after ∧ run step s₀ before = some m ∧ m.history = h' ∧
      run step m after = some s := by
  by_cases heq : s₀.history = h'
  · exact ⟨[],ops,s₀,rfl,rfl,heq,h⟩
  induction ops generalizing s₀ with
  | nil =>
    cases h
    exact absurd (h₀.eq_of_length (le_antisymm h₀.length_le hs.length_le)) heq
  | cons op ops ih =>
    obtain ⟨m,hm,hrun⟩ := run_cons_eq_some h
    obtain ⟨⟨db,out⟩,_,hm'⟩ := map_eq_some_iff.mp hm
    -- one call adds one event at most, so it does not pass by the history asked for
    have hsuf : m.history <:+ h' := by
      refine suffix_of_suffix_length_le (history_suffix hrun) hs ?_
      have hlt : s₀.history.length < h'.length := lt_of_le_of_ne h₀.length_le (fun hl => heq (h₀.eq_of_length hl))
      have := length_events s₀.db op out
      rw [← hm']
      simp only [length_append]
      omega
    by_cases heq' : m.history = h'
    · exact ⟨[op],ops,m,rfl,by simp [run,hm],heq',hrun⟩
    · obtain ⟨before,after,m',rfl,hb,hh,ha⟩ := ih hrun hsuf heq'
      exact ⟨op::before,after,m',rfl,by simp [run,hm,hb],hh,ha⟩

theorem lastWrite_committed_run (ha : Allows policy rules ops) (hi : Inv policy rules s) (h : run step s ops = some s')
    {c : Nat} (hc : .committed t c ∈ s.history) (k : Bytes) : lastWrite s'.history t k = lastWrite s.history t k := by
  induction ops generalizing s with
  | nil =>
    cases h
    rfl
  | cons op ops ih =>
    obtain ⟨m,hm,hrun⟩ := run_cons_eq_some h
    have hi' := ha.inv_step mem_cons_self hi hm
    obtain ⟨⟨db,out⟩,hstep,rfl⟩ := map_eq_some_iff.mp hm
    obtain ⟨_,_,hst⟩ := Database.step_refines hi.sound (fun hc => hi.policy.trans (ha.checked hc))
      (fun heq => ha.checkpoint (heq ▸ mem_cons_self)) (fun heq => ha.gc (heq ▸ mem_cons_self)) hstep
    rw [ih (ha.mono (subset_cons_self _ _)) hi' hrun (mem_append_right _ hc)]
    exact hi.mvcc.lastWrite_committed hst hc k

omit [Crc32] in
theorem active_of_beginTs (ht : s.db.mgr.beginTs t = .ok b) :
    s.db.view.active t = some b := by
  unfold TransactionManager.beginTs TransactionManager.transaction at ht
  change (s.db.mgr.activeTxns.lookup t).map _ = _
  cases hl : s.db.mgr.activeTxns.lookup t with
  | none =>
    rw [hl] at ht
    cases ht
  | some txn =>
    rw [hl] at ht
    cases ht
    rfl

omit [Crc32] in
theorem beginTs_of_active (ht : s.db.view.active t = some b) :
    s.db.mgr.beginTs t = .ok b := by
  obtain ⟨txn,htxn,rfl⟩ := map_eq_some_iff.mp ht
  simp [TransactionManager.beginTs,TransactionManager.transaction,htxn,Except.map]

omit [Crc32] in
theorem Inv.readView (hi : Inv .snapshotIsolation rules s)
    (ht : s.db.view.active t = some b) : s.db.mgr.readView t = .ok ⟨b⟩ := by
  have hpos := (hi.mvcc.life.began_bounds (hi.mvcc.life.active_iff.mp ht).1).1.1
  obtain ⟨txn,htxn,rfl⟩ := map_eq_some_iff.mp ht
  have hread := (hi.sound.active htxn).2.2
  have hne : t ≠ TxnId.autoCommit := fun heq => by
    rw [heq] at hpos
    cases hpos
  simp only [TransactionManager.readView,hi.policy,if_neg hne,TransactionManager.snapshot,
    TransactionManager.transaction,htxn,Except.map]
  rw [← hread]

omit [Crc32] in
/-- A read under snapshot isolation is outside any transaction, or at the begin
timestamp of an active one. -/
theorem Inv.readView_cases (hi : Inv .snapshotIsolation rules s) {readTs : Nat} (hr : s.db.mgr.readView t = .ok ⟨readTs⟩) :
    (t = TxnId.autoCommit ∧ readTs = max s.db.mgr.nextTs s.db.mgr.checkpointTs) ∨
      s.db.view.active t = some readTs := by
  by_cases hne : t = TxnId.autoCommit
  · simp only [TransactionManager.readView,hi.policy,if_pos hne,Except.ok.injEq,Snapshot.mk.injEq] at hr
    exact .inl ⟨hne,hr.symm⟩
  · right
    simp only [TransactionManager.readView,hi.policy,if_neg hne,TransactionManager.snapshot,
      TransactionManager.transaction] at hr
    cases hl : s.db.mgr.activeTxns.lookup t with
    | none =>
      rw [hl] at hr
      cases hr
    | some txn =>
      rw [hl] at hr
      have hread := (hi.sound.active hl).2.2
      have hts : txn.snapshot = ⟨readTs⟩ := Except.ok.inj hr
      rw [hts] at hread
      exact map_eq_some_iff.mpr ⟨txn,hl,hread.symm⟩

end Session

/-- Two committed transactions that wrote one key have disjoint lifetimes,
whatever checkpoints and collections the run made. -/
theorem first_committer_wins {ops : List Op} {s : Session} (h : run Session.step (.init .snapshotIsolation) ops = some s)
    {t w b b' c c' : Nat} {k : Bytes} {d d' : Option Bytes} (hne : t ≠ w) (hb : .began t b ∈ s.history)
    (hb' : .began w b' ∈ s.history) (hc : .committed t c ∈ s.history) (hc' : .committed w c' ∈ s.history)
    (hw : .wrote t k d ∈ s.history) (hw' : .wrote w k d' ∈ s.history) : c < b' ∨ c' < b := by
  have hi := (Session.reachable (fun _ => rfl) h).mvcc
  have hna : .aborted t ∉ s.history := fun ha => hi.life.aborted_not_committed ha hc
  rcases hi.wins rfl hne hb (lastWrite_ne_none_iff.mpr ⟨d,hw⟩) hna hc' (lastWrite_ne_none_iff.mpr ⟨d',hw'⟩) with
    hlt | ⟨c₁,b₁,hc₁,hb₁,hlt⟩
  · exact .inr hlt
  · rw [hi.life.committed_unique hc hc₁,hi.life.began_unique hb' hb₁]
    exact .inl hlt

end

/-- One writer after the other, with a collection and a checkpoint between. -/
theorem first_committer_wins_in_turn : ∃ s, run Session.step (.init .snapshotIsolation)
      [.begin .readWrite,.put 1 [7] [1],.commit 1,.begin .readWrite,.gc,.checkpoint,.delete 2 [7],.commit 2] = some s ∧
    .committed 1 2 ∈ s.history ∧ .committed 2 4 ∈ s.history ∧ (2 < 3 ∨ 4 < 1) := by
  refine exists_observed Session.history [.committed 2 4,.wrote 2 [7] none,.began 2 3,.committed 1 2,
    .wrote 1 [7] (some [1]),.began 1 1] (by decide +kernel) (fun s hs hh => ⟨by simp [hh],by simp [hh],?_⟩)
  exact first_committer_wins (t := 1) (w := 2) (k := [7]) (d := some [1]) hs (by decide) (by simp [hh])
    (by simp [hh]) (by simp [hh]) (by simp [hh]) (by simp [hh]) (by simp [hh] : .wrote 2 [7] none ∈ s.history)

end InterchangeDb
