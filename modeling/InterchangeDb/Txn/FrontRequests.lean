import InterchangeDb.Txn.Deadlock

/-! Who stands at the front of a queue. Nobody looks at the request behind one that times out. -/
namespace InterchangeDb
open List AList LockState Option

namespace LockEntry
variable {e : LockEntry} {t bound flag : Nat} {mode : LockMode}

/-- The front of the queue, if there is one, could not be granted. -/
def Stuck (e : LockEntry) : Prop := ∀ r ∈ e.waitQueue.head?, canGrant e.grantedMode e.holders r = false

/-- The waiters of a key: no transaction waits twice, and a holder waits to upgrade only. -/
structure Queued (e : LockEntry) (bound : Nat) : Prop where
  fresh : ∀ r ∈ e.waitQueue, r.granted < bound
  once : (e.waitQueue.map LockRequest.txnId).Nodup
  upgrade : ∀ r ∈ e.waitQueue, r.txnId ∈ e.holders → r.mode = .exclusive

theorem Queued.new (bound : Nat) : LockEntry.new.Queued bound := ⟨nofun,nodup_nil,nofun⟩

theorem Queued.sublist (h : e.Queued bound) {queue : List LockRequest} (hsub : queue <+ e.waitQueue) :
    Queued { e with waitQueue := queue } bound :=
  ⟨fun r hr => h.fresh r (hsub.subset hr),h.once.sublist (hsub.map _),fun r hr => h.upgrade r (hsub.subset hr)⟩

theorem Queued.leave (h : e.Queued bound) (t : Nat) : (e.leave t).Queued bound :=
  ⟨h.fresh,h.once,fun r hr hmem => h.upgrade r hr (Finset.mem_of_mem_erase hmem)⟩

theorem Queued.grantTo (h : e.Queued bound) (hrun : ∀ r ∈ e.waitQueue, r.txnId ≠ t) (mode : LockMode) :
    (e.grantTo t mode).Queued bound :=
  ⟨h.fresh,h.once,fun r hr hmem => h.upgrade r hr ((Finset.mem_insert.mp hmem).resolve_left (hrun r hr))⟩

theorem Queued.tail {r : LockRequest} (h : Queued { e with waitQueue := r::e.waitQueue } bound) :
    (e.grantTo r.txnId r.mode).Queued bound ∧ ∀ x ∈ e.waitQueue, x.txnId ≠ r.txnId := by
  have hrun : ∀ x ∈ e.waitQueue, x.txnId ≠ r.txnId := fun x hx heq =>
    (nodup_cons.mp h.once).1 (mem_map.mpr ⟨x,hx,heq⟩)
  exact ⟨(h.sublist (sublist_cons_self r _)).grantTo hrun r.mode,hrun⟩

theorem Queued.enqueue (h : e.Queued bound) (hrun : ∀ r ∈ e.waitQueue, r.txnId ≠ t) (hup : t ∈ e.holders → mode = .exclusive) :
    Queued { e with waitQueue := e.waitQueue ++ [⟨t,mode,bound⟩] } (bound + 1) := by
  have hfresh : ∀ r ∈ e.waitQueue, r.granted < bound + 1 := fun r hr => (h.fresh r hr).trans (Nat.lt_succ_self _)
  refine ⟨forall_mem_append.mpr ⟨hfresh,forall_mem_singleton.mpr (Nat.lt_succ_self _)⟩,?_,
    forall_mem_append.mpr ⟨h.upgrade,forall_mem_singleton.mpr hup⟩⟩
  rw [map_append,nodup_append]
  refine ⟨h.once,nodup_singleton _,fun a ha b hb => ?_⟩
  obtain ⟨r,hr,rfl⟩ := mem_map.mp ha
  rw [mem_singleton.mp hb]
  exact hrun r hr

theorem Stuck.kept (h : e.Stuck) (hq : e.Queued bound) : e.kept.Queued bound ∧ e.kept.Stuck := by
  unfold LockEntry.kept
  split_ifs
  · exact ⟨.new bound,nofun⟩
  · exact ⟨hq,h⟩

theorem Stuck.grantTo (h : e.Stuck) (hrun : ∀ r ∈ e.waitQueue, r.txnId ≠ t)
    (hcan : e.holders = ∅ ∨ e.holders = {t} ∧ e.grantedMode = some .shared ∨ mode = .shared ∧ e.grantedMode = some .shared) :
    (e.grantTo t mode).Stuck := by
  intro r hr
  have hstuck := h r hr
  have hne : r.txnId ≠ t := hrun r (mem_of_mem_head? hr)
  have hshared : e.holders ≠ ∅ → e.grantedMode = some .shared := fun hfree =>
    (hcan.resolve_left hfree).elim And.right And.right
  unfold canGrant at hstuck ⊢
  split_ifs at hstuck with hfree hmem
  · have hcard : (insert t e.holders).card ≠ 1 := fun hone => by
      have := Finset.card_le_card (Finset.subset_insert t e.holders)
      have := Finset.card_pos.mpr (Finset.nonempty_iff_ne_empty.mpr hfree)
      simp at hstuck
      omega
    simp_all [LockEntry.grantTo]
  · rw [hshared hfree] at hstuck
    have hx : r.mode = .exclusive := by cases hm : r.mode <;> simp_all [LockMode.isCompatible]
    simp_all [LockEntry.grantTo,LockMode.isCompatible]

theorem Queued.served (h : e.Queued bound) (t : Nat) : (served e t).1.kept.Queued bound ∧ (served e t).1.kept.Stuck := by
  have hwalk : (LockState.served e t).1.Queued bound ∧ (LockState.served e t).1.Stuck := by
    refine grantWaiters_rec (p := fun e x => e.Queued bound → x.1.Queued bound ∧ x.1.Stuck) ?_ ?_ ?_ _ _ _ (h.leave t)
    · exact fun e hstop hq => ⟨hq,hstop⟩
    · intro e r hcan hx hq
      refine ⟨hq.tail.1,fun x hxq => ?_⟩
      -- an exclusive lock has one holder, who does not wait
      have hsole : insert r.txnId e.holders = {r.txnId} := by
        rcases canGrant_cases hcan with hfree | hsole | ⟨hs,-⟩
        · simp [hfree]
        · simp [hsole]
        · simp [hs] at hx
      have hne := hq.tail.2 x (mem_of_mem_head? hxq)
      cases hm : x.mode <;> simp [canGrant,LockEntry.grantTo,hsole,hne,hx,hm,LockMode.isCompatible]
    · exact fun e r x _ _ ih hq => ih hq.tail.1
  exact hwalk.2.kept hwalk.1

theorem Queued.withdraw (h : e.Queued bound) (t : Nat) (mode : LockMode) :
    (e.waitQueue ++ [LockRequest.mk t mode bound]).filter (fun r => r.granted != bound) = e.waitQueue := by
  rw [filter_append,filter_eq_self.mpr (fun r hr => bne_iff_ne.mpr (h.fresh r hr).ne)]
  simp

end LockEntry

namespace LockState
variable {s s' : LockState} {e : LockEntry} {t bound : Nat} {key : Bytes} {mode : LockMode}

theorem canGrant_mustWait (h : s.tryGrantImmediate e key t mode = (s',.mustWait)) (hnil : e.waitQueue = []) (flag : Nat) :
    canGrant e.grantedMode e.holders ⟨t,mode,flag⟩ = false := by
  by_cases hmem : t ∈ e.holders
  · obtain ⟨-,hsole⟩ := tryGrantImmediate_mustWait h hmem
    by_contra hcan
    rcases canGrant_cases (eq_true_of_ne_false hcan) with hfree | heq | ⟨hs,-⟩
    · simp [hfree] at hmem
    · exact hsole heq
    · cases (tryGrantImmediate_mustWait h hmem).1.symm.trans hs
  · unfold tryGrantImmediate at h
    split_ifs at h with hfree hshare
    · cases h
    · cases h
    · simp_all [canGrant]

/-- Every queue holds one request of each transaction, and its front could not be granted. -/
def Settled (s : LockState) (bound : Nat) : Prop := ∀ key, (s.entryOf key).Queued bound ∧ (s.entryOf key).Stuck

theorem Settled.releaseKey (h : s.Settled bound) (t : Nat) (key : Bytes) : (s.releaseKey t key).Settled bound := by
  intro q
  rcases releaseKey_cases s t key with ⟨-,hsame,-⟩ | ⟨-,-,hentry,-⟩
  · rw [hsame]
    exact h q
  · rw [hentry]
    split_ifs
    · exact (h key).1.served t
    · exact h q

theorem Settled.releaseKeys (h : s.Settled bound) (t : Nat) (keys : List Bytes) :
    (keys.foldl (fun st key => st.releaseKey t key) s).Settled bound := by
  induction keys generalizing s with
  | nil => exact h
  | cons key keys ih => exact ih (h.releaseKey t key)

/-- The section of acquire up to its first wait, for a transaction that does not wait for the key. -/
theorem Settled.acquire {r : AcquireResult} (h : s.Settled bound) (hrun : ∀ r ∈ (s.entryOf key).waitQueue, r.txnId ≠ t)
    (hstep : s.startAcquire bound t key mode = some (s',r)) : s'.Settled (if r = .blocked then bound + 1 else bound) := by
  have hmono : ∀ {s : LockState}, s.Settled bound → s.Settled (if r = .blocked then bound + 1 else bound) := by
    intro s h q
    refine ⟨⟨fun x hx => ((h q).1.fresh x hx).trans_le ?_,(h q).1.once,(h q).1.upgrade⟩,(h q).2⟩
    split_ifs <;> omega
  obtain ⟨s₁,hsame,-,hcases⟩ := startAcquire_cases hstep
  have h₁ : s₁.Settled bound := fun q => hsame q ▸ h q
  rcases hcases with ⟨rfl,-⟩ | ⟨hgrant,rfl⟩ | ⟨hwait,-,s₂,rfl,rfl | ⟨rfl,rfl,-⟩⟩
  · exact hmono h₁
  · obtain ⟨hcan,hentry⟩ := tryGrantImmediate_entry hgrant
    refine hmono (fun q => ?_)
    rw [hentry]
    split_ifs
    · exact ⟨(h key).1.grantTo hrun mode,(h key).2.grantTo hrun hcan⟩
    · exact h₁ q
  · refine hmono (fun q => ?_)
    rw [entryOf_removeRequest]
    simp only [entryOf_setEntry,if_true]
    split_ifs
    · rw [(h key).1.withdraw]
      exact (h key).2.kept (h key).1
    · exact h₁ q
  · intro q
    rw [entryOf_setEntry,if_pos (rfl : AcquireResult.blocked = .blocked)]
    split_ifs
    · refine ⟨(h key).1.enqueue hrun (fun hmem => (tryGrantImmediate_mustWait hwait hmem).1),fun x hx => ?_⟩
      cases hqueue : (s.entryOf key).waitQueue with
      | nil =>
        rw [hqueue] at hx
        cases hx
        exact canGrant_mustWait hwait hqueue bound
      | cons y rest =>
        rw [hqueue] at hx
        exact (h key).2 x (by rw [hqueue]; exact hx)
    · simpa using hmono h₁ q

end LockState

namespace LockManager

/-- A transaction does not ask for a key it waits for, and a call that times out at the front of a queue leaves behind
it a request that has to wait. -/
def LeavesWaiters (m : LockManager) : LockOp → Prop
  | .acquire t key _ => ∀ r ∈ (m.state.entryOf key).waitQueue, r.txnId ≠ t
  | .timeout flag => ∀ x ∈ m.state.lockTable.entries, x.2.waitQueue.head?.map LockRequest.granted = some flag →
      ∀ next ∈ x.2.waitQueue.find? (fun r => r.granted != flag), canGrant x.2.grantedMode x.2.holders next = false
  | _ => True

theorem settled_step {m m' : LockManager} {op : LockOp} (h : m.state.Settled m.nextFlag) (hcond : m.LeavesWaiters op)
    (hstep : m.step op = some m') : m'.state.Settled m'.nextFlag := by
  cases op with
  | acquire t key mode =>
    obtain ⟨⟨s',r⟩,hr,rfl⟩ := map_eq_some_iff.mp hstep
    have := h.acquire hcond hr
    cases r <;> simpa using this
  | wake flag =>
    obtain ⟨w,-,rfl⟩ := map_eq_some_iff.mp hstep
    split_ifs <;> exact h
  | timeout flag =>
    obtain ⟨w,-,rfl⟩ := map_eq_some_iff.mp hstep
    split_ifs
    · exact h
    · intro q
      rw [entryOf_removeRequest]
      split_ifs
      · refine LockEntry.Stuck.kept (fun r hr => ?_) ((h w.2).1.sublist filter_sublist)
        dsimp only at hr ⊢
        rw [head?_filter] at hr
        cases hk : m.state.lockTable.lookup w.2 with
        | none =>
          simp only [entryOf,hk] at hr
          cases hr
        | some e =>
          have hstuck := (h w.2).2
          rw [entryOf_eq hk] at hr hstuck ⊢
          by_cases hfront : e.waitQueue.head?.map LockRequest.granted = some flag
          · exact hcond ⟨w.2,e⟩ (mem_lookup_iff.mp hk) hfront r hr
          · -- the front stays
            refine hstuck r ?_
            cases hqueue : e.waitQueue with
            | nil =>
              rw [hqueue] at hr
              cases hr
            | cons x rest =>
              rw [hqueue] at hr hfront
              rw [find?_cons_of_pos (by simpa using hfront)] at hr
              exact hr
      · exact h q
  | release t key =>
    obtain rfl := some.inj hstep
    refine .releaseKey (fun q => ?_) t key
    rw [entryOf_dropHold]
    exact h q
  | releaseAll t =>
    obtain rfl := some.inj hstep
    exact .releaseKeys (s := { m.state with txnLocks := m.state.txnLocks.erase t }) h t _

/-- In every table reached by acquire, release, release of all locks, deadlocks and timeouts, the front request of
every queue conflicts with another holder of its key and could not be granted, provided that no call leaves a waiter
behind. -/
theorem front_blocked {ops : List LockOp} {m : LockManager} (hcond : AllSteps step LeavesWaiters new ops)
    (h : run step new ops = some m) {key : Bytes} {e : LockEntry} (he : m.state.lockTable.lookup key = some e)
    {r : LockRequest} (hr : e.waitQueue.head? = some r) :
    canGrant e.grantedMode e.holders r = false ∧ e.conflicts r = true ∧ ∃ u ∈ e.holders, u ≠ r.txnId := by
  have hinit : new.state.Settled new.nextFlag := fun _ => ⟨.new _,nofun⟩
  have hsettled : m.state.Settled m.nextFlag :=
    run_invariant LeavesWaiters (fun _ _ _ hm hop hstep => settled_step hm hop hstep) hinit hcond h
  obtain ⟨hqueued,hstuck⟩ := hsettled key
  rw [entryOf_eq he] at hqueued hstuck
  have hfront := hstuck r hr
  have hmem := mem_of_mem_head? hr
  refine ⟨hfront,?_,?_⟩
  · by_cases hup : r.txnId ∈ e.holders
    · exact LockEntry.conflicts_exclusive e (hqueued.upgrade r hmem hup)
    · unfold canGrant at hfront
      split_ifs at hfront with hfree hin
      · exact (hup (of_decide_eq_true hin)).elim
      · rw [LockEntry.conflicts,hfront]
        rfl
  · by_contra hall
    push Not at hall
    rcases Finset.subset_singleton_iff.mp (fun u hu => Finset.mem_singleton.mpr (hall u hu)) with hfree | hsole
    · simp [canGrant,hfree] at hfront
    · simp [canGrant,hsole] at hfront

instance (m : LockManager) : (op : LockOp) → Decidable (m.LeavesWaiters op)
  | .acquire _ _ _ | .timeout _ => inferInstanceAs (Decidable (∀ _ ∈ _, _))
  | .wake _ | .release _ _ | .releaseAll _ => .isTrue trivial

theorem front_blocked_timeout : ∃ m, run step new [.acquire 1 [7] .shared,.acquire 2 [7] .exclusive,.acquire 3 [7] .exclusive,
      .timeout 0] = some m ∧ ∃ e, m.state.lockTable.lookup [7] = some e ∧ e.waitQueue.head? = some ⟨3,.exclusive,1⟩ ∧
    canGrant e.grantedMode e.holders ⟨3,.exclusive,1⟩ = false := by
  refine exists_observed (·.state.lockTable.lookup [7]) (some ⟨some .shared,{1},[⟨3,.exclusive,1⟩]⟩)
    (by decide +kernel) (fun m hm he => ⟨_,he,rfl,?_⟩)
  exact (front_blocked (by decide +kernel) hm he rfl).1

/-- Nobody serves the shared request behind an exclusive one that times out; nor the second of two requests of a
transaction for one key. -/
theorem front_left_waiting :
    (∃ m, run step new [.acquire 1 [7] .shared,.acquire 2 [7] .exclusive,.acquire 3 [7] .shared,.timeout 0] = some m ∧
      m.state.lockTable.lookup [7] = some ⟨some .shared,{1},[⟨3,.shared,1⟩]⟩ ∧
      canGrant (some .shared) {1} ⟨3,.shared,1⟩ = true) ∧
    ∃ m, run step new [.acquire 1 [7] .exclusive,.acquire 2 [7] .exclusive,.acquire 2 [7] .exclusive,.releaseAll 1] = some m ∧
      m.state.lockTable.lookup [7] = some ⟨some .exclusive,{2},[⟨2,.exclusive,1⟩]⟩ ∧
      canGrant (some .exclusive) {2} ⟨2,.exclusive,1⟩ = true := by
  constructor <;>
    exact exists_observed (·.state.lockTable.lookup [7]) _ (by decide +kernel) (fun _ _ he => ⟨he,by decide⟩)

end LockManager
end InterchangeDb
