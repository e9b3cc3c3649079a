import InterchangeDb.Lib.Acyclic
import InterchangeDb.Txn.WaitGraph

/-! Who waits for whom. The search on blocking follows the holders, not the queue. -/
namespace InterchangeDb

open List AList Relation Option

namespace LockEntry
variable {e e' : LockEntry} {t u : Nat}

/-- The request cannot share the key with its holders. -/
def conflicts (e : LockEntry) (r : LockRequest) : Bool := !e.grantedMode.elim false r.mode.isCompatible

/-- A queued request waits for every holder it conflicts with. -/
def WaitsForHolder (e : LockEntry) (t u : Nat) : Prop :=
  ∃ r ∈ e.waitQueue, r.txnId = t ∧ e.conflicts r = true ∧ u ∈ e.holders ∧ u ≠ t

/-- It waits for everybody before it too: the queue is served from its front. -/
def WaitsBehind (e : LockEntry) (t u : Nat) : Prop :=
  ∃ before r after, e.waitQueue = before ++ r::after ∧ r.txnId = t ∧ u ∈ before.map LockRequest.txnId ∧ u ≠ t

def WaitsFor (e : LockEntry) (t u : Nat) : Prop := e.WaitsForHolder t u ∨ e.WaitsBehind t u

/-- A queue that holds one request of each transaction, in which no upgrade is behind another
request and no shared request is behind an exclusive one. -/
structure InOrder (e : LockEntry) : Prop where
  distinct : (e.waitQueue.map LockRequest.txnId).Nodup
  behind : ∀ before r after, e.waitQueue = before ++ r::after → before ≠ [] →
    r.txnId ∉ e.holders ∧ (r.mode = .exclusive ∨ ∀ x ∈ before, x.mode = .shared)

/-- Nobody waits for anybody new. -/
structure Eases (e e' : LockEntry) : Prop where
  inOrder : e.InOrder → e'.InOrder
  queue : e'.waitQueue ⊆ e.waitQueue
  waits : ∀ t u, e'.WaitsFor t u → e.WaitsFor t u

theorem Eases.refl (e : LockEntry) : e.Eases e := ⟨id,.refl _,fun _ _ => id⟩

theorem Eases.trans {e'' : LockEntry} (h : e.Eases e') (h' : e'.Eases e'') : e.Eases e'' :=
  ⟨fun ho => h'.inOrder (h.inOrder ho),fun _ hr => h.queue (h'.queue hr),fun t u hw => h.waits t u (h'.waits t u hw)⟩

theorem WaitsFor.queued (h : e.WaitsFor t u) : ∃ r ∈ e.waitQueue, r.txnId = t := by
  rcases h with ⟨r,hr,hrt,-⟩ | ⟨before,r,after,hq,hrt,-⟩
  · exact ⟨r,hr,hrt⟩
  · exact ⟨r,by simp [hq],hrt⟩

theorem Eases.of_nil (h : e'.waitQueue = []) : e.Eases e' := by
  refine ⟨fun _ => ⟨?_,fun before r after hq => ?_⟩,?_,fun t u hw => ?_⟩
  · rw [h]
    exact nodup_nil
  · rw [h] at hq
    simp at hq
  · rw [h]
    exact nil_subset _
  · obtain ⟨r,hr,-⟩ := hw.queued
    rw [h] at hr
    cases hr

theorem conflicts_exclusive (e : LockEntry) {r : LockRequest} (h : r.mode = .exclusive) : e.conflicts r = true := by
  unfold conflicts
  cases e.grantedMode with
  | none => rfl
  | some m => cases m <;> simp [h,LockMode.isCompatible]

theorem Eases.filter (e : LockEntry) (p : LockRequest → Bool) : e.Eases { e with waitQueue := e.waitQueue.filter p } := by
  have hsplit : ∀ before r after, e.waitQueue.filter p = before ++ r::after →
      ∃ before' after' : List LockRequest, e.waitQueue = before' ++ r::after' ∧ before ⊆ before' := by
    intro before r after hq
    obtain ⟨l₁,l₂,hl,h₁,h₂⟩ := filter_eq_append_iff.mp hq
    obtain ⟨l₃,l₄,hl₂,-,-,-⟩ := filter_eq_cons_iff.mp h₂
    refine ⟨l₁ ++ l₃,l₄,by rw [hl,hl₂,append_assoc],?_⟩
    rw [← h₁]
    exact fun x hx => mem_append_left _ (mem_of_mem_filter hx)
  refine ⟨fun h => ⟨?_,fun before r after hq hne => ?_⟩,filter_subset_self _,fun t u hw => ?_⟩
  · exact h.distinct.sublist (filter_sublist.map _)
  · obtain ⟨before',after',hq',hsub⟩ := hsplit before r after hq
    obtain ⟨hholder,hmode⟩ := h.behind before' r after' hq' (fun hnil => hne (subset_nil.mp (hnil ▸ hsub)))
    exact ⟨hholder,hmode.imp_right (fun hs x hx => hs x (hsub hx))⟩
  · rcases hw with ⟨r,hr,hrest⟩ | ⟨before,r,after,hq,hrt,hu,hne⟩
    · exact .inl ⟨r,mem_of_mem_filter hr,hrest⟩
    · obtain ⟨before',after',hq',hsub⟩ := hsplit before r after hq
      exact .inr ⟨before',r,after',hq',hrt,map_subset _ hsub hu,hne⟩

theorem Eases.kept (e : LockEntry) : e.Eases e.kept := by
  unfold LockEntry.kept
  split_ifs
  · exact .of_nil rfl
  · exact .refl _

theorem Eases.leave (e : LockEntry) (t : Nat) : e.Eases (e.leave t) := by
  refine ⟨fun h => ⟨h.distinct,fun before r after hq hne => ?_⟩,.refl _,fun a b hw => ?_⟩
  · obtain ⟨hholder,hmode⟩ := h.behind before r after hq hne
    exact ⟨fun hmem => hholder (Finset.mem_of_mem_erase hmem),hmode⟩
  · rcases hw with ⟨r,hr,hrt,hconf,hb,hne⟩ | hbehind
    · refine .inl ⟨r,hr,hrt,?_,Finset.mem_of_mem_erase hb,hne⟩
      simpa only [conflicts,LockEntry.leave,if_neg (show e.holders.erase t ≠ ∅ from Finset.ne_empty_of_mem hb)] using hconf
    · exact .inr hbehind

theorem Eases.grantTo (e : LockEntry) (front : LockRequest) :
    Eases { e with waitQueue := front::e.waitQueue } (e.grantTo front.txnId front.mode) := by
  refine ⟨fun ho => ⟨(nodup_cons.mp ho.distinct).2,fun before r after hq hne => ?_⟩,subset_cons_self _ _,fun a b hw => ?_⟩
  · obtain ⟨hholder,hmode⟩ := ho.behind (front::before) r after (congrArg _ hq) (cons_ne_nil _ _)
    refine ⟨fun hmem => ?_,hmode.imp_right (fun hs x hx => hs x (mem_cons_of_mem _ hx))⟩
    rcases Finset.mem_insert.mp hmem with heq | hmem
    · refine (nodup_cons.mp ho.distinct).1 (mem_map.mpr ⟨r,?_,heq⟩)
      simp only [LockEntry.grantTo] at hq
      simp [hq]
    · exact hholder hmem
  · rcases hw with ⟨r,hr,hrt,hconf,hb,hne⟩ | ⟨before,r,after,hq,hrt,hu,hne⟩
    · by_cases hfront : b = front.txnId
      · -- the new holder was before everybody left in the queue
        obtain ⟨before,after,hq⟩ := append_of_mem hr
        exact .inr ⟨front::before,r,after,congrArg _ hq,hrt,by simp [hfront],hne⟩
      · have hold : b ∈ e.holders := (Finset.mem_insert.mp hb).resolve_left hfront
        have hcard : (insert front.txnId e.holders).card ≠ 1 := by
          intro hone
          have hall := Finset.card_le_one.mp hone.le
          exact hfront (hall b hb _ (Finset.mem_insert_self _ _))
        have hx : r.mode = .exclusive := by
          simp only [conflicts,LockEntry.grantTo,if_neg hcard,Option.elim] at hconf
          cases hm : r.mode with
          | shared => simp [hm,LockMode.isCompatible] at hconf
          | exclusive => rfl
        exact .inl ⟨r,mem_cons_of_mem _ hr,hrt,conflicts_exclusive _ hx,hold,hne⟩
    · exact .inr ⟨front::before,r,after,congrArg _ hq,hrt,mem_cons_of_mem _ hu,hne⟩

theorem Eases.served (e : LockEntry) (t : Nat) : e.Eases (LockState.served e t).1.kept := by
  refine ((leave e t).trans ?_).trans (kept _)
  refine LockState.grantWaiters_rec (p := fun e x => e.Eases x.1) ?_ ?_ ?_ _ _ _
  · exact fun e _ => refl e
  · exact fun e r _ _ => grantTo e r
  · exact fun e r x _ _ ih => (grantTo e r).trans ih

end LockEntry

theorem mem_ascending {s : Finset Nat} {a : Nat} : a ∈ ascending s ↔ a ∈ s := by
  obtain ⟨⟨l⟩,hl⟩ := s
  exact mem_insertionSort _

namespace LockState
variable {s s' : LockState} {t : Nat} {key : Bytes}
variable {e : LockEntry} {mode : LockMode}

def WaitsFor (s : LockState) (t u : Nat) : Prop := ∃ key, (s.entryOf key).WaitsFor t u

private theorem edge_holders (e : LockEntry) (r : LockRequest) (graph : WaitGraph) (a b : Nat) :
    ((ascending e.holders).foldl (fun graph holderId =>
      if holderId = r.txnId then graph else graph.addEdge r.txnId holderId) graph).Edge a b ↔
    graph.Edge a b ∨ r.txnId = a ∧ b ∈ e.holders ∧ b ≠ a := by
  rw [WaitGraph.edge_foldl (q := fun h a b => h ≠ r.txnId ∧ a = r.txnId ∧ b = h)]
  · refine or_congr_right ⟨?_,?_⟩
    · rintro ⟨h,hh,hne,rfl,rfl⟩
      exact ⟨rfl,mem_ascending.mp hh,hne⟩
    · rintro ⟨rfl,hb,hne⟩
      exact ⟨b,mem_ascending.mpr hb,hne,rfl,rfl⟩
  · intro g h a b
    split_ifs with hself
    · simp [hself]
    · simp [WaitGraph.edge_addEdge,hself]

private theorem edge_queue (hmode : e.grantedMode = some mode) (graph : WaitGraph) (a b : Nat) :
    (e.waitQueue.foldl (fun graph request =>
      if request.mode.isCompatible mode then graph
      else (ascending e.holders).foldl (fun graph holderId =>
        if holderId = request.txnId then graph else graph.addEdge request.txnId holderId) graph) graph).Edge a b ↔
    graph.Edge a b ∨ e.WaitsForHolder a b := by
  rw [WaitGraph.edge_foldl (q := fun r a b => r.txnId = a ∧ e.conflicts r = true ∧ b ∈ e.holders ∧ b ≠ a)]
  · rfl
  · intro g r a b
    have hconflicts : e.conflicts r = !r.mode.isCompatible mode := by
      rw [LockEntry.conflicts,hmode]
      rfl
    split_ifs with hcompat
    · simp [hconflicts,hcompat]
    · simp [edge_holders,hconflicts,hcompat]

theorem edge_buildWaitForGraph (s : LockState) (a b : Nat) : s.buildWaitForGraph.Edge a b ↔
    ∃ x ∈ s.lockTable.entries, x.2.grantedMode ≠ none ∧ x.2.WaitsForHolder a b := by
  unfold buildWaitForGraph
  rw [WaitGraph.edge_foldl (q := fun x a b => x.2.grantedMode ≠ none ∧ x.2.WaitsForHolder a b)]
  · simp [WaitGraph.Edge,WaitGraph.neighbors]
  · intro g x a b
    split
    · next hnone => simp [hnone]
    · next mode hmode => simp [edge_queue hmode,hmode]

theorem edge_of_waitsForHolder {a b : Nat} (hsound : (s.entryOf key).Sound) (h : (s.entryOf key).WaitsForHolder a b) :
    s.buildWaitForGraph.Edge a b := by
  obtain ⟨r,hr,-,-,hb,-⟩ := id h
  have hmode : (s.entryOf key).grantedMode ≠ none := by
    rw [ne_eq,hsound.mode_none]
    exact Finset.ne_empty_of_mem hb
  rw [edge_buildWaitForGraph]
  cases hk : s.lockTable.lookup key with
  | none =>
    simp only [entryOf,hk] at hr
    cases hr
  | some e =>
    rw [entryOf_eq hk] at h hmode
    exact ⟨⟨key,e⟩,mem_lookup_iff.mp hk,hmode,h⟩

/-- One request of each transaction, queues in order, and no cycle of waits. -/
structure Untangled (s : LockState) : Prop where
  inOrder : ∀ key, (s.entryOf key).InOrder
  once : ∀ k₁ k₂, ∀ r₁ ∈ (s.entryOf k₁).waitQueue, ∀ r₂ ∈ (s.entryOf k₂).waitQueue, r₁.txnId = r₂.txnId → k₁ = k₂
  acyclic : Acyclic s.WaitsFor

theorem Untangled.eases (h : s.Untangled) (he : ∀ key, (s.entryOf key).Eases (s'.entryOf key)) : s'.Untangled :=
  ⟨fun key => (he key).inOrder (h.inOrder key),
    fun k₁ k₂ r₁ h₁ r₂ h₂ => h.once k₁ k₂ r₁ ((he k₁).queue h₁) r₂ ((he k₂).queue h₂),
    h.acyclic.mono (fun a b ⟨key,hw⟩ => ⟨key,(he key).waits a b hw⟩)⟩

theorem eases_releaseKey (s : LockState) (t : Nat) (key q : Bytes) :
    (s.entryOf q).Eases ((s.releaseKey t key).entryOf q) := by
  rcases releaseKey_cases s t key with ⟨-,hsame,-⟩ | ⟨-,-,hentry,-⟩
  · rw [hsame]
    exact .refl _
  · rw [hentry]
    split_ifs with hq
    · rw [hq]
      exact .served _ t
    · exact .refl _

theorem eases_releaseKeys (t : Nat) (keys : List Bytes) (s : LockState) (q : Bytes) :
    (s.entryOf q).Eases ((keys.foldl (fun st key => st.releaseKey t key) s).entryOf q) := by
  induction keys generalizing s with
  | nil => exact .refl _
  | cons key keys ih => exact (eases_releaseKey s t key q).trans (ih _)

theorem eases_removeRequest (s : LockState) (key : Bytes) (flag : Nat) (q : Bytes) :
    (s.entryOf q).Eases ((s.removeRequest key flag).entryOf q) := by
  rw [entryOf_removeRequest]
  split_ifs with hq
  · rw [hq]
    exact (LockEntry.Eases.filter _ _).trans (.kept _)
  · exact .refl _

theorem eases_withdraw (he : s.entryOf key = e) (r : LockRequest) (q : Bytes) :
    (s.entryOf q).Eases (((s.setEntry key { e with waitQueue := e.waitQueue ++ [r] }).removeRequest key r.granted).entryOf q) := by
  rw [entryOf_removeRequest]
  simp only [entryOf_setEntry,if_true]
  split_ifs with hq
  · simp only [filter_append,filter_cons,bne_self_eq_false,Bool.false_eq_true,if_false,filter_nil,append_nil]
    rw [hq,he]
    exact (LockEntry.Eases.filter _ _).trans (.kept _)
  · exact .refl _

private theorem snoc_eq_append {α : Type*} {l before after : List α} {x y : α} (h : l ++ [x] = before ++ y::after) :
    after = [] ∧ before = l ∧ y = x ∨ ∃ after', l = before ++ y::after' := by
  rcases eq_nil_or_concat after with rfl | ⟨after',z,rfl⟩
  · obtain ⟨hl,hx⟩ := append_inj' h rfl
    exact .inl ⟨rfl,hl.symm,(singleton_inj.mp hx).symm⟩
  · right
    rw [concat_eq_append,← cons_append,← append_assoc] at h
    exact ⟨after',(append_inj' h rfl).1⟩

/-- The transaction has no request in any queue. -/
def Running (s : LockState) (t : Nat) : Prop := ∀ x ∈ s.lockTable.entries, ∀ r ∈ x.2.waitQueue, r.txnId ≠ t

theorem Running.entryOf (h : s.Running t) (key : Bytes) : ∀ r ∈ (s.entryOf key).waitQueue, r.txnId ≠ t := by
  unfold LockState.entryOf
  cases hk : s.lockTable.lookup key with
  | none => exact fun r hr => (not_mem_nil hr).elim
  | some e => exact h ⟨key,e⟩ (mem_lookup_iff.mp hk)

/-- A running transaction gets a key at once: others may come to wait for it, but it waits for nobody. -/
theorem Untangled.granted (h : s.Untangled) (hrun : ∀ key, ∀ r ∈ (s.entryOf key).waitQueue, r.txnId ≠ t)
    (hcan : e.holders = ∅ ∨ e.holders = {t} ∧ e.grantedMode = some .shared ∨ mode = .shared ∧ e.grantedMode = some .shared)
    (he : s.entryOf key = e) (hentry : ∀ q, s'.entryOf q = if q = key then e.grantTo t mode else s.entryOf q) : s'.Untangled := by
  have hqueues : ∀ q, (s'.entryOf q).waitQueue = (s.entryOf q).waitQueue := by
    intro q
    rw [hentry]
    split_ifs with hq
    · rw [hq,he]
      rfl
    · rfl
  -- the other holders, and the mode they have
  have hheld : ∀ q, ∀ u ∈ (s'.entryOf q).holders, u ≠ t →
      u ∈ (s.entryOf q).holders ∧ (s'.entryOf q).grantedMode = (s.entryOf q).grantedMode := by
    intro q u hu hne
    rw [hentry] at hu ⊢
    split_ifs at hu ⊢ with hq
    · rw [hq,he]
      have hold := (Finset.mem_insert.mp hu).resolve_left hne
      rcases hcan with hfree | ⟨hsole,-⟩ | ⟨rfl,hshared⟩
      · simp [hfree] at hold
      · rw [hsole] at hold
        exact (hne (mem_singleton.mp hold)).elim
      · exact ⟨hold,by simp [LockEntry.grantTo,hshared]⟩
    · exact ⟨hu,rfl⟩
  refine ⟨fun q => ⟨?_,fun before r after hq hne => ?_⟩,fun k₁ k₂ => ?_,?_⟩
  · rw [hqueues]
    exact (h.inOrder q).distinct
  · rw [hqueues] at hq
    obtain ⟨hholder,hmode⟩ := (h.inOrder q).behind before r after hq hne
    exact ⟨fun hmem => hholder (hheld q _ hmem (hrun q r (by simp [hq]))).1,hmode⟩
  · rw [hqueues,hqueues]
    exact h.once k₁ k₂
  · refine h.acyclic.add_in (t := t) ?_ ?_
    · rintro a b ⟨q,hw⟩
      by_cases hb : b = t
      · exact .inr hb
      · refine .inl ⟨q,?_⟩
        rcases hw with ⟨r,hr,hrt,hconf,hmem,hne⟩ | hbehind
        · obtain ⟨hold,hmode⟩ := hheld q b hmem hb
          exact .inl ⟨r,hqueues q ▸ hr,hrt,by rwa [LockEntry.conflicts,hmode] at hconf,hold,hne⟩
        · rw [LockEntry.WaitsBehind,hqueues] at hbehind
          exact .inr hbehind
    · rintro b ⟨q,hw⟩
      obtain ⟨r,hr,hrt⟩ := hw.queued
      rw [hqueues] at hr
      exact hrun q r hr hrt

theorem Untangled.enqueue_inOrder (h : e.InOrder) {r : LockRequest} (hrun : ∀ x ∈ e.waitQueue, x.txnId ≠ r.txnId)
    (hjoin : e.waitQueue ≠ [] → r.txnId ∉ e.holders ∧ (r.mode = .exclusive ∨ ∀ x ∈ e.waitQueue, x.mode = .shared)) :
    LockEntry.InOrder { e with waitQueue := e.waitQueue ++ [r] } := by
  refine ⟨?_,fun before x after hq hne => ?_⟩
  · rw [map_append,nodup_append]
    refine ⟨h.distinct,nodup_singleton _,fun a ha b hb => ?_⟩
    obtain ⟨x,hx,rfl⟩ := mem_map.mp ha
    rw [mem_singleton.mp hb]
    exact hrun x hx
  · rcases snoc_eq_append hq with ⟨rfl,rfl,rfl⟩ | ⟨after',hq'⟩
    · exact hjoin hne
    · exact h.behind before x after' hq' hne

/-- In queues that are in order, a cycle through a request at the end of its queue is a cycle
of waits for holders. -/
theorem transGen_waitsForHolder (hin : ∀ key, (s.entryOf key).InOrder)
    (honce : ∀ k₁ k₂, ∀ r₁ ∈ (s.entryOf k₁).waitQueue, ∀ r₂ ∈ (s.entryOf k₂).waitQueue, r₁.txnId = r₂.txnId → k₁ = k₂)
    (hlast : ∀ key a, ¬(s.entryOf key).WaitsBehind a t) (h : TransGen s.WaitsFor t t) :
    TransGen (fun a b => ∃ key, (s.entryOf key).WaitsForHolder a b) t t := by
  refine transGen_of_skip ?_ ?_ h
  · rintro a ⟨key,hw⟩
    exact ⟨key,hw.resolve_right (hlast key a)⟩
  · rintro a b ⟨key,hw⟩
    rcases hw with hholder | ⟨before,r,after,hq,rfl,hb,hne⟩
    · exact .inl ⟨key,hholder⟩
    · right
      rintro c ⟨key',r',hr',hrb,hconf,hc,hcb⟩
      -- the request of b is the one before that of a, so both wait on this key
      obtain ⟨x,hx,rfl⟩ := mem_map.mp hb
      have hxq : x ∈ (s.entryOf key).waitQueue := by simp [hq,hx]
      obtain rfl := honce key' key r' hr' x hxq hrb
      obtain rfl : r' = x := inj_on_of_nodup_map (hin key').distinct hr' hxq hrb
      obtain ⟨hholder,hmode⟩ := (hin key').behind before r after hq (ne_nil_of_mem hx)
      refine ⟨key',r,by simp [hq],rfl,?_,hc,fun hca => hholder (hca ▸ hc)⟩
      rcases hmode with hex | hshared
      · exact LockEntry.conflicts_exclusive _ hex
      · -- two shared requests conflict with the same modes
        cases hm : r.mode with
        | exclusive => exact LockEntry.conflicts_exclusive _ hm
        | shared => rwa [LockEntry.conflicts,hshared r' hx,← hm] at hconf

theorem Untangled.blocked (h : s.Untangled) {r : LockRequest} (he : s.entryOf key = e)
    (hsound : ∀ q, ((s.setEntry key { e with waitQueue := e.waitQueue ++ [r] }).entryOf q).Sound)
    (hrun : ∀ key, ∀ x ∈ (s.entryOf key).waitQueue, x.txnId ≠ r.txnId)
    (hjoin : e.waitQueue ≠ [] → r.txnId ∉ e.holders ∧ (r.mode = .exclusive ∨ ∀ x ∈ e.waitQueue, x.mode = .shared))
    (hsearch : (s.setEntry key { e with waitQueue := e.waitQueue ++ [r] }).buildWaitForGraph.detectCycle r.txnId = some none) :
    (s.setEntry key { e with waitQueue := e.waitQueue ++ [r] }).Untangled := by
  subst he
  have hentry := entryOf_setEntry s key
  generalize hs' : s.setEntry key { s.entryOf key with waitQueue := (s.entryOf key).waitQueue ++ [r] } = s' at hsound hsearch ⊢
  replace hentry : ∀ q, s'.entryOf q = if q = key then { s.entryOf key with waitQueue := (s.entryOf key).waitQueue ++ [r] } else s.entryOf q :=
    fun q => hs' ▸ hentry q _
  have hqueue : ∀ q, ∀ x ∈ (s'.entryOf q).waitQueue, x ∈ (s.entryOf q).waitQueue ∨ q = key ∧ x = r := by
    intro q x hx
    rw [hentry] at hx
    split_ifs at hx with hq
    · rw [hq]
      exact (mem_append.mp hx).imp_right (fun hx => ⟨rfl,mem_singleton.mp hx⟩)
    · exact .inl hx
  have hin : ∀ q, (s'.entryOf q).InOrder := by
    intro q
    rw [hentry]
    split_ifs
    · exact enqueue_inOrder (h.inOrder key) (hrun key) hjoin
    · exact h.inOrder q
  have honce : ∀ k₁ k₂, ∀ r₁ ∈ (s'.entryOf k₁).waitQueue, ∀ r₂ ∈ (s'.entryOf k₂).waitQueue, r₁.txnId = r₂.txnId → k₁ = k₂ := by
    intro k₁ k₂ r₁ h₁ r₂ h₂ htxn
    rcases hqueue k₁ r₁ h₁ with h₁ | ⟨rfl,rfl⟩ <;> rcases hqueue k₂ r₂ h₂ with h₂ | ⟨rfl,rfl⟩
    · exact h.once k₁ k₂ r₁ h₁ r₂ h₂ htxn
    · exact (hrun k₁ r₁ h₁ htxn).elim
    · exact (hrun k₂ r₂ h₂ htxn.symm).elim
    · rfl
  -- the waits of the others are as they were
  have hsplit : ∀ q a b, (s'.entryOf q).WaitsFor a b → (s.entryOf q).WaitsFor a b ∨ a = r.txnId := by
    rintro q a b hw
    rw [hentry] at hw
    split_ifs at hw with hq
    · subst hq
      rcases hw with ⟨x,hx,hxa,hrest⟩ | ⟨before,x,after,hq,hxa,hb⟩
      · rcases mem_append.mp hx with hx | hx
        · exact .inl (.inl ⟨x,hx,hxa,hrest⟩)
        · exact .inr (by rw [← hxa,mem_singleton.mp hx])
      · rcases snoc_eq_append hq with ⟨-,-,rfl⟩ | ⟨after',hq'⟩
        · exact .inr hxa.symm
        · exact .inl (.inr ⟨before,x,after',hq',hxa,hb⟩)
    · exact .inl hw
  have hlast : ∀ q a, ¬(s'.entryOf q).WaitsBehind a r.txnId := by
    rintro q a ⟨before,x,after,hq,hxa,hb,hne⟩
    obtain ⟨y,hy,hyr⟩ := mem_map.mp hb
    rcases hqueue q y (by simp [hq,hy]) with hold | ⟨rfl,rfl⟩
    · exact hrun q y hold hyr
    · rw [hentry,if_pos rfl] at hq
      rcases snoc_eq_append hq with ⟨-,rfl,-⟩ | ⟨after',hq'⟩
      · exact hrun q y hy rfl
      · exact hrun q y (by simp [hq',hy]) rfl
  refine ⟨hin,honce,h.acyclic.add_out (fun a b ⟨q,hw⟩ => (hsplit q a b hw).imp_left (fun hw => ⟨q,hw⟩)) (fun hcycle => ?_)⟩
  refine WaitGraph.not_transGen_of_detectCycle (fun hself => ?_) hsearch
    (.mono (fun a b hab => ?_) _ _ (transGen_waitsForHolder hin honce hlast hcycle))
  · obtain ⟨x,-,-,y,-,hy,-,-,hne⟩ := (edge_buildWaitForGraph s' _ _).mp hself
    exact hne rfl
  · obtain ⟨q,hw⟩ := hab
    exact edge_of_waitsForHolder (hsound q) hw

theorem tryGrantImmediate_mustWait (h : s.tryGrantImmediate e key t mode = (s',.mustWait))
    (hmem : t ∈ e.holders) : mode = .exclusive ∧ e.holders ≠ {t} := by
  unfold tryGrantImmediate at h
  rw [if_neg (Finset.ne_empty_of_mem hmem),if_pos hmem] at h
  split at h
  · split_ifs at h with hcard
    · cases h
    · refine ⟨rfl,fun heq => hcard ?_⟩
      rw [heq,Finset.card_singleton]
  · cases h

/-- A shared request is not queued behind an exclusive one, nor an upgrade behind any other. -/
def JoinsInOrder (e : LockEntry) (t : Nat) : LockMode → Prop
  | .shared => t ∈ e.holders ∨ ∀ r ∈ e.waitQueue, r.mode = .shared
  | .exclusive => t ∈ e.holders → e.holders = {t} ∨ e.waitQueue = []

theorem JoinsInOrder.mustWait (hjoin : JoinsInOrder e t mode)
    (h : s.tryGrantImmediate e key t mode = (s',.mustWait)) (hne : e.waitQueue ≠ []) :
    t ∉ e.holders ∧ (mode = .exclusive ∨ ∀ x ∈ e.waitQueue, x.mode = .shared) := by
  have hfree : t ∉ e.holders := by
    intro hmem
    obtain ⟨rfl,hshared⟩ := tryGrantImmediate_mustWait h hmem
    exact (hjoin hmem).elim hshared hne
  cases mode with
  | shared => exact ⟨hfree,.inr (hjoin.resolve_left hfree)⟩
  | exclusive => exact ⟨hfree,.inl rfl⟩

theorem Untangled.acquire (h : s.Untangled) {flag : Nat} {result : AcquireResult} (hrun : s.Running t)
    (hjoin : JoinsInOrder (s.entryOf key) t mode) (hsound : ∀ q, (s'.entryOf q).Sound)
    (hstep : s.startAcquire flag t key mode = some (s',result)) : s'.Untangled := by
  obtain ⟨s₁,hsame,-,hcases⟩ := startAcquire_cases hstep
  have h₁ : s₁.Untangled := h.eases (fun q => hsame q ▸ .refl _)
  have hrun₁ : ∀ q, ∀ r ∈ (s₁.entryOf q).waitQueue, r.txnId ≠ t := fun q => hsame q ▸ hrun.entryOf q
  rcases hcases with ⟨rfl,-⟩ | ⟨hgrant,-⟩ | ⟨hwait,-,s₂,rfl,hs'⟩
  · exact h₁
  · obtain ⟨hcan,hentry⟩ := tryGrantImmediate_entry hgrant
    exact h₁.granted hrun₁ hcan (hsame key) hentry
  · rcases hs' with rfl | ⟨rfl,-,hsearch⟩
    · -- the request is taken off the queue again
      exact h₁.eases (eases_withdraw (hsame key) ⟨t,mode,flag⟩)
    · exact h₁.blocked (hsame key) hsound hrun₁ (hjoin.mustWait hwait) hsearch

end LockState

namespace LockManager

/-- A transaction asks for one lock at a time, and its request joins the queue in order. -/
def QueuesInOrder (m : LockManager) : LockOp → Prop
  | .acquire t key mode => m.state.Running t ∧ LockState.JoinsInOrder (m.state.entryOf key) t mode
  | _ => True

theorem untangled_step {m m' : LockManager} {op : LockOp} (h : m.state.Untangled) (hok : m'.state.Ok m'.modes)
    (hcond : m.QueuesInOrder op) (hstep : m.step op = some m') : m'.state.Untangled := by
  cases op with
  | acquire t key mode =>
    obtain ⟨⟨s',r⟩,hr,rfl⟩ := map_eq_some_iff.mp hstep
    cases r <;> exact h.acquire hcond.1 hcond.2 (fun q => (hok.key q).sound) hr
  | wake flag =>
    obtain ⟨w,-,rfl⟩ := map_eq_some_iff.mp hstep
    split_ifs <;> exact h
  | timeout flag =>
    obtain ⟨w,-,rfl⟩ := map_eq_some_iff.mp hstep
    split_ifs
    · exact h
    · exact h.eases (LockState.eases_removeRequest m.state w.2 flag)
  | release t key =>
    obtain rfl := some.inj hstep
    refine h.eases (fun q => ?_)
    rw [← LockState.entryOf_dropHold m.state t key q]
    exact LockState.eases_releaseKey _ t key q
  | releaseAll t =>
    obtain rfl := some.inj hstep
    exact h.eases (LockState.eases_releaseKeys t (m.state.lockSet t) { m.state with txnLocks := m.state.txnLocks.erase t })

theorem untangled_new : new.state.Untangled := by
  have hnil : ∀ key, (new.state.entryOf key).waitQueue = [] := fun _ => rfl
  refine ⟨fun key => ?_,fun k₁ k₂ r₁ h₁ => (not_mem_nil h₁).elim,fun a ha => ?_⟩
  · exact (LockEntry.Eases.of_nil (e := new.state.entryOf key) (hnil key)).inOrder
      ⟨nodup_nil,fun before r after hq => by simp [hnil] at hq⟩
  · obtain ⟨b,⟨key,hw⟩,-⟩ := TransGen.head'_iff.mp ha
    obtain ⟨r,hr,-⟩ := hw.queued
    cases hr

/-- In every table reached by acquire, release, release of all locks and timeouts, transactions do not wait
for one another in a circle, provided that requests join their queues in order. -/
theorem waits_acyclic {ops : List LockOp} {m : LockManager} (hcond : AllSteps step QueuesInOrder new ops)
    (h : run step new ops = some m) : Acyclic m.state.WaitsFor := by
  have hkeep : ∀ (m : LockManager) op m', m.state.Ok m.modes ∧ m.state.Untangled → m.QueuesInOrder op → m.step op = some m' →
      m'.state.Ok m'.modes ∧ m'.state.Untangled := by
    intro m op m' hm hop hstep
    have hok := ok_step hm.1 hstep
    exact ⟨hok,untangled_step hm.2 hok hop hstep⟩
  exact (run_invariant QueuesInOrder hkeep ⟨ok_new,untangled_new⟩ hcond h).2.acyclic

instance (s : LockState) (t : Nat) : Decidable (s.Running t) := inferInstanceAs (Decidable (∀ x ∈ s.lockTable.entries, _))

instance (e : LockEntry) (t : Nat) (mode : LockMode) : Decidable (LockState.JoinsInOrder e t mode) := by
  cases mode <;> unfold LockState.JoinsInOrder <;> infer_instance

instance (m : LockManager) (op : LockOp) : Decidable (m.QueuesInOrder op) := by
  cases op <;> unfold QueuesInOrder <;> infer_instance

private def refusedRun : List LockOp :=
  [.acquire 1 [7] .exclusive,.acquire 2 [8] .shared,.acquire 2 [7] .shared,.acquire 3 [7] .exclusive,.acquire 1 [8] .exclusive]

theorem waits_acyclic_refused : ∃ m, run step new refusedRun = some m ∧ m.waiting.length = 2 ∧ Acyclic m.state.WaitsFor := by
  exact exists_observed (·.waiting.length) 2 (by decide +kernel)
    (fun m hm hwaiting => ⟨hwaiting,waits_acyclic (by decide +kernel) hm⟩)

/-- An upgrade waits behind a request that waits for its transaction; and a shared request waits behind an
exclusive one for a transaction that waits for it. Every call was blocked or served, none was refused. -/
theorem waits_in_circle :
    (∃ m, run step new [.acquire 1 [7] .shared,.acquire 3 [7] .shared,.acquire 2 [7] .exclusive,.acquire 3 [7] .exclusive] =
      some m ∧ m.waiting.length = 2 ∧ TransGen m.state.WaitsFor 3 3) ∧
    ∃ m, run step new [.acquire 3 [8] .exclusive,.acquire 1 [7] .shared,.acquire 2 [7] .exclusive,.acquire 3 [7] .shared,
      .acquire 1 [8] .shared] = some m ∧ m.waiting.length = 3 ∧ TransGen m.state.WaitsFor 3 3 := by
  constructor
  · refine exists_observed (fun m => (m.waiting.length,(m.state.entryOf [7]).waitQueue,decide (3 ∈ (m.state.entryOf [7]).holders)))
      (2,[⟨2,.exclusive,0⟩,⟨3,.exclusive,1⟩],true) (by decide +kernel) (fun m _ heq => ?_)
    obtain ⟨hwaiting,hentry⟩ := Prod.mk.inj heq
    obtain ⟨hqueue,hholder⟩ := Prod.mk.inj hentry
    refine ⟨hwaiting,.tail (.single (b := 2) ⟨[7],.inr ?_⟩) ⟨[7],.inl ?_⟩⟩
    · exact ⟨[⟨2,.exclusive,0⟩],⟨3,.exclusive,1⟩,[],hqueue,rfl,by decide,by decide⟩
    · refine ⟨⟨2,.exclusive,0⟩,?_,rfl,LockEntry.conflicts_exclusive _ rfl,of_decide_eq_true hholder,by decide⟩
      rw [hqueue]
      exact mem_cons_self
  · refine exists_observed (fun m => (m.waiting.length,m.state.entryOf [7],m.state.entryOf [8]))
      (3,⟨some .shared,{1},[⟨2,.exclusive,0⟩,⟨3,.shared,1⟩]⟩,⟨some .exclusive,{3},[⟨1,.shared,2⟩]⟩) (by decide +kernel)
      (fun m _ heq => ?_)
    obtain ⟨hwaiting,hentries⟩ := Prod.mk.inj heq
    obtain ⟨hentry,hentry'⟩ := Prod.mk.inj hentries
    refine ⟨hwaiting,.tail (.tail (.single (b := 2) ⟨[7],.inr ?_⟩) (b := 2) (c := 1) ⟨[7],.inl ?_⟩) ⟨[8],.inl ?_⟩⟩
    · rw [hentry]
      exact ⟨[⟨2,.exclusive,0⟩],⟨3,.shared,1⟩,[],rfl,rfl,by decide,by decide⟩
    · rw [hentry]
      exact ⟨⟨2,.exclusive,0⟩,by decide,rfl,rfl,by decide,by decide⟩
    · rw [hentry']
      exact ⟨⟨1,.shared,2⟩,by decide,rfl,rfl,by decide,by decide⟩

end LockManager
end InterchangeDb
