import InterchangeDb.Buffer.Ownership

/-! Every interleaving of calls shares the frames out, as long as deletes and page creation are left alone. -/
namespace InterchangeDb
open List Option AList

open EvictionPolicy LawfulEvictionPolicy Threads

namespace Task

/-- The pages a thread knows to be on disk. -/
def stored : Task → List PageId
  | needFrame p .create => [p]
  | evict p .create _ => [p]
  | commit p .create _ _ _ => [p]
  | flushCheck _ _ (.evict p .create _) => [p]
  | flushWrite _ _ (.evict p .create _) => [p]
  | flushClear _ _ (.evict p .create _) => [p]
  | granted p .create _ => [p]
  | copy p _ _ _ => [p]
  | name p _ _ => [p]
  | pin p _ _ => [p]
  | publish p _ _ => [p]
  | _ => []

end Task

namespace BufferPool
variable {P : Type} [EvictionPolicy P]

omit [EvictionPolicy P] in
/-- The pages of the table, and those about to be in it, are on disk. -/
structure Stored (c : BufferPool P) : Prop where
  table : ∀ p f, c.pageTable.lookup p = some f → p < c.disk.length
  tasks : ∀ x ∈ c.tasks, ∀ p ∈ x.stored, p < c.disk.length

section Stored
variable {c c' : BufferPool P} {t : Nat} {a b : Task}
variable {env : PolicyEnv} {p : PageId} {use : FrameUse}

omit [EvictionPolicy P] in
theorem Stored.move (h : c.Stored) (ha : c.tasks[t]? = some a) (htasks : c'.tasks = c.tasks.set t b)
    (hdisk : c.disk.length ≤ c'.disk.length)
    (hpt : ∀ p f, c'.pageTable.lookup p = some f → c.pageTable.lookup p = some f ∨ p ∈ a.stored)
    (hb : ∀ p ∈ b.stored, p ∈ a.stored ∨ p < c'.disk.length) : c'.Stored := by
  have hold := h.tasks a (mem_of_getElem? ha)
  constructor
  · intro p f hp
    exact ((hpt p f hp).elim (h.table p f) (hold p)).trans_le hdisk
  · rw [htasks]
    refine forall_set (fun x hx p hp => (h.tasks x hx p hp).trans_le hdisk) (fun p hp => ?_)
    exact (hb p hp).elim (fun hpa => (hold p hpa).trans_le hdisk) (fun hlt => hlt)

omit [EvictionPolicy P] in
theorem Stored.quiet (h : c.Stored) (ha : c.tasks[t]? = some a) (htasks : c'.tasks = c.tasks.set t b)
    (hdisk : c'.disk.length = c.disk.length) (hpt : c'.pageTable = c.pageTable) (hb : b.stored ⊆ a.stored) : c'.Stored :=
  h.move ha htasks hdisk.ge (fun _ _ hp => .inl (hpt ▸ hp)) (fun _ hp => .inl (hb hp))

private theorem stored_afterFlush (f : FrameId) (q : PageId) (caller : FlushFor) :
    (afterFlush f q caller).stored = (Task.flushClear f q caller).stored := by
  rcases caller with ⟨p,use,tries⟩ | _ | rest
  · cases use <;> rfl
  · rfl
  · rcases rest with _ | ⟨x,rest⟩ <;> rfl

private theorem stored_flush (f : FrameId) (q : PageId) (caller : FlushFor) :
    (Task.flushCheck f q caller).stored = (Task.flushClear f q caller).stored ∧
      (Task.flushWrite f q caller).stored = (Task.flushClear f q caller).stored := by
  rcases caller with ⟨p,use,tries⟩ | _ | rest
  · cases use <;> exact ⟨rfl,rfl⟩
  · exact ⟨rfl,rfl⟩
  · exact ⟨rfl,rfl⟩

private theorem Stored.evict {tries : Nat} (h : c.Stored)
    (ha : c.tasks[t]? = some (.evict p use tries)) : (c.evict env t p use tries).Stored := by
  cases tries with
  | zero => exact h.quiet ha rfl rfl rfl (nil_subset _)
  | succ tries =>
    rw [BufferPool.evict]
    split
    · exact h.quiet ha rfl rfl rfl (nil_subset _)
    · next f r _ =>
      split_ifs
      · exact h.quiet ha rfl rfl rfl (by cases use <;> exact .refl _)
      · refine h.quiet ha rfl rfl rfl ?_
        cases (c.frames f).pageId <;> cases use <;> exact List.Subset.refl _

private theorem Stored.commit {tries : Nat} {f : FrameId} {old : Option PageId}
    (h : c.Stored) (ha : c.tasks[t]? = some (.commit p use tries f old))
    (hstep : c.commit env t p use tries f old = some c') : c'.Stored := by
  obtain ⟨x,-,rfl⟩ := map_eq_some_iff.mp hstep
  have hstored : (Task.evict p use tries).stored ⊆ (Task.commit p use tries f old).stored ∧
      (Task.granted p use f).stored ⊆ (Task.commit p use tries f old).stored := by
    cases use <;> exact ⟨List.Subset.refl _,List.Subset.refl _⟩
  split_ifs
  · exact h.quiet ha rfl rfl rfl hstored.1
  · refine h.move ha rfl le_rfl (fun q g hq => .inl ?_) (fun q hq => .inl (hstored.2 hq))
    cases old with
    | none => exact hq
    | some o => exact (lookup_erase_cases hq).2

private theorem Stored.publish {f : FrameId} (h : c.Stored)
    (ha : c.tasks[t]? = some (.publish p use f)) : (c.publish env t p f use).Stored := by
  have hinsert : ∀ q g, (c.pageTable.insert p f).lookup q = some g → c.pageTable.lookup q = some g ∨ q ∈ (Task.publish p use f).stored := by
    intro q g hq
    rcases lookup_insert_cases hq with ⟨hqp,-⟩ | ⟨-,hq⟩
    · exact .inr (mem_singleton.mpr hqp)
    · exact .inl hq
  cases use with
  | load access =>
    rw [publish]
    split
    · exact h.quiet ha rfl rfl rfl (nil_subset _)
    · exact h.move ha rfl le_rfl hinsert (fun _ hq => by cases hq)
  | create => exact h.move ha rfl le_rfl hinsert (fun _ hq => by cases hq)

theorem Stored.next {env : StepEnv} (h : c.Stored) (ha : c.tasks[t]? = some a) (hstep : c.next env t a = some c') : c'.Stored := by
  cases a with
  | idle | failed _ | holding _ _ _ => cases hstep
  | lookup p access =>
    cases hstep
    unfold lookup
    split <;> exact h.quiet ha rfl rfl rfl (nil_subset _)
  | needFrame p use =>
    cases hstep
    unfold getFreeFrame
    split <;> exact h.quiet ha rfl rfl rfl (by cases use <;> exact List.Subset.refl _)
  | evict p use tries =>
    cases hstep
    exact h.evict ha
  | commit p use tries f old => exact h.commit ha hstep
  | granted p use f =>
    simp only [next] at hstep
    cases use with
    | load access =>
      cases hstep
      split_ifs
      · exact h.quiet ha rfl rfl rfl (nil_subset _)
      · split
        · exact h.quiet ha rfl rfl rfl (nil_subset _)
        · next data hdata =>
          refine h.move ha rfl le_rfl (fun _ _ hp => .inl hp) (fun q hq => .inr ?_)
          rw [mem_singleton.mp hq]
          exact (List.getElem?_eq_some_iff.mp hdata).1
    | create =>
      simp only [granted] at hstep
      split_ifs at hstep
      cases hstep
      exact h.quiet ha rfl rfl rfl (.refl _)
  | copy p access f data =>
    simp only [next] at hstep
    split_ifs at hstep
    cases hstep
    exact h.quiet ha rfl rfl rfl (.refl _)
  | name p use f | pin p use f =>
    cases hstep
    exact h.quiet ha rfl rfl rfl (.refl _)
  | publish p use f =>
    cases hstep
    exact h.publish ha
  | lost stage p access f winner =>
    cases stage with
    | unpin =>
      obtain ⟨x,-,rfl⟩ := map_eq_some_iff.mp hstep
      exact h.quiet ha rfl rfl rfl (nil_subset _)
    | unname | clean | free =>
      cases hstep
      exact h.quiet ha rfl rfl rfl (nil_subset _)
  | record p f | markDirty p f | settle f =>
    cases hstep
    exact h.quiet ha rfl rfl rfl (nil_subset _)
  | latch p access f =>
    simp only [next] at hstep
    split_ifs at hstep
    cases hstep
    exact h.quiet ha rfl rfl rfl (nil_subset _)
  | unpin p f =>
    obtain ⟨x,-,rfl⟩ := map_eq_some_iff.mp hstep
    refine h.quiet ha rfl rfl rfl ?_
    split_ifs <;> exact nil_subset _
  | allocate =>
    simp only [next,allocate] at hstep
    split_ifs at hstep
    · cases hstep
      exact h.quiet ha rfl rfl rfl (nil_subset _)
    · cases hstep
      refine h.move ha rfl (by simp) (fun _ _ hp => .inl hp) (fun q hq => .inr ?_)
      rw [mem_singleton.mp hq]
      simp
  | flushLookup p =>
    cases hstep
    refine h.quiet ha rfl rfl rfl ?_
    split <;> exact nil_subset _
  | flushAllLookup =>
    cases hstep
    refine h.quiet ha rfl rfl rfl ?_
    rw [stored_afterFlush]
    exact nil_subset _
  | flushCheck f q caller =>
    cases hstep
    refine h.quiet ha rfl rfl rfl ?_
    split_ifs
    · rw [(stored_flush f q caller).1,(stored_flush f q caller).2]
      exact .refl _
    · rw [stored_afterFlush,(stored_flush f q caller).1]
      exact .refl _
  | flushWrite f q caller =>
    simp only [next,flushWrite] at hstep
    split_ifs at hstep
    · cases hstep
      exact h.quiet ha rfl length_set rfl (nil_subset _)
    · cases hstep
      exact h.quiet ha rfl rfl rfl (nil_subset _)
    · cases hstep
      refine h.quiet ha rfl length_set rfl ?_
      rw [(stored_flush f q caller).2]
      exact .refl _
  | flushClear f q caller =>
    cases hstep
    refine h.quiet ha rfl rfl rfl ?_
    rw [stored_afterFlush]
    exact .refl _
  | delete p =>
    cases hstep
    unfold delete
    split
    · exact h.quiet ha rfl rfl rfl (nil_subset _)
    · split_ifs
      · exact h.quiet ha rfl rfl rfl (nil_subset _)
      · refine h.move ha rfl le_rfl (fun q g hq => .inl (lookup_erase_cases hq).2) nofun
  | deleting stage f =>
    cases hstep
    cases stage <;> exact h.quiet ha rfl rfl rfl (nil_subset _)

end Stored

section Steps
variable {n : Nat} [LawfulEvictionPolicy P n] {full : Prop} {c c' : BufferPool P} {t : Nat} {a b : Task}
variable {env : StepEnv} {threads : Nat}

private theorem quiet_afterFlush (f : FrameId) (q : PageId) (caller : FlushFor) :
    (Task.flushCheck f q caller).Quiet (afterFlush f q caller) ∧ (Task.flushClear f q caller).Quiet (afterFlush f q caller) := by
  rcases caller with ⟨p,use,tries⟩ | _ | rest
  · constructor <;>
      exact .same rfl rfl (fun _ => rfl)
  · constructor <;>
      exact .same rfl rfl (fun _ => rfl)
  · rcases rest with _ | ⟨x,rest⟩ <;> constructor <;>
      exact .same rfl rfl (fun _ => rfl)

private theorem quiet_flush (f : FrameId) (q : PageId) (caller : FlushFor) :
    (Task.flushCheck f q caller).Quiet (.flushWrite f q caller) ∧ (Task.flushWrite f q caller).Quiet (.flushClear f q caller) := by
  rcases caller with ⟨p,use,tries⟩ | _ | rest <;> constructor <;>
    exact .same rfl rfl (fun _ => rfl)

/-- What a step may not run into: a victim that is being deleted, a new page that somebody has
loaded already, or a failing write of a reserved frame. -/
def Undisturbed (env : StepEnv) (c : BufferPool P) : Task → Prop
  | .evict p _ _ => ∀ f ∈ (evictForPage env.policy c.replacer p).1, ∀ x ∈ c.tasks, x.unmaps f = false
  | .publish p .create _ => c.pageTable.lookup p = none
  | .flushWrite _ _ (.evict _ _ _) => env.fails = false
  | _ => True

def Loads (env : StepEnv) (c : BufferPool P) : Task → Prop
  | .granted p (.load _) _ => env.fails = false ∧ p < c.disk.length
  | _ => True

private theorem Inv.granted {p : PageId} {use : FrameUse} {f : FrameId} (h : c.Inv n full)
    (ha : c.tasks[t]? = some (.granted p use f)) (hload : full → Loads env c (.granted p use f))
    (hstep : c.granted env t p f use = some c') : c'.Inv n full := by
  cases use with
  | load access =>
    cases hstep
    split_ifs with hfails
    · refine h.leak ha (fun hfull => ?_) rfl _ (fun _ => ⟨nofun,nofun,nofun⟩)
      rw [(hload hfull).1] at hfails
      cases hfails
    · split
      · next hnone =>
        refine h.leak ha (fun hfull => ?_) rfl _ (fun _ => ⟨nofun,nofun,nofun⟩)
        exact absurd (hload hfull).2 (not_lt.mpr (getElem?_eq_none_iff.mp hnone))
      · exact h.retask ha (.same rfl rfl (fun _ => rfl))
  | create =>
    simp only [BufferPool.granted] at hstep
    split_ifs at hstep
    cases hstep
    exact h.refill (b := .name p .create f) ha (.same rfl rfl (fun _ => rfl)) rfl rfl

private theorem Inv.flushWrite {f : FrameId} {q : PageId} {caller : FlushFor} (h : c.Inv n full) (hstored : c.Stored)
    (ha : c.tasks[t]? = some (.flushWrite f q caller)) (hcalm : Undisturbed env c (.flushWrite f q caller))
    (hstep : c.flushWrite env t f q caller = some c') : c'.Inv n full := by
  have hfailed : ∀ e, (∀ p use tries, caller ≠ .evict p use tries) → (Task.flushWrite f q caller).Quiet (.failed e) := by
    intro e hcaller
    rcases caller with ⟨p,use,tries⟩ | _ | rest
    · exact (hcaller p use tries rfl).elim
    · exact .same rfl rfl (fun _ => rfl)
    · exact .same rfl rfl (fun _ => rfl)
  simp only [BufferPool.flushWrite] at hstep
  split_ifs at hstep with _ hfails hmissing
  · cases hstep
    refine h.quiet ha rfl (hfailed _ ?_) rfl rfl rfl (fun _ => rfl) (fun _ _ => rfl)
    rintro p use tries rfl
    rw [hcalm] at hfails
    cases hfails
  · cases hstep
    refine h.retask ha (hfailed _ ?_)
    rintro p use tries rfl
    have hq := h.mapped _ (mem_tasks ha) (q,f) mem_cons_self
    exact absurd (hstored.table q f hq) (not_lt.mpr hmissing)
  · cases hstep
    exact h.quiet ha rfl (quiet_flush f q caller).2 rfl rfl rfl (fun _ => rfl) (fun _ _ => rfl)

theorem Inv.next (h : c.Inv n full) (hstored : c.Stored) (ha : c.tasks[t]? = some a) (hcalm : Undisturbed env c a)
    (hload : full → Loads env c a) (hstep : c.next env t a = some c') : c'.Inv n full := by
  cases a with
  | idle | failed _ | holding _ _ _ => cases hstep
  | lookup p access =>
    cases hstep
    exact h.lookup ha env.policy
  | needFrame p use =>
    cases hstep
    exact h.getFreeFrame ha
  | evict p use tries =>
    cases hstep
    exact h.evict ha env.policy hcalm
  | commit p use tries f old => exact h.commit ha hstep
  | granted p use f => exact h.granted ha hload hstep
  | copy p access f data =>
    simp only [next] at hstep
    split_ifs at hstep
    cases hstep
    exact h.refill (b := .name p (.load access) f) ha (.same rfl rfl (fun _ => rfl)) rfl rfl
  | name p use f =>
    cases hstep
    exact h.name ha
  | pin p use f =>
    cases hstep
    exact h.pin ha
  | publish p use f =>
    cases hstep
    refine h.publish ha env.policy ?_
    rintro rfl
    exact hcalm
  | lost stage p access f winner => exact h.lost ha hstep
  | record p f =>
    cases hstep
    exact h.record ha env.policy
  | latch p access f =>
    simp only [next] at hstep
    split_ifs at hstep
    cases hstep
    exact h.retask ha (.same rfl rfl (fun _ => rfl))
  | markDirty p f =>
    cases hstep
    exact h.refill (b := .unpin p f) ha (.same rfl rfl (fun _ => rfl)) rfl rfl
  | unpin p f => exact h.unpinPage ha hstep
  | settle f =>
    cases hstep
    exact h.settle ha
  | allocate =>
    simp only [next,allocate] at hstep
    split_ifs at hstep <;> cases hstep <;>
      exact h.quiet ha rfl (.same rfl rfl (fun _ => rfl)) rfl rfl rfl (fun _ => rfl) (fun _ _ => rfl)
  | flushLookup p =>
    cases hstep
    refine h.retask ha ?_
    split <;> exact .same rfl rfl (fun _ => rfl)
  | flushAllLookup =>
    cases hstep
    refine h.retask ha ?_
    have hquiet := (quiet_afterFlush 0 0 (.all (c.pageTable.entries.map (fun x => (x.1,x.2))))).1
    exact ⟨hquiet.owned,hquiet.pinned,hquiet.mapped,hquiet.labels,hquiet.anchored,hquiet.tells⟩
  | flushCheck f q caller =>
    cases hstep
    refine h.retask ha ?_
    split_ifs
    · exact (quiet_flush f q caller).1
    · exact (quiet_afterFlush f q caller).1
  | flushWrite f q caller => exact h.flushWrite hstored ha hcalm hstep
  | flushClear f q caller =>
    cases hstep
    exact h.refill ha (quiet_afterFlush f q caller).2 rfl rfl
  | delete p =>
    cases hstep
    exact h.delete ha
  | deleting stage f =>
    cases hstep
    exact h.deleting ha

def FrameSafe (c : BufferPool P) : PoolLabel P → Prop
  | .next t env => ∀ a ∈ c.tasks[t]?, Undisturbed env c a ∧ Loads env c a
  | _ => True

theorem Inv.step {label : PoolLabel P} (h : c.Inv n full) (hstored : c.Stored)
    (hsafe : ∀ t env, label = .next t env → ∀ a ∈ c.tasks[t]?, Undisturbed env c a ∧ (full → Loads env c a))
    (hswap : ∀ env r mode, label = .swapPolicy env r mode → Fresh n r) (hstep : c.step label = some c') :
    c'.Inv n full ∧ c'.Stored := by
  cases label with
  | start t call =>
    simp only [BufferPool.step] at hstep
    have hcall : ∀ a, c.tasks[t]? = some a → a.Quiet call.task →
        (c.setTask t call.task).Inv n full ∧ (c.setTask t call.task).Stored := fun a ha hquiet =>
      ⟨h.retask ha hquiet,hstored.quiet ha rfl rfl rfl (by cases call <;> exact nil_subset _)⟩
    split at hstep
    · next ha =>
      cases hstep
      exact hcall _ ha (by cases call <;> exact .same rfl rfl (fun _ => rfl))
    · next e ha =>
      cases hstep
      exact hcall _ ha (by cases call <;> exact .same rfl rfl (fun _ => rfl))
    · cases hstep
  | next t env =>
    obtain ⟨a,ha,hnext⟩ := bind_eq_some_iff.mp hstep
    obtain ⟨hcalm,hload⟩ := hsafe t env rfl a ha
    exact ⟨h.next hstored ha hcalm hload hnext,hstored.next ha hnext⟩
  | write t page =>
    simp only [BufferPool.step] at hstep
    split at hstep
    · next p f ha =>
      cases hstep
      have htasks : c.tasks.set t (.holding p .write f) = c.tasks := by
        obtain ⟨hlt,heq⟩ := List.getElem?_eq_some_iff.mp ha
        rw [← heq]
        exact set_getElem_self hlt
      refine ⟨h.quiet ha htasks.symm (.same rfl rfl (fun _ => rfl)) rfl rfl
        rfl (update_field Frame.pinCount rfl) (fun g _ => update_field Frame.pageId (x := { c.frames f with page }) rfl g),hstored.table,hstored.tasks⟩
    · cases hstep
  | drop t =>
    simp only [BufferPool.step] at hstep
    split at hstep
    · next p f ha =>
      cases hstep
      exact ⟨h.retask ha (.same rfl rfl (fun _ => rfl)),hstored.quiet ha rfl rfl rfl (nil_subset _)⟩
    · next p f ha =>
      cases hstep
      exact ⟨h.retask ha (.same rfl rfl (fun _ => rfl)),hstored.quiet ha rfl rfl rfl (nil_subset _)⟩
    · cases hstep
  | swapPolicy env r mode =>
    cases hstep
    exact ⟨h.swapPolicy env (hswap env r mode rfl) mode,hstored.table,hstored.tasks⟩

theorem inv_new {r : P} (hr : Fresh n r) (disk : List Page) (hthreads : threads < 2^31) :
    (BufferPool.new n r disk threads).Inv n full ∧ (BufferPool.new n r disk threads).Stored := by
  have hidle : ∀ x ∈ List.replicate threads Task.idle, x = .idle := fun x hx => eq_of_mem_replicate hx
  have htotal : ∀ g : Task → Nat, g .idle = 0 → total g (replicate threads .idle) = 0 := by
    intro g hg
    rw [total,map_replicate,hg,sum_replicate,smul_zero]
  have howners : ∀ f, (new n r disk threads).owners f = (range n).count f := by
    intro f
    change (range n).reverse.count f + 0 + total (fun x : Task => x.owned.count f) (replicate threads .idle) = _
    rw [htotal _ rfl,count_reverse]
    rfl
  have hnone : ∀ p f, (∅ : AList (fun _ : PageId => FrameId)).lookup p ≠ some f := by
    intro p f hp
    rw [lookup_empty] at hp
    cases hp
  constructor
  · refine ⟨?_,?_,?_,?_,fun p f hp => (hnone p f hp).elim,?_,?_,?_,?_,hr.1,fun f => ⟨fun hf => ?_,fun _ => rfl,fun hf => ?_,fun hf => ?_⟩⟩
    · change 2 * (List.replicate threads Task.idle).length + 1 < 2^32
      rw [length_replicate]
      omega
    · intro f hf
      rw [howners] at hf
      exact mem_range.mp (count_pos_iff.mp hf)
    · intro f
      rw [howners]
      exact nodup_iff_count_le_one.mp nodup_range f
    · intro _ f hf
      rw [howners]
      exact count_pos_iff.mpr (mem_range.mpr hf)
    · exact fun f => (htotal _ rfl).symm
    · exact fun x hx pf hpf => by rw [hidle x hx] at hpf; cases hpf
    · exact fun x hx pf hpf => by rw [hidle x hx] at hpf; cases hpf
    · exact fun x hx => by rw [hidle x hx]; rfl
    · change tracked n r f = true at hf
      rw [hr.2] at hf
      cases hf
    · cases hf
    · cases hf
  · exact ⟨fun p f hp => (hnone p f hp).elim,fun x hx p hp => by rw [hidle x hx] at hp; cases hp⟩

theorem inv_run {r : P} (hr : Fresh n r) (disk : List Page) (hthreads : threads < 2^31) {as : List (PoolLabel P)}
    (hswaps : ∀ env r mode, .swapPolicy env r mode ∈ as → Fresh n r)
    (hsafe : AllSteps step FrameSafe (BufferPool.new n r disk threads) as)
    (hrun : run step (BufferPool.new n r disk threads) as = some c) : c.Inv n True ∧ c.Stored := by
  have hfresh : AllSteps step (fun _ label => ∀ env r mode, label = .swapPolicy env r mode → Fresh n r)
      (new n r disk threads) as := by
    refine allSteps_of_forall ?_ _
    rintro label hlabel _ env r mode rfl
    exact hswaps env r mode hlabel
  have hkeep : ∀ (s : BufferPool P) label s', s.Inv n True ∧ s.Stored →
      FrameSafe s label ∧ (∀ env r mode, label = .swapPolicy env r mode → Fresh n r) →
      s.step label = some s' → s'.Inv n True ∧ s'.Stored := by
    intro s label s' hs hcond hstep
    refine hs.1.step hs.2 ?_ hcond.2 hstep
    rintro t env rfl a ha
    exact ⟨(hcond.1 a ha).1,fun _ => (hcond.1 a ha).2⟩
  exact run_invariant _ hkeep (inv_new hr disk hthreads) (hsafe.and hfresh) hrun

end Steps

section Frames
variable {n : Nat} [LawfulEvictionPolicy P n] {c : BufferPool P} {f : FrameId}

omit [EvictionPolicy P] in
/-- Exactly one entry of the page table names the frame, under the page the frame names. -/
def MappedOnce (c : BufferPool P) (f : FrameId) : Prop :=
  ∃ p, c.pageTable.lookup p = some f ∧ (c.frames f).pageId = some p ∧ ∀ q, c.pageTable.lookup q = some f → q = p

omit [EvictionPolicy P] in
/-- Exactly one thread has the frame for itself, in a load, an eviction or a deletion. -/
def HeldOnce (c : BufferPool P) (f : FrameId) : Prop :=
  ∃ (t : Nat) (x : Task), c.tasks[t]? = some x ∧ f ∈ x.owned ∧
    ∀ (t' : Nat) (x' : Task), c.tasks[t']? = some x' → f ∈ x'.owned → t' = t

omit [EvictionPolicy P] in
/-- The frame is in exactly one of its three states. -/
def Placed (c : BufferPool P) (f : FrameId) : Prop :=
  (c.freeList.count f = 1 ∧ f ∉ values c.pageTable ∧ ∀ x ∈ c.tasks, f ∉ x.owned) ∨
  (f ∉ c.freeList ∧ c.MappedOnce f ∧ ∀ x ∈ c.tasks, f ∉ x.owned) ∨
  (f ∉ c.freeList ∧ f ∉ values c.pageTable ∧ c.HeldOnce f)

theorem Inv.placed (h : c.Inv n True) (hf : f < n) : c.Placed f := by
  have hone : c.owners f = 1 := le_antisymm (h.own f) (h.owned trivial f hf)
  have hfree : c.freeList.count f = 0 → f ∉ c.freeList := count_eq_zero.mp
  have htable : (values c.pageTable).count f = 0 → f ∉ values c.pageTable := count_eq_zero.mp
  have hheld : total (·.owned.count f) c.tasks = 0 → ∀ x ∈ c.tasks, f ∉ x.owned := by
    intro hzero x hx hmem
    have hle := le_total (·.owned.count f) hx
    have hpos := count_pos_iff.mpr hmem
    omega
  rw [owners] at hone
  by_cases h1 : c.freeList.count f = 1
  · exact .inl ⟨h1,htable (by omega),hheld (by omega)⟩
  · by_cases h2 : (values c.pageTable).count f = 1
    · obtain ⟨p,hp⟩ := mem_values_iff.mp (count_pos_iff.mp (h2 ▸ one_pos))
      exact .inr (.inl ⟨hfree (by omega),⟨p,hp,h.named p f hp,fun q hq => h.lookup_inj hq hp⟩,hheld (by omega)⟩)
    · obtain ⟨x,hx,hpos⟩ := exists_of_total_pos (g := fun x : Task => x.owned.count f) (l := c.tasks) (by omega)
      obtain ⟨t,ht⟩ := mem_iff_getElem?.mp hx
      refine .inr (.inr ⟨hfree (by omega),htable (by omega),t,x,ht,count_pos_iff.mp hpos,fun t' x' ht' hx' => ?_⟩)
      by_contra hne
      exact h.notMem_owned ht' ht hne (count_pos_iff.mp hpos) hx'

private theorem atRest_spec {x : Task} (h : x.atRest = true) (g : FrameId) :
    x.owned = [] ∧ x.reserves g = false ∧ x.settles g = false ∧ x.unmaps g = false := by
  cases x <;> first | exact ⟨rfl,rfl,rfl,rfl⟩ | cases h

theorem Inv.length_eq (h : c.Inv n True) (hrest : ∀ x ∈ c.tasks, x.atRest = true) :
    c.freeList.length + c.pageTable.entries.length = n := by
  have hperm : (c.freeList ++ values c.pageTable).Perm (range n) := by
    rw [perm_iff_count]
    intro f
    have hzero : total (·.owned.count f) c.tasks = 0 := by
      by_contra hne
      obtain ⟨x,hx,hpos⟩ := exists_of_total_pos (pos_of_ne_zero hne)
      rw [(atRest_spec (hrest x hx) f).1] at hpos
      cases hpos
    rw [count_append,← add_zero (_ + _),← hzero]
    change c.owners f = _
    by_cases hf : f < n
    · rw [count_eq_one_of_mem nodup_range (mem_range.mpr hf)]
      exact le_antisymm (h.own f) (h.owned trivial f hf)
    · rw [count_eq_zero_of_not_mem (fun hmem => hf (mem_range.mp hmem))]
      by_contra hne
      exact hf (h.size f (pos_of_ne_zero hne))
  have hlength := hperm.length_eq
  rwa [length_append,length_values,length_range] at hlength

theorem Inv.evictable_iff (h : c.Inv n True) (hrest : ∀ x ∈ c.tasks, x.atRest = true) (hf : f ∈ values c.pageTable) :
    evictable n c.replacer f = true ↔ (c.frames f).pinCount = 0 := by
  refine ⟨(h.tracking.frames f).evictable_unpinned,fun hzero => ?_⟩
  rcases (h.tracking.frames f).unpinned_evictable hf hzero with hev | ⟨x,hx,hxf⟩
  · exact hev
  · rw [(atRest_spec (hrest x hx) f).2.2.1] at hxf
    cases hxf

/-- In every state of an undisturbed run each frame is in exactly one place, a live guard keeps its
frame, and between the calls the replacer may evict exactly the mapped frames without a pin. -/
theorem frames_placed {r : P} (hr : Fresh n r) (disk : List Page) {threads : Nat} (hthreads : threads < 2^31)
    {as : List (PoolLabel P)} (hswaps : ∀ env r mode, .swapPolicy env r mode ∈ as → Fresh n r)
    (hsafe : AllSteps step FrameSafe (BufferPool.new n r disk threads) as)
    (hrun : run step (BufferPool.new n r disk threads) as = some c) :
    (∀ f < n, c.Placed f) ∧
    (∀ (t : Nat) p access f, c.tasks[t]? = some (.holding p access f) →
      c.pageTable.lookup p = some f ∧ (c.frames f).pageId = some p ∧ 0 < (c.frames f).pinCount) ∧
    ((∀ x ∈ c.tasks, x.atRest = true) → c.freeList.length + c.pageTable.entries.length = n ∧
      ∀ p f, c.pageTable.lookup p = some f → (evictable n c.replacer f = true ↔ (c.frames f).pinCount = 0)) := by
  obtain ⟨hinv,-⟩ := inv_run hr disk hthreads hswaps hsafe hrun
  refine ⟨fun f hf => hinv.placed hf,fun t p access f ht => ?_,fun hrest => ⟨hinv.length_eq hrest,fun p f hp => ?_⟩⟩
  · have hp := hinv.mapped _ (mem_tasks ht) (p,f) mem_cons_self
    refine ⟨hp,hinv.named p f hp,?_⟩
    rw [hinv.pinned]
    exact pins_pos (mem_tasks ht) mem_cons_self
  · exact hinv.evictable_iff hrest (mem_values_iff.mpr ⟨p,hp⟩)

end Frames

section Runs

instance (env : StepEnv) (c : BufferPool P) (a : Task) : Decidable (Undisturbed env c a) := by
  unfold Undisturbed
  split <;> infer_instance

instance (env : StepEnv) (c : BufferPool P) (a : Task) : Decidable (Loads env c a) := by
  unfold Loads
  split <;> infer_instance

instance (c : BufferPool P) (label : PoolLabel P) : Decidable (FrameSafe c label) := by
  cases label <;> unfold FrameSafe <;> infer_instance

/-- Surroundings in which nothing fails. -/
def calm : StepEnv := ⟨⟨0, id⟩, false, 0⟩

def steps (t k : Nat) : List (PoolLabel P) := List.replicate k (.next t calm)

def createPage (t : Nat) (page : Page) : List (PoolLabel P) :=
  [.start t .newPage] ++ steps t 8 ++ [.write t page, .drop t] ++ steps t 3

end Runs

private def evictingRun : List (PoolLabel FifoReplacer) :=
  createPage 0 0 ++ [.swapPolicy ⟨0, id⟩ .new .warm, .start 1 .newPage] ++ steps 1 13 ++ [.start 0 (.fetch 1 .read)] ++ steps 0 1

private theorem evictingRun_fresh {env : PolicyEnv} {r : FifoReplacer} {mode : SwapMode}
    (h : .swapPolicy env r mode ∈ evictingRun) : Fresh 1 r := by
  simp only [evictingRun,createPage,steps,mem_append,mem_cons,mem_replicate,not_mem_nil,
    reduceCtorEq,and_false,or_false,false_or,PoolLabel.swapPolicy.injEq] at h
  rw [h.2.1]
  exact FifoReplacer.new_fresh 1

theorem frames_placed_evicting :
    ∃ c, run step (BufferPool.new 1 FifoReplacer.new [] 2) evictingRun = some c ∧ ∀ f < 1, c.Placed f := by
  have hsafe : AllSteps step FrameSafe (.new 1 FifoReplacer.new [] 2) evictingRun := by decide +kernel
  have hrun : (run step (.new 1 FifoReplacer.new [] 2) evictingRun).isSome := by decide +kernel
  obtain ⟨c,hc⟩ := isSome_iff_exists.mp hrun
  exact ⟨c,hc,(frames_placed (FifoReplacer.new_fresh 1) [] (by decide) (fun _ _ _ => evictingRun_fresh) hsafe hc).1⟩

/-- The frame of a page that is being deleted is evicted for another page and then freed: it is in the
free list and mapped, with a live guard. And a page that is fetched before its creator inserts it loses
its frame: a live guard holds a frame that is nowhere. -/
theorem frame_owned_twice :
    (run step (BufferPool.new 1 FifoReplacer.new [] 3) (createPage 0 0 ++ [.start 1 (.deletePage 0)] ++ steps 1 1 ++
      [.start 2 .newPage] ++ steps 2 13 ++ steps 1 4)).map (fun c =>
        (c.freeList, c.pageTable.lookup 1, c.tasks.map (Task.holds 0))) = some ([0], some 0, [false, false, true]) ∧
    (run step (BufferPool.new 2 FifoReplacer.new [] 2) ([.start 0 .newPage] ++ steps 0 5 ++ [.start 1 (.fetch 0 .read)] ++
      steps 1 8 ++ steps 0 3)).map (fun c =>
        (c.freeList, values c.pageTable, c.tasks.map (Task.holds 0))) = some ([], [1], [false, true]) := by
  constructor <;> decide +kernel

end BufferPool
end InterchangeDb
