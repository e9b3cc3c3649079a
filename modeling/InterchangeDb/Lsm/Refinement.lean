import InterchangeDb.Lsm.Progress

/-! Any run of writes, flushes and compactions reads like the ordered map that the same writes make. -/
namespace InterchangeDb
open List Option

/-- The entry of a write fits a block, and a compaction names a level that can be compacted. -/
def LsmOp.Fits : LsmOp → Prop
  | .put key value => SSTable.entrySize (key,some value) ≤ SSTable.blockDataCapacity
  | .delete key => SSTable.entrySize (key,none) ≤ SSTable.blockDataCapacity
  | .compactLevel level => 1 ≤ level ∧ level < maxLevelCount - 1
  | .flushMemtable | .compactL0 => True

namespace LsmTree
variable [Crc32]
open SstStore
variable {t t' : LsmTree} {e : Engine} {cfg : LsmConfig} {ops : List LsmOp} {n : Nat}

/-- Reads of the tree find the values of a map; flushes may have left frozen memtables behind. -/
structure Stands (t : LsmTree) (e : Engine) : Prop where
  ok : t.store.Ok
  fresh : ∀ imm ∈ t.immutableMemtables, imm.1 < t.store.levelState.nextSstId
  value : ∀ k, t.value k = e.get k

structure Refines (t : LsmTree) (e : Engine) : Prop where
  ok : t.store.Ok
  idle : t.immutableMemtables = []
  value : ∀ k, t.value k = e.get k

theorem Refines.stands (h : t.Refines e) : t.Stands e := ⟨h.ok,by simp [h.idle],h.value⟩

theorem refines_new : LsmTree.new.Refines .empty := by
  refine ⟨ok_new,rfl,fun k => ?_⟩
  rw [value,show new.store.view k = none from view_new k]
  rfl

theorem Stands.get_eq (h : t.Stands e) (k : Bytes) : t.get k = some (e.get k) := by
  rw [LsmTree.get_eq h.ok,h.value]

theorem Stands.scan_eq (h : t.Stands e) {lo hi : Bound Bytes}
    (hrange : wellFormedRange lo hi = true) : t.scan lo hi = some (e.scan lo hi) := by
  obtain ⟨out,hout,hsorted,hmem⟩ := scan_spec h.ok hrange
  rw [hout]
  congr 1
  refine OrdMap.sorted_ext hsorted (e.range_sorted lo hi) (fun x => ?_)
  rw [hmem x.1 x.2,h.value]
  exact (OrdMap.mem_range e lo hi x.1 x.2).symm

/-- The write of an operation reaches the memtable first. -/
def written (t : LsmTree) : LsmOp → LsmTree
  | .put key value => { t with memtable := t.memtable.put key value }
  | .delete key => { t with memtable := t.memtable.delete key }
  | .flushMemtable | .compactL0 | .compactLevel _ => t

/-- Whether an operation goes on to flush. -/
def flushes (cfg : LsmConfig) (t : LsmTree) : LsmOp → Bool
  | .put key value => decide (cfg.memtableSizeLimit ≤ (t.memtable.put key value).sizeBytes)
  | .delete key => decide (cfg.memtableSizeLimit ≤ (t.memtable.delete key).sizeBytes)
  | .flushMemtable => true
  | .compactL0 | .compactLevel _ => false

theorem Stands.written (h : t.Stands e) (op : LsmOp) : (t.written op).Stands (op.apply e) := by
  cases op with
  | put key value =>
    refine ⟨h.ok,h.fresh,fun k => ?_⟩
    rw [LsmTree.written,value_write t rfl,h.value,LsmOp.apply,Engine.put,OrdMap.get_insert]
    split_ifs <;> rfl
  | delete key =>
    refine ⟨h.ok,h.fresh,fun k => ?_⟩
    rw [LsmTree.written,value_write t rfl,h.value,LsmOp.apply,Engine.delete,OrdMap.get_erase]
    split_ifs <;> rfl
  | flushMemtable | compactL0 | compactLevel => exact h

theorem Stands.step {op : LsmOp} (h : t.Stands e) (hclear : t.flushes cfg op = true → (t.written op).Unshadowed)
    (hstep : LsmTree.step cfg t op = some t') : t'.Stands (op.apply e) ∧ t'.immutableMemtables = t.immutableMemtables := by
  have hflush : ∀ {t : LsmTree} {e : Engine} {force : Bool}, t.Stands e → t.Unshadowed → flush cfg force t = some t' →
      t'.Stands e ∧ t'.immutableMemtables = t.immutableMemtables := by
    intro t e force h hclear hf
    obtain ⟨hok,hnext,himm,hvalue⟩ := flush_spec h.ok h.fresh hclear hf
    exact ⟨⟨hok,fun imm hm => (h.fresh imm (himm ▸ hm)).trans_le hnext,fun k => (hvalue k).trans (h.value k)⟩,himm⟩
  have hcompact : ∀ {s : SstStore}, (s = t.store ∨ Compacts cfg t.store s) → Stands { t with store := s } e := by
    rintro s (rfl | hc)
    · exact h
    · obtain ⟨hok,hvalue⟩ := hc.ok h.ok
      refine ⟨hok,fun imm hm => (h.fresh imm hm).trans_le (hc.readers h.ok).1,fun k => ?_⟩
      rw [← h.value,value_eq,value_eq]
      change (t.findInMemory k).elim (s.value k) id = _
      rw [hvalue k]
  have hwritten := h.written op
  cases op with
  | put key value | delete key =>
    simp only [LsmTree.step,put,delete,flushIfOver] at hstep
    split_ifs at hstep with hover
    · exact hflush (t := t.written _) hwritten (hclear (decide_eq_true hover)) hstep
    · cases hstep
      exact ⟨hwritten,rfl⟩
  | flushMemtable => exact hflush h (hclear rfl) hstep
  | compactL0 =>
    obtain ⟨s,hs,rfl⟩ := map_eq_some_iff.mp hstep
    exact ⟨hcompact (compactL0_spec hs),rfl⟩
  | compactLevel level =>
    obtain ⟨s,hs,rfl⟩ := map_eq_some_iff.mp hstep
    exact ⟨hcompact (compactLevel_spec h.ok hs),rfl⟩

theorem Refines.get_eq (h : t.Refines e) (k : Bytes) : t.get k = some (e.get k) := h.stands.get_eq k

theorem Refines.step {op : LsmOp} (h : t.Refines e)
    (hstep : LsmTree.step cfg t op = some t') : t'.Refines (op.apply e) := by
  have himm : (t.written op).immutableMemtables = [] := by
    cases op <;> exact h.idle
  obtain ⟨hs,hidle⟩ := h.stands.step (fun _ imm hm => by simp [himm] at hm) hstep
  exact ⟨hs.ok,hidle.trans h.idle,hs.value⟩

theorem Refines.run (h : t.Refines e)
    (hrun : run (LsmTree.step cfg) t ops = some t') : t'.Refines (ops.foldl LsmOp.apply e) :=
  run_follows (R := Refines) hrun (allSteps_of_forall (fun _ _ _ => trivial) t) h (fun _ _ _ _ h _ => h.step)

omit [Crc32] in
private theorem small_write (hsmall : t.Small n) {m : Memtable} {e : Entry}
    (hm : m.entries = t.memtable.entries.insert e.1 e.2) (hfit : SSTable.entrySize e ≤ SSTable.blockDataCapacity) (hsized : m.Sized) :
    Small { t with memtable := m } (n+1) := by
  obtain ⟨a,hstore,hcount⟩ := hsmall.store
  have hlen := t.memtable.entries.length_insert_le e.1 e.2
  refine ⟨fun x hx => ?_,⟨a,hstore,?_⟩,hsized⟩
  · change x ∈ m.entries.entries at hx
    rw [hm] at hx
    rcases OrdMap.mem_insert hx with rfl | hx
    · exact hfit
    · exact hsmall.fits x hx
  · change m.entries.entries.length + a ≤ n+1
    rw [hm]
    omega

omit [Crc32] in
private theorem Small.mono {n' : Nat} (hsmall : t.Small n) (hle : n ≤ n') : t.Small n' := by
  obtain ⟨a,hstore,hcount⟩ := hsmall.store
  exact ⟨hsmall.fits,⟨a,hstore,hcount.trans hle⟩,hsmall.sized⟩

private theorem flushIfOver_isSome (cfg : LsmConfig) (hok : t.store.Ok) (hsmall : t.Small n)
    (hlen : t.memtable.entries.entries.length < 2^20) (hn : cfg.tableEntries n < 2^20)
    (hid : t.store.levelState.nextSstId + 6 * n + 1 ≤ u64Max) : Returns cfg t n (6 * n + 1) (flushIfOver cfg t) := by
  unfold flushIfOver
  split_ifs with hover
  · exact flush_isSome cfg false hok hsmall hlen hn hid
  · exact ⟨t,rfl,hsmall,.inr (not_le.mp hover),by omega⟩

private theorem step_isSome (cfg : LsmConfig) {op : LsmOp} (hok : t.store.Ok) (hsmall : t.Small n) (hrest : t.Resting cfg)
    (hfits : op.Fits) (hn : cfg.tableEntries (n+1) < 2^20) (hmax : n + 1 < 2^30)
    (hid : t.store.levelState.nextSstId + 2^33 ≤ u64Max) : Returns cfg t (n+1) (2^33) (LsmTree.step cfg t op) := by
  obtain ⟨a,hstore,hcount⟩ := hsmall.store
  have hlen : t.memtable.entries.entries.length + 1 < 2^20 := by
    have hsize := hsmall.sized.length_le
    rw [LsmConfig.tableEntries] at hn
    rcases hrest with hempty | hrest
    · rw [hempty,length_nil]
      decide
    · omega
  have hless : ∀ i ≤ n, cfg.tableEntries i < 2^20 := fun i hi => (cfg.tableEntries_mono (hi.trans n.le_succ)).trans_lt hn
  have hwrite : ∀ {m : Memtable} {e : Entry}, m.entries = t.memtable.entries.insert e.1 e.2 → m.Sized →
      SSTable.entrySize e ≤ SSTable.blockDataCapacity → Returns cfg t (n+1) (2^33) (flushIfOver cfg { t with memtable := m }) := by
    intro m e hm hsized hfit
    have hle := t.memtable.entries.length_insert_le e.1 e.2
    obtain ⟨t',ht',hsmall',hrest',hnext⟩ := flushIfOver_isSome cfg (t := { t with memtable := m }) hok
      (small_write hsmall hm hfit hsized) (by rw [hm]; omega) hn (by dsimp only; omega)
    exact ⟨t',ht',hsmall',hrest',hnext.trans (by dsimp only; omega)⟩
  have hcompact : ∀ {s : SstStore}, s.Small a → Small { t with store := s } (n+1) := fun hs =>
    ⟨hsmall.fits,⟨a,hs,by dsimp only; omega⟩,hsmall.sized⟩
  cases op with
  | put key value => exact hwrite (e := (key,some value)) rfl (hsmall.sized.write rfl rfl) hfits
  | delete key => exact hwrite (e := (key,none)) rfl (hsmall.sized.write rfl rfl) hfits
  | flushMemtable =>
    obtain ⟨t',ht',hsmall',hrest',hnext⟩ := flush_isSome cfg true hok hsmall (by omega) (hless n le_rfl) (by omega)
    exact ⟨t',ht',hsmall'.mono (by omega),hrest',by omega⟩
  | compactL0 =>
    obtain ⟨s,hs,hsmall',hnext⟩ := compactL0_isSome cfg hok hstore (hless a (by omega)) (by omega)
    exact ⟨{ t with store := s },by simp only [step,hs,map_some],hcompact hsmall',hrest,hnext.trans (by omega)⟩
  | compactLevel level =>
    obtain ⟨s,hs,hsmall',hnext⟩ := compactLevel_isSome cfg hok hstore (hless a (by omega)) (by omega) hfits
    exact ⟨{ t with store := s },by simp only [step,hs,map_some],hcompact hsmall',hrest,hnext.trans (by omega)⟩

/-- A run of operations that fit fails no assertion. -/
theorem run_isSome (cfg : LsmConfig) (h : t.Refines e) (hsmall : t.Small n) (hrest : t.Resting cfg)
    (hfits : ∀ op ∈ ops, op.Fits) (hn : cfg.tableEntries (n + ops.length) < 2^20) (hmax : n + ops.length < 2^30)
    (hid : t.store.levelState.nextSstId ≤ 1 + n * 2^33) : ∃ t', InterchangeDb.run (LsmTree.step cfg) t ops = some t' := by
  induction ops generalizing t e n with
  | nil => exact ⟨t,rfl⟩
  | cons op ops ih =>
    rw [length_cons] at hn hmax
    have hroom : 1 + (n+1) * 2^33 ≤ u64Max := by
      rw [u64Max]
      omega
    obtain ⟨a,ha,hasmall,harest,hanext⟩ := step_isSome cfg h.ok hsmall hrest (hfits op mem_cons_self)
      ((cfg.tableEntries_mono (by omega)).trans_lt hn) (by omega) (by omega)
    obtain ⟨t',ht'⟩ := ih (h.step ha) hasmall harest (fun op hop => hfits op (mem_cons_of_mem _ hop))
      (by rwa [add_assoc,add_comm 1]) (by omega) (by omega)
    refine ⟨t',?_⟩
    rw [run,ha]
    exact ht'

omit [Crc32] in
theorem small_new : LsmTree.new.Small 0 := by
  refine ⟨fun e he => absurd he not_mem_nil,⟨0,⟨fun l m hm => absurd hm not_mem_nil,?_⟩,le_rfl⟩,rfl⟩
  decide

/-- After any run of writes, flushes and compactions, point lookups and scans return what the
ordered map made by the same writes returns, and so agree. A run of fewer than 2^30
operations whose entries fit a block fails no assertion, if no table file gets 2^20 entries. -/
theorem refines_ordered_map (cfg : LsmConfig) (ops : List LsmOp) :
    (∀ t, InterchangeDb.run (LsmTree.step cfg) .new ops = some t →
      (∀ k, t.get k = some ((ops.foldl LsmOp.apply .empty).get k)) ∧
      (∀ lo hi, wellFormedRange lo hi = true → t.scan lo hi = some ((ops.foldl LsmOp.apply .empty).scan lo hi)) ∧
      ∀ lo hi out, t.scan lo hi = some out →
        ∀ k v, (k,v) ∈ out ↔ t.get k = some (some v) ∧ lo.above k = true ∧ hi.below k = true) ∧
    ((∀ op ∈ ops, op.Fits) → cfg.tableEntries ops.length < 2^20 → ops.length < 2^30 →
      ∃ t, InterchangeDb.run (LsmTree.step cfg) .new ops = some t) := by
  refine ⟨fun t hrun => ?_,fun hfits hn hlen => ?_⟩
  · have h := refines_new.run hrun
    refine ⟨h.get_eq,fun lo hi => h.stands.scan_eq,fun lo hi out hscan k v => ?_⟩
    have hrange : wellFormedRange lo hi = true := by
      by_contra hnot
      rw [scan,if_neg hnot] at hscan
      cases hscan
    obtain ⟨out',hout,-,hmem⟩ := scan_spec h.ok hrange
    obtain rfl := some.inj (hout.symm.trans hscan)
    rw [hmem,get_eq h.ok,some.injEq]
  · exact run_isSome cfg refines_new small_new (.inl rfl) hfits (by rwa [zero_add]) (by omega) (by decide)

end LsmTree
end InterchangeDb
