import InterchangeDb.Lib.Run
import InterchangeDb.Lsm.CompactionSpec
import InterchangeDb.Lsm.Tree

/-! The LSM tree refines an ordered map: flushes and compactions keep the value of every key. -/
namespace InterchangeDb
open List Option
namespace LsmTree
variable [Crc32]
open OrdMap (find)
open Layers SstStore
variable {t t' : LsmTree} {cfg : LsmConfig} {force : Bool} {sstId : Nat} {frozen : FrozenMemtable} {table : SSTable}

/-- The value of a key: the memtables answer before the tables. -/
def value (t : LsmTree) (k : Bytes) : Option Bytes := ((t.findInMemory k).or (t.store.view k)).join

omit [Crc32] in
theorem value_eq (t : LsmTree) (k : Bytes) : t.value k = (t.findInMemory k).elim (t.store.value k) id := by
  rw [value]
  cases t.findInMemory k <;> rfl

omit [Crc32] in
/-- A write to the memtable decides the value of its key. -/
theorem value_write (t : LsmTree) {m : Memtable} {key : Bytes} {entry : Option Bytes}
    (hm : m.entries = t.memtable.entries.insert key entry) (k : Bytes) :
    value { t with memtable := m } k = if k = key then entry else t.value k := by
  rw [value,value,findInMemory,findInMemory]
  simp only [hm,OrdMap.get_insert]
  split_ifs <;> rfl

theorem get_eq (h : t.store.Ok) (key : Bytes) : t.get key = some (t.value key) := by
  rw [get,value]
  cases t.findInMemory key with
  | some result => rfl
  | none => rw [h.findInTables_searchOrder key,none_or,map_some]

omit [Crc32] in
private theorem findInMemory_eq (t : LsmTree) (k : Bytes) :
    t.findInMemory k =
      layered (t.memtable.entries.entries :: t.immutableMemtables.reverse.map (fun imm => imm.2.entries)) k := by
  rw [findInMemory,layered_cons,layered,findSome?_map]
  rfl

/-- A scan lists the values of its range in key order. -/
theorem scan_spec (h : t.store.Ok) {lo hi : Bound Bytes} (hrange : wellFormedRange lo hi = true) :
    ∃ out, t.scan lo hi = some out ∧ Ascending out ∧
      ∀ k v, (k,v) ∈ out ↔ t.value k = some v ∧ lo.above k = true ∧ hi.below k = true := by
  generalize hmem : t.memtable.entries.range lo hi :: t.immutableMemtables.reverse.map (·.2.range lo hi) = mem
  have hmemfilter : mem = (t.memtable.entries.entries :: t.immutableMemtables.reverse.map (·.2.entries)).map
      (fun run => run.filter (fun e => lo.above e.1 && hi.below e.1)) := by
    rw [← hmem,List.map_cons,List.map_map]
    rfl
  have hasc : ∀ source ∈ mem ++ tableSources t.store.readers lo hi (scanOrder t.store.levelState.levels), Ascending source := by
    intro source hsource
    rcases mem_append.mp hsource with hs | hs
    · rw [← hmem] at hs
      rcases mem_cons.mp hs with rfl | hs
      · exact t.memtable.entries.range_sorted lo hi
      · obtain ⟨imm,-,rfl⟩ := mem_map.mp hs
        exact imm.2.range_sorted lo hi
    · exact ascending_of_mem_tableSources h.holds_scanOrder hs
  obtain ⟨hsorted,hfind⟩ := MergeIterator.collectAll_spec hasc
  -- the merged entries are those of the view in the range
  have hview : ∀ k, find k (MergeIterator.collectAll
      (mem ++ tableSources t.store.readers lo hi (scanOrder t.store.levelState.levels))) =
        if lo.above k && hi.below k then (t.findInMemory k).or (t.store.view k) else none := by
    intro k
    rw [hfind,layered_append,layered_tableSources h.holds_scanOrder,layered_scanOrder,hmemfilter,
      layered_filter (fun k => lo.above k && hi.below k),← findInMemory_eq]
    split_ifs <;> rfl
  refine ⟨_,by rw [scan,if_pos hrange,hmem],?_,fun k v => ?_⟩
  · refine .filterMap _ ?_ hsorted
    intro a b hab x hx y hy
    obtain ⟨v,-,rfl⟩ := map_eq_some_iff.mp hx
    obtain ⟨w,-,rfl⟩ := map_eq_some_iff.mp hy
    exact hab
  · have hmem : (k,v) ∈ (MergeIterator.collectAll
        (mem ++ tableSources t.store.readers lo hi (scanOrder t.store.levelState.levels))).filterMap
          (fun e => e.2.map (fun v => (e.1,v))) ↔
        find k (MergeIterator.collectAll
          (mem ++ tableSources t.store.readers lo hi (scanOrder t.store.levelState.levels))) = some (some v) := by
      rw [OrdMap.find_eq_some_iff hsorted,mem_filterMap]
      constructor
      · rintro ⟨⟨a,b⟩,he,hkv⟩
        obtain ⟨w,hw,heq⟩ := map_eq_some_iff.mp hkv
        cases heq
        rwa [← hw]
      · intro he
        exact ⟨(k,some v),he,rfl⟩
    rw [hmem,hview,value,join_eq_some_iff,← Bool.and_eq_true]
    split_ifs with hin
    · simp [hin]
    · simp [hin]

/-- Phase 1 has frozen the memtable under the next id. -/
structure Freezes (t t' : LsmTree) : Prop where
  filled : t.memtable.entries.entries ≠ []
  emptied : t'.memtable = .new
  listed : t'.immutableMemtables = t.immutableMemtables ++ [(t.store.levelState.nextSstId,t.memtable.entries)]
  ok : t'.store.Ok
  nextSstId : t'.store.levelState.nextSstId = t.store.levelState.nextSstId + 1
  levels : t'.store.levelState.levels = t.store.levelState.levels
  readers : t'.store.readers = t.store.readers
  manifest : t'.store.manifest = t.store.manifest
  files : t'.store.files = t.store.files
  fresh : ∀ l, ∀ x ∈ t'.store.levelState.levels l, x.id ≠ t.store.levelState.nextSstId

/-- The memtable is empty or below its limit. -/
def Resting (cfg : LsmConfig) (t : LsmTree) : Prop :=
  t.memtable.entries.entries = [] ∨ t.memtable.sizeBytes < cfg.memtableSizeLimit

theorem freeze_spec {x : Option (Nat × FrozenMemtable)} (hok : t.store.Ok) (h : freeze cfg force t = some (x,t')) :
    (x = none ∧ t' = t ∧ t.Resting cfg) ∨ (x = some (t.store.levelState.nextSstId,t.memtable.entries) ∧ t.Freezes t') := by
  unfold freeze at h
  split_ifs at h with hempty hsmall
  · cases h
    exact .inl ⟨rfl,rfl,.inl hempty⟩
  · cases h
    exact .inl ⟨rfl,rfl,.inr (by simp_all)⟩
  · obtain ⟨r,hid,heq⟩ := map_eq_some_iff.mp h
    cases heq
    obtain ⟨hr1,hr2,hr3,hr4⟩ := ok_nextId hok hid
    refine .inr ⟨by rw [hr1],hempty,rfl,by rw [hr1],hr4,by rw [hr2,hr1],hr3,rfl,rfl,rfl,fun l x hx => ?_⟩
    exact (hok.bound l x (hr3 ▸ hx)).ne

theorem freeze_some (hok : t.store.Ok) (h : freeze cfg force t = some (some (sstId,frozen),t')) :
    sstId = t.store.levelState.nextSstId ∧ frozen = t.memtable.entries ∧ t.Freezes t' := by
  rcases freeze_spec hok h with ⟨hnone,-⟩ | ⟨hsome,hf⟩
  · cases hnone
  · cases hsome
    exact ⟨rfl,rfl,hf⟩

omit [Crc32] in
theorem findInMemory_freeze {id : Nat} (hnew : t'.memtable = .new)
    (himm : t'.immutableMemtables = t.immutableMemtables ++ [(id,t.memtable.entries)]) (k : Bytes) :
    t'.findInMemory k = t.findInMemory k := by
  rw [findInMemory,findInMemory,hnew,himm,reverse_append,reverse_singleton,singleton_append,
    findSome?_cons]
  cases t.memtable.entries.get k <;> simp [Memtable.new]

theorem writeFrozen_spec {file : Option (SSTableMeta × SSTable)} (hne : frozen.entries ≠ [])
    (h : writeFrozen t sstId frozen = some (file,t')) :
    ∃ w, file = some w ∧ SSTable.write sstId frozen.entries = some (some w) ∧
      t' = { t with store := t.store.logFlushed w.1 w.2 } := by
  unfold writeFrozen at h
  cases hw : SSTable.write sstId frozen.entries with
  | none => simp [hw] at h
  | some w =>
    cases w with
    | none => exact (SSTable.write_ne_empty hne hw).elim
    | some w =>
      simp only [hw] at h
      cases h
      exact ⟨w,rfl,rfl,rfl⟩

/-- Phase 2 and the publication of phase 3: the frozen entries become the newest table. -/
theorem Freezes.published {a : LsmTree} {m : SSTableMeta} (hf : t.Freezes a)
    (hw : SSTable.write t.store.levelState.nextSstId t.memtable.entries.entries = some (some (m,table))) :
    m.id = t.store.levelState.nextSstId ∧ ((a.store.logFlushed m table).publish m table).Ok ∧
      ∀ k, ((a.store.logFlushed m table).publish m table).view k = (t.memtable.entries.get k).or (t.store.view k) := by
  obtain ⟨hsound,hiter,hid,hfirst,hlast⟩ := SSTable.write_eq_some t.memtable.entries.sorted hw
  have hfresh := hf.fresh
  have hnext := hf.nextSstId
  rw [← hid] at hfresh hnext
  have hlogged : (a.store.logFlushed m table).Ok := ok_logFlushed hf.ok hfresh
  have hfile : Holds (a.store.logFlushed m table).files m table := ⟨AList.lookup_insert _,hsound,hfirst,hlast⟩
  refine ⟨hid,ok_publish hlogged hfresh (hnext.symm ▸ Nat.lt_succ_self m.id) hfile,fun k => ?_⟩
  refine (view_publish hfresh k).trans ?_
  rw [hiter,← view_congr hf.levels hf.readers]
  rfl

theorem flush_eq_some (hok : t.store.Ok) (h : flush cfg force t = some t') :
    t' = t ∨ ∃ a m table s, t.Freezes a ∧
      SSTable.write t.store.levelState.nextSstId t.memtable.entries.entries = some (some (m,table)) ∧
      maybeCompact cfg ((a.store.logFlushed m table).publish m table) = some s ∧
      t' = retire { a with store := s } t.store.levelState.nextSstId := by
  unfold flush at h
  cases hfreeze : freeze cfg force t with
  | none => simp [hfreeze] at h
  | some x =>
    obtain ⟨x,a⟩ := x
    rcases freeze_spec hok hfreeze with ⟨rfl,rfl,-⟩ | ⟨rfl,hf⟩
    · simp only [hfreeze,some.injEq] at h
      exact .inl h.symm
    · simp only [hfreeze] at h
      cases hwrite : writeFrozen a t.store.levelState.nextSstId t.memtable.entries with
      | none => simp [hwrite] at h
      | some w =>
        obtain ⟨w,b⟩ := w
        obtain ⟨w,rfl,hw,rfl⟩ := writeFrozen_spec hf.filled hwrite
        simp only [hwrite] at h
        obtain ⟨s,hs,rfl⟩ := map_eq_some_iff.mp h
        exact .inr ⟨a,w.1,w.2,s,hf,hw,hs,rfl⟩

/-- No frozen memtable left behind by an earlier flush has a key of the memtable. -/
def Unshadowed (t : LsmTree) : Prop := ∀ imm ∈ t.immutableMemtables, ∀ e ∈ t.memtable.entries.entries, imm.2.get e.1 = none

/-- A flush keeps the value of every key, if no frozen memtable is in the way. -/
theorem flush_spec (hok : t.store.Ok) (hfresh : ∀ imm ∈ t.immutableMemtables, imm.1 < t.store.levelState.nextSstId)
    (hclear : t.Unshadowed) (h : flush cfg force t = some t') :
    t'.store.Ok ∧ t.store.levelState.nextSstId ≤ t'.store.levelState.nextSstId ∧
      t'.immutableMemtables = t.immutableMemtables ∧ ∀ k, t'.value k = t.value k := by
  rcases flush_eq_some hok h with rfl | ⟨a,m,table,s,hf,hwrite,hs,rfl⟩
  · exact ⟨hok,le_rfl,rfl,fun _ => rfl⟩
  obtain ⟨-,hpub,hview⟩ := hf.published hwrite
  obtain ⟨hsok,hvalue⟩ := maybeCompact_value hpub hs
  have himm : (retire { a with store := s } t.store.levelState.nextSstId).immutableMemtables = t.immutableMemtables := by
    rw [retire,hf.listed,filter_append,filter_eq_self.mpr (fun imm himm => by simpa using (hfresh imm himm).ne)]
    simp
  refine ⟨hsok,?_,himm,fun k => ?_⟩
  · have hle : a.store.levelState.nextSstId ≤ s.levelState.nextSstId := (cascade_maybeCompact hs).nextSstId_le hpub
    exact (hf.nextSstId.symm ▸ Nat.le_succ _ : t.store.levelState.nextSstId ≤ a.store.levelState.nextSstId).trans hle
  · have hstore : s.value k = ((t.memtable.entries.get k).or (t.store.view k)).join := by
      rw [hvalue k,SstStore.value,hview k]
    have hafter : (retire { a with store := s } t.store.levelState.nextSstId).findInMemory k =
        t.immutableMemtables.reverse.findSome? (·.2.get k) := by
      rw [findInMemory,himm,retire,hf.emptied]
      rfl
    rw [value_eq,hafter,value,findInMemory]
    change Option.elim _ (s.value k) id = _
    rw [hstore]
    cases hk : t.memtable.entries.get k with
    | none => cases t.immutableMemtables.reverse.findSome? (·.2.get k) <;> rfl
    | some entry =>
      have holder : t.immutableMemtables.reverse.findSome? (·.2.get k) = none :=
        findSome?_eq_none_iff.mpr (fun imm himm => hclear imm (mem_reverse.mp himm) _ (mem_of_find hk))
      rw [holder]
      rfl

end LsmTree
end InterchangeDb
