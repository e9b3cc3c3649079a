import InterchangeDb.Lsm.TreeSpec

/-! Small trees never fail an assertion. -/
namespace InterchangeDb
open List Option Function
namespace SstStore
variable [Crc32]
open Layers

/-- At most n entries, each of which fits a block. -/
structure Small (s : SstStore) (n : Nat) : Prop where
  fits : s.All (fun e => SSTable.entrySize e ≤ SSTable.blockDataCapacity)
  count : ((List.range maxLevelCount).map (fun l => (s.tables l).flatten.length)).sum ≤ n

private theorem flushBatches_isSome {bs : List (List Entry)}
    (hbs : ∀ b ∈ bs, (∀ e ∈ b, SSTable.entrySize e ≤ SSTable.blockDataCapacity) ∧ b.length < 2^20) {s : LevelState}
    (hid : s.nextSstId + bs.length ≤ u64Max) : ∃ x, flushBatches bs s = some x := by
  induction bs generalizing s with
  | nil => exact ⟨_,rfl⟩
  | cons b bs ih =>
    have hnext : s.nextId = some (s.nextSstId,{ s with nextSstId := s.nextSstId + 1 }) := by
      rw [LevelState.nextId,if_pos]
      rw [length_cons] at hid
      omega
    obtain ⟨hfit,hlen⟩ := hbs b mem_cons_self
    obtain ⟨w,hw⟩ : ∃ w, SSTable.write s.nextSstId b = some w := SSTable.write_isSome hfit hlen
    have hrest : s.nextSstId + 1 + bs.length ≤ u64Max := by
      rw [length_cons] at hid
      omega
    obtain ⟨x,hx⟩ := ih (s := { s with nextSstId := s.nextSstId + 1 }) (fun b hb => hbs b (mem_cons_of_mem _ hb)) hrest
    cases w with
    | none => exact ⟨x,by simp only [flushBatches,hnext,hw,hx]⟩
    | some w => exact ⟨(w::x.1,x.2),by simp [flushBatches,hnext,hw,hx,map_some]⟩

section Merge
variable {s : SstStore} {level n : Nat} {top stay : List SSTableMeta} {minKey maxKey : Bytes} {r : Merge}

private theorem length_merged_le (hok : s.Ok) (hmove : Move s level top stay minKey maxKey) :
    (s.mergedEntries top minKey maxKey (level+1)).length + (stay.map (contents s.readers)).flatten.length +
        (((s.levelState.levels (level+1)).filter (fun m => !meets minKey maxKey m)).map (contents s.readers)).flatten.length ≤
      (s.tables level).flatten.length + (s.tables (level+1)).flatten.length := by
  have hmerged := MergeIterator.length_collectAll_le (hmove.ascending_inputs hok)
  have hlevel := (hmove.perm.map (contents s.readers)).flatten.length_eq
  have htarget := ((filter_append_perm (meets minKey maxKey) (s.levelState.levels (level+1))).map (contents s.readers)).flatten.length_eq
  rw [← length_flatten,mergeInputs] at hmerged
  simp only [map_append,flatten_append,length_append] at hmerged hlevel htarget
  rw [mergedEntries,tables,tables,mergeInputs,map_append]
  omega

omit [Crc32] in
private theorem length_levels_le (hlevel : level + 1 < maxLevelCount) (hsmall : s.Small n) :
    (s.tables level).flatten.length + (s.tables (level+1)).flatten.length ≤ n := by
  refine le_trans ?_ hsmall.count
  rw [range_split hlevel,map_append,sum_append,map_cons,map_cons,sum_cons,sum_cons]
  omega

omit [Crc32] in
private theorem length_le_flatten {bs : List (List Entry)} (h : ∀ b ∈ bs, b ≠ []) : bs.length ≤ bs.flatten.length := by
  rw [length_flatten,← length_map length]
  apply length_le_sum_of_one_le
  rw [List.forall_mem_map]
  exact fun b hb => length_pos_iff.mpr (h b hb)

theorem merge_isSome (cfg : LsmConfig) (hok : s.Ok) (hmove : Move s level top stay minKey maxKey) (hsmall : s.Small n)
    (hn : cfg.tableEntries n < 2^20) (hid : s.levelState.nextSstId + n ≤ u64Max) : ∃ r, merge cfg s top minKey maxKey (level+1) = some r := by
  obtain ⟨hflat,hbatch,hlimit⟩ := mergeBatches_spec (hmove.holds_inputs hok) cfg
  have hmerged := length_merged_le hok hmove
  have hlevels := length_levels_le hmove.level_lt hsmall
  have hlen : (mergeBatches cfg s top minKey maxKey (level+1)).flatten.length ≤ n := by
    rw [hflat]
    exact (length_filter_le _ _).trans (by omega)
  have hcount := length_le_flatten (fun b hb => (hbatch b hb).1)
  obtain ⟨w,hw⟩ : ∃ w, flushBatches (mergeBatches cfg s top minKey maxKey (level+1)) s.levelState = some w := by
    refine flushBatches_isSome (fun b hb => ⟨fun e he => ?_,?_⟩) (by omega)
    · have hmem := mem_flatten_of_mem hb he
      rw [hflat] at hmem
      exact hmove.all_merged hok hsmall.fits e (mem_of_mem_filter hmem)
    · have := (sublist_flatten_of_mem hb).length_le
      have := hlimit b hb
      rw [LsmConfig.tableEntries] at hn
      omega
  exact ⟨_,map_eq_some_iff.mpr ⟨w,hw,rfl⟩⟩

theorem small_install (hok : s.Ok) (hmove : Move s level top stay minKey maxKey) (hsmall : s.Small n)
    (hr : Merged s top minKey maxKey (level+1) r) :
    (r.install s level stay).Small n ∧ (r.install s level stay).levelState.nextSstId ≤ s.levelState.nextSstId + n := by
  have hmerged := length_merged_le hok hmove
  have hlevels := length_levels_le hmove.level_lt hsmall
  have hkept : (r.out.map (·.2.iter)).flatten.length ≤ (s.mergedEntries top minKey maxKey (level+1)).length := by
    rw [hr.entries]
    exact length_filter_le _ _
  have hout : r.out.length ≤ (r.out.map (·.2.iter)).flatten.length := by
    rw [← length_map (fun x : SSTableMeta × SSTable => x.2.iter)]
    apply length_le_flatten
    rw [List.forall_mem_map]
    intro x hx hnil
    obtain ⟨e,he,-⟩ := (hr.out x hx).1.firstKey_mem
    rw [hnil] at he
    cases he
  have htarget := (tables_target hok hmove hr).flatten.length_eq
  rw [flatten_append,length_append,hr.remaining] at htarget
  refine ⟨⟨all_install hok hmove hr hsmall.fits,le_trans ?_ hsmall.count⟩,?_⟩
  · have hsum : ∀ ls : List Nat, (∀ l ∈ ls, l ≠ level ∧ l ≠ level+1) →
        (ls.map (fun l => ((r.install s level stay).tables l).flatten.length)).sum =
          (ls.map (fun l => (s.tables l).flatten.length)).sum := by
      intro ls hls
      congr 1
      exact map_congr_left (fun l hl => by rw [tables_other hok hmove hr (hls l hl).1 (hls l hl).2])
    rw [range_split hmove.level_lt]
    simp only [map_append,sum_append,map_cons,sum_cons]
    rw [hsum (range level) ?_,hsum (range' _ _) ?_,tables_stay hok hmove hr,htarget]
    · omega
    · intro l hl
      have := (mem_range'_1.mp hl).1
      omega
    · intro l hl
      have := mem_range.mp hl
      omega
  · change r.levelState.nextSstId ≤ _
    rw [hr.nextSstId]
    omega

end Merge

variable (cfg : LsmConfig)

section

variable {s : SstStore} {n : Nat} (hok : s.Ok) (hsmall : s.Small n) (hn : cfg.tableEntries n < 2^20)
  (hid : s.levelState.nextSstId + n ≤ u64Max)
include hok hsmall hn hid

/-- A small store can be compacted, and stays small. -/
theorem compactL0_isSome :
    ∃ s', compactL0 cfg s = some s' ∧ s'.Small n ∧ s'.levelState.nextSstId ≤ s.levelState.nextSstId + n := by
  unfold compactL0
  cases hl : s.levelState.levels 0 with
  | nil => exact ⟨s,rfl,hsmall,by omega⟩
  | cons m ms =>
    have hmove := compactL0_move hl
    obtain ⟨r,hr⟩ := merge_isSome cfg hok hmove hsmall hn hid
    exact ⟨_,map_eq_some_iff.mpr ⟨r,hr,rfl⟩,small_install hok hmove hsmall (merge_spec (hmove.holds_inputs hok) hr)⟩

theorem compactLevel_isSome {level : Nat} (hlevel : 1 ≤ level ∧ level < maxLevelCount - 1) :
    ∃ s', compactLevel cfg level s = some s' ∧ s'.Small n ∧ s'.levelState.nextSstId ≤ s.levelState.nextSstId + n := by
  unfold compactLevel
  rw [if_pos hlevel]
  cases hl : s.levelState.levels level with
  | nil => exact ⟨s,rfl,hsmall,by omega⟩
  | cons picked rest =>
    have hmove := compactLevel_move hok hlevel hl
    obtain ⟨r,hr⟩ := merge_isSome cfg hok hmove hsmall hn hid
    exact ⟨_,map_eq_some_iff.mpr ⟨r,hr,rfl⟩,small_install hok hmove hsmall (merge_spec (hmove.holds_inputs hok) hr)⟩

end

private theorem compactLevels_isSome {n : Nat} (hn : cfg.tableEntries n < 2^20) {ls : List Nat}
    (hls : ∀ l ∈ ls, 1 ≤ l ∧ l < maxLevelCount - 1) {s : SstStore} (hok : s.Ok) (hsmall : s.Small n)
    (hid : s.levelState.nextSstId + ls.length * n ≤ u64Max) :
    ∃ s', compactLevels cfg ls s = some s' ∧ s'.Small n ∧ s'.levelState.nextSstId ≤ s.levelState.nextSstId + ls.length * n := by
  induction ls generalizing s with
  | nil => exact ⟨s,rfl,hsmall,by omega⟩
  | cons l ls ih =>
    have hls' : ∀ l ∈ ls, 1 ≤ l ∧ l < maxLevelCount - 1 := fun l hl => hls l (mem_cons_of_mem _ hl)
    rw [length_cons,add_one_mul] at hid ⊢
    rw [compactLevels]
    split_ifs
    · obtain ⟨a,ha,hasmall,hanext⟩ := compactLevel_isSome cfg hok hsmall hn (by omega) (hls l mem_cons_self)
      have haok : a.Ok := ((Cascade.level .refl ha).value hok).1
      obtain ⟨s',hs',hsmall',hnext'⟩ := ih hls' haok hasmall (by omega)
      exact ⟨s',by simp [ha,hs'],hsmall',by omega⟩
    · obtain ⟨s',hs',hsmall',hnext'⟩ := ih hls' hok hsmall (by omega)
      exact ⟨s',hs',hsmall',by omega⟩

theorem maybeCompact_isSome {s : SstStore} {n : Nat} (hok : s.Ok) (hsmall : s.Small n) (hn : cfg.tableEntries n < 2^20)
    (hid : s.levelState.nextSstId + 6 * n ≤ u64Max) :
    ∃ s', maybeCompact cfg s = some s' ∧ s'.Small n ∧ s'.levelState.nextSstId ≤ s.levelState.nextSstId + 6 * n := by
  have hrange : ∀ l ∈ range' 1 (maxLevelCount - 2), 1 ≤ l ∧ l < maxLevelCount - 1 := by decide
  have hlen : (range' 1 (maxLevelCount - 2)).length = 5 := rfl
  rw [maybeCompact]
  split_ifs
  · obtain ⟨a,ha,hasmall,hanext⟩ := compactL0_isSome cfg hok hsmall hn (by omega)
    have haok : a.Ok := ((Cascade.l0 .refl ha).value hok).1
    obtain ⟨s',hs',hsmall',hnext'⟩ := compactLevels_isSome cfg hn hrange haok hasmall (by rw [hlen]; omega)
    rw [hlen] at hnext'
    exact ⟨s',by rw [ha,bind_some,hs'],hsmall',by omega⟩
  · obtain ⟨s',hs',hsmall',hnext'⟩ := compactLevels_isSome cfg hn hrange hok hsmall (by rw [hlen]; omega)
    rw [hlen] at hnext'
    exact ⟨s',by rw [bind_some,hs'],hsmall',by omega⟩

omit [Crc32] in
theorem small_publish {s : SstStore} {m : SSTableMeta} {table : SSTable} {n : Nat} (hsmall : s.Small n)
    (hfresh : ∀ l, ∀ x ∈ s.levelState.levels l, x.id ≠ m.id)
    (hfits : ∀ e ∈ table.iter, SSTable.entrySize e ≤ SSTable.blockDataCapacity) :
    (s.publish m table).Small (table.iter.length + n) := by
  refine ⟨all_publish hfresh hsmall.fits hfits,?_⟩
  have hdeep : (range' 1 (maxLevelCount - 1)).map (fun l => ((s.publish m table).tables l).flatten.length) =
      (range' 1 (maxLevelCount - 1)).map (fun l => (s.tables l).flatten.length) := by
    refine map_congr_left (fun l hl => ?_)
    have := (mem_range'_1.mp hl).1
    rw [tables_publish hfresh,if_neg (by omega)]
  have hrange : range maxLevelCount = 0 :: range' 1 (maxLevelCount - 1) := by decide
  have hcount := hsmall.count
  rw [hrange,map_cons,sum_cons] at hcount ⊢
  rw [hdeep,tables_publish hfresh,if_pos rfl,flatten_append,length_append,flatten_singleton]
  omega

end SstStore

namespace Memtable

def entryBytes (e : Entry) : Nat := e.1.length + e.2.elim 0 length + entryOverheadBytes

/-- The counted size is that of the entries. -/
def Sized (m : Memtable) : Prop := m.sizeBytes = (m.entries.entries.map entryBytes).sum

theorem Sized.length_le {m : Memtable} (h : m.Sized) : m.entries.entries.length * 32 ≤ m.sizeBytes := by
  rw [h,← smul_eq_mul,← length_map entryBytes]
  apply card_nsmul_le_sum
  rw [List.forall_mem_map]
  exact fun e he => Nat.le_add_left _ _

/-- An overwritten entry gives up the size of its value. -/
theorem Sized.write {m m' : Memtable} {key : Bytes} {v : Option Bytes} (h : m.Sized) (hentries : m'.entries = m.entries.insert key v)
    (hsize : m'.sizeBytes = match m.entries.get key with
      | some old => m.sizeBytes - old.elim 0 length + v.elim 0 length
      | none => m.sizeBytes + entryBytes (key,v)) : m'.Sized := by
  have hsum := m.entries.sum_insert entryBytes key v
  rw [Sized,hentries,hsize,h]
  cases hget : m.entries.get key with
  | none =>
    rw [hget] at hsum
    exact hsum.symm
  | some old =>
    have hle : entryBytes (key,old) ≤ _ := le_sum_of_mem (mem_map_of_mem ((m.entries.get_eq_some_iff key old).mp hget))
    rw [hget,elim_some] at hsum
    simp only [entryBytes] at hsum hle ⊢
    omega

end Memtable

namespace LsmTree
variable [Crc32]
open SstStore

/-- At most n entries in the memtable and the tables, each of which fits a block. -/
structure Small (t : LsmTree) (n : Nat) : Prop where
  fits : ∀ e ∈ t.memtable.entries.entries, SSTable.entrySize e ≤ SSTable.blockDataCapacity
  store : ∃ a, t.store.Small a ∧ t.memtable.entries.entries.length + a ≤ n
  sized : t.memtable.Sized

/-- A call returns a small tree at rest, with a few ids more. -/
def Returns (cfg : LsmConfig) (t : LsmTree) (n ids : Nat) (r : Option LsmTree) : Prop :=
  ∃ t', r = some t' ∧ t'.Small n ∧ t'.Resting cfg ∧ t'.store.levelState.nextSstId ≤ t.store.levelState.nextSstId + ids

omit [Crc32] in
private theorem freeze_isSome (cfg : LsmConfig) (force : Bool) {t : LsmTree} (hid : t.store.levelState.nextSstId < u64Max) :
    ∃ x, freeze cfg force t = some x := by
  unfold freeze
  split_ifs
  · exact ⟨_,rfl⟩
  · exact ⟨_,rfl⟩
  · rw [LevelState.nextId,if_pos hid]
    exact ⟨_,rfl⟩

private theorem Freezes.small_logFlushed {t b : LsmTree} {a : Nat} (hf : t.Freezes b) (h : t.store.Small a) (m : SSTableMeta)
    (table : SSTable) : (b.store.logFlushed m table).Small a := by
  have htables : (b.store.logFlushed m table).tables = t.store.tables := tables_congr hf.levels hf.readers
  exact ⟨fun l => htables ▸ h.fits l,htables ▸ h.count⟩

theorem flush_isSome (cfg : LsmConfig) (force : Bool) {t : LsmTree} {n : Nat} (hok : t.store.Ok) (hsmall : t.Small n)
    (hlen : t.memtable.entries.entries.length < 2^20) (hn : cfg.tableEntries n < 2^20)
    (hid : t.store.levelState.nextSstId + 6 * n + 1 ≤ u64Max) : Returns cfg t n (6 * n + 1) (flush cfg force t) := by
  obtain ⟨a,hstore,hcount⟩ := hsmall.store
  obtain ⟨⟨x,b⟩,hx⟩ := freeze_isSome cfg force (t := t) (by omega)
  rcases freeze_spec hok hx with ⟨rfl,rfl,hrest⟩ | ⟨rfl,hf⟩
  · exact ⟨b,by simp [flush,hx],hsmall,hrest,by omega⟩
  · obtain ⟨w,hw⟩ : ∃ w, SSTable.write t.store.levelState.nextSstId t.memtable.entries.entries = some w :=
      SSTable.write_isSome hsmall.fits hlen
    cases w with
    | none => exact (SSTable.write_ne_empty hf.filled hw).elim
    | some w =>
      have hbnext := hf.nextSstId
      have hwrite : writeFrozen b t.store.levelState.nextSstId t.memtable.entries =
          some (some w,{ b with store := b.store.logFlushed w.1 w.2 }) := by
        simp [writeFrozen,hw]
      obtain ⟨hwid,hpub,-⟩ := hf.published hw
      obtain ⟨-,hiter,-⟩ := SSTable.write_eq_some t.memtable.entries.sorted hw
      have hpsmall := small_publish (m := w.1) (hf.small_logFlushed hstore w.1 w.2) (hwid ▸ hf.fresh)
        (by rw [hiter]; exact hsmall.fits)
      rw [hiter] at hpsmall
      obtain ⟨s',hs',hsmall',hnext'⟩ := maybeCompact_isSome cfg hpub hpsmall
        ((cfg.tableEntries_mono (by omega)).trans_lt hn) (by
        change b.store.levelState.nextSstId + _ ≤ _
        omega)
      refine ⟨retire { b with store := s' } t.store.levelState.nextSstId,
        by simp [flush,hx,hwrite,hs',map_some],⟨?_,⟨_,hsmall',?_⟩,?_⟩,.inl ?_,?_⟩
      · change ∀ e ∈ b.memtable.entries.entries, _
        rw [hf.emptied]
        exact fun e he => absurd he (not_mem_nil)
      · change b.memtable.entries.entries.length + _ ≤ n
        rw [hf.emptied]
        change 0 + _ ≤ n
        omega
      · change b.memtable.Sized
        rw [hf.emptied]
        rfl
      · change b.memtable.entries.entries = []
        rw [hf.emptied]
        rfl
      · change s'.levelState.nextSstId ≤ _
        refine hnext'.trans ?_
        change b.store.levelState.nextSstId + _ ≤ _
        omega

end LsmTree
end InterchangeDb
