import InterchangeDb.Lib.AssocMap
import InterchangeDb.Lsm.StoreSpec

/-! Compaction keeps the value of every key; a tombstone is dropped only where no older entry is left. -/
namespace InterchangeDb
open List Option Function
namespace SstStore
variable [Crc32]
open OrdMap (find)
open Layers
variable {s s' : SstStore} {level ms : List SSTableMeta} {m : SSTableMeta} {cfg : LsmConfig}

omit [Crc32] in
/-- A batch is cut at the entry that reaches the target size. -/
theorem batches_spec (target : Nat) (es cur : List Entry) {size : Nat} (hsize : SSTable.blockLen cur = size) (hle : size ≤ target) :
    (batches target es cur size).flatten = cur ++ es ∧
      ∀ batch ∈ batches target es cur size, batch ≠ [] ∧ SSTable.blockLen batch.dropLast ≤ target := by
  induction es generalizing cur size with
  | nil =>
    simp only [batches]
    split_ifs with h
    · simp [h]
    · refine ⟨by simp,forall_mem_singleton.mpr ⟨h,?_⟩⟩
      exact (Sublist.sum_le_sum ((dropLast_sublist cur).map _) (by simp)).trans (hsize.trans_le hle)
  | cons e es ih =>
    simp only [batches]
    split_ifs with h
    · obtain ⟨hflat,hbatch⟩ := @ih [] 0 rfl (Nat.zero_le _)
      refine ⟨by simp [hflat],forall_mem_cons.mpr ⟨⟨by simp,?_⟩,hbatch⟩⟩
      rwa [dropLast_concat,hsize]
    · obtain ⟨hflat,hbatch⟩ := ih (cur ++ [e]) (by simp [← hsize,SSTable.blockLen,SSTable.entrySize]; omega) (not_le.mp h).le
      exact ⟨by simp [hflat],hbatch⟩

omit [Crc32] in
private theorem length_batch_le {target : Nat} {b : List Entry} (hasc : Ascending b)
    (hle : SSTable.blockLen b.dropLast ≤ target) : b.length ≤ target / 5 + 2 := by
  have hlen : b.dropLast.length = b.length - 1 := length_dropLast
  have hinit := hasc.sublist (dropLast_sublist b)
  cases hb : b.dropLast with
  | nil =>
    rw [hb,length_nil] at hlen
    omega
  | cons x rest =>
    rw [hb] at hlen hinit hle
    -- only the first key can be empty
    have hsize : ∀ n ∈ rest.map SSTable.entrySize, 5 ≤ n := by
      rw [List.forall_mem_map]
      intro y hy
      have hlt : x.1 < y.1 := rel_of_pairwise_cons hinit hy
      have hpos : 0 < y.1.length := length_pos_iff.mpr (fun hnil => not_lt_nil _ (hnil ▸ hlt))
      rw [SSTable.entrySize]
      omega
    have hsum := card_nsmul_le_sum _ 5 hsize
    rw [SSTable.blockLen,map_cons,sum_cons] at hle
    rw [length_map,smul_eq_mul] at hsum
    rw [length_cons] at hlen
    omega

theorem flushBatches_spec {bs : List (List Entry)} (hbs : ∀ b ∈ bs, b ≠ [] ∧ Ascending b) {s s' : LevelState}
    {out : List (SSTableMeta × SSTable)} (h : flushBatches bs s = some (out,s')) :
    out.map (fun x => x.2.iter) = bs ∧ s'.levels = s.levels ∧ s'.nextSstId = s.nextSstId + bs.length ∧
      out.map (fun x => x.1.id) = List.range' s.nextSstId bs.length ∧
      (∀ x ∈ out, x.2.Sound ∧ x.1.firstKey = x.2.firstKey ∧ x.1.lastKey = x.2.lastKey) ∧
      (∀ x ∈ out, x.1.fileSize < 2^64 ∧ x.1.entryCount < 2^64) ∧
      (s.nextSstId ≤ u64Max → s'.nextSstId ≤ u64Max) := by
  induction bs generalizing s s' out with
  | nil =>
    cases h
    simp
  | cons b bs ih =>
    obtain ⟨hne,hasc⟩ := hbs b mem_cons_self
    rw [flushBatches] at h
    cases hid : s.nextId with
    | none => simp [hid] at h
    | some r =>
      obtain ⟨hr1,hr2,hr3,hmax⟩ : r.1 = s.nextSstId ∧ r.2.levels = s.levels ∧ r.2.nextSstId = s.nextSstId + 1 ∧
          s.nextSstId < u64Max := by
        unfold LevelState.nextId at hid
        split_ifs at hid with hmax
        cases hid
        exact ⟨rfl,rfl,rfl,hmax⟩
      simp only [hid] at h
      cases hw : SSTable.write r.1 b with
      | none => simp [hw] at h
      | some w =>
        cases w with
        | none => exact (SSTable.write_ne_empty hne hw).elim
        | some x =>
          simp only [hw] at h
          obtain ⟨q,hq,heq⟩ := map_eq_some_iff.mp h
          cases heq
          obtain ⟨hsound,hiter,hxid,hfirst,hlast⟩ := SSTable.write_eq_some hasc hw
          obtain ⟨h1,h2,h3,h4,h5,h6,h7⟩ := ih (fun b hb => hbs b (mem_cons_of_mem _ hb)) hq
          refine ⟨by rw [map_cons,h1,hiter],h2.trans hr2,?_,?_,?_,?_,fun _ => h7 (by omega)⟩
          · rw [h3,hr3,length_cons]
            omega
          · rw [map_cons,h4,hxid,hr1,hr3,length_cons,range'_succ]
          · intro y hy
            rcases mem_cons.mp hy with rfl | hy
            · exact ⟨hsound,hfirst,hlast⟩
            · exact h5 y hy
          · intro y hy
            rcases mem_cons.mp hy with rfl | hy
            · exact SSTable.write_sizes hw
            · exact h6 y hy

omit [Crc32] in
private theorem insertTable_spec (hsorted : InOrder level) (hwf : ∀ x ∈ m::level, x.firstKey ≤ x.lastKey)
    (hclear : ∀ x ∈ level, x.lastKey < m.firstKey ∨ m.lastKey < x.firstKey) :
    InOrder (insertTable level m) ∧ (insertTable level m).Perm (m::level) := by
  have hpart : level.Pairwise (fun a b => decide (b.firstKey < m.firstKey) = true → decide (a.firstKey < m.firstKey) = true) := by
    refine hsorted.imp_of_mem (fun {a b} ha _ hab hb => ?_)
    exact decide_eq_true (((hwf a (mem_cons_of_mem _ ha)).trans_lt hab).trans (of_decide_eq_true hb))
  obtain ⟨as,bs,rfl,has,hbs,hpoint⟩ := exists_partition hpart
  have heq : insertTable (as ++ bs) m = as ++ m::bs := by
    rw [insertTable,hpoint,insertIdx_append]
  have hm := hwf m mem_cons_self
  obtain ⟨hasorted,hbsorted,hcross⟩ := pairwise_append.mp hsorted
  rw [heq]
  refine ⟨pairwise_append.mpr ⟨hasorted,pairwise_cons.mpr ⟨?_,hbsorted⟩,?_⟩,perm_middle⟩
  · intro b hb
    have hge := not_lt.mp (of_decide_eq_false (hbs b hb))
    refine (hclear b (mem_append_right _ hb)).resolve_left (fun hlt => ?_)
    exact absurd ((hwf b (by simp [hb])).trans_lt hlt) (not_lt.mpr hge)
  · intro a ha x hx
    rcases mem_cons.mp hx with rfl | hx
    · have hlt := of_decide_eq_true (has a ha)
      refine (hclear a (mem_append_left _ ha)).resolve_right (fun hgt => ?_)
      exact absurd (hm.trans_lt hgt) (not_lt.mpr hlt.le)
    · exact hcross a ha x hx

omit [Crc32] in
private theorem foldl_insertTable_spec {new : List SSTableMeta} (hsorted : InOrder level) (hnew : InOrder new)
    (hwf : ∀ x ∈ new ++ level, x.firstKey ≤ x.lastKey)
    (hclear : ∀ m ∈ new, ∀ x ∈ level, x.lastKey < m.firstKey ∨ m.lastKey < x.firstKey) :
    InOrder (new.foldl insertTable level) ∧ (new.foldl insertTable level).Perm (new ++ level) := by
  induction new generalizing level with
  | nil => exact ⟨hsorted,.refl _⟩
  | cons m new ih =>
    obtain ⟨hm,hnew'⟩ := pairwise_cons.mp hnew
    obtain ⟨hins,hperm⟩ := insertTable_spec hsorted (fun x hx => hwf x (by simp at hx ⊢; tauto)) (hclear m mem_cons_self)
    have hall : (new ++ insertTable level m).Perm (m::new ++ level) :=
      (List.Perm.append_left new hperm).trans perm_middle
    have hclear' : ∀ y ∈ new, ∀ x ∈ insertTable level m, x.lastKey < y.firstKey ∨ y.lastKey < x.firstKey := by
      intro y hy x hx
      rcases mem_cons.mp (hperm.mem_iff.mp hx) with rfl | hx
      · exact .inl (hm y hy)
      · exact hclear y (mem_cons_of_mem _ hy) x hx
    obtain ⟨hs,hp⟩ := ih hins hnew' (fun x hx => hwf x (hall.mem_iff.mp hx)) hclear'
    exact ⟨hs,hp.trans hall⟩

theorem inputs_eq (h : ∀ m ∈ ms, ∃ table, Holds s.readers m table) :
    s.inputs ms = ms.map (fun m => (m.id,contents s.readers m)) := by
  unfold inputs
  induction ms with
  | nil => rfl
  | cons m ms ih =>
    obtain ⟨table,ht⟩ := h m mem_cons_self
    rw [filterMap_cons,ht.lookup,map_some,ih (fun x hx => h x (mem_cons_of_mem _ hx)),map_cons,ht.contents_eq]

def mergeInputs (s : SstStore) (top : List SSTableMeta) (minKey maxKey : Bytes) (target : Nat) : List SSTableMeta :=
  top ++ (s.levelState.levels target).filter (meets minKey maxKey)

/-- The entries that a merge reads, the newest of each key. -/
def mergedEntries (s : SstStore) (top : List SSTableMeta) (minKey maxKey : Bytes) (target : Nat) : List Entry :=
  MergeIterator.collectAll ((s.mergeInputs top minKey maxKey target).map (contents s.readers))

/-- The entries that a merge writes, cut for its tables. -/
def mergeBatches (cfg : LsmConfig) (s : SstStore) (top : List SSTableMeta) (minKey maxKey : Bytes) (target : Nat) : List (List Entry) :=
  batches cfg.targetSstableSizeBytes ((MergeIterator.collectAll ((s.inputs (s.mergeInputs top minKey maxKey target)).map Prod.snd)).filter
    (fun e => !isBottomLevel target s.levelState || e.2.isSome)) [] 0

/-- What a merge makes of its inputs. -/
structure Merged (s : SstStore) (top : List SSTableMeta) (minKey maxKey : Bytes) (target : Nat) (r : Merge) : Prop where
  ids : r.ids = (s.mergeInputs top minKey maxKey target).map SSTableMeta.id
  remaining : r.remaining = (s.levelState.levels target).filter (fun m => !meets minKey maxKey m)
  levels : r.levelState.levels = s.levelState.levels
  nextSstId : r.levelState.nextSstId = s.levelState.nextSstId + r.out.length
  outIds : r.out.map (fun x => x.1.id) = List.range' s.levelState.nextSstId r.out.length
  out : ∀ x ∈ r.out, x.2.Sound ∧ x.1.firstKey = x.2.firstKey ∧ x.1.lastKey = x.2.lastKey
  sizes : ∀ x ∈ r.out, x.1.fileSize < 2^64 ∧ x.1.entryCount < 2^64
  idMax : s.levelState.nextSstId ≤ u64Max → r.levelState.nextSstId ≤ u64Max
  entries : (r.out.map (fun x => x.2.iter)).flatten =
    (s.mergedEntries top minKey maxKey target).filter (fun e => !isBottomLevel target s.levelState || e.2.isSome)

section Merging
variable {top : List SSTableMeta} {minKey maxKey : Bytes} {target : Nat}
variable (hin : ∀ m ∈ s.mergeInputs top minKey maxKey target, ∃ table, Holds s.readers m table)
include hin

theorem mergeBatches_spec (cfg : LsmConfig) :
    (mergeBatches cfg s top minKey maxKey target).flatten =
      (s.mergedEntries top minKey maxKey target).filter (fun e => !isBottomLevel target s.levelState || e.2.isSome) ∧
    (∀ b ∈ mergeBatches cfg s top minKey maxKey target, b ≠ [] ∧ Ascending b) ∧
    ∀ b ∈ mergeBatches cfg s top minKey maxKey target, b.length ≤ cfg.targetSstableSizeBytes / 5 + 2 := by
  have hsources : (s.inputs (s.mergeInputs top minKey maxKey target)).map Prod.snd =
      (s.mergeInputs top minKey maxKey target).map (contents s.readers) := by
    rw [inputs_eq hin,List.map_map]
    rfl
  have hasc : ∀ source ∈ (s.mergeInputs top minKey maxKey target).map (contents s.readers), Ascending source := by
    rw [List.forall_mem_map]
    intro m hm
    obtain ⟨table,ht⟩ := hin m hm
    exact ht.ascending
  have hsorted := (MergeIterator.collectAll_spec hasc).1.filter (fun e => !isBottomLevel target s.levelState || e.2.isSome)
  rw [mergeBatches,hsources,mergedEntries]
  obtain ⟨hflat,hbatch⟩ := batches_spec cfg.targetSstableSizeBytes (filter (fun e => !isBottomLevel target s.levelState || e.2.isSome)
    (MergeIterator.collectAll ((s.mergeInputs top minKey maxKey target).map (contents s.readers)))) [] rfl (Nat.zero_le _)
  rw [nil_append] at hflat
  rw [← hflat] at hsorted
  have hasc := (pairwise_flatten.mp hsorted).1
  exact ⟨hflat,fun b hb => ⟨(hbatch b hb).1,hasc b hb⟩,fun b hb => length_batch_le (hasc b hb) (hbatch b hb).2⟩

theorem merge_spec {r : Merge} (h : merge cfg s top minKey maxKey target = some r) : Merged s top minKey maxKey target r := by
  obtain ⟨w,hw,rfl⟩ := map_eq_some_iff.mp h
  have hids : (s.inputs (s.mergeInputs top minKey maxKey target)).map Prod.fst =
      (s.mergeInputs top minKey maxKey target).map SSTableMeta.id := by
    rw [inputs_eq hin,List.map_map]
    rfl
  obtain ⟨hflat,hbatch,-⟩ := mergeBatches_spec hin cfg
  obtain ⟨hiter,hlevels,hnext,houtIds,hout,hsizes,hmax⟩ := flushBatches_spec hbatch hw
  have hlen : (mergeBatches cfg s top minKey maxKey target).length = w.1.length := by
    rw [← hiter,length_map]
  rw [hlen] at hnext houtIds
  exact ⟨hids,rfl,hlevels,hnext,houtIds,hout,hsizes,hmax,by rw [hiter,hflat]⟩

end Merging

/-- Tables that move down: those of one level that are merged into the next, and those
that stay. -/
structure Move (s : SstStore) (level : Nat) (top stay : List SSTableMeta) (minKey maxKey : Bytes) : Prop where
  level_lt : level + 1 < maxLevelCount
  perm : (stay ++ top).Perm (s.levelState.levels level)
  stay_sublist : stay.Sublist (s.levelState.levels level)
  apart : ∀ m ∈ stay, m ∉ top
  range : ∀ m ∈ top, minKey ≤ m.firstKey ∧ m.lastKey ≤ maxKey
  split : ∀ k, s.levelView level k =
    (layered (newestFirst (fun _ => stay.map (contents s.readers)) level) k).or (layered (top.map (contents s.readers)) k)

section Install
variable {s : SstStore} {level : Nat} {top stay : List SSTableMeta} {minKey maxKey : Bytes} {r : Merge}
variable {x : SSTableMeta × SSTable} {l id : Nat}

section

variable (hmove : Move s level top stay minKey maxKey)
include hmove

omit [Crc32] in
theorem Move.top_mem : ∀ m ∈ top, m ∈ s.levelState.levels level :=
  fun _ hm => hmove.perm.mem_iff.mp (mem_append_right _ hm)

theorem Move.holds_inputs (hok : s.Ok) :
    ∀ m ∈ s.mergeInputs top minKey maxKey (level+1), ∃ table, Holds s.readers m table := by
  intro m hm
  rcases mem_append.mp hm with hm | hm
  · exact hok.reader level m (hmove.top_mem m hm)
  · exact hok.reader (level+1) m (mem_of_mem_filter hm)

theorem Move.ascending_inputs (hok : s.Ok) :
    ∀ source ∈ (s.mergeInputs top minKey maxKey (level+1)).map (contents s.readers), Ascending source := by
  rw [List.forall_mem_map]
  intro m hm
  obtain ⟨table,ht⟩ := hmove.holds_inputs hok m hm
  exact ht.ascending

theorem Move.merged_spec (hok : s.Ok) : Ascending (s.mergedEntries top minKey maxKey (level+1)) ∧
    ∀ k, find k (s.mergedEntries top minKey maxKey (level+1)) =
      (layered (top.map (contents s.readers)) k).or
        (layered (((s.levelState.levels (level+1)).filter (meets minKey maxKey)).map (contents s.readers)) k) := by
  obtain ⟨hsorted,hfind⟩ := MergeIterator.collectAll_spec (hmove.ascending_inputs hok)
  refine ⟨hsorted,fun k => ?_⟩
  rw [mergedEntries,hfind,mergeInputs,map_append,layered_append]

theorem Move.all_merged (hok : s.Ok) {P : Entry → Prop} (hall : s.All P) :
    ∀ e ∈ s.mergedEntries top minKey maxKey (level+1), P e := by
  intro e he
  obtain ⟨source,hsource,hmem⟩ := MergeIterator.mem_of_mem_collectAll (hmove.ascending_inputs hok) he
  obtain ⟨m,hm,rfl⟩ := mem_map.mp hsource
  rcases mem_append.mp hm with hm | hm
  · exact hall level _ (mem_map_of_mem (hmove.top_mem m hm)) e hmem
  · exact hall (level+1) _ (mem_map_of_mem (mem_of_mem_filter hm)) e hmem

end

omit [Crc32] in
theorem levels_install (hr : r.levelState.levels = s.levelState.levels) (l : Nat) :
    (r.install s level stay).levelState.levels l =
      if l = level+1 then (r.out.map Prod.fst).foldl insertTable r.remaining
      else if l = level then stay else s.levelState.levels l := by
  simp [Merge.install,LevelState.setLevel,update_apply,hr]

section

variable (hr : Merged s top minKey maxKey (level+1) r)
include hr

theorem mem_merged (hx : x ∈ r.out) {e : Entry} (he : e ∈ x.2.iter) :
    e ∈ s.mergedEntries top minKey maxKey (level+1) := by
  have hmem : e ∈ (r.out.map (·.2.iter)).flatten := mem_flatten_of_mem (mem_map_of_mem hx) he
  rw [hr.entries] at hmem
  exact mem_of_mem_filter hmem

private theorem out_bounds (hx : x ∈ r.out) :
    x.1.firstKey ≤ x.1.lastKey ∧ (∃ e ∈ s.mergedEntries top minKey maxKey (level+1), e.1 = x.1.firstKey) ∧
    ∃ e ∈ s.mergedEntries top minKey maxKey (level+1), e.1 = x.1.lastKey := by
  obtain ⟨hsound,hfirst,hlast⟩ := hr.out x hx
  obtain ⟨a,ha,hak⟩ := hsound.firstKey_mem
  obtain ⟨b,hb,hbk⟩ := hsound.lastKey_mem
  rw [hfirst,hlast]
  exact ⟨hbk ▸ (hsound.key_bounds b hb).1,⟨a,mem_merged hr hx ha,hak⟩,⟨b,mem_merged hr hx hb,hbk⟩⟩

theorem outIds_nodup : (r.out.map (fun x => x.1.id)).Nodup := by
  rw [hr.outIds]
  exact nodup_range'

theorem outId_bounds (hx : x ∈ r.out) : s.levelState.nextSstId ≤ x.1.id ∧ x.1.id < r.levelState.nextSstId := by
  have hmem : x.1.id ∈ r.out.map (·.1.id) := mem_map_of_mem hx
  rw [hr.outIds,mem_range'_1] at hmem
  rw [hr.nextSstId]
  exact hmem

private theorem lookup_out (hid : id < s.levelState.nextSstId) (m : SSTables) :
    (r.out.foldl (fun m x => m.insert x.1.id x.2) m).lookup id = m.lookup id := by
  refine lookup_foldl_insert_of_notMem (fun x : SSTableMeta × SSTable => x.1.id) (·.2) ?_
  rw [hr.outIds,mem_range'_1]
  omega

variable (stay) in
/-- Of the tables that were there, a compaction closes the readers of its inputs only. -/
theorem readers_install (hid : id < s.levelState.nextSstId) :
    (r.install s level stay).readers.lookup id = if id ∈ r.ids then none else s.readers.lookup id := by
  change (r.out.foldl (fun m x => m.insert x.1.id x.2) (r.ids.foldl (fun m id => m.erase id) s.readers)).lookup id = _
  rw [lookup_out hr hid,lookup_foldl_erase]

variable (stay) in
private theorem lookup_old (hid : id < s.levelState.nextSstId)
    (hnot : id ∉ r.ids) : (r.install s level stay).readers.lookup id = s.readers.lookup id ∧
      (r.install s level stay).files.lookup id = s.files.lookup id := by
  constructor
  · rw [readers_install stay hr hid,if_neg hnot]
  · change (r.ids.foldl (fun m id => m.erase id) (r.files s)).lookup id = _
    rw [lookup_foldl_erase,if_neg hnot,Merge.files,lookup_out hr hid]

variable (stay) in
theorem lookup_new (hids : ∀ id ∈ r.ids, id < s.levelState.nextSstId) (hx : x ∈ r.out) :
    (r.install s level stay).readers.lookup x.1.id = some x.2 ∧ (r.install s level stay).files.lookup x.1.id = some x.2 := by
  have hnot : x.1.id ∉ r.ids := fun hid => absurd (hids _ hid) (not_lt.mpr (outId_bounds hr hx).1)
  constructor
  · exact lookup_foldl_insert (fun x : SSTableMeta × SSTable => x.1.id) (·.2) (outIds_nodup hr) hx
  · rw [Merge.install,lookup_foldl_erase,if_neg hnot]
    exact lookup_foldl_insert (fun x : SSTableMeta × SSTable => x.1.id) (·.2) (outIds_nodup hr) hx

end

omit [Crc32] in
theorem range_split (hlevel : level + 1 < maxLevelCount) : List.range maxLevelCount =
    List.range level ++ (level :: (level+1) :: List.range' (level+2) (maxLevelCount - (level+2))) := by
  have hlen : maxLevelCount = level + (maxLevelCount - (level+2) + 1 + 1) := by omega
  rw [range_eq_range',range_eq_range']
  conv_lhs => rw [hlen]
  rw [← range'_append_1,zero_add,range'_succ,range'_succ]

omit [Crc32] in
private theorem view_split (s : SstStore) (hlevel : level + 1 < maxLevelCount) (k : Bytes) :
    s.view k = ((List.range level).findSome? (fun l => s.levelView l k)).or ((s.levelView level k).or
      ((s.levelView (level+1) k).or
        ((List.range' (level+2) (maxLevelCount - (level+2))).findSome? (fun l => s.levelView l k)))) := by
  rw [view,range_split hlevel,findSome?_append,findSome?_cons,findSome?_cons]
  cases s.levelView level k <;> cases s.levelView (level+1) k <;> rfl

omit [Crc32] in
private theorem join_or_filter {above a m rest : Option (Option Bytes)} (hrest : m = some none → rest = none) :
    (above.or (a.or ((m.filter Option.isSome).or rest))).join = (above.or (a.or (m.or rest))).join := by
  simp only [← Option.or_assoc]
  cases above.or a with
  | some a => rfl
  | none =>
    match m with
    | none => rfl
    | some none =>
      rw [hrest rfl]
      rfl
    | some (some v) => rfl

omit [Crc32] in
private theorem bottom_none (hbottom : isBottomLevel (level+1) s.levelState = true) (k : Bytes) :
    (List.range' (level+2) (maxLevelCount - (level+2))).findSome? (fun l => s.levelView l k) = none := by
  rw [findSome?_eq_none_iff]
  intro l hl
  have hempty : s.levelState.levels l = [] := isEmpty_iff.mp (all_eq_true.mp hbottom l hl)
  have := (mem_range'_1.mp hl).1
  rw [levelView,newestFirst,if_neg (by omega),tables,hempty]
  rfl

variable (hok : s.Ok) (hmove : Move s level top stay minKey maxKey)
include hok hmove

private theorem mem_inputs_of_entry {e : Entry}
    (he : e ∈ s.mergedEntries top minKey maxKey (level+1)) :
    ∃ m ∈ s.mergeInputs top minKey maxKey (level+1), m.firstKey ≤ e.1 ∧ e.1 ≤ m.lastKey := by
  obtain ⟨source,hsource,hmem⟩ := MergeIterator.mem_of_mem_collectAll (hmove.ascending_inputs hok) he
  obtain ⟨m,hm,rfl⟩ := mem_map.mp hsource
  obtain ⟨table,ht⟩ := hmove.holds_inputs hok m hm
  exact ⟨m,hm,ht.key_bounds hmem⟩

variable (hr : Merged s top minKey maxKey (level+1) r)
include hr

private theorem remaining_clear {x : SSTableMeta} (hx : x ∈ r.remaining) :
    (∀ m ∈ s.mergeInputs top minKey maxKey (level+1), x.lastKey < m.firstKey) ∨
      ∀ m ∈ s.mergeInputs top minKey maxKey (level+1), m.lastKey < x.firstKey := by
  rw [hr.remaining] at hx
  obtain ⟨hxl,hxm⟩ := mem_filter.mp hx
  obtain ⟨xt,hxt⟩ := hok.reader _ x hxl
  have hside : x.lastKey < minKey ∨ maxKey < x.firstKey := by
    simpa [meets,imp_iff_not_or] using hxm
  -- tables of one level lie side by side
  have hlevel : ∀ m ∈ (s.levelState.levels (level+1)).filter (meets minKey maxKey),
      x.lastKey < m.firstKey ∨ m.lastKey < x.firstKey := by
    intro m hm
    obtain ⟨hml,hmm⟩ := mem_filter.mp hm
    have hne : x ≠ m := by
      rintro rfl
      simp [hmm] at hxm
    have hsym : (s.levelState.levels (level+1)).Pairwise (fun a b => a.lastKey < b.firstKey ∨ b.lastKey < a.firstKey) :=
      (hok.sorted _ (by omega)).imp .inl
    have : Std.Symm (fun a b : SSTableMeta => a.lastKey < b.firstKey ∨ b.lastKey < a.firstKey) := ⟨fun _ _ h => h.symm⟩
    exact hsym.forall hxl hml hne
  rcases hside with hside | hside
  · refine .inl (fun m hm => ?_)
    rcases mem_append.mp hm with hm | hm
    · exact hside.trans_le (hmove.range m hm).1
    · refine (hlevel m hm).resolve_right (fun hlt => ?_)
      have hmeets := (of_decide_eq_true (mem_filter.mp hm).2).1
      exact absurd (hlt.trans_le (hxt.first_le_last.trans hside.le)) (not_lt.mpr hmeets)
  · refine .inr (fun m hm => ?_)
    rcases mem_append.mp hm with hm | hm
    · exact (hmove.range m hm).2.trans_lt hside
    · refine (hlevel m hm).resolve_left (fun hlt => ?_)
      have hmeets := (of_decide_eq_true (mem_filter.mp hm).2).2
      exact absurd (hside.trans_le (hxt.first_le_last.trans hlt.le)) (not_lt.mpr hmeets)

private theorem out_inOrder : InOrder (r.out.map Prod.fst) := by
  have hasc : Ascending (r.out.map (·.2.iter)).flatten := by
    rw [hr.entries]
    exact List.Pairwise.filter _ (hmove.merged_spec hok).1
  have hpair := (pairwise_flatten.mp hasc).2
  rw [pairwise_map] at hpair
  rw [InOrder,pairwise_map]
  refine hpair.imp_of_mem (fun {x y} hx hy hxy => ?_)
  obtain ⟨hxs,-,hxlast⟩ := hr.out x hx
  obtain ⟨hys,hyfirst,-⟩ := hr.out y hy
  obtain ⟨a,ha,hak⟩ := hxs.lastKey_mem
  obtain ⟨b,hb,hbk⟩ := hys.firstKey_mem
  rw [hxlast,hyfirst,← hak,← hbk]
  exact hxy a ha b hb

/-- The target level after the merge: the written tables and those that took no part. -/
theorem target_spec :
    InOrder ((r.out.map Prod.fst).foldl insertTable r.remaining) ∧
      ((r.out.map Prod.fst).foldl insertTable r.remaining).Perm (r.out.map Prod.fst ++ r.remaining) := by
  refine foldl_insertTable_spec ?_ (out_inOrder hok hmove hr) ?_ ?_
  · rw [hr.remaining]
    exact (hok.sorted _ (by omega)).filter _
  · intro x hx
    rcases mem_append.mp hx with hx | hx
    · obtain ⟨y,hy,rfl⟩ := mem_map.mp hx
      exact (out_bounds hr hy).1
    · rw [hr.remaining] at hx
      obtain ⟨table,ht⟩ := hok.reader _ x (mem_of_mem_filter hx)
      exact ht.first_le_last
  · intro m hm x hx
    obtain ⟨y,hy,rfl⟩ := mem_map.mp hm
    obtain ⟨-,⟨a,ha,hak⟩,⟨b,hb,hbk⟩⟩ := out_bounds hr hy
    rw [← hak,← hbk]
    rcases remaining_clear hok hmove hr hx with hclear | hclear
    · obtain ⟨i,hi,hib,-⟩ := mem_inputs_of_entry hok hmove ha
      exact .inl ((hclear i hi).trans_le hib)
    · obtain ⟨i,hi,-,hib⟩ := mem_inputs_of_entry hok hmove hb
      exact .inr (hib.trans_lt (hclear i hi))

/-- The tables of a level that are no input of the merge. -/
theorem filter_ids (l : Nat) : (s.levelState.levels l).filter (fun m => decide (m.id ∉ r.ids)) =
    if l = level+1 then r.remaining else if l = level then stay else s.levelState.levels l := by
  -- a table with the id of an input is that input
  have hids : ∀ {m}, m ∈ s.levelState.levels l →
      (m.id ∈ r.ids ↔ (l = level ∧ m ∈ top) ∨ (l = level+1 ∧ meets minKey maxKey m = true)) := by
    intro m hm
    rw [hr.ids]
    constructor
    · intro hid
      obtain ⟨x,hx,hxid⟩ := mem_map.mp hid
      rcases mem_append.mp hx with htop | hmeet
      · obtain ⟨rfl,rfl⟩ := hok.unique l level m x hm (hmove.top_mem x htop) hxid.symm
        exact .inl ⟨rfl,htop⟩
      · obtain ⟨hxl,hxm⟩ := mem_filter.mp hmeet
        obtain ⟨rfl,rfl⟩ := hok.unique l (level+1) m x hm hxl hxid.symm
        exact .inr ⟨rfl,hxm⟩
    · rintro (⟨-,htop⟩ | ⟨rfl,hmeets⟩)
      · exact mem_map_of_mem (mem_append_left _ htop)
      · exact mem_map_of_mem (mem_append_right _ (mem_filter.mpr ⟨hm,hmeets⟩))
  split_ifs with h1 h2
  · subst h1
    rw [hr.remaining]
    refine filter_congr (fun m hm => ?_)
    by_cases hmeets : meets minKey maxKey m <;> simp [hids hm,hmeets]
  · subst h2
    -- the tables that stay, in the order of the level
    have hstay : stay.filter (fun m => decide (m.id ∉ r.ids)) = stay := by
      rw [filter_eq_self]
      intro m hm
      simp [hids (hmove.stay_sublist.subset hm),hmove.apart m hm]
    have hnone : top.filter (fun m => decide (m.id ∉ r.ids)) = [] := by
      rw [filter_eq_nil_iff]
      intro m hm
      simp [hids (hmove.top_mem m hm),hm]
    have hsub := hmove.stay_sublist.filter (fun m => decide (m.id ∉ r.ids))
    have hlen := (hmove.perm.filter (fun m => decide (m.id ∉ r.ids))).length_eq
    rw [filter_append,hstay,hnone,append_nil] at hlen
    rw [hstay] at hsub
    exact (hsub.eq_of_length hlen).symm
  · rw [filter_eq_self]
    intro m hm
    simp [hids hm,h1,h2]

/-- A table of the new levels was there before and is no input, or was written. -/
theorem mem_install {m : SSTableMeta} (hm : m ∈ (r.install s level stay).levelState.levels l) :
    (m ∈ s.levelState.levels l ∧ m.id ∉ r.ids) ∨ (l = level+1 ∧ ∃ x ∈ r.out, x.1 = m) := by
  have hkept : m ∈ (if l = level+1 then r.remaining else if l = level then stay else s.levelState.levels l) →
      m ∈ s.levelState.levels l ∧ m.id ∉ r.ids := by
    rw [← filter_ids hok hmove hr l,mem_filter,decide_eq_true_eq]
    exact id
  rw [levels_install hr.levels] at hm
  split_ifs at hm hkept with h1 h2
  · rcases mem_append.mp ((target_spec hok hmove hr).2.mem_iff.mp hm) with hm | hm
    · obtain ⟨x,hx,rfl⟩ := mem_map.mp hm
      exact .inr ⟨h1,x,hx,rfl⟩
    · exact .inl (hkept hm)
  · exact .inl (hkept hm)
  · exact .inl (hkept hm)

theorem ids_bound : ∀ id ∈ r.ids, id < s.levelState.nextSstId := by
  rw [hr.ids,List.forall_mem_map]
  intro m hm
  rcases mem_append.mp hm with hm | hm
  · exact hok.bound level m (hmove.top_mem m hm)
  · exact hok.bound (level+1) m (mem_of_mem_filter hm)

theorem ok_install : (r.install s level stay).Ok := by
  have hids := ids_bound hok hmove hr
  have hnext : s.levelState.nextSstId ≤ r.levelState.nextSstId := by
    rw [hr.nextSstId]
    omega
  refine ⟨?_,?_,?_,?_,?_,?_,hr.idMax hok.idMax⟩
  · intro l m hm
    rcases mem_install hok hmove hr hm with ⟨hml,hnot⟩ | ⟨-,x,hx,rfl⟩
    · obtain ⟨table,ht⟩ := hok.reader l m hml
      exact ⟨table,(lookup_old stay hr (hok.bound l m hml) hnot).1.trans ht.lookup,ht.sound,ht.firstKey,ht.lastKey⟩
    · obtain ⟨hsound,hfirst,hlast⟩ := hr.out x hx
      exact ⟨x.2,(lookup_new stay hr hids hx).1,hsound,hfirst,hlast⟩
  · intro l m hm
    rcases mem_install hok hmove hr hm with ⟨hml,hnot⟩ | ⟨-,x,hx,rfl⟩
    · obtain ⟨hreader,hfile⟩ := lookup_old stay hr (hok.bound l m hml) hnot
      rw [hreader,hfile,hok.file l m hml]
    · obtain ⟨hreader,hfile⟩ := lookup_new stay hr hids hx
      rw [hreader,hfile]
  · intro l l' m m' hm hm' heq
    rcases mem_install hok hmove hr hm with ⟨hml,-⟩ | ⟨rfl,x,hx,rfl⟩ <;>
      rcases mem_install hok hmove hr hm' with ⟨hml',-⟩ | ⟨rfl,x',hx',rfl⟩
    · exact hok.unique l l' m m' hml hml' heq
    · exact absurd (heq ▸ hok.bound l m hml) (not_lt.mpr (outId_bounds hr hx').1)
    · exact absurd (heq ▸ hok.bound l' m' hml') (not_lt.mpr (outId_bounds hr hx).1)
    · have := inj_on_of_nodup_map (outIds_nodup hr) hx hx' heq
      exact ⟨rfl,congrArg Prod.fst this⟩
  · intro l m hm
    change m.id < r.levelState.nextSstId
    rcases mem_install hok hmove hr hm with ⟨hml,-⟩ | ⟨-,x,hx,rfl⟩
    · exact (hok.bound l m hml).trans_le hnext
    · exact (outId_bounds hr hx).2
  · intro l hl
    rw [levels_install hr.levels]
    split_ifs with h1 h2
    · exact (target_spec hok hmove hr).1
    · subst h2
      exact (hok.sorted l hl).sublist hmove.stay_sublist
    · exact hok.sorted l hl
  · intro l hl
    have := hmove.level_lt
    rw [levels_install hr.levels,if_neg (by omega),if_neg (by omega)]
    exact hok.deep l hl

private theorem contents_install {m : SSTableMeta}
    (hm : m ∈ (r.install s level stay).levelState.levels l) (hold : m ∈ s.levelState.levels l) :
    contents (r.install s level stay).readers m = contents s.readers m := by
  rcases mem_install hok hmove hr hm with ⟨-,hnot⟩ | ⟨-,x,hx,rfl⟩
  · rw [contents,contents,(lookup_old stay hr (hok.bound l m hold) hnot).1]
  · exact absurd (hok.bound l _ hold) (not_lt.mpr (outId_bounds hr hx).1)

theorem contents_out (hx : x ∈ r.out) : contents (r.install s level stay).readers x.1 = x.2.iter := by
  rw [contents,(lookup_new stay hr (ids_bound hok hmove hr) hx).1]
  rfl

theorem all_install {P : Entry → Prop} (hall : s.All P) : (r.install s level stay).All P := by
  intro l es hes e he
  obtain ⟨m,hm,rfl⟩ := mem_map.mp hes
  rcases mem_install hok hmove hr hm with ⟨hml,-⟩ | ⟨-,x,hx,rfl⟩
  · rw [contents_install hok hmove hr hm hml] at he
    exact hall l _ (mem_map_of_mem hml) e he
  · rw [contents_out hok hmove hr hx] at he
    exact hmove.all_merged hok hall e (mem_merged hr hx he)

theorem tables_other (h1 : l ≠ level) (h2 : l ≠ level+1) : (r.install s level stay).tables l = s.tables l := by
  have hlevels : (r.install s level stay).levelState.levels l = s.levelState.levels l := by
    rw [levels_install hr.levels,if_neg h2,if_neg h1]
  rw [tables,hlevels]
  exact map_congr_left (fun m hm => contents_install hok hmove hr (hlevels.symm ▸ hm) hm)

theorem tables_stay : (r.install s level stay).tables level = stay.map (contents s.readers) := by
  have hlevels : (r.install s level stay).levelState.levels level = stay := by
    rw [levels_install hr.levels,if_neg (by omega),if_pos rfl]
  rw [tables,hlevels]
  exact map_congr_left (fun m hm => contents_install hok hmove hr (hlevels.symm ▸ hm) (hmove.stay_sublist.subset hm))

theorem tables_target : ((r.install s level stay).tables (level+1)).Perm
    (r.out.map (fun x => x.2.iter) ++ r.remaining.map (contents s.readers)) := by
  have hlevels : (r.install s level stay).levelState.levels (level+1) = (r.out.map Prod.fst).foldl insertTable r.remaining := by
    rw [levels_install hr.levels,if_pos rfl]
  have hperm := (target_spec hok hmove hr).2
  have hwritten : (r.out.map Prod.fst).map (contents (r.install s level stay).readers) = r.out.map (·.2.iter) := by
    rw [List.map_map]
    exact map_congr_left (fun x hx => contents_out hok hmove hr hx)
  have hremaining : r.remaining.map (contents (r.install s level stay).readers) = r.remaining.map (contents s.readers) := by
    refine map_congr_left (fun m hm => contents_install (l := level+1) hok hmove hr ?_ ?_)
    · rw [hlevels]
      exact hperm.mem_iff.mpr (mem_append_right _ hm)
    · rw [hr.remaining] at hm
      exact mem_of_mem_filter hm
  rw [tables,hlevels,← hwritten,← hremaining,← map_append]
  exact hperm.map _

private theorem levelView_target (k : Bytes) :
    (r.install s level stay).levelView (level+1) k =
      (find k (r.out.map (fun x => x.2.iter)).flatten).or (layered (r.remaining.map (contents s.readers)) k) := by
  have hok' := ok_install hok hmove hr
  rw [levelView,newestFirst,if_neg (by omega),layered_perm (tables_target hok hmove hr)
    (pairwise_apart (hok'.reader _) (hok'.sorted _ (by omega))),layered_append,layered_eq_find_flatten]

private theorem remaining_none {e : Entry}
    (he : e ∈ s.mergedEntries top minKey maxKey (level+1)) :
    layered (r.remaining.map (contents s.readers)) e.1 = none := by
  obtain ⟨m,hm,hfirst,hlast⟩ := mem_inputs_of_entry hok hmove he
  rw [layered_eq_none_iff,List.forall_mem_map]
  intro x hx
  have hxl : x ∈ s.levelState.levels (level+1) := by
    rw [hr.remaining] at hx
    exact mem_of_mem_filter hx
  obtain ⟨table,ht⟩ := hok.reader _ x hxl
  rcases remaining_clear hok hmove hr hx with hclear | hclear
  · exact ht.find_outside (.inr ((hclear m hm).trans_le hfirst))
  · exact ht.find_outside (.inl (hlast.trans_lt (hclear m hm)))

theorem value_install (k : Bytes) : (r.install s level stay).value k = s.value k := by
  obtain ⟨hsorted,hmerged⟩ := hmove.merged_spec hok
  have habove : (range level).findSome? (fun l => (r.install s level stay).levelView l k) =
      (range level).findSome? (fun l => s.levelView l k) := by
    apply findSome?_congr
    intro l hl
    have := mem_range.mp hl
    exact levelView_congr (tables_other hok hmove hr (by omega) (by omega)) k
  have hbelow : (range' (level+2) (maxLevelCount - (level+2))).findSome? (fun l => (r.install s level stay).levelView l k) =
      (range' (level+2) (maxLevelCount - (level+2))).findSome? (fun l => s.levelView l k) := by
    apply findSome?_congr
    intro l hl
    have := (mem_range'_1.mp hl).1
    exact levelView_congr (tables_other hok hmove hr (by omega) (by omega)) k
  -- the target level before the merge
  have htarget : s.levelView (level+1) k =
      (layered (((s.levelState.levels (level+1)).filter (meets minKey maxKey)).map (contents s.readers)) k).or
        (layered (r.remaining.map (contents s.readers)) k) := by
    rw [levelView,newestFirst,if_neg (by omega),hr.remaining,← layered_append,← map_append]
    refine layered_perm (.map _ ?_) (pairwise_apart (hok.reader _) (hok.sorted _ (by omega))) k
    exact (filter_append_perm _ _).symm
  have hbefore : s.view k = ((range level).findSome? (fun l => s.levelView l k)).or
      ((layered (newestFirst (fun _ => stay.map (contents s.readers)) level) k).or
        ((find k (s.mergedEntries top minKey maxKey (level+1))).or
          ((layered (r.remaining.map (contents s.readers)) k).or
            ((range' (level+2) (maxLevelCount - (level+2))).findSome? (fun l => s.levelView l k))))) := by
    rw [view_split _ hmove.level_lt,hmove.split,htarget,hmerged]
    simp [Option.or_assoc]
  have hstay : newestFirst (r.install s level stay).tables level = newestFirst (fun _ => stay.map (contents s.readers)) level :=
    newestFirst_congr (tables_stay hok hmove hr)
  have hafter := view_split (r.install s level stay) hmove.level_lt k
  rw [habove,hbelow,levelView,hstay,levelView_target hok hmove hr,hr.entries,Option.or_assoc] at hafter
  rw [value,value,hbefore,hafter]
  cases hbottom : isBottomLevel (level+1) s.levelState with
  | false => simp only [Bool.not_false,Bool.true_or,List.filter_true]
  | true =>
    simp only [Bool.not_true,Bool.false_or]
    rw [find_filter_value hsorted isSome]
    refine join_or_filter (fun hnone => ?_)
    have hk := mem_of_find hnone
    rw [remaining_none hok hmove hr hk,bottom_none hbottom]
    rfl

end Install

/-- One compaction: a move and its merge, installed. -/
def Compacts (cfg : LsmConfig) (s s' : SstStore) : Prop :=
  ∃ level top stay minKey maxKey r, Move s level top stay minKey maxKey ∧
    merge cfg s top minKey maxKey (level+1) = some r ∧ s' = r.install s level stay

theorem Compacts.ok (h : Compacts cfg s s') (hok : s.Ok) :
    s'.Ok ∧ ∀ k, s'.value k = s.value k := by
  obtain ⟨level,top,stay,minKey,maxKey,r,hmove,hr,rfl⟩ := h
  have hmerged := merge_spec (hmove.holds_inputs hok) hr
  exact ⟨ok_install hok hmove hmerged,value_install hok hmove hmerged⟩

theorem Compacts.readers (h : Compacts cfg s s') (hok : s.Ok) :
    s.levelState.nextSstId ≤ s'.levelState.nextSstId ∧ ∀ id < s.levelState.nextSstId,
      s'.readers.lookup id = s.readers.lookup id ∨ s'.readers.lookup id = none := by
  obtain ⟨level,top,stay,minKey,maxKey,r,hmove,hr,rfl⟩ := h
  have hmerged := merge_spec (hmove.holds_inputs hok) hr
  constructor
  · change _ ≤ r.levelState.nextSstId
    rw [hmerged.nextSstId]
    omega
  · intro id hid
    rw [readers_install stay hmerged hid]
    split_ifs
    · exact .inr rfl
    · exact .inl rfl

omit [Crc32] in
private theorem foldl_least {K : Type} [LinearOrder K] [DecidableLT K] (f : SSTableMeta → K) (xs : List SSTableMeta) (k : K) :
    xs.foldl (fun k x => if f x < k then f x else k) k ≤ k ∧
      ∀ x ∈ xs, xs.foldl (fun k x => if f x < k then f x else k) k ≤ f x := by
  induction xs generalizing k with
  | nil => simp
  | cons y ys ih =>
    obtain ⟨hle,hall⟩ := ih (if f y < k then f y else k)
    have hstep : (if f y < k then f y else k) ≤ k ∧ (if f y < k then f y else k) ≤ f y := by
      split_ifs with h
      · exact ⟨h.le,le_rfl⟩
      · exact ⟨le_rfl,not_lt.mp h⟩
    rw [foldl_cons]
    refine ⟨hle.trans hstep.1,fun x hx => ?_⟩
    rcases mem_cons.mp hx with rfl | hx
    · exact hle.trans hstep.2
    · exact hall x hx

omit [Crc32] in
private theorem l0MinKey_le : ∀ x ∈ m::ms, l0MinKey m ms ≤ x.firstKey :=
  (foldl_least SSTableMeta.firstKey (m::ms) m.firstKey).2

omit [Crc32] in
private theorem le_l0MaxKey : ∀ x ∈ m::ms, x.lastKey ≤ l0MaxKey m ms :=
  (foldl_least (K := Bytesᵒᵈ) SSTableMeta.lastKey (m::ms) m.lastKey).2

omit [Crc32] in
theorem compactL0_move (hl : s.levelState.levels 0 = m::ms) :
    Move s 0 (m::ms).reverse [] (l0MinKey m ms) (l0MaxKey m ms) := by
  refine ⟨by decide,?_,nil_sublist _,by simp,?_,?_⟩
  · rw [hl]
    exact reverse_perm _
  · intro x hx
    have hx' := mem_reverse.mp hx
    exact ⟨l0MinKey_le x hx',le_l0MaxKey x hx'⟩
  · intro k
    rw [levelView,newestFirst,if_pos rfl,tables,hl,map_reverse]
    rfl

/-- One table moves down; the rest of its level has no key in common with it. -/
theorem compactLevel_move {level : Nat} (hok : s.Ok) (hlevel : 1 ≤ level ∧ level < maxLevelCount - 1)
    {picked : SSTableMeta} {rest : List SSTableMeta} (hl : s.levelState.levels level = picked::rest) :
    Move s level [picked] ((picked::rest).filter (fun m => m.id != picked.id)) picked.firstKey picked.lastKey := by
  have hsorted := hok.sorted level hlevel.1
  have hreader := hok.reader level
  rw [hl] at hsorted hreader
  have hne : ∀ m ∈ rest, m.id ≠ picked.id := by
    intro m hm heq
    have hmem : m ∈ s.levelState.levels level := by simp [hl,hm]
    obtain ⟨-,rfl⟩ := hok.unique level level m picked hmem (by simp [hl]) heq
    obtain ⟨table,ht⟩ := hok.reader level m hmem
    exact absurd (rel_of_pairwise_cons hsorted hm) (not_lt.mpr ht.first_le_last)
  have hstay : (picked::rest).filter (fun m => m.id != picked.id) = rest := by
    rw [filter_cons_of_neg (by simp),filter_eq_self]
    intro m hm
    simpa using hne m hm
  have hlevel0 : level ≠ 0 := by omega
  rw [hstay]
  refine ⟨by omega,?_,?_,?_,?_,?_⟩
  · rw [hl]
    exact perm_append_singleton picked rest
  · rw [hl]
    exact sublist_cons_self picked rest
  · intro m hm htop
    exact hne m hm (congrArg SSTableMeta.id (mem_singleton.mp htop))
  · intro m hm
    rw [mem_singleton.mp hm]
    exact ⟨le_rfl,le_rfl⟩
  · intro k
    rw [levelView,newestFirst,newestFirst,if_neg hlevel0,if_neg hlevel0,tables,hl,← layered_append,← map_append]
    exact layered_perm (.map _ (perm_append_singleton picked rest).symm) (pairwise_apart hreader hsorted) k

theorem compactL0_spec (h : compactL0 cfg s = some s') : s' = s ∨ Compacts cfg s s' := by
  unfold compactL0 at h
  cases hl : s.levelState.levels 0 with
  | nil =>
    rw [hl] at h
    exact .inl (some.inj h).symm
  | cons m ms =>
    simp only [hl] at h
    obtain ⟨r,hr,rfl⟩ := map_eq_some_iff.mp h
    exact .inr ⟨0,_,_,_,_,r,compactL0_move hl,hr,rfl⟩

theorem compactLevel_spec {level : Nat} (hok : s.Ok)
    (h : compactLevel cfg level s = some s') : s' = s ∨ Compacts cfg s s' := by
  unfold compactLevel at h
  split_ifs at h with hlevel
  cases hl : s.levelState.levels level with
  | nil =>
    simp only [hl] at h
    exact .inl (some.inj h).symm
  | cons picked rest =>
    simp only [hl] at h
    obtain ⟨r,hr,rfl⟩ := map_eq_some_iff.mp h
    exact .inr ⟨level,_,_,_,_,r,compactLevel_move hok hlevel hl,hr,rfl⟩

/-- Stores between the compactions of a cascade. -/
inductive Cascade (cfg : LsmConfig) (s : SstStore) : SstStore → Prop
  | refl : Cascade cfg s s
  | l0 {a b : SstStore} (h : Cascade cfg s a) (hc : compactL0 cfg a = some b) : Cascade cfg s b
  | level {a b : SstStore} {l : Nat} (h : Cascade cfg s a) (hc : compactLevel cfg l a = some b) : Cascade cfg s b

theorem Cascade.compactLevels {ls : List Nat} {a b : SstStore} (ha : Cascade cfg s a)
    (h : SstStore.compactLevels cfg ls a = some b) : Cascade cfg s b := by
  induction ls generalizing a with
  | nil =>
    cases h
    exact ha
  | cons l ls ih =>
    rw [SstStore.compactLevels] at h
    split_ifs at h
    · cases hc : compactLevel cfg l a with
      | none => simp [hc] at h
      | some c =>
        simp only [hc] at h
        exact ih (.level ha hc) h
    · exact ih ha h

theorem Cascade.of_l0 {n : Nat} (h : (if n ≤ (s.levelState.levels 0).length then compactL0 cfg s else some s) = some s') :
    Cascade cfg s s' := by
  split_ifs at h
  · exact .l0 .refl h
  · cases h
    exact .refl

theorem cascade_maybeCompact (h : maybeCompact cfg s = some s') : Cascade cfg s s' := by
  obtain ⟨m,hm,hrest⟩ := bind_eq_some_iff.mp h
  exact (Cascade.of_l0 hm).compactLevels hrest

/-- What every compaction keeps holds after a cascade of them. -/
theorem Cascade.induction {P : SstStore → Prop}
    (hstep : ∀ s s', s.Ok → P s → Compacts cfg s s' → P s') (h : Cascade cfg s s') (hok : s.Ok) (hs : P s) :
    s'.Ok ∧ P s' := by
  have hlift : ∀ {a b : SstStore}, a.Ok ∧ P a → (b = a ∨ Compacts cfg a b) → b.Ok ∧ P b := by
    rintro a b ⟨hok,ha⟩ (rfl | hc)
    · exact ⟨hok,ha⟩
    · exact ⟨(hc.ok hok).1,hstep a b hok ha hc⟩
  induction h with
  | refl => exact ⟨hok,hs⟩
  | l0 _ hc ih => exact hlift ih (compactL0_spec hc)
  | level _ hc ih => exact hlift ih (compactLevel_spec ih.1 hc)

theorem Cascade.value (h : Cascade cfg s s') (hok : s.Ok) :
    s'.Ok ∧ ∀ k, s'.value k = s.value k :=
  h.induction (P := fun a => ∀ k, a.value k = s.value k)
    (fun _ _ ha hvalue hc k => ((hc.ok ha).2 k).trans (hvalue k)) hok (fun _ => rfl)

theorem Cascade.nextSstId_le (h : Cascade cfg s s') (hok : s.Ok) : s.levelState.nextSstId ≤ s'.levelState.nextSstId :=
  (h.induction (P := fun a => s.levelState.nextSstId ≤ a.levelState.nextSstId)
    (fun _ _ ha hle hc => hle.trans (hc.readers ha).1) hok le_rfl).2

theorem maybeCompact_value (hok : s.Ok) (h : maybeCompact cfg s = some s') :
    s'.Ok ∧ ∀ k, s'.value k = s.value k :=
  (cascade_maybeCompact h).value hok

end SstStore
end InterchangeDb
