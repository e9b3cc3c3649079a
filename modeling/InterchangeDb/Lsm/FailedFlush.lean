import InterchangeDb.Lsm.Refinement

/-! Flushes that fail at a file operation. The frozen memtable stays and answers before every table. -/
namespace InterchangeDb
open List Option

/-- The file operation at which a compaction fails. -/
inductive CompactionFault where
  /-- An input table cannot be read. -/
  | reading
  /-- The table of a batch cannot be written. -/
  | writing (batch : Nat)
  /-- The manifest lines of the merge are written up to a character. -/
  | logging (written : Nat)
  /-- The reader of an output table cannot be opened, after those of the inputs have been closed. -/
  | opening (opened : Nat)
  deriving DecidableEq, Repr

/-- The file operation at which a flush fails. -/
inductive FlushFault where
  | table
  /-- The table is there; its manifest line is written up to a character, or its reader cannot be opened. -/
  | manifest (written : Nat)
  | compaction (level : Nat) (fault : CompactionFault)
  deriving DecidableEq, Repr

/-- The fault of a compaction that has closed the readers of its inputs. -/
def FlushFault.closesReaders : FlushFault → Bool
  | .compaction _ (.opening _) => true
  | _ => false

namespace SstStore
variable [Crc32] {s s' : SstStore} {cfg : LsmConfig}

/-- A merge that fails: ids stay allocated and files written, the levels are as before. -/
def failMerge (cfg : LsmConfig) (s : SstStore) (top : List SSTableMeta) (minKey maxKey : Bytes) (target : Nat) :
    CompactionFault → Option SstStore
  | .reading => some s
  | .writing batch =>
    let todo := mergeBatches cfg s top minKey maxKey target
    if batch < todo.length then
      (flushBatches (todo.take batch) s.levelState).bind (fun r => r.2.nextId.map (fun x =>
        { s with levelState := x.2, files := r.1.foldl (fun m x => m.insert x.1.id x.2) s.files }))
    else none
  | .logging n =>
    (merge cfg s top minKey maxKey target).map (fun r =>
      { s with levelState := r.levelState, files := r.files s, manifest := s.manifest ++ (r.lines target).take n })
  | .opening n =>
    (merge cfg s top minKey maxKey target).map (fun r =>
      { levelState := r.levelState
        files := r.files s
        manifest := s.manifest ++ r.lines target
        readers := (r.out.take n).foldl (fun m x => m.insert x.1.id x.2) (r.ids.foldl (fun m id => m.erase id) s.readers) })

def failCompact (cfg : LsmConfig) (s : SstStore) (level : Nat) (fault : CompactionFault) : Option SstStore :=
  match s.levelState.levels level with
  | [] => none
  | m::ms =>
    if level = 0 then failMerge cfg s (m::ms).reverse (l0MinKey m ms) (l0MaxKey m ms) 1 fault
    else failMerge cfg s [m] m.firstKey m.lastKey (level+1) fault

/-- The compaction of one level is due and fails; those of the levels above it have completed. -/
def failMaybeCompact (cfg : LsmConfig) (s : SstStore) (level : Nat) (fault : CompactionFault) : Option SstStore :=
  if level = 0 then
    if cfg.maxL0SstableCount ≤ (s.levelState.levels 0).length then failCompact cfg s 0 fault else none
  else if level < maxLevelCount - 1 then
    ((if cfg.maxL0SstableCount ≤ (s.levelState.levels 0).length then compactL0 cfg s else some s).bind
      (compactLevels cfg (List.range' 1 (level-1)))).bind (fun s =>
        if levelSizeLimit cfg level < s.levelState.levelSize level then failCompact cfg s level fault else none)
  else none

private theorem ok_allocated (hok : s.Ok) (hlevels : s'.levelState.levels = s.levelState.levels) (hreaders : s'.readers = s.readers)
    (hnext : s.levelState.nextSstId ≤ s'.levelState.nextSstId) (hmax : s'.levelState.nextSstId ≤ u64Max)
    (hfiles : ∀ id < s.levelState.nextSstId, s'.files.lookup id = s.files.lookup id) : s'.Ok := by
  refine ⟨?_,?_,?_,?_,?_,?_,hmax⟩ <;> simp only [hlevels,hreaders]
  · exact hok.reader
  · exact fun l m hm => (hfiles m.id (hok.bound l m hm)).trans (hok.file l m hm)
  · exact hok.unique
  · exact fun l m hm => (hok.bound l m hm).trans_le hnext
  · exact hok.sorted
  · exact hok.deep

/-- What a failed compaction leaves: a sound store with the values it had. -/
private structure Left (s s' : SstStore) : Prop where
  ok : s'.Ok
  nextSstId : s.levelState.nextSstId ≤ s'.levelState.nextSstId
  value : ∀ k, s'.value k = s.value k

private theorem Left.of_allocated (hok : s.Ok) {out : List (SSTableMeta × SSTable)} {state : LevelState} {manifest : List Char}
    (hlevels : state.levels = s.levelState.levels) (hnext : s.levelState.nextSstId ≤ state.nextSstId)
    (hmax : state.nextSstId ≤ u64Max) (hout : ∀ x ∈ out, s.levelState.nextSstId ≤ x.1.id) :
    Left s ⟨state,s.readers,manifest,out.foldl (fun m x => m.insert x.1.id x.2) s.files⟩ := by
  refine ⟨ok_allocated hok hlevels rfl hnext hmax (fun id hid => ?_),hnext,fun k => ?_⟩
  · refine lookup_foldl_insert_of_notMem (fun x : SSTableMeta × SSTable => x.1.id) (·.2) (fun hmem => ?_)
    obtain ⟨x,hx,rfl⟩ := mem_map.mp hmem
    exact absurd hid (not_lt.mpr (hout x hx))
  · exact congrArg join (view_congr hlevels (by rfl) k)

private theorem failMerge_left {level : Nat} {top stay : List SSTableMeta} {minKey maxKey : Bytes} {fault : CompactionFault}
    (hok : s.Ok) (hmove : Move s level top stay minKey maxKey) (hopen : ∀ n, fault ≠ .opening n)
    (h : failMerge cfg s top minKey maxKey (level+1) fault = some s') : Left s s' := by
  cases fault with
  | reading =>
    cases h
    exact ⟨hok,le_rfl,fun _ => rfl⟩
  | writing batch =>
    simp only [failMerge] at h
    split_ifs at h
    obtain ⟨r,hr,hid⟩ := bind_eq_some_iff.mp h
    obtain ⟨x,hx,rfl⟩ := map_eq_some_iff.mp hid
    obtain ⟨-,hbatch,-⟩ := mergeBatches_spec (hmove.holds_inputs hok) cfg
    obtain ⟨-,hlevels,hnext,hids,-⟩ := flushBatches_spec (fun b hb => hbatch b (mem_of_mem_take hb)) hr
    unfold LevelState.nextId at hx
    split_ifs at hx with hmax
    cases hx
    refine .of_allocated hok hlevels ?_ hmax (fun y hy => ?_)
    · change _ ≤ r.2.nextSstId + 1
      omega
    · have hmem := mem_map_of_mem (f := fun x : SSTableMeta × SSTable => x.1.id) hy
      rw [hids] at hmem
      exact (mem_range'_1.mp hmem).1
  | logging n =>
    obtain ⟨r,hr,rfl⟩ := map_eq_some_iff.mp h
    have hmerged := merge_spec (hmove.holds_inputs hok) hr
    have hnext := hmerged.nextSstId
    exact .of_allocated hok hmerged.levels (by omega) (hmerged.idMax hok.idMax) (fun x hx => (outId_bounds hmerged hx).1)
  | opening n => exact absurd rfl (hopen n)

private theorem failCompact_left {level : Nat} {fault : CompactionFault} (hok : s.Ok) (hlevel : level < maxLevelCount - 1)
    (hopen : ∀ n, fault ≠ .opening n) (h : failCompact cfg s level fault = some s') : Left s s' := by
  unfold failCompact at h
  cases hl : s.levelState.levels level with
  | nil => simp [hl] at h
  | cons m ms =>
    simp only [hl] at h
    split_ifs at h with h0
    · subst h0
      exact failMerge_left hok (compactL0_move hl) hopen h
    · exact failMerge_left hok (compactLevel_move hok ⟨by omega,hlevel⟩ hl) hopen h

private theorem failMaybeCompact_left {level : Nat} {fault : CompactionFault} (hok : s.Ok) (hopen : ∀ n, fault ≠ .opening n)
    (h : failMaybeCompact cfg s level fault = some s') : Left s s' := by
  unfold failMaybeCompact at h
  by_cases h0 : level = 0
  · subst h0
    rw [if_pos rfl] at h
    split_ifs at h
    exact failCompact_left hok (by decide) hopen h
  rw [if_neg h0] at h
  by_cases hlevel : level < maxLevelCount - 1
  · rw [if_pos hlevel] at h
    obtain ⟨a,ha,hfail⟩ := bind_eq_some_iff.mp h
    obtain ⟨b,hb,hlevels⟩ := bind_eq_some_iff.mp ha
    split_ifs at hfail
    have hc := (Cascade.of_l0 hb).compactLevels hlevels
    obtain ⟨haok,hvalue⟩ := hc.value hok
    have hleft := failCompact_left haok hlevel hopen hfail
    exact ⟨hleft.ok,(hc.nextSstId_le hok).trans hleft.nextSstId,fun k => (hleft.value k).trans (hvalue k)⟩
  · rw [if_neg hlevel] at h
    cases h

end SstStore

namespace LsmTree
variable [Crc32] {t t' : LsmTree} {e : Engine} {cfg : LsmConfig} {force : Bool} {fault : FlushFault}
open SstStore

/-- A flush that fails after it has frozen the memtable; a flush with nothing to do touches no file. -/
def failFlush (cfg : LsmConfig) (force : Bool) (t : LsmTree) (fault : FlushFault) : Option LsmTree :=
  match freeze cfg force t with
  | none | some (none,_) => none
  | some (some (sstId,frozen),t) =>
    match fault with
    | .table => some t
    | .manifest n =>
      match SSTable.write sstId frozen.entries with
      | none | some none => none
      | some (some (m,table)) =>
        some { t with store :=
          { t.store with files := t.store.files.insert m.id table, manifest := t.store.manifest ++ (Manifest.addLine 0 m).take n } }
    | .compaction level fault =>
      match writeFrozen t sstId frozen with
      | none | some (none,_) => none
      | some (some (m,table),t) =>
        (failMaybeCompact cfg (t.store.publish m table) level fault).map (fun s => { t with store := s })

/-- A call with the fault of its flush, if that fails. -/
def stepWith (cfg : LsmConfig) (t : LsmTree) : LsmOp × Option FlushFault → Option LsmTree
  | (op,none) => t.step cfg op
  | (op,some fault) =>
    if t.flushes cfg op then failFlush cfg (decide (op = .flushMemtable)) (t.written op) fault else none

private theorem Stands.frozen (h : t.Stands e) {i : Nat} (hid : i < t'.store.levelState.nextSstId) (hok : t'.store.Ok)
    (hnext : t.store.levelState.nextSstId ≤ t'.store.levelState.nextSstId) (hnew : t'.memtable = .new)
    (himm : t'.immutableMemtables = t.immutableMemtables ++ [(i,t.memtable.entries)])
    (hvalue : ∀ k, t.memtable.entries.get k = none → t'.store.value k = t.store.value k) : t'.Stands e := by
  refine ⟨hok,?_,fun k => ?_⟩
  · rw [himm]
    intro imm hm
    rcases mem_append.mp hm with hm | hm
    · exact (h.fresh imm hm).trans_le hnext
    · rw [mem_singleton.mp hm]
      exact hid
  · rw [← h.value,value_eq,value_eq,findInMemory_freeze hnew himm]
    cases hfind : t.findInMemory k with
    | some entry => rfl
    | none => exact hvalue k (or_eq_none_iff.mp hfind).1

/-- A failed flush that has closed no reader keeps the value of every key. -/
theorem Stands.failFlush (h : t.Stands e) (hopen : fault.closesReaders = false)
    (hf : failFlush cfg force t fault = some t') : t'.Stands e := by
  unfold LsmTree.failFlush at hf
  cases hfreeze : freeze cfg force t with
  | none => simp [hfreeze] at hf
  | some x =>
    obtain ⟨x,a⟩ := x
    rcases freeze_spec h.ok hfreeze with ⟨rfl,-⟩ | ⟨rfl,hfreezes⟩
    · simp [hfreeze] at hf
    simp only [hfreeze] at hf
    obtain ⟨-,hnew,himm,haok,hnext,hlevels,hreaders,-,-,hfresh⟩ := id hfreezes
    have hview : ∀ k, a.store.view k = t.store.view k := view_congr hlevels hreaders
    cases fault with
    | table =>
      cases hf
      exact h.frozen (by omega) haok (by omega) hnew himm (fun k _ => by rw [SstStore.value,SstStore.value,hview])
    | manifest n =>
      cases hw : SSTable.write t.store.levelState.nextSstId t.memtable.entries.entries with
      | none => simp [hw] at hf
      | some w =>
        cases w with
        | none => simp [hw] at hf
        | some w =>
          simp only [hw,some.injEq] at hf
          obtain ⟨-,-,hid,-⟩ := SSTable.write_eq_some t.memtable.entries.sorted hw
          subst hf
          refine h.frozen (i := t.store.levelState.nextSstId) (by dsimp only; omega) ?_ (by dsimp only; omega) hnew himm (fun k _ => ?_)
          · refine ⟨haok.reader,fun l x hx => ?_,haok.unique,haok.bound,haok.sorted,haok.deep,haok.idMax⟩
            rw [← haok.file l x hx]
            exact AList.lookup_insert_ne (hid ▸ hfresh l x hx)
          · rw [SstStore.value,SstStore.value,← hview]
            rfl
    | compaction level fault =>
      cases hw : writeFrozen a t.store.levelState.nextSstId t.memtable.entries with
      | none => simp [hw] at hf
      | some w =>
        obtain ⟨w,b⟩ := w
        obtain ⟨w,rfl,hwrite,rfl⟩ := writeFrozen_spec hfreezes.filled hw
        simp only [hw] at hf
        obtain ⟨s,hs,rfl⟩ := map_eq_some_iff.mp hf
        obtain ⟨-,hpub,hpview⟩ := hfreezes.published hwrite
        have hleft := failMaybeCompact_left hpub (fun n hn => by simp [hn,FlushFault.closesReaders] at hopen) hs
        have hle : a.store.levelState.nextSstId ≤ s.levelState.nextSstId := hleft.nextSstId
        refine h.frozen (by dsimp only; omega) hleft.ok (by dsimp only; omega) hnew himm (fun k hk => ?_)
        rw [hleft.value,SstStore.value,hpview,hk,none_or]
        rfl

/-- The flush of a call may fail with all readers in place, or complete with no key of its memtable in a frozen memtable that
an earlier one left behind. -/
def Kept (cfg : LsmConfig) (t : LsmTree) (call : LsmOp × Option FlushFault) : Prop :=
  match call.2 with
  | some fault => fault.closesReaders = false
  | none => t.flushes cfg call.1 = true → (t.written call.1).Unshadowed

instance (cfg : LsmConfig) (t : LsmTree) (call : LsmOp × Option FlushFault) : Decidable (t.Kept cfg call) := by
  unfold Kept Unshadowed
  cases call.2 <;> infer_instance

theorem Stands.stepWith {call : LsmOp × Option FlushFault} (h : t.Stands e) (hkept : t.Kept cfg call)
    (hstep : stepWith cfg t call = some t') : t'.Stands (call.1.apply e) := by
  obtain ⟨op,fault⟩ := call
  cases fault with
  | none => exact (h.step hkept hstep).1
  | some fault =>
    simp only [LsmTree.stepWith] at hstep
    split_ifs at hstep
    exact (h.written op).failFlush hkept hstep

/-- From a tree that stands for a map, through any writes and flushes, failed or completed, point lookups and scans return the
last write of every key, if no flush fails with readers closed and none completes over a frozen memtable with a key of its own. -/
theorem failed_flush_keeps_writes (cfg : LsmConfig) (h : t.Stands e) {calls : List (LsmOp × Option FlushFault)}
    (hkept : AllSteps (stepWith cfg) (Kept cfg) t calls) (hrun : run (stepWith cfg) t calls = some t') :
    (∀ k, t'.get k = some ((calls.foldl (fun e call => call.1.apply e) e).get k)) ∧
    ∀ lo hi, wellFormedRange lo hi = true → t'.scan lo hi = some ((calls.foldl (fun e call => call.1.apply e) e).scan lo hi) := by
  have hstands := run_follows (R := Stands) hrun hkept h (fun _ _ _ _ h => h.stepWith)
  exact ⟨hstands.get_eq,fun lo hi => hstands.scan_eq⟩

end LsmTree

/-- A flush fails twice and then completes for other keys. -/
theorem LsmTree.failed_flush_keeps_writes_retried :
    (run (stepWith (.default 4194304)) .new [(.put [1] [7],none),(.flushMemtable,some .table),(.put [2] [8],none),
      (.flushMemtable,some (.manifest 3)),(.put [3] [9],none),(.flushMemtable,none)]).bind (fun t => t.get [1]) = some (some [7]) := by
  have hkept : AllSteps (stepWith (.default 4194304)) (Kept (.default 4194304)) .new [(.put [1] [7],none),(.flushMemtable,some .table),
      (.put [2] [8],none),(.flushMemtable,some (.manifest 3)),(.put [3] [9],none),(.flushMemtable,none)] := by decide +kernel
  have hrun : (run (stepWith (.default 4194304)) .new [(.put [1] [7],none),(.flushMemtable,some .table),(.put [2] [8],none),
      (.flushMemtable,some (.manifest 3)),(.put [3] [9],none),(.flushMemtable,none)]).isSome = true := by decide +kernel
  obtain ⟨t,ht⟩ := isSome_iff_exists.mp hrun
  rw [ht]
  exact (failed_flush_keeps_writes _ refines_new.stands hkept ht).1 [1]

/-- A flush fails, the key is written again and the next flush completes: the frozen memtable hides the new value.
A compaction that cannot open its output loses the keys of its inputs. -/
theorem LsmTree.failed_flush_hides_write :
    (run (stepWith (.default 4194304)) .new [(.put [1] [7],none),(.flushMemtable,some .table),(.put [1] [8],none),
      (.flushMemtable,none)]).bind (fun t => t.get [1]) = some (some [7]) ∧
    (run (stepWith (.default 4194304)) .new [(.put [1] [7],none),(.flushMemtable,none),(.put [2] [7],none),(.flushMemtable,none),
      (.put [3] [7],none),(.flushMemtable,none),(.put [4] [7],none),(.flushMemtable,some (.compaction 0 (.opening 0)))]).bind
        (fun t => t.get [1]) = some none := by
  constructor <;> decide +kernel

end InterchangeDb
