import InterchangeDb.Lsm.Mirror
import InterchangeDb.Lsm.Refinement

/-! Reopening lists the tables of a level by id: a level with another key order is misread by point lookups. -/
namespace InterchangeDb
open List Option
namespace SstStore
variable [Crc32]
variable {files : SSTables}

omit [Crc32] in
theorem lookup_openReaders {ms : List SSTableMeta} {m : SSTableMeta} (hm : m ∈ ms)
    {table : SSTable} (hf : files.lookup m.id = some table) : (openReaders files ms).lookup m.id = some table := by
  have hfold : ∀ (ms : List SSTableMeta) (acc : SSTables),
      (acc.lookup m.id = some table ∨ m ∈ ms) →
        (ms.foldl (fun readers m => (files.lookup m.id).elim readers (fun t => readers.insert m.id t)) acc).lookup m.id = some table := by
    intro ms
    induction ms with
    | nil =>
      intro acc h
      exact h.resolve_right not_mem_nil
    | cons x ms ih =>
      intro acc h
      rw [foldl_cons]
      apply ih
      by_cases hx : x.id = m.id
      · left
        rw [hx,hf]
        exact AList.lookup_insert _
      · rcases h with h | h
        · left
          cases files.lookup x.id with
          | none => exact h
          | some t => exact (AList.lookup_insert_ne (Ne.symm hx)).trans h
        · rcases mem_cons.mp h with rfl | h
          · exact (hx rfl).elim
          · exact .inr h
  exact hfold ms ∅ (.inr hm)

/-- A store opened from a manifest that mirrors its levels, where key order is the order of ids. -/
theorem openStore_spec {s : SstStore} (hok : s.Ok) (horder : s.levelState.IdOrder) {manifest : List Char}
    {logged : LevelState} (hopen : Manifest.openFile manifest = some (.ok logged)) (hmirror : Mirrors logged s.levelState)
    (hfiles : ∀ l, ∀ m ∈ s.levelState.levels l, files.lookup m.id = s.readers.lookup m.id) :
    ∃ s', openStore manifest files = some (.ok s') ∧ s'.levelState = logged ∧ s'.manifest = manifest ∧
      s'.levelState.levels = s.levelState.levels ∧ s'.Ok ∧ (∀ k, s'.view k = s.view k) ∧ ∀ P, s.All P → s'.All P := by
  have hlevels := hmirror.levels_eq horder hok.deep
  have hnamed : ∀ l, ∀ m ∈ s.levelState.levels l, m ∈ (range maxLevelCount).flatMap logged.levels := by
    intro l m hm
    have hl : l < maxLevelCount := by
      by_contra hge
      rw [hok.deep l (by omega)] at hm
      cases hm
    exact mem_flatMap.mpr ⟨l,mem_range.mpr hl,hlevels ▸ hm⟩
  have hreader : ∀ l, ∀ m ∈ s.levelState.levels l,
      (openReaders files ((range maxLevelCount).flatMap logged.levels)).lookup m.id = s.readers.lookup m.id := by
    intro l m hm
    obtain ⟨table,ht⟩ := hok.reader l m hm
    rw [ht.lookup]
    exact lookup_openReaders (hnamed l m hm) ((hfiles l m hm).trans ht.lookup)
  refine ⟨⟨logged,openReaders files ((range maxLevelCount).flatMap logged.levels),manifest,files⟩,
    by rw [openStore,hopen]; rfl,rfl,rfl,hlevels,?_,?_,?_⟩
  all_goals generalize openReaders files ((range maxLevelCount).flatMap logged.levels) = readers at hreader ⊢
  all_goals
    have htables : SstStore.tables ⟨logged,readers,manifest,files⟩ = s.tables := by
      funext l
      rw [tables,tables,hlevels]
      exact map_congr_left (fun m hm => by rw [contents,contents,hreader l m hm])
  · refine ⟨?_,?_,?_,?_,?_,?_,hmirror.next.trans hok.idMax⟩ <;> dsimp only <;> rw [hlevels]
    · intro l m hm
      obtain ⟨table,ht⟩ := hok.reader l m hm
      exact ⟨table,(hreader l m hm).trans ht.lookup,ht.sound,ht.firstKey,ht.lastKey⟩
    · intro l m hm
      rw [hreader l m hm]
      exact hfiles l m hm
    · exact hok.unique
    · intro l m hm
      exact hmirror.bound l m (hlevels ▸ hm)
    · exact hok.sorted
    · exact hok.deep
  · intro k
    simp only [view,levelView,htables]
  · intro P hall l
    rw [htables]
    exact hall l

omit [Crc32] in
theorem logged_publish {s : SstStore} {m : SSTableMeta} (table : SSTable) (h : s.Logged) (hmax : s.levelState.nextSstId ≤ u64Max)
    (hid : m.id < s.levelState.nextSstId) (hfirst : m.firstKey ≠ []) (hlast : m.lastKey ≠ [])
    (hsizes : m.fileSize < 2^64 ∧ m.entryCount < 2^64) : ((s.logFlushed m table).publish m table).Logged := by
  obtain ⟨hcomplete,logged,hopen,hmirror⟩ := h
  have hvalid : (Manifest.Edit.add 0 m).Valid := ⟨by decide,hid.trans_le (hmax.trans (by decide)),hfirst,hlast,hsizes⟩
  obtain ⟨hcomplete',hopen'⟩ := Manifest.openFile_edits hcomplete hopen (by simpa using hvalid : ∀ e ∈ [Manifest.Edit.add 0 m], e.Valid)
  rw [flatMap_singleton] at hcomplete' hopen'
  exact ⟨hcomplete',_,hopen',.publish (s := s.logFlushed m table) hmirror hid⟩

end SstStore

namespace LsmTree
variable [Crc32]
open SstStore
variable {cfg : LsmConfig} {t t' : LsmTree}

/-- What survives in the manifest and the files: the manifest is in step and no key is empty. -/
structure Durable (t : LsmTree) : Prop where
  logged : t.store.Logged
  full : t.store.KeysFull
  keys : ∀ e ∈ t.memtable.entries.entries, e.1 ≠ []

omit [Crc32] in
theorem durable_new : LsmTree.new.Durable := by
  refine ⟨logged_new,fun l m hm => ?_,fun e he => ?_⟩
  · cases hm
  · cases he

theorem flushed_logged {a : LsmTree} {m : SSTableMeta} {table : SSTable} (hd : t.Durable) (hf : t.Freezes a)
    (hw : SSTable.write t.store.levelState.nextSstId t.memtable.entries.entries = some (some (m,table))) :
    ((a.store.logFlushed m table).publish m table).Logged ∧ ((a.store.logFlushed m table).publish m table).KeysFull := by
  obtain ⟨hsound,hiter,hmid,hfirst,hlast⟩ := SSTable.write_eq_some t.memtable.entries.sorted hw
  have htable : ∀ e ∈ table.iter, e.1 ≠ [] := by
    rw [hiter]
    exact hd.keys
  have halog : a.store.Logged := by
    obtain ⟨hcomplete,logged,hopen,hmirror⟩ := hd.logged
    rw [Logged,hf.manifest]
    refine ⟨hcomplete,logged,hopen,?_,?_,hmirror.order,?_,hmirror.bound⟩
    · rw [hf.levels]
      exact hmirror.zero
    · rw [hf.levels]
      exact hmirror.perm
    · exact hmirror.next.trans (hf.nextSstId.symm ▸ Nat.le_succ _)
  have hafull : a.store.KeysFull := by
    intro l
    rw [tables_congr hf.levels hf.readers]
    exact hd.full l
  obtain ⟨x,hx,hxk⟩ := hsound.firstKey_mem
  obtain ⟨y,hy,hyk⟩ := hsound.lastKey_mem
  refine ⟨logged_publish table halog hf.ok.idMax (by rw [hmid,hf.nextSstId]; exact Nat.lt_succ_self _) ?_ ?_ (SSTable.write_sizes hw),
    all_publish (s := a.store.logFlushed m table) (hmid ▸ hf.fresh) hafull htable⟩
  · rw [hfirst,← hxk]
    exact htable x hx
  · rw [hlast,← hyk]
    exact htable y hy

theorem flush_durable {force : Bool} (hok : t.store.Ok) (hd : t.Durable)
    (h : flush cfg force t = some t') : t'.Durable := by
  rcases flush_eq_some hok h with rfl | ⟨a,m,table,s,hf,hwrite,hs,rfl⟩
  · exact hd
  · obtain ⟨hplog,hpfull⟩ := flushed_logged hd hf hwrite
    obtain ⟨-,hpub,-⟩ := hf.published hwrite
    obtain ⟨-,hslog,hsfull⟩ := (cascade_maybeCompact hs).logged hpub hplog hpfull
    refine ⟨hslog,hsfull,?_⟩
    change ∀ e ∈ a.memtable.entries.entries, e.1 ≠ []
    rw [hf.emptied]
    intro e he
    cases he

private theorem flushIfOver_durable (hok : t.store.Ok) (hd : t.Durable)
    (h : flushIfOver cfg t = some t') : t'.Durable := by
  unfold flushIfOver at h
  split_ifs at h
  · exact flush_durable hok hd h
  · cases h
    exact hd

omit [Crc32] in
private theorem durable_write (hd : t.Durable) {m : Memtable} {key : Bytes} {entry : Option Bytes}
    (hm : m.entries = t.memtable.entries.insert key entry) (hkey : key ≠ []) : Durable { t with memtable := m } := by
  refine ⟨hd.logged,hd.full,fun e he => ?_⟩
  change e ∈ m.entries.entries at he
  rw [hm] at he
  rcases OrdMap.mem_insert he with rfl | he
  · exact hkey
  · exact hd.keys e he

end LsmTree

/-- A write does not use the empty key. -/
def LsmOp.KeyFull : LsmOp → Prop
  | .put key _ | .delete key => key ≠ []
  | .flushMemtable | .compactL0 | .compactLevel _ => True

instance (op : LsmOp) : Decidable op.KeyFull := by
  cases op <;> unfold LsmOp.KeyFull <;> infer_instance

namespace LsmTree
variable [Crc32]
open SstStore

theorem step_durable {cfg : LsmConfig} {t t' : LsmTree} {op : LsmOp} (hok : t.store.Ok) (hd : t.Durable) (hkey : op.KeyFull)
    (h : LsmTree.step cfg t op = some t') : t'.Durable := by
  have hcompact : ∀ {s : SstStore}, (s = t.store ∨ Compacts cfg t.store s) → Durable { t with store := s } := by
    intro s hs
    rcases hs with rfl | hc
    · exact hd
    · obtain ⟨hlogged,hfull⟩ := hc.logged hok hd.full hd.logged
      exact ⟨hlogged,hfull,hd.keys⟩
  cases op with
  | put key value => exact flushIfOver_durable (t := { t with memtable := t.memtable.put key value }) hok (durable_write hd rfl hkey) h
  | delete key => exact flushIfOver_durable (t := { t with memtable := t.memtable.delete key }) hok (durable_write hd rfl hkey) h
  | flushMemtable => exact flush_durable hok hd h
  | compactL0 =>
    obtain ⟨s,hs,rfl⟩ := map_eq_some_iff.mp h
    exact hcompact (compactL0_spec hs)
  | compactLevel level =>
    obtain ⟨s,hs,rfl⟩ := map_eq_some_iff.mp h
    exact hcompact (compactLevel_spec hok hs)

/-- Reopening a flushed tree whose levels stand in the order of their ids. -/
theorem reopen_spec {t : LsmTree} {e : Engine} (h : t.Refines e) (hd : t.Durable) (hflushed : t.memtable.entries.entries = [])
    (horder : t.store.levelState.IdOrder) :
    ∃ t', openTree t.store.manifest t.store.files = some (.ok t') ∧ t'.Refines e ∧ t'.Durable ∧
      t'.store.levelState.levels = t.store.levelState.levels := by
  obtain ⟨hcomplete,logged,hopen,hmirror⟩ := hd.logged
  obtain ⟨s,hs,hstate,hmanifest,hlevels,hok,hview,hall⟩ := openStore_spec h.ok horder hopen hmirror h.ok.file
  refine ⟨⟨.new,[],s⟩,by rw [openTree,hs]; rfl,⟨hok,rfl,fun k => ?_⟩,⟨?_,hall _ hd.full,fun e he => ?_⟩,hlevels⟩
  · have hmem : t.findInMemory k = none := by
      simp [findInMemory,h.idle,OrdMap.get,hflushed,OrdMap.find]
    rw [← h.value,value,value,hmem,← hview]
    rfl
  · refine ⟨?_,logged,?_,?_⟩
    · rw [hmanifest]
      exact hcomplete
    · rw [hmanifest]
      exact hopen
    · rw [hstate]
      exact hmirror.refl_of_order
  · cases he

end LsmTree

inductive LsmEvent where
  | op (o : LsmOp)
  | reopen
  deriving DecidableEq, Repr

def LsmEvent.apply (e : Engine) : LsmEvent → Engine
  | .op o => o.apply e
  | .reopen => e

namespace LsmTree
variable [Crc32]
open SstStore

/-- A tree that cannot be opened has no next state. -/
def stepEvent (cfg : LsmConfig) (t : LsmTree) : LsmEvent → Option LsmTree
  | .op o => t.step cfg o
  | .reopen => (openTree t.store.manifest t.store.files).bind (fun r => r.toOption)

instance (s : LevelState) : Decidable s.IdOrder :=
  inferInstanceAs (Decidable (∀ l, 1 ≤ l → l < maxLevelCount → (s.levels l).Pairwise (fun a b => a.id < b.id)))

/-- Everything is flushed when the tree is closed, the levels stand in the order of their ids
then, and no write uses the empty key. -/
def ReopenSafe (t : LsmTree) : LsmEvent → Prop
  | .op o => o.KeyFull
  | .reopen => t.memtable.entries.entries = [] ∧ t.store.levelState.IdOrder

instance (t : LsmTree) (ev : LsmEvent) : Decidable (ReopenSafe t ev) := by
  cases ev <;> unfold ReopenSafe <;> infer_instance

theorem events_run {cfg : LsmConfig} {events : List LsmEvent} {t t' : LsmTree} {e : Engine} (h : t.Refines e)
    (hd : t.Durable) (hsafe : AllSteps (stepEvent cfg) ReopenSafe t events) (hrun : run (stepEvent cfg) t events = some t') :
    t'.Refines (events.foldl LsmEvent.apply e) ∧ t'.Durable := by
  refine run_follows (R := fun t e => t.Refines e ∧ t.Durable) hrun hsafe ⟨h,hd⟩ (fun t e ev t' h hsafe hstep => ?_)
  cases ev with
  | op o => exact ⟨h.1.step hstep,step_durable h.1.ok h.2 hsafe hstep⟩
  | reopen =>
    obtain ⟨a,ha,hrefines,hdurable,-⟩ := reopen_spec h.1 h.2 hsafe.1 hsafe.2
    rw [stepEvent,ha] at hstep
    cases hstep
    exact ⟨hrefines,hdurable⟩

/-- In a run of operations and reopenings in which the levels stand in the order of their ids
whenever the tree is closed, reads return what the ordered map returns, and each reopening
restores the levels, so that reads are unchanged and the deeper levels are sorted and
pairwise disjoint. -/
theorem reopen_preserves (cfg : LsmConfig) (events : List LsmEvent) (t : LsmTree)
    (hsafe : AllSteps (stepEvent cfg) ReopenSafe .new events) (hrun : run (stepEvent cfg) .new events = some t) :
    (∀ k, t.get k = some ((events.foldl LsmEvent.apply .empty).get k)) ∧
    (∀ lo hi, wellFormedRange lo hi = true → t.scan lo hi = some ((events.foldl LsmEvent.apply .empty).scan lo hi)) ∧
    (t.memtable.entries.entries = [] → t.store.levelState.IdOrder →
      ∃ t', openTree t.store.manifest t.store.files = some (.ok t') ∧ (∀ k, t'.get k = t.get k) ∧
        (∀ lo hi, t'.scan lo hi = t.scan lo hi) ∧
        t'.store.levelState.levels = t.store.levelState.levels ∧
        ∀ l, 1 ≤ l → (t'.store.levelState.levels l).Pairwise (fun a b => a.firstKey < b.firstKey ∧ a.lastKey < b.firstKey)) := by
  obtain ⟨h,hd⟩ := events_run refines_new durable_new hsafe hrun
  refine ⟨h.get_eq,fun lo hi => h.stands.scan_eq,fun hflushed horder => ?_⟩
  obtain ⟨t',ht',h',-,hlevels⟩ := reopen_spec h hd hflushed horder
  refine ⟨t',ht',fun k => ?_,fun lo hi => ?_,hlevels,fun l hl => ?_⟩
  · rw [h'.get_eq,h.get_eq]
  · by_cases hrange : wellFormedRange lo hi = true
    · rw [h'.stands.scan_eq hrange,h.stands.scan_eq hrange]
    · rw [scan,scan,if_neg hrange,if_neg hrange]
  · refine (h'.ok.sorted l hl).imp_of_mem (fun {a b} ha _ hab => ⟨?_,hab⟩)
    obtain ⟨table,htable⟩ := h'.ok.reader l a ha
    exact htable.first_le_last.trans_lt hab

end LsmTree

namespace LsmTree

private def putAndFlush (k : Byte) : List LsmEvent := [.op (.put [k] [7]), .op .flushMemtable]

private def ascendingKeys : List LsmEvent :=
  [1,2,3,4].flatMap putAndFlush ++ [.reopen] ++ [20,21,22,23].flatMap putAndFlush

theorem reopen_preserves_ascending :
    ∃ t, AllSteps (stepEvent (.default 4194304)) ReopenSafe .new ascendingKeys ∧
      run (stepEvent (.default 4194304)) .new ascendingKeys = some t ∧ (t.store.levelState.levels 1).length = 2 ∧
      ∃ t', openTree t.store.manifest t.store.files = some (.ok t') ∧ ∀ k, t'.get k = t.get k := by
  have hsafe : AllSteps (stepEvent (.default 4194304)) ReopenSafe .new ascendingKeys := by decide +kernel
  have hrun : (run (stepEvent (.default 4194304)) .new ascendingKeys).map (fun t =>
      decide (t.memtable.entries.entries = [] ∧ t.store.levelState.IdOrder ∧ (t.store.levelState.levels 1).length = 2)) =
        some true := by decide +kernel
  obtain ⟨t,ht,hdec⟩ := map_eq_some_iff.mp hrun
  obtain ⟨hflushed,horder,hlen⟩ := of_decide_eq_true hdec
  obtain ⟨t',ht',hget,-⟩ := (reopen_preserves _ _ t hsafe ht).2.2 hflushed horder
  exact ⟨t,hsafe,ht,hlen,t',ht',hget⟩

private def descendingTables : List LsmEvent := [20,21,22,23,1,2,3,4].flatMap putAndFlush

/-- A flushed key is not found after reopening; with the empty key the tree does not open at all. -/
theorem reopened_key_lost :
    ((run (stepEvent (.default 4194304)) .new descendingTables).map (fun t =>
      (t.memtable.entries.entries.isEmpty, t.get [2],
        (openTree t.store.manifest t.store.files).bind (fun r => r.toOption.bind (fun t' => t'.get [2]))))) =
      some (true, some (some [7]), some none) ∧
    ((run (stepEvent (.default 4194304)) .new [.op (.put [] [7]), .op .flushMemtable]).map (fun t =>
      (t.memtable.entries.entries.isEmpty, t.get [],
        (openTree t.store.manifest t.store.files).map (fun r => r.toOption.isSome)))) =
      some (true, some (some [7]), some false) := by
  constructor <;> decide +kernel

end LsmTree
end InterchangeDb
