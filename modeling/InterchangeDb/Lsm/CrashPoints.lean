import InterchangeDb.Lsm.Reopen

/-! A crash while manifest lines are written. A compaction deletes its inputs before it adds its outputs. -/
namespace InterchangeDb
open List Option

namespace Manifest

theorem openFile_concat_newline (text : List Char) : openFile (text ++ ['\n']) = openFile text := by
  rw [openFile,Text.lines_append,replay_append,openFile]
  cases replay (Text.lines text) .new with
  | none => rfl
  | some r => cases r <;> rfl

end Manifest

namespace SstStore
variable [Crc32]

/-- A compaction that has written its tables and is about to log them. -/
inductive Merging (cfg : LsmConfig) (s : SstStore) : Nat → List SSTableMeta → Merge → Prop
  | l0 {m : SSTableMeta} {ms : List SSTableMeta} {r : Merge} (hl : s.levelState.levels 0 = m::ms)
      (hr : l0Merge cfg s m ms = some r) : Merging cfg s 0 [] r
  | level {level : Nat} {picked : SSTableMeta} {rest : List SSTableMeta} {r : Merge}
      (hlevel : 1 ≤ level ∧ level < maxLevelCount - 1) (hl : s.levelState.levels level = picked::rest)
      (hr : levelMerge cfg s level picked = some r) :
      Merging cfg s level ((picked::rest).filter (fun m => m.id != picked.id)) r

theorem Merging.move {cfg : LsmConfig} {s : SstStore} {level : Nat} {stay : List SSTableMeta} {r : Merge}
    (h : Merging cfg s level stay r) (hok : s.Ok) :
    ∃ top minKey maxKey, Move s level top stay minKey maxKey ∧ merge cfg s top minKey maxKey (level+1) = some r := by
  cases h with
  | l0 hl hr => exact ⟨_,_,_,compactL0_move hl,hr⟩
  | level hlevel hl hr => exact ⟨_,_,_,compactLevel_move hok hlevel hl,hr⟩

section Cut
variable {cfg : LsmConfig} {s : SstStore} {level : Nat} {stay : List SSTableMeta} {r : Merge}

theorem open_before_merge (hok : s.Ok) (hlogged : s.Logged) (hm : Merging cfg s level stay r) (horder : s.levelState.IdOrder) :
    ∃ s', openStore s.manifest (r.files s) = some (.ok s') ∧ s'.Ok ∧ ∀ k, s'.value k = s.value k := by
  obtain ⟨top,minKey,maxKey,hmove,hmerge⟩ := hm.move hok
  have hr := merge_spec (hmove.holds_inputs hok) hmerge
  obtain ⟨-,logged,hopen,hmirror⟩ := hlogged
  have hfiles : ∀ l, ∀ m ∈ s.levelState.levels l, (r.files s).lookup m.id = s.readers.lookup m.id := by
    intro l m hm
    have hbound := hok.bound l m hm
    have hnot : m.id ∉ r.out.map (·.1.id) := by
      rw [hr.outIds,mem_range'_1]
      omega
    rw [Merge.files,lookup_foldl_insert_of_notMem (fun x : SSTableMeta × SSTable => x.1.id) (·.2) hnot]
    exact hok.file l m hm
  obtain ⟨s',hs',-,-,-,hok',hview,-⟩ := openStore_spec hok horder hopen hmirror hfiles
  exact ⟨s',hs',hok',fun k => by rw [value,value,hview]⟩

/-- All lines are kept, up to the last line break: the outputs stand for the inputs. -/
theorem open_after_merge (hok : s.Ok) (hlogged : s.Logged) (hfull : s.KeysFull) (hm : Merging cfg s level stay r) {p : List Char}
    (hp : p = r.lines (level+1) ∨ p ++ ['\n'] = r.lines (level+1)) (horder : (r.install s level stay).levelState.IdOrder) :
    ∃ s', openStore (s.manifest ++ p) (r.files s) = some (.ok s') ∧ s'.Ok ∧ ∀ k, s'.value k = s.value k := by
  obtain ⟨top,minKey,maxKey,hmove,hmerge⟩ := hm.move hok
  have hr := merge_spec (hmove.holds_inputs hok) hmerge
  have hcompacts : Compacts cfg s (r.install s level stay) := ⟨level,top,stay,minKey,maxKey,r,hmove,hmerge,rfl⟩
  obtain ⟨hok',hvalue⟩ := hcompacts.ok hok
  obtain ⟨⟨-,logged,hopen,hmirror⟩,-⟩ := hcompacts.logged hok hfull hlogged
  have hopenCut : Manifest.openFile (s.manifest ++ p) = some (.ok logged) := by
    change Manifest.openFile (s.manifest ++ r.lines (level+1)) = _ at hopen
    rcases hp with rfl | hp
    · exact hopen
    · rwa [← hp,← append_assoc,Manifest.openFile_concat_newline] at hopen
  -- the old files are still there, but no level names them
  have hfiles : ∀ l, ∀ m ∈ (r.install s level stay).levelState.levels l,
      (r.files s).lookup m.id = (r.install s level stay).readers.lookup m.id := by
    intro l m hm
    have hnot : m.id ∉ r.ids := by
      rcases mem_install hok hmove hr hm with ⟨-,hnot⟩ | ⟨-,x,hx,rfl⟩
      · exact hnot
      · exact fun hid => absurd (ids_bound hok hmove hr _ hid) (not_lt.mpr (outId_bounds hr hx).1)
    rw [← hok'.file l m hm]
    change _ = (r.ids.foldl (fun m id => m.erase id) (r.files s)).lookup m.id
    rw [lookup_foldl_erase,if_neg hnot]
  obtain ⟨s',hs',-,-,-,hok'',hview,-⟩ := openStore_spec hok' horder hopenCut hmirror hfiles
  refine ⟨s',hs',hok'',fun k => ?_⟩
  rw [← hvalue k,value,value,hview]

end Cut

end SstStore

namespace LsmTree
variable [Crc32]
open SstStore

/-- Stores that hold all data of a tree in tables: the tree is flushed, or its flush has
published the frozen memtable, and any compactions have followed. -/
inductive Tabled (cfg : LsmConfig) (t : LsmTree) : SstStore → Prop
  | flushed {s : SstStore} (hempty : t.memtable.entries.entries = []) (hc : Cascade cfg t.store s) : Tabled cfg t s
  | flushing {force : Bool} {sstId : Nat} {frozen : FrozenMemtable} {a b : LsmTree} {m : SSTableMeta} {table : SSTable}
      {s : SstStore} (hfreeze : freeze cfg force t = some (some (sstId,frozen),a))
      (hwrite : writeFrozen a sstId frozen = some (some (m,table),b)) (hc : Cascade cfg (b.store.publish m table) s) :
      Tabled cfg t s

private theorem flushing_spec {cfg : LsmConfig} {force : Bool} {t : LsmTree} {e : Engine} (h : t.Refines e) (hd : t.Durable)
    {sstId : Nat} {frozen : FrozenMemtable} {a b : LsmTree} {m : SSTableMeta} {table : SSTable}
    (hfreeze : freeze cfg force t = some (some (sstId,frozen),a))
    (hwrite : writeFrozen a sstId frozen = some (some (m,table),b)) :
    b.store = a.store.logFlushed m table ∧ a.store.manifest = t.store.manifest ∧ a.store.files = t.store.files ∧
      m.id = t.store.levelState.nextSstId ∧ (b.store.publish m table).Ok ∧ (b.store.publish m table).Logged ∧
      (b.store.publish m table).KeysFull ∧ ∀ k, (b.store.publish m table).value k = t.value k := by
  obtain ⟨rfl,rfl,hf⟩ := freeze_some h.ok hfreeze
  obtain ⟨w,heq,hw,rfl⟩ := writeFrozen_spec hf.filled hwrite
  cases heq
  obtain ⟨hmid,hpub,hview⟩ := hf.published hw
  obtain ⟨hlogged,hfull⟩ := flushed_logged hd hf hw
  refine ⟨rfl,hf.manifest,hf.files,hmid,hpub,hlogged,hfull,fun k => ?_⟩
  have hmem : t.findInMemory k = t.memtable.entries.get k := by
    simp [findInMemory,h.idle]
  rw [SstStore.value,hview,value,hmem]

private theorem openTree_get {manifest : List Char} {files : SSTables} {s : SstStore} {f : Bytes → Option Bytes}
    (hs : openStore manifest files = some (.ok s)) (hok : s.Ok) (hvalue : ∀ k, s.value k = f k) :
    ∃ t', openTree manifest files = some (.ok t') ∧ ∀ k, t'.get k = some (f k) := by
  refine ⟨⟨.new,[],s⟩,by rw [openTree,hs]; rfl,fun k => ?_⟩
  rw [get_eq hok,← hvalue]
  rfl

private theorem Tabled.spec {cfg : LsmConfig} {t : LsmTree} {e : Engine} (h : t.Refines e) (hd : t.Durable) {s : SstStore}
    (hs : Tabled cfg t s) : s.Ok ∧ s.Logged ∧ s.KeysFull ∧ ∀ k, s.value k = t.value k := by
  cases hs with
  | flushed hempty hc =>
    obtain ⟨hok,hlogged,hfull⟩ := hc.logged h.ok hd.logged hd.full
    refine ⟨hok,hlogged,hfull,fun k => ?_⟩
    have hmem : t.findInMemory k = none := by
      simp [findInMemory,h.idle,OrdMap.get,hempty,OrdMap.find]
    rw [(hc.value h.ok).2 k,value_eq,hmem]
    rfl
  | flushing hfreeze hwrite hc =>
    obtain ⟨-,-,-,-,hpok,hplog,hpfull,hpvalue⟩ := flushing_spec h hd hfreeze hwrite
    obtain ⟨hok,hlogged,hfull⟩ := hc.logged hpok hplog hpfull
    exact ⟨hok,hlogged,hfull,fun k => ((hc.value hpok).2 k).trans (hpvalue k)⟩

/-- A crash while a compaction or a flush writes its manifest lines loses nothing if the cut
keeps none or all of these lines, up to the last line break, and the levels that are then
opened stand in the order of their ids. For a flush, the data that was in tables before is
kept by the first cut, and all data by the second. -/
theorem crash_keeps_values (cfg : LsmConfig) (events : List LsmEvent) (t : LsmTree)
    (hsafe : AllSteps (stepEvent cfg) ReopenSafe .new events) (hrun : run (stepEvent cfg) .new events = some t) :
    (∀ s level stay r p, Tabled cfg t s → Merging cfg s level stay r →
      (p = [] ∧ s.levelState.IdOrder) ∨
        ((p = r.lines (level+1) ∨ p ++ ['\n'] = r.lines (level+1)) ∧ (r.install s level stay).levelState.IdOrder) →
      ∃ t', openTree (s.manifest ++ p) (r.files s) = some (.ok t') ∧ ∀ k, t'.get k = t.get k) ∧
    ∀ force sstId frozen a b m table p, freeze cfg force t = some (some (sstId,frozen),a) →
      writeFrozen a sstId frozen = some (some (m,table),b) → t.store.levelState.IdOrder →
      (p = [] → ∃ t', openTree (t.store.manifest ++ p) b.store.files = some (.ok t') ∧ ∀ k, t'.get k = some (t.store.value k)) ∧
      (p = Manifest.addLine 0 m ∨ p ++ ['\n'] = Manifest.addLine 0 m →
        ∃ t', openTree (t.store.manifest ++ p) b.store.files = some (.ok t') ∧ ∀ k, t'.get k = t.get k) := by
  obtain ⟨h,hd⟩ := events_run refines_new durable_new hsafe hrun
  constructor
  · intro s level stay r p htabled hmerging hcut
    obtain ⟨hok,hlogged,hfull,hvalue⟩ := htabled.spec h hd
    have hopen : ∃ s', openStore (s.manifest ++ p) (r.files s) = some (.ok s') ∧ s'.Ok ∧ ∀ k, s'.value k = s.value k := by
      rcases hcut with ⟨rfl,horder⟩ | ⟨hp,horder⟩
      · rw [append_nil]
        exact open_before_merge hok hlogged hmerging horder
      · exact open_after_merge hok hlogged hfull hmerging hp horder
    obtain ⟨s',hs',hok',hvalue'⟩ := hopen
    obtain ⟨t',ht',hget⟩ := openTree_get hs' hok' (fun k => (hvalue' k).trans (hvalue k))
    exact ⟨t',ht',fun k => by rw [hget,get_eq h.ok]⟩
  · intro force sstId frozen a b m table p hfreeze hwrite horder
    obtain ⟨hstore,hmanifest,hfiles,hmid,hpok,hplog,-,hpvalue⟩ := flushing_spec h hd hfreeze hwrite
    constructor
    · rintro rfl
      obtain ⟨-,logged,hopen,hmirror⟩ := hd.logged
      have hlookup : ∀ l, ∀ x ∈ t.store.levelState.levels l, b.store.files.lookup x.id = t.store.readers.lookup x.id := by
        intro l x hx
        have hne : x.id ≠ m.id := by
          have := h.ok.bound l x hx
          omega
        rw [← h.ok.file l x hx,← hfiles,hstore]
        exact AList.lookup_insert_ne hne
      obtain ⟨s',hs',-,-,-,hok',hview,-⟩ := openStore_spec h.ok horder hopen hmirror hlookup
      rw [append_nil]
      exact openTree_get hs' hok' (fun k => by rw [SstStore.value,hview,SstStore.value])
    · intro hp
      obtain ⟨-,logged,hopen,hmirror⟩ := hplog
      have horder' : (b.store.publish m table).levelState.IdOrder := by
        intro l hl hlt
        rw [levels_publish,if_neg (by omega),hstore]
        change (a.store.levelState.levels l).Pairwise _
        rw [(freeze_some h.ok hfreeze).2.2.levels]
        exact horder l hl hlt
      have hcut : Manifest.openFile (t.store.manifest ++ p) = some (.ok logged) := by
        rw [hstore] at hopen
        change Manifest.openFile (a.store.manifest ++ Manifest.addLine 0 m) = _ at hopen
        rw [hmanifest] at hopen
        rcases hp with rfl | hp
        · exact hopen
        · rwa [← hp,← append_assoc,Manifest.openFile_concat_newline] at hopen
      obtain ⟨s',hs',-,-,-,hok',hview,-⟩ := openStore_spec hpok horder' hcut hmirror hpok.file
      obtain ⟨t',ht',hget⟩ := openTree_get hs' hok' (fun k => show s'.value k = t.value k by
        rw [← hpvalue k,SstStore.value,hview,SstStore.value])
      exact ⟨t',ht',fun k => by rw [hget,get_eq h.ok]⟩

end LsmTree

namespace LsmTree

private def twoTables : List LsmEvent :=
  [.op (.put [1] [7]), .op .flushMemtable, .op (.put [2] [8]), .op .flushMemtable]

private def mergeL0 (t : LsmTree) : Option SstStore.Merge :=
  match t.store.levelState.levels 0 with
  | [] => none
  | m::ms => SstStore.l0Merge (.default 4194304) t.store m ms

theorem crash_keeps_values_two_tables :
    ∃ t r, run (stepEvent (.default 4194304)) .new twoTables = some t ∧
      SstStore.Merging (.default 4194304) t.store 0 [] r ∧ t.get [1] = some (some [7]) ∧
      ∃ t', openTree (t.store.manifest ++ r.lines 1) (r.files t.store) = some (.ok t') ∧ t'.get [1] = t.get [1] := by
  have hsafe : AllSteps (stepEvent (.default 4194304)) ReopenSafe .new twoTables := by decide +kernel
  have hrun : (run (stepEvent (.default 4194304)) .new twoTables).bind (fun t => (mergeL0 t).map (fun r =>
      decide (t.memtable.entries.entries = [] ∧ (r.install t.store 0 []).levelState.IdOrder ∧ t.get [1] = some (some [7])))) =
        some true := by decide +kernel
  obtain ⟨t,ht,hmap⟩ := bind_eq_some_iff.mp hrun
  obtain ⟨r,hr,hdec⟩ := map_eq_some_iff.mp hmap
  obtain ⟨hempty,horder,hget⟩ := of_decide_eq_true hdec
  have hmerging : SstStore.Merging (.default 4194304) t.store 0 [] r := by
    unfold mergeL0 at hr
    cases hl : t.store.levelState.levels 0 with
    | nil => simp [hl] at hr
    | cons m ms =>
      simp only [hl] at hr
      exact .l0 hl hr
  obtain ⟨t',ht',hsame⟩ := (crash_keeps_values _ _ t hsafe ht).1 t.store 0 [] r (r.lines 1) (.flushed hempty .refl) hmerging
    (.inr ⟨.inl rfl,horder⟩)
  exact ⟨t,r,ht,hmerging,hget,t',ht',hsame [1]⟩

/-- A cut after the deletions of a compaction loses its inputs; a cut inside its last line leaves a
store that does not open. -/
theorem crash_between_del_and_add :
    (run (stepEvent (.default 4194304)) .new twoTables).bind (fun t => (mergeL0 t).map (fun r =>
      (t.memtable.entries.entries.isEmpty, t.get [1],
        (openTree (t.store.manifest ++ r.ids.flatMap Manifest.delLine) (r.files t.store)).bind
          (fun o => o.toOption.bind (fun t' => t'.get [1]))))) = some (true, some (some [7]), some none) ∧
    (run (stepEvent (.default 4194304)) .new twoTables).bind (fun t => (mergeL0 t).bind (fun r =>
      (openTree (t.store.manifest ++ (r.lines 1).take 15) (r.files t.store)).map (fun o => o.toOption.isSome))) = some false := by
  constructor <;> decide +kernel

end LsmTree
end InterchangeDb
