import InterchangeDb.Lsm.TreeSpec

/-! Threads on one LSM tree. Each critical section is one step; a compaction is one, as only second parts of gets run
beside it and see the readers alone. -/
namespace InterchangeDb
open List Option AList

/-- Where the thread that holds the flush lock stands. -/
inductive FlushPhase where
  | idle
  | frozen (sstId : Nat) (entries : FrozenMemtable)
  | written (sstId : Nat) (file : Option (SSTableMeta × SSTable))
  /-- The levels that are still to be checked for compaction; the tree's lock is held. -/
  | compacting (sstId : Nat) (pending : List Nat)

/-- Where a get stands between its steps. -/
inductive GetPhase where
  | found (result : Option Bytes)
  /-- A copy of the levels, taken under the tree's lock. -/
  | searching (key : Bytes) (levels : Nat → List SSTableMeta)
  | returned (result : Option (Option Bytes))

structure LsmSystem where
  tree : LsmTree
  flush : FlushPhase
  /-- The gets by thread. -/
  gets : AList (fun _ : Nat => GetPhase)

inductive LsmStep where
  | put (key value : Bytes)
  | delete (key : Bytes)
  | freeze (force : Bool)
  | writeTable
  | publish
  | compact
  | retire
  | startGet (thread : Nat) (key : Bytes)
  | finishGet (thread : Nat)
  deriving DecidableEq, Repr

/-- The effect of a step on the ordered map. -/
def LsmStep.apply (e : Engine) : LsmStep → Engine
  | .put key value => e.put key value
  | .delete key => e.delete key
  | _ => e

/-- One check of the cascade after a flush. -/
def SstStore.compactNext [Crc32] (cfg : LsmConfig) (s : SstStore) (level : Nat) : Option SstStore :=
  if level = 0 then
    if cfg.maxL0SstableCount ≤ (s.levelState.levels 0).length then s.compactL0 cfg else some s
  else if SstStore.levelSizeLimit cfg level < s.levelState.levelSize level then s.compactLevel cfg level
  else some s

namespace LsmSystem
variable [Crc32]
open SstStore
variable {cfg : LsmConfig} {c c' : LsmSystem} {e : Engine} {s : SstStore} {a : LsmStep} {as : List LsmStep}
  {thread : Nat} {key : Bytes}

def new : LsmSystem := ⟨.new, .idle, ∅⟩

def innerFree (c : LsmSystem) : Bool :=
  match c.flush with
  | .compacting _ _ => false
  | _ => true

/-- The part of a get under the tree's lock: an answer from memory, or a copy of the levels. -/
def readMemory (t : LsmTree) (key : Bytes) : GetPhase :=
  match t.findInMemory key with
  | some result => .found result
  | none => .searching key t.store.levelState.levels

/-- The part of a get under the lock of the readers: the copied levels, with the readers of now. -/
def readTables (s : SstStore) (key : Bytes) (levels : Nat → List SSTableMeta) : Option (Option Bytes) :=
  (findInTables s.readers key (searchOrder levels key)).map Option.join

def step (cfg : LsmConfig) (c : LsmSystem) : LsmStep → Option LsmSystem
  | .put key value =>
    if c.innerFree then some { c with tree := { c.tree with memtable := c.tree.memtable.put key value } } else none
  | .delete key =>
    if c.innerFree then some { c with tree := { c.tree with memtable := c.tree.memtable.delete key } } else none
  | .freeze force =>
    match c.flush with
    | .idle =>
      match LsmTree.freeze cfg force c.tree with
      | none => none
      | some (none, tree) => some { c with tree := tree }
      | some (some (sstId, entries), tree) => some { c with tree := tree, flush := .frozen sstId entries }
    | _ => none
  | .writeTable =>
    match c.flush with
    | .frozen sstId entries =>
      (c.tree.writeFrozen sstId entries).map (fun r => { c with tree := r.2, flush := .written sstId r.1 })
    | _ => none
  | .publish =>
    match c.flush with
    | .written sstId none => some { c with flush := .compacting sstId [] }
    | .written sstId (some (m, table)) =>
      some { c with
        tree := { c.tree with store := c.tree.store.publish m table }
        flush := .compacting sstId (List.range (maxLevelCount - 1)) }
    | _ => none
  | .compact =>
    match c.flush with
    | .compacting sstId (level::pending) =>
      (compactNext cfg c.tree.store level).map (fun s =>
        { c with tree := { c.tree with store := s }, flush := .compacting sstId pending })
    | _ => none
  | .retire =>
    match c.flush with
    | .compacting sstId [] => some { c with tree := c.tree.retire sstId, flush := .idle }
    | _ => none
  | .startGet thread key =>
    if c.innerFree then
      match c.gets.lookup thread with
      | none | some (.returned _) =>
        some { c with gets := c.gets.insert thread (readMemory c.tree key) }
      | _ => none
    else none
  | .finishGet thread =>
    match c.gets.lookup thread with
    | some (.found result) => some { c with gets := c.gets.insert thread (.returned (some result)) }
    | some (.searching key levels) =>
      some { c with gets := c.gets.insert thread (.returned (readTables c.tree.store key levels)) }
    | _ => none

/-- An id taken by a running flush: no level names it yet. -/
structure Reserved (s : SstStore) (sstId : Nat) : Prop where
  bound : sstId < s.levelState.nextSstId
  fresh : ∀ l, ∀ m ∈ s.levelState.levels l, m.id ≠ sstId

/-- The frozen memtable of a running flush is in the immutable list until the tables answer for it. -/
def FlushOk (t : LsmTree) : FlushPhase → Prop
  | .idle => t.immutableMemtables = []
  | .frozen sstId entries => t.immutableMemtables = [(sstId,entries)] ∧ entries.entries ≠ [] ∧ Reserved t.store sstId
  | .written sstId file => ∃ entries m table, file = some (m,table) ∧ t.immutableMemtables = [(sstId,entries)] ∧ m.id = sstId ∧
      Reserved t.store sstId ∧ Holds t.store.files m table ∧ table.iter = entries.entries
  | .compacting sstId _ => ∃ entries, t.immutableMemtables = [(sstId,entries)] ∧
      ∀ k x, entries.get k = some x → t.store.value k = x

/-- The tree stands for the map made by the writes so far. -/
structure Inv (c : LsmSystem) (e : Engine) : Prop where
  ok : c.tree.store.Ok
  value : ∀ k, c.tree.value k = e.get k
  flush : FlushOk c.tree c.flush

theorem inv_new : LsmSystem.new.Inv .empty := by
  refine ⟨ok_new,fun k => ?_,rfl⟩
  change ((LsmTree.new.findInMemory k).or (SstStore.new.view k)).join = _
  rw [view_new]
  rfl

private theorem flushOk_memtable {t : LsmTree} {m : Memtable} {phase : FlushPhase} (h : FlushOk t phase) :
    FlushOk { t with memtable := m } phase := by
  cases phase <;> exact h

omit [Crc32] in
theorem findInMemory_single {t : LsmTree} {sstId : Nat} {entries : FrozenMemtable}
    (h : t.immutableMemtables = [(sstId,entries)]) (k : Bytes) :
    t.findInMemory k = (t.memtable.entries.get k).or (entries.get k) := by
  rw [LsmTree.findInMemory,h,reverse_singleton,List.findSome?_singleton]

theorem compactNext_spec {s' : SstStore} {level : Nat} (hok : s.Ok)
    (h : compactNext cfg s level = some s') : s' = s ∨ Compacts cfg s s' := by
  unfold compactNext at h
  split_ifs at h
  · exact compactL0_spec h
  · exact .inl (some.inj h).symm
  · exact compactLevel_spec hok h
  · exact .inl (some.inj h).symm

/-- What a step does, with what is known of the flush that is running. -/
inductive Stepped (cfg : LsmConfig) (c : LsmSystem) : LsmStep → LsmSystem → Prop
  | put (key value : Bytes) :
      Stepped cfg c (.put key value) { c with tree := { c.tree with memtable := c.tree.memtable.put key value } }
  | delete (key : Bytes) :
      Stepped cfg c (.delete key) { c with tree := { c.tree with memtable := c.tree.memtable.delete key } }
  | unfrozen (force : Bool) : Stepped cfg c (.freeze force) c
  | freeze {force : Bool} {tree : LsmTree} (idle : c.tree.immutableMemtables = []) (freezes : c.tree.Freezes tree) :
      Stepped cfg c (.freeze force)
        { c with tree, flush := .frozen c.tree.store.levelState.nextSstId c.tree.memtable.entries }
  | writeTable {sstId : Nat} {entries : FrozenMemtable} {w : SSTableMeta × SSTable}
      (phase : c.flush = .frozen sstId entries) (write : SSTable.write sstId entries.entries = some (some w)) :
      Stepped cfg c .writeTable
        { c with tree := { c.tree with store := c.tree.store.logFlushed w.1 w.2 }, flush := .written sstId (some w) }
  | publish {w : SSTableMeta × SSTable} (pending : List Nat) (phase : c.flush = .written w.1.id (some w)) :
      Stepped cfg c .publish
        { c with tree := { c.tree with store := c.tree.store.publish w.1 w.2 }, flush := .compacting w.1.id pending }
  | compact {s : SstStore} {sstId level : Nat} {pending : List Nat} (phase : c.flush = .compacting sstId (level::pending))
      (compacts : s = c.tree.store ∨ Compacts cfg c.tree.store s) :
      Stepped cfg c .compact { c with tree := { c.tree with store := s }, flush := .compacting sstId pending }
  | retire {sstId : Nat} (phase : c.flush = .compacting sstId []) :
      Stepped cfg c .retire { c with tree := c.tree.retire sstId, flush := .idle }
  | get {a : LsmStep} {thread : Nat} {p : GetPhase} (next : a = .finishGet thread ∨ ∃ key, a = .startGet thread key ∧
      ∀ q, c.gets.lookup thread = some q → ∃ r, q = .returned r) :
      Stepped cfg c a { c with gets := c.gets.insert thread p }

theorem stepped (h : c.Inv e) (hstep : step cfg c a = some c') : Stepped cfg c a c' := by
  have hflush := h.flush
  cases a with
  | put | delete =>
    simp only [step] at hstep
    split_ifs at hstep
    cases hstep
    constructor
  | freeze force =>
    simp only [step] at hstep
    split at hstep
    · next hidle =>
      rw [hidle] at hflush
      split at hstep
      · cases hstep
      · next tree hfreeze =>
        cases hstep
        rcases LsmTree.freeze_spec h.ok hfreeze with ⟨-,rfl,-⟩ | ⟨hsome,-⟩
        · exact .unfrozen force
        · cases hsome
      · next sstId entries tree hfreeze =>
        cases hstep
        obtain ⟨rfl,rfl,hf⟩ := LsmTree.freeze_some h.ok hfreeze
        exact .freeze hflush hf
    · cases hstep
  | writeTable =>
    simp only [step] at hstep
    split at hstep
    · next sstId entries hphase =>
      rw [hphase] at hflush
      obtain ⟨⟨file,tree⟩,hwrite,rfl⟩ := map_eq_some_iff.mp hstep
      obtain ⟨w,rfl,hw,rfl⟩ := LsmTree.writeFrozen_spec hflush.2.1 hwrite
      exact .writeTable hphase hw
    · cases hstep
  | publish =>
    simp only [step] at hstep
    split at hstep
    · next sstId hphase =>
      rw [hphase] at hflush
      obtain ⟨_,_,_,hnone,-⟩ := hflush
      cases hnone
    · next sstId m table hphase =>
      cases hstep
      rw [hphase] at hflush
      obtain ⟨_,_,_,hfile,-,rfl,-⟩ := hflush
      cases hfile
      exact Stepped.publish (w := (m,table)) _ hphase
    · cases hstep
  | compact =>
    simp only [step] at hstep
    split at hstep
    · next sstId level pending hphase =>
      obtain ⟨s,hs,rfl⟩ := map_eq_some_iff.mp hstep
      exact .compact hphase (compactNext_spec h.ok hs)
    · cases hstep
  | retire =>
    simp only [step] at hstep
    split at hstep <;> cases hstep
    exact .retire ‹_›
  | startGet thread key =>
    simp only [step] at hstep
    split_ifs at hstep
    split at hstep
    · next hnone =>
      cases hstep
      exact .get (.inr ⟨key,rfl,by simp [hnone]⟩)
    · next r hreturned =>
      cases hstep
      exact .get (.inr ⟨key,rfl,by simp [hreturned]⟩)
    · cases hstep
  | finishGet thread =>
    simp only [step] at hstep
    split at hstep <;> cases hstep <;> exact .get (.inl rfl)

theorem Inv.step (h : c.Inv e) (hstep : LsmSystem.step cfg c a = some c') : c'.Inv (a.apply e) := by
  have hflush := h.flush
  cases stepped h hstep with
  | put key value =>
    refine ⟨h.ok,fun k => ?_,flushOk_memtable h.flush⟩
    change LsmTree.value { c.tree with memtable := c.tree.memtable.put key value } k = (e.put key value).get k
    rw [LsmTree.value_write c.tree rfl,h.value,Engine.put,OrdMap.get_insert]
    split_ifs <;> rfl
  | delete key =>
    refine ⟨h.ok,fun k => ?_,flushOk_memtable h.flush⟩
    change LsmTree.value { c.tree with memtable := c.tree.memtable.delete key } k = (e.delete key).get k
    rw [LsmTree.value_write c.tree rfl,h.value,Engine.delete,OrdMap.get_erase]
    split_ifs <;> rfl
  | unfrozen => exact h
  | freeze himm hf =>
    refine ⟨hf.ok,fun k => ?_,?_,hf.filled,hf.nextSstId.symm ▸ Nat.lt_succ_self _,hf.fresh⟩
    · change _ = e.get k
      rw [← h.value,LsmTree.value,LsmTree.value,LsmTree.findInMemory_freeze hf.emptied hf.listed,view_congr hf.levels hf.readers]
    · rw [hf.listed,himm]
      rfl
  | @writeTable sstId entries w hphase hw =>
    rw [hphase] at hflush
    obtain ⟨himm,-,hreserved⟩ := hflush
    obtain ⟨hsound,hiter,hid,hfirst,hlast⟩ := SSTable.write_eq_some entries.sorted hw
    refine ⟨ok_logFlushed h.ok (hid ▸ hreserved.fresh),h.value,entries,w.1,w.2,rfl,himm,hid,⟨hreserved.bound,hreserved.fresh⟩,?_,hiter⟩
    exact ⟨lookup_insert _,hsound,hfirst,hlast⟩
  | @publish w pending hphase =>
    rw [hphase] at hflush
    obtain ⟨entries,m,table,hfile,himm,-,hreserved,hholds,hiter⟩ := hflush
    cases hfile
    have hview : ∀ k, (c.tree.store.publish m table).view k = (OrdMap.find k table.iter).or (c.tree.store.view k) :=
      view_publish hreserved.fresh
    have hget : ∀ k, OrdMap.find k table.iter = entries.get k := fun k => by
      rw [hiter]
      rfl
    refine ⟨ok_publish h.ok hreserved.fresh hreserved.bound hholds,fun k => ?_,entries,himm,fun k x hx => ?_⟩
    · change ((c.tree.findInMemory k).or ((c.tree.store.publish m table).view k)).join = e.get k
      rw [← h.value,LsmTree.value,findInMemory_single himm,hview,hget]
      cases c.tree.memtable.entries.get k <;> cases entries.get k <;> rfl
    · change ((c.tree.store.publish m table).view k).join = x
      rw [hview,hget,hx]
      rfl
  | @compact s sstId level pending hphase hcompacts =>
    rw [hphase] at hflush
    obtain ⟨entries,himm,hcovered⟩ := hflush
    have hkept : s.Ok ∧ ∀ k, s.value k = c.tree.store.value k := by
      rcases hcompacts with rfl | hc
      · exact ⟨h.ok,fun _ => rfl⟩
      · exact hc.ok h.ok
    refine ⟨hkept.1,fun k => ?_,entries,himm,fun k x hx => (hkept.2 k).trans (hcovered k x hx)⟩
    change _ = e.get k
    rw [← h.value,LsmTree.value_eq,LsmTree.value_eq]
    change (c.tree.findInMemory k).elim (s.value k) id = _
    rw [hkept.2 k]
  | @retire sstId hphase =>
    rw [hphase] at hflush
    obtain ⟨entries,himm,hcovered⟩ := hflush
    have himm' : (c.tree.retire sstId).immutableMemtables = [] := by
      simp [LsmTree.retire,himm]
    refine ⟨h.ok,fun k => ?_,himm'⟩
    have hafter : (c.tree.retire sstId).findInMemory k = c.tree.memtable.entries.get k := by
      rw [LsmTree.findInMemory,himm']
      exact or_none
    change _ = e.get k
    rw [← h.value,LsmTree.value_eq,LsmTree.value_eq,hafter,findInMemory_single himm]
    change (c.tree.memtable.entries.get k).elim (c.tree.store.value k) id = _
    cases c.tree.memtable.entries.get k with
    | some x => rfl
    | none =>
      cases hx : entries.get k with
      | none => rfl
      | some x => exact hcovered k x hx
  | get hnext =>
    have happly : a.apply e = e := by
      obtain rfl | ⟨_,rfl,-⟩ := hnext <;> rfl
    rw [happly]
    exact ⟨h.ok,h.value,h.flush⟩

theorem Inv.run (h : c.Inv e)
    (hrun : InterchangeDb.run (LsmSystem.step cfg) c as = some c') : c'.Inv (as.foldl LsmStep.apply e) :=
  run_follows (R := Inv) hrun (allSteps_of_forall (fun _ _ _ => trivial) c) h (fun _ _ _ _ h _ => h.step)

/-- The id that a running flush has taken and not yet published. -/
def reservedId : FlushPhase → Option Nat
  | .frozen sstId _ | .written sstId _ => some sstId
  | _ => none

/-- The tables of a store seen earlier: each still has its reader or has lost it. -/
structure Kept (s : SstStore) (c : LsmSystem) : Prop where
  bound : ∀ l, ∀ m ∈ s.levelState.levels l, m.id < c.tree.store.levelState.nextSstId
  reader : ∀ l, ∀ m ∈ s.levelState.levels l, c.tree.store.readers.lookup m.id = s.readers.lookup m.id ∨
    c.tree.store.readers.lookup m.id = none
  reserved : ∀ l, ∀ m ∈ s.levelState.levels l, reservedId c.flush ≠ some m.id

theorem Inv.kept (h : c.Inv e) : Kept c.tree.store c := by
  refine ⟨h.ok.bound,fun _ _ _ => .inl rfl,fun l m hm hid => ?_⟩
  have hflush := h.flush
  cases hphase : c.flush with
  | idle | compacting =>
    rw [hphase] at hid
    cases hid
  | frozen sstId entries =>
    rw [hphase] at hid hflush
    exact hflush.2.2.fresh l m hm (some.inj hid).symm
  | written sstId file =>
    rw [hphase] at hid hflush
    obtain ⟨_,_,_,-,-,-,hreserved,-⟩ := hflush
    exact hreserved.fresh l m hm (some.inj hid).symm

theorem Kept.step (h : Kept s c) (hinv : c.Inv e) (hstep : LsmSystem.step cfg c a = some c') : Kept s c' := by
  cases stepped hinv hstep with
  | put | delete | get => exact ⟨h.bound,h.reader,h.reserved⟩
  | unfrozen => exact h
  | retire => exact ⟨h.bound,h.reader,nofun⟩
  | freeze _ hf =>
    refine ⟨fun l m hm => ?_,fun l m hm => ?_,fun l m hm hid => (h.bound l m hm).ne (some.inj hid).symm⟩
    · rw [hf.nextSstId]
      exact (h.bound l m hm).trans (Nat.lt_succ_self _)
    · rw [hf.readers]
      exact h.reader l m hm
  | writeTable hphase =>
    have hreserved := h.reserved
    rw [hphase] at hreserved
    exact ⟨h.bound,h.reader,hreserved⟩
  | @publish w _ hphase =>
    refine ⟨h.bound,fun l x hx => ?_,nofun⟩
    have hne : x.id ≠ w.1.id := fun heq => h.reserved l x hx (by rw [hphase,reservedId,heq])
    have hlookup : (c.tree.store.publish w.1 w.2).readers.lookup x.id = c.tree.store.readers.lookup x.id :=
      lookup_insert_ne hne
    rw [hlookup]
    exact h.reader l x hx
  | compact _ hcompacts =>
    rcases hcompacts with rfl | hc
    · exact ⟨h.bound,h.reader,nofun⟩
    · obtain ⟨hnext,hreaders⟩ := hc.readers hinv.ok
      refine ⟨fun l m hm => (h.bound l m hm).trans_le hnext,fun l m hm => ?_,nofun⟩
      rcases hreaders m.id (h.bound l m hm) with hsame | hnone
      · rw [hsame]
        exact h.reader l m hm
      · exact .inr hnone

theorem step_gets {p : GetPhase} (hinv : c.Inv e) (hstep : LsmSystem.step cfg c a = some c') (ha : a ≠ .finishGet thread)
    (hp : c.gets.lookup thread = some p) (hopen : ∀ r, p ≠ .returned r) : c'.gets.lookup thread = some p := by
  cases stepped hinv hstep with
  | get hnext =>
    refine (lookup_insert_ne ?_).trans hp
    rintro rfl
    obtain hfinish | ⟨_,-,hreturned⟩ := hnext
    · exact ha hfinish
    · obtain ⟨r,hr⟩ := hreturned p hp
      exact hopen r hr
  | put | delete | unfrozen | freeze | writeTable | publish | compact | retire => exact hp

/-- From the first step of a get to its second, its phase and the tables it has seen are kept. -/
theorem run_between {p : GetPhase} (hrun : InterchangeDb.run (LsmSystem.step cfg) c as = some c') (hinv : c.Inv e)
    (hkept : Kept s c) (has : .finishGet thread ∉ as) (hp : c.gets.lookup thread = some p) (hopen : ∀ r, p ≠ .returned r) :
    Kept s c' ∧ c'.gets.lookup thread = some p := by
  induction as generalizing c e with
  | nil =>
    cases hrun
    exact ⟨hkept,hp⟩
  | cons a as ih =>
    obtain ⟨m,hm,hrest⟩ := run_cons_eq_some hrun
    have ha : a ≠ .finishGet thread := fun ha => has (ha ▸ mem_cons_self)
    exact ih hrest (hinv.step hm) (hkept.step hinv hm) (fun h => has (mem_cons_of_mem _ h)) (step_gets hinv hm ha hp hopen)

theorem findInTables_congr {r r' : SSTables} {ms : List SSTableMeta}
    (h : ∀ m ∈ ms, r.lookup m.id = r'.lookup m.id) : findInTables r key ms = findInTables r' key ms := by
  induction ms with
  | nil => rfl
  | cons m ms ih =>
    rw [findInTables,findInTables,h m mem_cons_self,ih (fun x hx => h x (mem_cons_of_mem _ hx))]

/-- The tables a get is still to search. -/
def pendingTables (c : LsmSystem) (thread : Nat) : List SSTableMeta :=
  match c.gets.lookup thread with
  | some (.searching key levels) => searchOrder levels key
  | _ => []

/-- At the second step of a get, each table it is to search still has its reader. -/
def SearchComplete (c : LsmSystem) : LsmStep → Prop
  | .finishGet thread => ∀ m ∈ c.pendingTables thread, (c.tree.store.readers.lookup m.id).isSome
  | _ => True

instance (c : LsmSystem) (a : LsmStep) : Decidable (SearchComplete c a) := by
  cases a <;> unfold SearchComplete <;> infer_instance

theorem Kept.readTables_eq (h : Kept s c) (hok : s.Ok)
    (hall : ∀ m ∈ searchOrder s.levelState.levels key, (c.tree.store.readers.lookup m.id).isSome) :
    readTables c.tree.store key s.levelState.levels = some (s.value key) := by
  have hsame : ∀ m ∈ searchOrder s.levelState.levels key, c.tree.store.readers.lookup m.id = s.readers.lookup m.id := by
    intro m hm
    obtain ⟨l,hl⟩ := mem_searchOrder hm
    rcases h.reader l m hl with hsame | hnone
    · exact hsame
    · have hsome := hall m hm
      rw [hnone] at hsome
      cases hsome
  rw [readTables,findInTables_congr hsame,hok.findInTables_searchOrder key]
  rfl

theorem finishGet_eq {c₀ : LsmSystem} (hinv : c₀.Inv e)
    (hkept : Kept c₀.tree.store c) (hp : c.gets.lookup thread = some (readMemory c₀.tree key))
    (hall : SearchComplete c (.finishGet thread)) (hstep : LsmSystem.step cfg c (.finishGet thread) = some c') :
    c'.gets.lookup thread = some (.returned (some (e.get key))) := by
  have hvalue := hinv.value key
  rw [LsmTree.value_eq] at hvalue
  simp only [step] at hstep
  cases hmem : c₀.tree.findInMemory key with
  | some result =>
    simp only [readMemory,hmem] at hp
    rw [hp] at hstep
    cases hstep
    rw [hmem] at hvalue
    rw [← hvalue]
    exact lookup_insert _
  | none =>
    simp only [readMemory,hmem] at hp
    have hpending : c.pendingTables thread = searchOrder c₀.tree.store.levelState.levels key := by
      rw [pendingTables,hp]
    have hread := hkept.readTables_eq hinv.ok (fun m hm => hall m (hpending ▸ hm))
    rw [hp] at hstep
    cases hstep
    rw [hmem] at hvalue
    rw [← hvalue,hread]
    exact lookup_insert _

/-- A get returns a value its key had between its first and its last step, so it finds a key that was
present throughout, if at its last step no table it searches has lost its reader. -/
theorem get_linearizable {cfg : LsmConfig} {as bs : List LsmStep} {thread : Nat} {key : Bytes} {c : LsmSystem}
    (hrun : InterchangeDb.run (LsmSystem.step cfg) .new (as ++ .startGet thread key :: (bs ++ [.finishGet thread])) = some c)
    (hbs : .finishGet thread ∉ bs)
    (hall : AllSteps (LsmSystem.step cfg) SearchComplete .new (as ++ .startGet thread key :: (bs ++ [.finishGet thread]))) :
    ∃ result, c.gets.lookup thread = some (.returned (some result)) ∧
      (∃ seen, seen <+: bs ∧ ((as ++ .startGet thread key :: seen).foldl LsmStep.apply .empty).get key = result) ∧
      ((∀ seen, seen <+: bs → (((as ++ .startGet thread key :: seen).foldl LsmStep.apply .empty).get key).isSome) →
        result.isSome) := by
  obtain ⟨c₀,has,hrest⟩ := run_append_eq_some hrun
  have hinv := inv_new.run has
  have hall := hall.append_right has
  obtain ⟨c₁,hstart,hrest⟩ := run_cons_eq_some hrest
  obtain ⟨c₂,hbetween,hlast⟩ := run_append_eq_some hrest
  obtain ⟨c₃,hfinish,hnil⟩ := run_cons_eq_some hlast
  cases hnil
  have hcond := ((hall.2 c₁ hstart).append_right hbetween).1
  -- the get has read memory, or copied the levels, in the state its first step starts from
  have hp : c₁.gets.lookup thread = some (readMemory c₀.tree key) := by
    simp only [step] at hstart
    split_ifs at hstart
    split at hstart <;> cases hstart <;> exact lookup_insert _
  have hopen : ∀ r, readMemory c₀.tree key ≠ .returned r := by
    intro r hr
    unfold readMemory at hr
    split at hr <;> cases hr
  obtain ⟨hkept,hp⟩ := run_between hbetween (hinv.step hstart) (hinv.kept.step hinv hstart) hbs hp hopen
  have hresult := finishGet_eq hinv hkept hp hcond hfinish
  have hmap : ((as ++ [LsmStep.startGet thread key]).foldl LsmStep.apply .empty).get key =
      (as.foldl LsmStep.apply .empty).get key := by
    rw [foldl_append]
    rfl
  exact ⟨_,hresult,⟨[], nil_prefix,hmap⟩,fun hpresent => hmap ▸ hpresent [] nil_prefix⟩

end LsmSystem

namespace LsmSystem

private def threeTables : List LsmStep :=
  [1, 2, 3].flatMap (fun b => [.put [b] [7], .freeze true, .writeTable, .publish] ++ List.replicate 6 .compact ++ [.retire]) ++
    [.put [4] [7], .freeze true, .writeTable]

theorem get_linearizable_published :
    ∃ c, run (step (.default 4194304)) .new (threeTables ++ .startGet 9 [1] :: ([.publish] ++ [.finishGet 9])) = some c ∧
      c.gets.lookup 9 = some (.returned (some (some [7]))) := by
  have hall : AllSteps (step (.default 4194304)) SearchComplete .new
      (threeTables ++ .startGet 9 [1] :: ([.publish] ++ [.finishGet 9])) := by decide +kernel
  have hrun : (run (step (.default 4194304)) .new (threeTables ++ .startGet 9 [1] :: ([.publish] ++ [.finishGet 9]))).isSome := by
    decide +kernel
  obtain ⟨c,hc⟩ := isSome_iff_exists.mp hrun
  obtain ⟨result,hresult,⟨seen,hseen,hvalue⟩,-⟩ := get_linearizable hc (by decide) hall
  refine ⟨c,hc,?_⟩
  have hsame : ∀ seen, seen <+: [LsmStep.publish] →
      ((threeTables ++ .startGet 9 [1] :: seen).foldl LsmStep.apply .empty).get [1] = some [7] := by
    intro seen hseen
    have hinits : seen ∈ [LsmStep.publish].inits := (mem_inits _ _).mpr hseen
    rcases mem_pair.mp hinits with rfl | rfl <;> decide +kernel
  rw [hresult,← hvalue,hsame seen hseen]

/-- The compaction after the publication closes the readers of the tables the get has copied: the key
is not found, though it has had its value since the first flush. -/
theorem get_misses_compacted_key :
    (run (step (.default 4194304)) .new (threeTables ++ .startGet 9 [1] :: ([.publish, .compact] ++ [.finishGet 9]))).map (fun c =>
      (match c.gets.lookup 9 with
      | some (.returned result) => result
      | _ => none, c.tree.get [1])) = some (some none, some (some [7])) ∧
    ∀ seen ∈ [[], [.publish], [LsmStep.publish, .compact]],
      ((threeTables ++ .startGet 9 [1] :: seen).foldl LsmStep.apply .empty).get [1] = some [7] := by
  constructor <;> decide +kernel

end LsmSystem
end InterchangeDb
