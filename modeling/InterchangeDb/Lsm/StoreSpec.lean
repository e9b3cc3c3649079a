import InterchangeDb.Lsm.Store

/-! The tables as layers: a key has the entry of the first table, in order of recency, that holds it. -/
namespace InterchangeDb
open List Option AList
namespace SstStore
variable [Crc32]
open OrdMap (find)
open Layers
variable {levels : Nat → List SSTableMeta}

/-- The table of an id, as its metadata describes it. -/
structure Holds (tables : SSTables) (m : SSTableMeta) (table : SSTable) : Prop where
  lookup : tables.lookup m.id = some table
  sound : table.Sound
  firstKey : m.firstKey = table.firstKey
  lastKey : m.lastKey = table.lastKey

omit [Crc32] in
/-- The entries a table stands for. -/
def contents (readers : SSTables) (m : SSTableMeta) : List Entry :=
  ((readers.lookup m.id).map SSTable.iter).getD []

/-- The entries of each table of a level. -/
def tables (s : SstStore) (l : Nat) : List (List Entry) := (s.levelState.levels l).map (contents s.readers)

def newestFirst {A : Type} (levels : Nat → List A) (l : Nat) : List A :=
  if l = 0 then (levels 0).reverse else levels l

/-- The entry of a key in one level. -/
def levelView (s : SstStore) (l : Nat) (k : Bytes) : Option (Option Bytes) := layered (newestFirst s.tables l) k

def view (s : SstStore) (k : Bytes) : Option (Option Bytes) :=
  (List.range maxLevelCount).findSome? (fun l => s.levelView l k)

/-- The value of a key: a tombstone counts as no entry. -/
def value (s : SstStore) (k : Bytes) : Option Bytes := (s.view k).join

section

variable {s s' : SstStore} (hlevels : s'.levelState.levels = s.levelState.levels) (hreaders : s'.readers = s.readers)
include hlevels hreaders

omit [Crc32] in
theorem tables_congr : s'.tables = s.tables := by
  funext l
  rw [tables,tables,hlevels,hreaders]

omit [Crc32] in
theorem view_congr (k : Bytes) : s'.view k = s.view k := by
  simp only [view,levelView,tables_congr hlevels hreaders]

end

section Reads
variable {readers : SSTables}
variable {m : SSTableMeta} {table : SSTable} {ms level : List SSTableMeta}

section

variable (h : Holds readers m table)
include h

theorem Holds.contents_eq :
    contents readers m = table.iter := by
  simp [contents,h.lookup]

theorem Holds.ascending :
    Ascending (contents readers m) := by
  rw [h.contents_eq]
  exact h.sound.sorted

theorem Holds.key_bounds {e : Entry} (he : e ∈ contents readers m) : m.firstKey ≤ e.1 ∧ e.1 ≤ m.lastKey := by
  rw [h.contents_eq] at he
  rw [h.firstKey,h.lastKey]
  exact h.sound.key_bounds e he

theorem Holds.find_outside {k : Bytes} (hk : k < m.firstKey ∨ m.lastKey < k) : find k (contents readers m) = none := by
  rw [h.firstKey,h.lastKey] at hk
  rw [h.contents_eq]
  exact h.sound.find_outside hk

theorem Holds.first_le_last :
    m.firstKey ≤ m.lastKey := by
  obtain ⟨e,he,hfirst⟩ := h.sound.firstKey_mem
  rw [h.firstKey,h.lastKey,← hfirst]
  exact (h.sound.key_bounds e he).2

end

theorem findInTables_eq (h : ∀ m ∈ ms, ∃ table, Holds readers m table) (key : Bytes) :
    findInTables readers key ms = some (layered (ms.map (contents readers)) key) := by
  induction ms with
  | nil => rfl
  | cons m ms ih =>
    obtain ⟨table,ht⟩ := h m mem_cons_self
    have hrest := ih (fun x hx => h x (mem_cons_of_mem _ hx))
    rw [findInTables,ht.lookup,hrest,map_cons,layered_cons,ht.contents_eq]
    dsimp only
    by_cases hmay : table.mayContain key
    · rw [if_neg (by simp [hmay]),ht.sound.get_eq]
      cases find key table.iter <;> rfl
    · rw [if_pos (by simp [hmay]),ht.sound.find_of_not_mayContain (by simpa using hmay),none_or]

/-- Tables side by side in key order. -/
abbrev InOrder (level : List SSTableMeta) : Prop := level.Pairwise (fun a b => a.lastKey < b.firstKey)

section

variable (h : ∀ m ∈ level, ∃ table, Holds readers m table) (hsorted : InOrder level)
include h hsorted

theorem pairwise_apart : (level.map (contents readers)).Pairwise Apart := by
  rw [pairwise_map]
  refine hsorted.imp_of_mem (fun {a b} ha hb hab k => ?_)
  obtain ⟨ta,hta⟩ := h a ha
  obtain ⟨tb,htb⟩ := h b hb
  rcases le_or_gt k a.lastKey with hle | hlt
  · exact .inr (htb.find_outside (.inl (hle.trans_lt hab)))
  · exact .inl (hta.find_outside (.inr hlt))

/-- The binary search picks the only table of a sorted level that can hold the key. -/
theorem levelCandidate_eq (key : Bytes) :
    layered ((levelCandidate level key).map (contents readers)) key = layered (level.map (contents readers)) key := by
  have hpart : level.Pairwise (fun a b => decide (b.lastKey < key) = true → decide (a.lastKey < key) = true) := by
    refine hsorted.imp_of_mem (fun {a b} _ hb hab hkey => ?_)
    obtain ⟨table,ht⟩ := h b hb
    exact decide_eq_true ((hab.trans_le ht.first_le_last).trans (of_decide_eq_true hkey))
  obtain ⟨as,bs,rfl,has,hbs,hpoint⟩ := exists_partition hpart
  have hbelow : layered (as.map (contents readers)) key = none := by
    rw [layered_eq_none_iff,List.forall_mem_map]
    intro a ha
    obtain ⟨table,ht⟩ := h a (mem_append_left _ ha)
    exact ht.find_outside (.inr (of_decide_eq_true (has a ha)))
  rw [levelCandidate,hpoint,List.getElem?_append_right le_rfl,Nat.sub_self,map_append,layered_append,
    hbelow,none_or]
  cases bs with
  | nil => rfl
  | cons b bs =>
    obtain ⟨table,ht⟩ := h b (by simp)
    have habove : ∀ m ∈ bs, key < m.firstKey := by
      intro m hm
      have hkey := of_decide_eq_false (hbs b mem_cons_self)
      exact (not_lt.mp hkey).trans_lt (rel_of_pairwise_cons (pairwise_append.mp hsorted).2.1 hm)
    have hrest : layered (bs.map (contents readers)) key = none := by
      rw [layered_eq_none_iff,List.forall_mem_map]
      intro m hm
      obtain ⟨table,ht⟩ := h m (by simp [hm])
      exact ht.find_outside (.inl (habove m hm))
    rw [getElem?_cons_zero,map_cons,layered_cons,hrest,or_none]
    dsimp only
    split_ifs with hlt
    · rw [ht.find_outside (.inl hlt)]
      rfl
    · rw [map_singleton,layered_cons,layered_nil,or_none]

end

/-- A table cut to a range, and the pruning of tables that miss it, keep the entries of the range. -/
theorem layered_tableSources (h : ∀ m ∈ ms, ∃ table, Holds readers m table) (lo hi : Bound Bytes) (k : Bytes) :
    layered (tableSources readers lo hi ms) k =
      if lo.above k && hi.below k then layered (ms.map (contents readers)) k else none := by
  induction ms with
  | nil => simp [tableSources]
  | cons m ms ih =>
    obtain ⟨table,ht⟩ := h m mem_cons_self
    have hrest := ih (fun x hx => h x (mem_cons_of_mem _ hx))
    unfold tableSources at hrest ⊢
    rw [filterMap_cons,map_cons,layered_cons,ht.contents_eq,ht.lookup]
    by_cases hspan : spanOverlapsRange m.firstKey m.lastKey lo hi
    · simp only [hspan,if_true,map_some]
      rw [layered_cons,hrest,find_filter (fun k => lo.above k && hi.below k)]
      split_ifs <;> rfl
    · simp only [hspan,Bool.false_eq_true,if_false,hrest]
      split_ifs with hin
      · -- a key of the range outside the span of the table
        suffices hnone : find k table.iter = none by rw [hnone,none_or]
        refine find_eq_none_iff.mpr (fun e he hk => hspan ?_)
        obtain ⟨hfirst,hlast⟩ := ht.key_bounds (by rwa [ht.contents_eq])
        rw [hk] at hfirst hlast
        obtain ⟨hlo,hhi⟩ := (Bool.and_eq_true _ _).mp hin
        rw [spanOverlapsRange,Bool.and_eq_true]
        exact ⟨lo.above_mono hlast hlo,hi.below_mono hfirst hhi⟩
      · rfl

theorem ascending_of_mem_tableSources (h : ∀ m ∈ ms, ∃ table, Holds readers m table)
    {lo hi : Bound Bytes} {source : List Entry} (hs : source ∈ tableSources readers lo hi ms) : Ascending source := by
  obtain ⟨m,hm,hsource⟩ := mem_filterMap.mp hs
  obtain ⟨table,ht⟩ := h m hm
  split_ifs at hsource
  rw [ht.lookup] at hsource
  cases hsource
  exact ht.sound.sorted.filter _

end Reads

/-- The tables of a store: each level names sound tables that have a reader and a file, ids
are used once, and the levels below the first stand in key order. -/
structure Ok (s : SstStore) : Prop where
  reader : ∀ l, ∀ m ∈ s.levelState.levels l, ∃ table, Holds s.readers m table
  file : ∀ l, ∀ m ∈ s.levelState.levels l, s.files.lookup m.id = s.readers.lookup m.id
  unique : ∀ l l' m m', m ∈ s.levelState.levels l → m' ∈ s.levelState.levels l' → m.id = m'.id → l = l' ∧ m = m'
  bound : ∀ l, ∀ m ∈ s.levelState.levels l, m.id < s.levelState.nextSstId
  sorted : ∀ l, 1 ≤ l → InOrder (s.levelState.levels l)
  deep : ∀ l, maxLevelCount ≤ l → s.levelState.levels l = []
  idMax : s.levelState.nextSstId ≤ u64Max

/-- A property of every entry in the tables. -/
def All (P : Entry → Prop) (s : SstStore) : Prop := ∀ l, ∀ es ∈ s.tables l, ∀ e ∈ es, P e

theorem ok_new : SstStore.new.Ok := by
  refine ⟨?_,?_,?_,?_,?_,?_,by decide⟩ <;> simp [new,LevelState.new]

omit [Crc32] in
theorem view_new (k : Bytes) : SstStore.new.view k = none := by
  refine findSome?_eq_none_iff.mpr (fun l _ => ?_)
  rw [levelView,newestFirst]
  split_ifs <;> rfl

omit [Crc32] in
theorem mem_newestFirst {l : Nat} {m : SSTableMeta} :
    m ∈ newestFirst levels l ↔ m ∈ levels l := by
  unfold newestFirst
  split_ifs with h
  · rw [mem_reverse,h]
  · exact .rfl

omit [Crc32] in
theorem newestFirst_congr {A : Type} {levels levels' : Nat → List A} {l : Nat} (h : levels l = levels' l) :
    newestFirst levels l = newestFirst levels' l := by
  unfold newestFirst
  split_ifs with hl
  · subst hl
    rw [h]
  · exact h

omit [Crc32] in
theorem levelView_congr {s s' : SstStore} {l : Nat} (h : s'.tables l = s.tables l) (k : Bytes) :
    s'.levelView l k = s.levelView l k := by
  rw [levelView,levelView,newestFirst_congr h]

omit [Crc32] in
theorem scanOrder_eq (levels : Nat → List SSTableMeta) : scanOrder levels = (List.range maxLevelCount).flatMap (newestFirst levels) := by
  rfl

omit [Crc32] in
theorem layered_scanOrder (s : SstStore) (k : Bytes) :
    layered ((scanOrder s.levelState.levels).map (contents s.readers)) k = s.view k := by
  have hmap : ∀ l, (newestFirst s.levelState.levels l).map (contents s.readers) = newestFirst s.tables l := by
    intro l
    unfold newestFirst
    split_ifs
    · exact map_reverse
    · rfl
  rw [scanOrder_eq,map_flatMap,layered_flatMap]
  simp only [hmap]
  rfl

theorem Ok.holds_scanOrder {s : SstStore} (h : s.Ok) : ∀ m ∈ scanOrder s.levelState.levels, ∃ table, Holds s.readers m table := by
  intro m hm
  rw [scanOrder_eq] at hm
  obtain ⟨l,-,hml⟩ := mem_flatMap.mp hm
  exact h.reader l m (mem_newestFirst.mp hml)

omit [Crc32] in
theorem mem_searchOrder {key : Bytes} {m : SSTableMeta} (hm : m ∈ searchOrder levels key) :
    ∃ l, m ∈ levels l := by
  have hcand : ∀ l, ∀ m ∈ levelCandidate (levels l) key, m ∈ levels l := by
    intro l m hm
    unfold levelCandidate at hm
    split at hm
    · cases hm
    · next hget =>
      split_ifs at hm
      · cases hm
      · rw [mem_singleton.mp hm]
        exact mem_of_getElem? hget
  rcases mem_append.mp hm with hm | hm
  · exact ⟨0,mem_reverse.mp hm⟩
  · obtain ⟨l,-,hml⟩ := mem_flatMap.mp hm
    exact ⟨l,hcand l m hml⟩

theorem Ok.findInTables_searchOrder {s : SstStore} (h : s.Ok) (key : Bytes) :
    findInTables s.readers key (searchOrder s.levelState.levels key) = some (s.view key) := by
  have hmem : ∀ m ∈ searchOrder s.levelState.levels key, ∃ table, Holds s.readers m table := by
    intro m hm
    obtain ⟨l,hl⟩ := mem_searchOrder hm
    exact h.reader l m hl
  have hdeep : ∀ l, 1 ≤ l → layered ((levelCandidate (s.levelState.levels l) key).map (contents s.readers)) key =
      layered ((s.levelState.levels l).map (contents s.readers)) key :=
    fun l hl => levelCandidate_eq (h.reader l) (h.sorted l hl) key
  rw [findInTables_eq hmem,← layered_scanOrder,searchOrder,scanOrder,map_append,map_append,layered_append,
    layered_append,map_flatMap,map_flatMap]
  congr 2
  apply layered_flatMap_congr
  intro l hl
  exact hdeep l (mem_range'_1.mp hl).1

section Flushed
variable {s : SstStore} {m : SSTableMeta} {table : SSTable}

theorem ok_nextId (h : s.Ok) {r : Nat × LevelState} (hid : s.levelState.nextId = some r) :
    r.1 = s.levelState.nextSstId ∧ r.2.nextSstId = r.1 + 1 ∧ r.2.levels = s.levelState.levels ∧
      SstStore.Ok { s with levelState := r.2 } := by
  unfold LevelState.nextId at hid
  split_ifs at hid with hmax
  cases hid
  exact ⟨rfl,rfl,rfl,⟨h.reader,h.file,h.unique,fun l m hm => Nat.lt_succ_of_lt (h.bound l m hm),h.sorted,h.deep,hmax⟩⟩

theorem ok_logFlushed (h : s.Ok) (hfresh : ∀ l, ∀ x ∈ s.levelState.levels l, x.id ≠ m.id) : (s.logFlushed m table).Ok := by
  refine ⟨h.reader,fun l x hx => ?_,h.unique,h.bound,h.sorted,h.deep,h.idMax⟩
  rw [← show s.files.lookup x.id = (s.logFlushed m table).readers.lookup x.id from h.file l x hx]
  exact lookup_insert_ne (hfresh l x hx)

omit [Crc32] in
theorem levels_publish (l : Nat) :
    (s.publish m table).levelState.levels l = if l = 0 then s.levelState.levels 0 ++ [m] else s.levelState.levels l := by
  simp [publish,LevelState.setLevel,Function.update_apply]

omit [Crc32] in
theorem mem_publish {l : Nat} {x : SSTableMeta} (hx : x ∈ (s.publish m table).levelState.levels l) :
    x ∈ s.levelState.levels l ∨ (l = 0 ∧ x = m) := by
  rw [levels_publish] at hx
  split_ifs at hx with hl
  · subst hl
    rcases mem_append.mp hx with hx | hx
    · exact .inl hx
    · exact .inr ⟨rfl,mem_singleton.mp hx⟩
  · exact .inl hx

theorem ok_publish (h : s.Ok) (hfresh : ∀ l, ∀ x ∈ s.levelState.levels l, x.id ≠ m.id) (hbound : m.id < s.levelState.nextSstId)
    (hfile : Holds s.files m table) : (s.publish m table).Ok := by
  have hself : (s.publish m table).readers.lookup m.id = some table := lookup_insert _
  have hother : ∀ l, ∀ x ∈ s.levelState.levels l, (s.publish m table).readers.lookup x.id = s.readers.lookup x.id :=
    fun l x hx => lookup_insert_ne (hfresh l x hx)
  refine ⟨?_,?_,?_,?_,?_,?_,h.idMax⟩
  · intro l x hx
    rcases mem_publish hx with hx | ⟨-,rfl⟩
    · obtain ⟨t,ht⟩ := h.reader l x hx
      exact ⟨t,(hother l x hx).trans ht.lookup,ht.sound,ht.firstKey,ht.lastKey⟩
    · exact ⟨table,hself,hfile.sound,hfile.firstKey,hfile.lastKey⟩
  · intro l x hx
    rcases mem_publish hx with hx | ⟨-,rfl⟩
    · rw [hother l x hx]
      exact h.file l x hx
    · rw [hself]
      exact hfile.lookup
  · intro l l' x x' hx hx' heq
    rcases mem_publish hx with hold | ⟨hl,hxm⟩ <;> rcases mem_publish hx' with hold' | ⟨hl',hxm'⟩
    · exact h.unique l l' x x' hold hold' heq
    · exact (hfresh l x hold (hxm' ▸ heq)).elim
    · exact (hfresh l' x' hold' (hxm ▸ heq.symm)).elim
    · exact ⟨hl.trans hl'.symm,hxm.trans hxm'.symm⟩
  · intro l x hx
    rcases mem_publish hx with hx | ⟨-,rfl⟩
    · exact h.bound l x hx
    · exact hbound
  · intro l hl
    rw [levels_publish,if_neg (by omega)]
    exact h.sorted l hl
  · intro l hl
    have hpos : 0 < maxLevelCount := by decide
    rw [levels_publish,if_neg (by omega)]
    exact h.deep l hl

section

variable (hfresh : ∀ l, ∀ x ∈ s.levelState.levels l, x.id ≠ m.id)
include hfresh

omit [Crc32] in
theorem tables_publish (l : Nat) :
    (s.publish m table).tables l = if l = 0 then s.tables 0 ++ [table.iter] else s.tables l := by
  have hself : contents (s.publish m table).readers m = table.iter := by
    rw [contents,show (s.publish m table).readers.lookup m.id = some table from lookup_insert _]
    rfl
  have hother : ∀ l, (s.levelState.levels l).map (contents (s.publish m table).readers) = s.tables l :=
    fun l => map_congr_left (fun x hx => congrArg (fun o => (Option.map SSTable.iter o).getD []) (lookup_insert_ne (hfresh l x hx)))
  rw [tables,levels_publish]
  split_ifs
  · rw [map_append,hother,map_singleton,hself]
  · exact hother l

omit [Crc32] in
theorem all_publish {P : Entry → Prop} (h : s.All P) (htable : ∀ e ∈ table.iter, P e) : (s.publish m table).All P := by
  intro l es hes e he
  rw [tables_publish hfresh] at hes
  split_ifs at hes
  · rcases mem_append.mp hes with hes | hes
    · exact h 0 es hes e he
    · exact htable e (mem_singleton.mp hes ▸ he)
  · exact h l es hes e he

omit [Crc32] in
theorem view_publish (k : Bytes) : (s.publish m table).view k = (find k table.iter).or (s.view k) := by
  have hzero : (s.publish m table).levelView 0 k = (find k table.iter).or (s.levelView 0 k) := by
    rw [levelView,newestFirst,if_pos rfl,tables_publish hfresh,if_pos rfl,reverse_append,reverse_singleton,singleton_append,
      layered_cons]
    rfl
  have hrange : range maxLevelCount = 0 :: range' 1 (maxLevelCount - 1) := by decide
  have hrest : (range' 1 (maxLevelCount - 1)).findSome? (fun l => (s.publish m table).levelView l k) =
      (range' 1 (maxLevelCount - 1)).findSome? (fun l => s.levelView l k) := by
    apply findSome?_congr
    intro l hl
    have := (mem_range'_1.mp hl).1
    exact levelView_congr (by rw [tables_publish hfresh,if_neg (by omega)]) k
  rw [view,view,hrange,findSome?_cons,findSome?_cons,hzero,hrest]
  cases find k table.iter <;> rfl

end

end Flushed

end SstStore
end InterchangeDb
