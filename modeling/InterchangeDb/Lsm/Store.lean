import InterchangeDb.Lsm.Manifest

/-! The tables of an LSM tree: levels, open readers, manifest and files. A failed assertion has no result. -/
namespace InterchangeDb

structure LsmConfig where
  memtableSizeLimit : Nat
  maxL0SstableCount : Nat
  levelSizeRatio : Nat
  targetSstableSizeBytes : Nat

/-- The constants of the source for a given memtable threshold. -/
def LsmConfig.default (memtableSizeLimit : Nat) : LsmConfig := ⟨memtableSizeLimit, 4, 10, 4 * 1024 * 1024⟩

/-- The entries of the largest table file, of n in all: those of a full memtable, or of the longest run that compaction cuts. -/
def LsmConfig.tableEntries (cfg : LsmConfig) (n : Nat) : Nat :=
  min n (max (cfg.memtableSizeLimit / 32 + 1) (cfg.targetSstableSizeBytes / 5 + 2))

theorem LsmConfig.tableEntries_mono (cfg : LsmConfig) {m n : Nat} (h : m ≤ n) : cfg.tableEntries m ≤ cfg.tableEntries n :=
  min_le_min_right _ h

/-- Tables by id. -/
abbrev SSTables := AList (fun _ : Nat => SSTable)

structure SstStore where
  levelState : LevelState
  readers : SSTables
  manifest : List Char
  /-- The table files. -/
  files : SSTables

namespace SstStore
variable [Crc32]

def new : SstStore := ⟨.new, ∅, [], ∅⟩

/-- Ask tables in turn; a table without a reader is skipped. -/
def findInTables (readers : SSTables) (key : Bytes) :
    List SSTableMeta → Option (Option (Option Bytes))
  | [] => some none
  | m::ms =>
    match readers.lookup m.id with
    | none => findInTables readers key ms
    | some reader =>
      if !reader.mayContain key then findInTables readers key ms
      else
        match reader.get key with
        | none => none
        | some (some result) => some (some result)
        | some none => findInTables readers key ms

/-- The table of a sorted level whose range holds the key, found by binary search. -/
def levelCandidate (level : List SSTableMeta) (key : Bytes) : List SSTableMeta :=
  match level[partitionPoint (fun m => decide (m.lastKey < key)) level]? with
  | none => []
  | some m => if key < m.firstKey then [] else [m]

/-- Level 0 newest first, then one candidate in each deeper level. -/
def searchOrder (levels : Nat → List SSTableMeta) (key : Bytes) : List SSTableMeta :=
  (levels 0).reverse ++ (List.range' 1 (maxLevelCount - 1)).flatMap (fun l => levelCandidate (levels l) key)

/-- A table whose keys span the range may hold a key of it. -/
def spanOverlapsRange (first last : Bytes) (lo hi : Bound Bytes) : Bool := lo.above last && hi.below first

def tableSources (readers : SSTables) (lo hi : Bound Bytes) (tables : List SSTableMeta) :
    List (List Entry) :=
  tables.filterMap (fun m =>
    if spanOverlapsRange m.firstKey m.lastKey lo hi then
      (readers.lookup m.id).map (fun r => r.iter.filter (fun e => lo.above e.1 && hi.below e.1))
    else none)

/-- The tables of all levels in order of priority. -/
def scanOrder (levels : Nat → List SSTableMeta) : List SSTableMeta :=
  (levels 0).reverse ++ (List.range' 1 (maxLevelCount - 1)).flatMap levels

/-- The inputs that have a reader, with their entries. -/
def inputs (s : SstStore) (tables : List SSTableMeta) : List (Nat × List Entry) :=
  tables.filterMap (fun m => (s.readers.lookup m.id).map (fun r => (m.id, r.iter)))

def isBottomLevel (level : Nat) (s : LevelState) : Bool :=
  (List.range' (level+1) (maxLevelCount - (level+1))).all (fun l => (s.levels l).isEmpty)

/-- Cut merged entries at the target size. -/
def batches (target : Nat) : List Entry → List Entry → Nat → List (List Entry)
  | [], cur, _ => if cur = [] then [] else [cur]
  | e::es, cur, size =>
    let size := size + (e.1.length + e.2.elim 0 List.length + 4)
    if target ≤ size then (cur ++ [e]) :: batches target es [] 0 else batches target es (cur ++ [e]) size

/-- Write each batch to a table of its own. -/
def flushBatches : List (List Entry) → LevelState → Option (List (SSTableMeta × SSTable) × LevelState)
  | [], s => some ([], s)
  | batch::rest, s =>
    match s.nextId with
    | none => none
    | some (sstId, s) =>
      match SSTable.write sstId batch with
      | none => none
      | some none => flushBatches rest s
      | some (some table) => (flushBatches rest s).map (fun r => (table :: r.1, r.2))

variable (cfg : LsmConfig)

def writeSplitSstables (entries : List Entry) (s : LevelState) (isBottom : Bool) :
    Option (List (SSTableMeta × SSTable) × LevelState) :=
  flushBatches (batches cfg.targetSstableSizeBytes (entries.filter (fun e => !isBottom || e.2.isSome)) [] 0) s

def insertTable (level : List SSTableMeta) (m : SSTableMeta) : List SSTableMeta :=
  level.insertIdx (partitionPoint (fun x => decide (x.firstKey < m.firstKey)) level) m

/-- A merge on its way: the input ids, the tables written for it, the tables of the target
level that take no part, and the level state after the allocation of ids. -/
structure Merge where
  ids : List Nat
  out : List (SSTableMeta × SSTable)
  remaining : List SSTableMeta
  levelState : LevelState

/-- The span of a table meets a key range. -/
def meets (minKey maxKey : Bytes) (m : SSTableMeta) : Bool := decide (minKey ≤ m.lastKey ∧ m.firstKey ≤ maxKey)

/-- Merge tables with the tables of the target level that the key range meets. -/
def merge (s : SstStore) (top : List SSTableMeta) (minKey maxKey : Bytes) (target : Nat) : Option Merge :=
  let ins := s.inputs (top ++ (s.levelState.levels target).filter (meets minKey maxKey))
  let merged := MergeIterator.collectAll (ins.map Prod.snd)
  (writeSplitSstables cfg merged s.levelState (isBottomLevel target s.levelState)).map (fun r =>
    ⟨ins.map Prod.fst, r.1, (s.levelState.levels target).filter (fun m => !meets minKey maxKey m), r.2⟩)

/-- The manifest lines of a merge: the inputs go, then the outputs come. -/
def Merge.lines (r : Merge) (target : Nat) : List Char :=
  r.ids.flatMap Manifest.delLine ++ (r.out.map Prod.fst).flatMap (Manifest.addLine target)

/-- The files while the manifest is written: new ones next to the old. -/
def Merge.files (r : Merge) (s : SstStore) : SSTables :=
  r.out.foldl (fun m x => m.insert x.1.id x.2) s.files

/-- Log the merge, exchange the readers, remove the old files and update the level it
came from and the next one. -/
def Merge.install (r : Merge) (s : SstStore) (level : Nat) (stay : List SSTableMeta) : SstStore :=
  { levelState := (r.levelState.setLevel level stay).setLevel (level+1) ((r.out.map Prod.fst).foldl insertTable r.remaining)
    manifest := s.manifest ++ r.lines (level+1)
    readers := r.out.foldl (fun m x => m.insert x.1.id x.2) (r.ids.foldl (fun m id => m.erase id) s.readers)
    files := r.ids.foldl (fun m id => m.erase id) (r.files s) }

/-- The key range of all tables of level 0. -/
def l0MinKey (m : SSTableMeta) (ms : List SSTableMeta) : Bytes :=
  (m::ms).foldl (fun k x => if x.firstKey < k then x.firstKey else k) m.firstKey

def l0MaxKey (m : SSTableMeta) (ms : List SSTableMeta) : Bytes :=
  (m::ms).foldl (fun k x => if k < x.lastKey then x.lastKey else k) m.lastKey

/-- All tables of level 0, newest first, with the tables of level 1 that their range meets. -/
def l0Merge (s : SstStore) (m : SSTableMeta) (ms : List SSTableMeta) : Option Merge :=
  merge cfg s (m::ms).reverse (l0MinKey m ms) (l0MaxKey m ms) 1

/-- One table of a level with the tables of the next level that its range meets. -/
def levelMerge (s : SstStore) (level : Nat) (picked : SSTableMeta) : Option Merge :=
  merge cfg s [picked] picked.firstKey picked.lastKey (level+1)

def compactL0 (s : SstStore) : Option SstStore :=
  match s.levelState.levels 0 with
  | [] => some s
  | m::ms => (l0Merge cfg s m ms).map (fun r => r.install s 0 [])

/-- The first table of a level moves down. -/
def compactLevel (level : Nat) (s : SstStore) : Option SstStore :=
  if 1 ≤ level ∧ level < maxLevelCount - 1 then
    match s.levelState.levels level with
    | [] => some s
    | picked::_ =>
      (levelMerge cfg s level picked).map (fun r =>
        r.install s level ((s.levelState.levels level).filter (fun m => m.id != picked.id)))
  else none

/-- The size limit of a level, in 64-bit arithmetic. -/
def levelSizeLimit (level : Nat) : Nat :=
  (fun limit => limit * cfg.levelSizeRatio % 2^64)^[level-1] (cfg.maxL0SstableCount * cfg.memtableSizeLimit % 2^64)

def compactLevels (cfg : LsmConfig) : List Nat → SstStore → Option SstStore
  | [], s => some s
  | level::rest, s =>
    if levelSizeLimit cfg level < s.levelState.levelSize level then
      match compactLevel cfg level s with
      | none => none
      | some s => compactLevels cfg rest s
    else compactLevels cfg rest s

def maybeCompact (s : SstStore) : Option SstStore :=
  (if cfg.maxL0SstableCount ≤ (s.levelState.levels 0).length then compactL0 cfg s else some s).bind
    (compactLevels cfg (List.range' 1 (maxLevelCount - 2)))

/-- A flushed table: its file and its manifest line. -/
def logFlushed (s : SstStore) (m : SSTableMeta) (table : SSTable) : SstStore :=
  { s with files := s.files.insert m.id table, manifest := s.manifest ++ Manifest.addLine 0 m }

/-- The reader of a flushed table, and then its level 0 entry. -/
def publish (s : SstStore) (m : SSTableMeta) (table : SSTable) : SstStore :=
  { s with
    readers := s.readers.insert m.id table
    levelState := s.levelState.setLevel 0 (s.levelState.levels 0 ++ [m]) }

/-- Open the readers of the tables whose file exists. -/
def openReaders (files : SSTables) (tables : List SSTableMeta) : SSTables :=
  tables.foldl (fun readers m => (files.lookup m.id).elim readers (fun t => readers.insert m.id t)) ∅

/-- Open the tables named by a manifest among the files of its directory. -/
def openStore (manifest : List Char) (files : SSTables) : Option (Except Error SstStore) :=
  (Manifest.openFile manifest).map (fun r => r.map (fun s =>
    ⟨s, openReaders files ((List.range maxLevelCount).flatMap s.levels), manifest, files⟩))

end SstStore
end InterchangeDb
