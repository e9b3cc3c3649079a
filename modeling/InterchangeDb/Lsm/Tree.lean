import InterchangeDb.Lsm.Store

/-! The LSM tree: writes go to the memtable, a flush writes it as a table, reads ask the memtables first. -/
namespace InterchangeDb

abbrev FrozenMemtable := OrdMap Bytes (Option Bytes)

structure Memtable where
  entries : FrozenMemtable
  sizeBytes : Nat

namespace Memtable

def entryOverheadBytes : Nat := 32

def new : Memtable := ⟨.empty, 0⟩

def put (m : Memtable) (key value : Bytes) : Memtable :=
  { entries := m.entries.insert key (some value)
    sizeBytes :=
      match m.entries.get key with
      | some old => m.sizeBytes - old.elim 0 List.length + value.length
      | none => m.sizeBytes + (key.length + value.length + entryOverheadBytes) }

/-- A deletion is a tombstone. -/
def delete (m : Memtable) (key : Bytes) : Memtable :=
  { entries := m.entries.insert key none
    sizeBytes :=
      match m.entries.get key with
      | some old => m.sizeBytes - old.elim 0 List.length
      | none => m.sizeBytes + (key.length + entryOverheadBytes) }

end Memtable

structure LsmTree where
  memtable : Memtable
  /-- Frozen memtables, oldest first, with the table id that tells them apart. -/
  immutableMemtables : List (Nat × FrozenMemtable)
  store : SstStore

namespace LsmTree
variable [Crc32]
open SstStore

def new : LsmTree := ⟨.new, [], .new⟩

variable (t : LsmTree)

/-- The active memtable, then the frozen ones, newest first. -/
def findInMemory (key : Bytes) : Option (Option Bytes) :=
  (t.memtable.entries.get key).or (t.immutableMemtables.reverse.findSome? (fun imm => imm.2.get key))

def get (key : Bytes) : Option (Option Bytes) :=
  match t.findInMemory key with
  | some result => some result
  | none => (findInTables t.store.readers key (searchOrder t.store.levelState.levels key)).map Option.join

/-- Bounds a memtable can be asked for: not inverted, and not excluding one key twice. -/
def wellFormedRange : Bound Bytes → Bound Bytes → Bool
  | .excluded a, .excluded b => decide (a < b)
  | .included a, .included b | .included a, .excluded b | .excluded a, .included b => decide (a ≤ b)
  | .unbounded, _ | _, .unbounded => true

def scan (lo hi : Bound Bytes) : Option (List (Bytes × Bytes)) :=
  if wellFormedRange lo hi then
    let sources := t.memtable.entries.range lo hi :: t.immutableMemtables.reverse.map (fun imm => imm.2.range lo hi)
    let merged := MergeIterator.collectAll
      (sources ++ tableSources t.store.readers lo hi (scanOrder t.store.levelState.levels))
    some (merged.filterMap (fun e => e.2.map (fun v => (e.1, v))))
  else none

/-- Phase 1: swap the active memtable into the immutable list. -/
def freeze (cfg : LsmConfig) (force : Bool) (t : LsmTree) : Option (Option (Nat × FrozenMemtable) × LsmTree) :=
  if t.memtable.entries.entries = [] then some (none, t)
  else if !force && decide (t.memtable.sizeBytes < cfg.memtableSizeLimit) then some (none, t)
  else
    t.store.levelState.nextId.map (fun r =>
      (some (r.1, t.memtable.entries),
        { memtable := .new
          immutableMemtables := t.immutableMemtables ++ [(r.1, t.memtable.entries)]
          store := { t.store with levelState := r.2 } }))

/-- Phase 2: write the table and its manifest line. -/
def writeFrozen (sstId : Nat) (frozen : FrozenMemtable) : Option (Option (SSTableMeta × SSTable) × LsmTree) :=
  match SSTable.write sstId frozen.entries with
  | none => none
  | some none => some (none, t)
  | some (some (m, table)) =>
    some (some (m, table), { t with store := t.store.logFlushed m table })

/-- Phase 3, last part: drop the frozen memtable. -/
def retire (sstId : Nat) : LsmTree :=
  { t with immutableMemtables := t.immutableMemtables.filter (fun imm => imm.1 != sstId) }

def flush (cfg : LsmConfig) (force : Bool) (t : LsmTree) : Option LsmTree :=
  match freeze cfg force t with
  | none => none
  | some (none, t) => some t
  | some (some (sstId, frozen), t) =>
    match writeFrozen t sstId frozen with
    | none => none
    | some (none, t) => some (t.retire sstId)
    | some (some (m, table), t) =>
      (maybeCompact cfg (t.store.publish m table)).map (fun s => { t with store := s }.retire sstId)

def flushIfOver (cfg : LsmConfig) (t : LsmTree) : Option LsmTree :=
  if cfg.memtableSizeLimit ≤ t.memtable.sizeBytes then flush cfg false t else some t

def put (cfg : LsmConfig) (t : LsmTree) (key value : Bytes) : Option LsmTree :=
  flushIfOver cfg { t with memtable := t.memtable.put key value }

def delete (cfg : LsmConfig) (t : LsmTree) (key : Bytes) : Option LsmTree :=
  flushIfOver cfg { t with memtable := t.memtable.delete key }

/-- Open a tree on a manifest and the table files of its directory. -/
def openTree (manifest : List Char) (files : SSTables) : Option (Except Error LsmTree) :=
  (openStore manifest files).map (fun r => r.map (fun s => ⟨.new, [], s⟩))

end LsmTree

inductive LsmOp where
  | put (key value : Bytes)
  | delete (key : Bytes)
  | flushMemtable
  | compactL0
  | compactLevel (level : Nat)
  deriving DecidableEq, Repr

def LsmTree.step [Crc32] (cfg : LsmConfig) (t : LsmTree) : LsmOp → Option LsmTree
  | .put key value => t.put cfg key value
  | .delete key => t.delete cfg key
  | .flushMemtable => t.flush cfg true
  | .compactL0 => (t.store.compactL0 cfg).map (fun s => { t with store := s })
  | .compactLevel level => (t.store.compactLevel cfg level).map (fun s => { t with store := s })

/-- The effect of an operation on the ordered map. -/
def LsmOp.apply : Engine → LsmOp → Engine
  | e, .put key value => e.put key value
  | e, .delete key => e.delete key
  | e, .flushMemtable | e, .compactL0 | e, .compactLevel _ => e

end InterchangeDb
