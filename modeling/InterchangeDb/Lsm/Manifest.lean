import InterchangeDb.Lib.Text
import InterchangeDb.Lsm.SSTable

/-! The manifest: one line for every table added or deleted, replayed on opening. -/
namespace InterchangeDb

def maxLevelCount : Nat := 7

/-- The tables of each level, and the next table id. -/
structure LevelState where
  levels : Nat → List SSTableMeta
  nextSstId : Nat

namespace LevelState

def new : LevelState := ⟨fun _ => [], 1⟩

/-- Allocate a table id; the 64-bit counter must not overflow. -/
def nextId (s : LevelState) : Option (Nat × LevelState) :=
  if s.nextSstId < u64Max then some (s.nextSstId, { s with nextSstId := s.nextSstId + 1 }) else none

def setLevel (s : LevelState) (level : Nat) (tables : List SSTableMeta) : LevelState :=
  { s with levels := Function.update s.levels level tables }

def levelSize (s : LevelState) (level : Nat) : Nat := ((s.levels level).map SSTableMeta.fileSize).sum

end LevelState

namespace Manifest

def addLine (level : Nat) (table : SSTableMeta) : List Char :=
  Text.unwords ["ADD".toList, Text.decimal level, Text.decimal table.id, Text.hexEncode table.firstKey,
    Text.hexEncode table.lastKey, Text.decimal table.fileSize, Text.decimal table.entryCount] ++ ['\n']

def delLine (sstId : Nat) : List Char := Text.unwords ["DEL".toList, Text.decimal sstId] ++ ['\n']

def hexDecode (cs : List Char) : Except String Bytes :=
  if cs.length % 2 ≠ 0 then .error "odd-length hex string"
  else
    match Text.hexPairs 0 cs with
    | .error i => .error s!"invalid hex at offset {i}: invalid digit found in string"
    | .ok bs => .ok bs

def field (name : String) (cs : List Char) : Except Error Nat :=
  match Text.parseNat (2^64) cs with
  | some n => .ok n
  | none => .error (.storageCorrupted s!"bad {name}: {String.ofList cs}")

def hexField (name : String) (cs : List Char) : Except Error Bytes :=
  match hexDecode cs with
  | .ok bs => .ok bs
  | .error e => .error (.storageCorrupted s!"bad {name} hex: {e}")

def applyAdd (s : LevelState) (level : Nat) (table : SSTableMeta) : LevelState :=
  { levels := Function.update s.levels level (s.levels level ++ [table])
    nextSstId := if s.nextSstId ≤ table.id then table.id + 1 else s.nextSstId }

def applyDel (s : LevelState) (sstId : Nat) : LevelState :=
  { s with levels := fun level => (s.levels level).filter (fun m => m.id != sstId) }

/-- The fields of an ADD line, in the order in which they are checked. -/
def parseAdd (parts : List (List Char)) (line : List Char) : Except Error (Nat × SSTableMeta) :=
  match parts with
  | [_, level, id, first, last, size, count] => do
    let level ← field "level" level
    let id ← field "sst_id" id
    let firstKey ← hexField "first_key" first
    let lastKey ← hexField "last_key" last
    let fileSize ← field "file_size" size
    let entryCount ← field "entry_count" count
    pure (level, ⟨id, firstKey, lastKey, fileSize, entryCount⟩)
  | _ => .error (.storageCorrupted
      s!"manifest ADD line has {parts.length} fields, expected 7: {String.ofList line}")

def parseDel (parts : List (List Char)) (line : List Char) : Except Error Nat :=
  match parts with
  | [_, id] => field "sst_id" id
  | _ => .error (.storageCorrupted
      s!"manifest DEL line has {parts.length} fields, expected 2: {String.ofList line}")

/-- Replay one line. A level past the last one fails the assertion. -/
def replayLine (line : List Char) (s : LevelState) : Option (Except Error LevelState) :=
  let parts := Text.words line
  if parts.head? = some "ADD".toList then
    match parseAdd parts line with
    | .error e => some (.error e)
    | .ok (level, table) => if level < maxLevelCount then some (.ok (applyAdd s level table)) else none
  else if parts.head? = some "DEL".toList then
    some ((parseDel parts line).map (applyDel s))
  else some (.error (.storageCorrupted s!"unknown manifest command: {String.ofList line}"))

/-- Drop blanks at both ends. -/
def trim (line : List Char) : List Char :=
  ((line.dropWhile Char.isWhitespace).reverse.dropWhile Char.isWhitespace).reverse

def replay : List (List Char) → LevelState → Option (Except Error LevelState)
  | [], s => some (.ok s)
  | line::rest, s =>
    if trim line = [] then replay rest s
    else
      match replayLine (trim line) s with
      | none => none
      | some (.error e) => some (.error e)
      | some (.ok s) => replay rest s

/-- Replay the whole text from the empty state. -/
def openFile (text : List Char) : Option (Except Error LevelState) := replay (Text.lines text) .new

end Manifest
end InterchangeDb
