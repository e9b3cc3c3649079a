import InterchangeDb.Sql.Statement

/-! Typed rows over the engine handle of a transaction, with the secondary indexes of the table. -/
namespace InterchangeDb

structure Table where
  schema : Schema
  indexes : List IndexHandle

def makeRowKey (tableId : Fin 4294967296) (pkEncoded : Bytes) : Bytes := toBeBytes 4 tableId.val ++ pkEncoded

/-- The next table, for the end of a scan. -/
def TableId.next (tableId : Fin 4294967296) : Except Error (Fin 4294967296) :=
  if tableId.val = u32Max then .error (.storageCorrupted "TableId::next: u32 overflow") else .ok (tableId + 1)

namespace Table

section Layout

def putRow (t : Table) (pkEncoded : Bytes) (values : Row) : Statement Unit := do
  let blob ← .ofExcept (Tuple.encode t.schema.columnTypes values)
  .put (makeRowKey t.schema.tableId pkEncoded) blob (pure ())

def getRow (t : Table) (pkEncoded : Bytes) : Statement (Option Row) :=
  .get (makeRowKey t.schema.tableId pkEncoded) (fun
    | none => pure none
    | some blob => do
      let values ← .ofExcept (Tuple.decode t.schema.columnTypes blob)
      return some values)

def deleteRow (t : Table) (pkEncoded : Bytes) : Statement Unit :=
  .delete (makeRowKey t.schema.tableId pkEncoded) (pure ())

def mergeChanges (row : Row) (changes : List (Nat × Value)) : Row :=
  changes.foldl (fun row change => row.set change.1 change.2) row

def checkColumns (merged : Row) (changes : List (Nat × Value)) : Except Error Unit :=
  changes.forM (fun change =>
    if change.1 ≥ merged.length then
      .error (.storageCorrupted
        s!"update_columns: column index {change.1} out of range for {merged.length} columns")
    else .ok ())

def updateRowColumns (t : Table) (pkEncoded : Bytes) (changes : List (Nat × Value)) : Statement Unit := do
  match ← t.getRow pkEncoded with
  | none => .throw (.rowNotFound s!"id={t.schema.tableId.val}")
  | some merged =>
    .ofExcept (checkColumns merged changes)
    t.putRow pkEncoded (mergeChanges merged changes)

def decodeRows (t : Table) : List (Bytes × Bytes) → Except Error (List Row)
  | [] => .ok []
  | (_,blob)::entries => do
    let values ← Tuple.decode t.schema.columnTypes blob
    let rows ← decodeRows t entries
    return values::rows

def scan (t : Table) : Statement (List Row) := do
  let nextTid ← .ofExcept (TableId.next t.schema.tableId)
  .scan (.included (makeRowKey t.schema.tableId [])) (.excluded (makeRowKey nextTid []))
    (fun entries => .ofExcept (decodeRows t entries))

end Layout

variable (t : Table)

def encodePk (values : Row) : Except Error Bytes :=
  KeyEnc.encodeKeyComponents (t.schema.pkValues values) t.schema.pkTypes

def encodePkComponents (pkValues : List Value) : Except Error Bytes :=
  if pkValues.length ≠ t.schema.primaryKey.length then
    .error (.storageCorrupted
      s!"Table::pk: expected {t.schema.primaryKey.length} PK components, got {pkValues.length}")
  else KeyEnc.encodeKeyComponents pkValues t.schema.pkTypes

def getByPk (pkValues : List Value) : Statement (Option Row) := do
  let pkEncoded ← .ofExcept (t.encodePkComponents pkValues)
  t.getRow pkEncoded

def indexedValues (ix : IndexHandle) (row : Row) : List Value := ix.definition.columns.map (fun i => row.getD i .null)

def buildIndexKey (ix : IndexHandle) (row : Row) : Except Error Bytes :=
  KeyEnc.encodeKeyComponents (indexedValues ix row ++ t.schema.pkValues row) ix.keyTypes

def putIndexEntries (t : Table) (row : Row) : List IndexHandle → Statement Unit
  | [] => pure ()
  | ix::indexes => do
    let key ← .ofExcept (t.buildIndexKey ix row)
    .indexPut ix.id key (t.putIndexEntries row indexes)

def deleteIndexEntries (t : Table) (row : Row) : List IndexHandle → Statement Unit
  | [] => pure ()
  | ix::indexes => do
    let key ← .ofExcept (t.buildIndexKey ix row)
    .indexDelete ix.id key (t.deleteIndexEntries row indexes)

/-- No unique index holds the indexed values under another key; values with a null never conflict. -/
def checkUniqueIndexes (t : Table) (newRow : Row) : List IndexHandle → Statement Unit
  | [] => pure ()
  | ix::indexes =>
    if ix.definition.unique = false ∨ .null ∈ indexedValues ix newRow then t.checkUniqueIndexes newRow indexes
    else do
      let components := indexedValues ix newRow
      let encoded ← .ofExcept (KeyEnc.encodeKeyComponents components (ix.keyTypes.take components.length))
      let selfKey ← .ofExcept (t.buildIndexKey ix newRow)
      .indexScan ix.id (.included encoded) (KeyEnc.prefixEnd encoded) (fun entries =>
        if (entries.takeWhile (fun e => encoded.isPrefixOf e.1)).any (fun e => e.1 ≠ selfKey) then
          .throw (.uniqueViolation ix.definition.name)
        else t.checkUniqueIndexes newRow indexes)

def insert (values : Row) : Statement Unit := do
  let values ← .ofExcept (validateAndDefault t.schema values)
  let pkEncoded ← .ofExcept (t.encodePk values)
  .lockForWrite pkEncoded (do
    if (← t.getRow pkEncoded).isSome then .throw (.duplicateKey t.schema.name)
    else do
      t.checkUniqueIndexes values t.indexes
      t.putRow pkEncoded values
      t.putIndexEntries values t.indexes)

/-- The row under a key, for the index entries it has; without indexes nobody asks. -/
def previous (pkEncoded : Bytes) : Statement (Option Row) :=
  if t.indexes.isEmpty then pure none else t.getRow pkEncoded

def checkChanges (s : Schema) (changes : List (Fin s.columns.length × Value)) : Except Error Unit :=
  changes.forM (fun change => do
    checkTypeCompatOne (s.columns.get change.1) change.2
    checkValueBoundsOne (s.columns.get change.1) change.2)

def updateColumns (pkValues : List Value) (changes : List (Fin t.schema.columns.length × Value)) :
    Statement Unit := do
  .ofExcept (checkChanges t.schema changes)
  let pkEncoded ← .ofExcept (t.encodePkComponents pkValues)
  let changes := changes.map (fun change => (change.1.val,change.2))
  .lockForWrite pkEncoded (do
    match ← t.previous pkEncoded with
    | none => t.updateRowColumns pkEncoded changes
    | some prev => do
      let newRow := mergeChanges prev changes
      t.checkUniqueIndexes newRow t.indexes
      t.updateRowColumns pkEncoded changes
      t.deleteIndexEntries prev t.indexes
      t.putIndexEntries newRow t.indexes)

def deleteByPk (pkValues : List Value) : Statement Unit := do
  let pkEncoded ← .ofExcept (t.encodePkComponents pkValues)
  .lockForWrite pkEncoded (do
    let prev ← t.previous pkEncoded
    t.deleteRow pkEncoded
    match prev with
    | none => pure ()
    | some prev => t.deleteIndexEntries prev t.indexes)

/-- The rows under the keys of some index entries; a row that is not visible is skipped. -/
def dereference (t : Table) (ix : IndexHandle) : List (Bytes × Bytes) → Statement (List Row)
  | [] => pure []
  | (key,_)::entries => do
    let allValues ← .ofExcept (KeyEnc.decodeKeyComponents key ix.keyTypes)
    let row ← t.getByPk (allValues.drop ix.definition.columns.length)
    let rows ← t.dereference ix entries
    return row.toList ++ rows

/-- The rows an index names for values of its leading columns. -/
def indexScan (t : Table) (ix : IndexHandle) (lead : List Value) : Statement (List Row) :=
  if lead.length > ix.definition.columns.length then
    .throw (.indexLookupArity ix.definition.name ix.definition.columns.length lead.length)
  else do
    let encoded ← .ofExcept (KeyEnc.encodeKeyComponents lead (ix.keyTypes.take lead.length))
    .indexScan ix.id (.included encoded) (KeyEnc.prefixEnd encoded) (fun entries => t.dereference ix entries)

def uniqueFeasible (t : Table) (columns : List Nat) (indexName : String) : List Bytes → List Row → Except Error Unit
  | _, [] => .ok ()
  | seen, row::rows =>
    let components := columns.map (fun i => row.getD i .null)
    if .null ∈ components then uniqueFeasible t columns indexName seen rows
    else do
      let key ← KeyEnc.encodeKeyComponents components (columns.map (fun i => t.schema.columnTypes.getD i .int32))
      if key ∈ seen then .error (.uniqueViolation indexName)
      else uniqueFeasible t columns indexName (key::seen) rows

/-- No two rows share values on columns; rows with a null are exempt. -/
def assertUniqueFeasible (columns : List Nat) (indexName : String) : Statement Unit := do
  let rows ← t.scan
  .ofExcept (uniqueFeasible t columns indexName [] rows)

def backfillRows (t : Table) : List Row → Statement Unit
  | [] => pure ()
  | row::rows => do
    t.putIndexEntries row t.indexes
    t.backfillRows rows

/-- Entries for every row there is. -/
def backfillIndexes : Statement Unit := do
  let rows ← t.scan
  t.backfillRows rows

end Table

/-- How an UPDATE or DELETE reaches its rows. -/
inductive AccessPath where
  | seqScan
  | pkLookup (pk : List Value)
  | indexScan (index : String) (lead : List Value)

def AccessPath.candidates (a : AccessPath) (t : Table) : Statement (List Row) :=
  match a with
  | .seqScan => t.scan
  | .pkLookup pk => do
    let row ← t.getByPk pk
    return row.toList
  | .indexScan index lead =>
    match t.indexes.find? (fun ix => decide (ix.definition.name = index)) with
    | none => .throw (.indexNotFound index)
    | some ix => t.indexScan ix lead

/-- Those that pass the filter above it. -/
def AccessPath.rows (a : AccessPath) (t : Table) (filter : Row → Bool) : Statement (List Row) := do
  let rows ← a.candidates t
  return rows.filter filter

namespace Table

def each {A : Type} (action : A → Statement Unit) : List A → Statement Unit
  | [] => pure ()
  | a::as => do
    action a
    each action as

def affected (count : Nat) : List Row := [[.int64 (BitVec.ofNat 64 count)]]

/-- INSERT: the rows one by one, up to the first error. -/
def insertRows (t : Table) (rows : List Row) : Statement (List Row) := do
  each t.insert rows
  return affected rows.length

/-- UPDATE: all target rows are read before the first is written. -/
def updateRows (t : Table) (a : AccessPath) (filter : Row → Bool)
    (setExprs : List (Fin t.schema.columns.length × (Row → Value))) : Statement (List Row) := do
  let rows ← a.rows t filter
  let staged := rows.map (fun row => (t.schema.pkValues row,setExprs.map (fun e => (e.1,e.2 row))))
  each (fun target => t.updateColumns target.1 target.2) staged
  return affected staged.length

def deleteRows (t : Table) (a : AccessPath) (filter : Row → Bool) : Statement (List Row) := do
  let rows ← a.rows t filter
  let staged := rows.map t.schema.pkValues
  each t.deleteByPk staged
  return affected staged.length

end Table
end InterchangeDb
