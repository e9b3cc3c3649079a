import InterchangeDb.Database.Scans
import InterchangeDb.Sql.Table

/-! Sessions that run SQL statements on one database, call by call, in any order. -/
namespace InterchangeDb

abbrev Query := { p : Statement (List Row) // p.ReadOnly }

inductive Sql where
  | select (query : Query)
  | insert (schema : Schema) (rows : List Row)
  | update (schema : Schema) (access : AccessPath) (filter : Row → Bool)
      (setExprs : List (Fin schema.columns.length × (Row → Value)))
  | delete (schema : Schema) (access : AccessPath) (filter : Row → Bool)
  | createIndex (schema : Schema) (name : String) (columns : List (Fin schema.columns.length)) (unique : Bool)

def Sql.isWrite : Sql → Bool
  | .insert _ _ | .update _ _ _ _ | .delete _ _ _ => true
  | .select _ | .createIndex _ _ _ _ => false

/-- The indexes of the catalog, by id. -/
structure Catalog where
  indexes : List (Nat × IndexDef)
  nextIndexId : Nat

def Catalog.indexesForTable (c : Catalog) (schema : Schema) : List IndexHandle :=
  (c.indexes.filter (fun (_,d) => decide (d.tableId = schema.tableId))).map (fun (id,d) => schema.handle id d)

/-- The table as a statement that is planned now sees it. -/
def Catalog.resolveTable (c : Catalog) (schema : Schema) : Table := ⟨schema,c.indexesForTable schema⟩

/-- Check, register, then entries for the rows there are, in the new index alone. -/
def handleCreateIndex (schema : Schema) (name : String) (columns : List Nat) (unique : Bool) : Statement (List Row) := do
  if unique then Table.assertUniqueFeasible ⟨schema,[]⟩ columns name
  let definition : IndexDef := ⟨name,schema.tableId,columns,unique⟩
  .createIndex definition (fun id => do
    Table.backfillIndexes ⟨schema,[schema.handle id definition]⟩
    return [])

def Sql.program (c : Catalog) : Sql → Statement (List Row)
  | .select query => query.val
  | .insert schema rows => (c.resolveTable schema).insertRows rows
  | .update schema access filter setExprs => (c.resolveTable schema).updateRows access filter setExprs
  | .delete schema access filter => (c.resolveTable schema).deleteRows access filter
  | .createIndex schema name columns unique => handleCreateIndex schema name (columns.map (·.val)) unique

/-- A statement on its way, in its transaction. -/
structure Running where
  sql : Sql
  txnId : Nat
  /-- The transaction ends with the statement. -/
  implicit : Bool
  program : Statement (List Row)

structure Client where
  currentTxn : Option Nat
  running : Option Running
  /-- What the last statement returned. -/
  result : Option (Except Error (List Row))

def Client.new : Client := ⟨none,none,none⟩

structure Server where
  session : Session
  catalog : Catalog
  indexEngines : Nat → Engine
  clients : Nat → Client

inductive SqlLabel where
  | begin (client : Nat)
  | commit (client : Nat)
  | rollback (client : Nat)
  | execute (client : Nat) (sql : Sql)
  /-- The next call of a client's statement. -/
  | call (client : Nat)
  | checkpoint
  | gc

variable [Crc32]

def Session.perform (s : Session) (op : Op) (f : Faults := .none) : Option (Session × Outcome) :=
  (s.db.step op f).map (fun (db,outcome) => (⟨db,s.db.events op outcome ++ s.history⟩,outcome))

/-- A write through an engine handle, which takes no lock of its own. -/
def Session.write (s : Session) (txnId : Nat) (key : Bytes) (value : MvccValue) (f : Faults := .none) :
    Option (Session × Except Error Unit) :=
  (s.db.write txnId key value f).map (fun (db,r) =>
    (⟨db,match r with
      | .ok _ => .wrote txnId key value.data :: s.history
      | .error _ => s.history⟩,r))

theorem Session.perform_eq_some {s σ : Session} {op : Op} {out : Outcome} {f : Faults} (h : s.perform op f = some (σ,out)) :
    ∃ db, s.db.step op f = some (db,out) ∧ σ = ⟨db,s.db.events op out ++ s.history⟩ := by
  obtain ⟨⟨db,_⟩,hstep,heq⟩ := Option.map_eq_some_iff.mp h
  cases heq
  exact ⟨db,hstep,rfl⟩

theorem Session.db_of_write {s σ : Session} {t : Nat} {k : Bytes} {v : MvccValue} {r : Except Error Unit} {f : Faults}
    (h : s.write t k v f = some (σ,r)) : s.db.write t k v f = some (σ.db,r) := by
  obtain ⟨⟨db,_⟩,hw,heq⟩ := Option.map_eq_some_iff.mp h
  cases heq
  exact hw

namespace Server
variable (s : Server)

def init (policy : IsolationPolicy) : Server := ⟨.init policy,⟨[],1⟩,fun _ => OrdMap.empty,fun _ => .new⟩

def setClient (client : Nat) (c : Client) : Server :=
  { s with clients := Function.update s.clients client c }

omit [Crc32] in
@[simp] theorem setClient_self (client : Nat) (c : Client) : (s.setClient client c).clients client = c :=
  Function.update_self ..

omit [Crc32] in
theorem setClient_of_ne {client other : Nat} (h : other ≠ client) (c : Client) :
    (s.setClient client c).clients other = s.clients other := Function.update_of_ne h _ _

omit [Crc32] in
theorem forall_setClient {s : Server} {c : Nat} {cl : Client} {P : Client → Prop} (hcl : P cl) (hothers : ∀ c', P (s.clients c'))
    (c' : Nat) : P ((s.setClient c cl).clients c') := by
  by_cases heq : c' = c
  · rwa [heq,setClient_self]
  · rw [setClient_of_ne _ heq]
    exact hothers c'

/-- The statement goes on, or ends with an error. -/
def reply (client : Nat) (r : Running) {A : Type} (next : A → Statement (List Row)) : Except Error A → Server
  | .error e => s.setClient client { s.clients client with running := some { r with program := .throw e } }
  | .ok a => s.setClient client { s.clients client with running := some { r with program := next a } }

/-- The end of a statement. Its own transaction commits, or rolls back after an error. -/
def finish (client : Nat) (r : Running) (result : Except Error (List Row)) (f : Faults := .none) :
    Option Server :=
  let ended (s : Server) (result : Except Error (List Row)) : Server :=
    s.setClient client { s.clients client with running := none, result := some result }
  if r.implicit then
    match result with
    | .ok rows =>
      (s.session.perform (.commit r.txnId) f).map (fun (session,outcome) =>
        ended { s with session } (match outcome with
          | .failed e => .error e
          | _ => .ok rows))
    | .error e =>
      (s.session.perform (.abort r.txnId) f).map (fun (session,_) => ended { s with session } (.error e))
  else some (ended s result)

/-- A read that failed on the storage of the database. -/
def spoil (x : Fault) : Server := { s with session := ⟨x.leave s.session.db,s.session.history⟩ }

/-- A call that failed on the storage of an index. -/
def spoilIndex (index : Nat) (x : Fault) : Server :=
  let left := x.damage ⟨s.indexEngines index,s.indexEngines index,s.session.db.wal⟩
  { s with indexEngines := Function.update s.indexEngines index left.engine }

def call (client : Nat) (r : Running) (f : Faults := .none) : Option Server :=
  let failed (s : Server) (x : Fault) : Option Server :=
    some (s.setClient client { s.clients client with running := some { r with program := .throw x.error } })
  match r.program with
  | .done result => s.finish client r result f
  | .lockForWrite key next =>
    let locked := s.session.db.lockForWrite r.txnId key
    some ({ s with session := ⟨locked.1,s.session.history⟩ }.reply client r (fun _ => next) locked.2)
  | .get key next =>
    match s.session.db.readFault r.txnId f with
    | some x => failed (s.spoil x) x
    | none => (s.session.db.txnGet r.txnId key).map (fun value => s.reply client r next value)
  | .put key value next =>
    (s.session.write r.txnId key (.value r.txnId value) f).map (fun (session,result) =>
      { s with session }.reply client r (fun _ => next) result)
  | .delete key next =>
    (s.session.write r.txnId key (.tombstone r.txnId) f).map (fun (session,result) =>
      { s with session }.reply client r (fun _ => next) result)
  | .scan lo hi next =>
    match s.session.db.readFault r.txnId f with
    | some x => failed (s.spoil x) x
    | none => some (s.reply client r next (s.session.db.txnScan r.txnId lo hi))
  | .indexScan index lo hi next =>
    match f.read with
    | some x => failed (s.spoilIndex index x) x
    | none => some (s.reply client r next (.ok ((s.indexEngines index).scan lo hi)))
  | .indexPut index key next =>
    match f.write with
    | some x => failed (s.spoilIndex index x) x
    | none =>
      some ({ s with indexEngines := Function.update s.indexEngines index ((s.indexEngines index).put key []) }.reply
        client r (fun _ => next) (.ok ()))
  | .indexDelete index key next =>
    match f.write with
    | some x => failed (s.spoilIndex index x) x
    | none =>
      some ({ s with indexEngines := Function.update s.indexEngines index ((s.indexEngines index).delete key) }.reply
        client r (fun _ => next) (.ok ()))
  | .createIndex definition next =>
    if definition.name ∈ s.catalog.indexes.map (·.2.name) then
      some (s.reply client r next (.error (.indexAlreadyExists definition.name)))
    else
      let id := s.catalog.nextIndexId
      match f.write with
      | some x => failed { s with catalog := ⟨s.catalog.indexes,id + 1⟩ } x
      | none =>
        some ({ s with
            catalog := ⟨s.catalog.indexes ++ [(id,definition)],id + 1⟩
            indexEngines := Function.update s.indexEngines id OrdMap.empty }.reply client r next (.ok id))

/-- The end of an explicit transaction. A failed call leaves it open. -/
def endTxn (client : Nat) (op : Nat → Op) (missing : String) (f : Faults) : Option Server :=
  let c := s.clients client
  match c.currentTxn with
  | none => some (s.setClient client { c with result := some (.error (.sqlParse missing)) })
  | some t =>
    (s.session.perform (op t) f).map (fun (session,outcome) =>
      { s with session }.setClient client (match outcome with
        | .failed e => { c with result := some (.error e) }
        | _ => { c with currentTxn := none, result := some (.ok []) }))

/-- Start a statement in the transaction of the session, in one of its own, or in none. -/
def execute (client : Nat) (sql : Sql) (f : Faults := .none) : Option Server :=
  let c := s.clients client
  let start (s : Server) (txnId : Nat) (implicit : Bool) : Server :=
    s.setClient client { c with running := some ⟨sql,txnId,implicit,sql.program s.catalog⟩ }
  match c.currentTxn with
  | some t => some (start s t false)
  | none =>
    if sql.isWrite then
      (s.session.perform (.begin .readWrite) f).map (fun (session,outcome) =>
        match outcome with
        | .began t => start { s with session } t true
        | .failed e => { s with session }.setClient client { c with result := some (.error e) }
        | _ => { s with session }.setClient client c)
    else some (start s TxnId.autoCommit false)

/-- One step, and the operations on the storage that fail in it. A client that runs a statement takes no new command. -/
def stepWith : Faults × SqlLabel → Option Server
  | (f,.begin client) =>
    let c := s.clients client
    if c.running.isSome then none
    else if c.currentTxn.isSome then
      some (s.setClient client { c with result := some (.error (.sqlParse "session: nested transactions not supported")) })
    else (s.session.perform (.begin .readWrite) f).map (fun (session,outcome) =>
      { s with session }.setClient client (match outcome with
        | .began t => { c with currentTxn := some t, result := some (.ok []) }
        | .failed e => { c with result := some (.error e) }
        | _ => c))
  | (f,.commit client) =>
    if (s.clients client).running.isSome then none
    else s.endTxn client .commit "session: COMMIT with no active txn" f
  | (f,.rollback client) =>
    if (s.clients client).running.isSome then none
    else s.endTxn client .abort "session: ROLLBACK with no active txn" f
  | (f,.execute client sql) => if (s.clients client).running.isSome then none else s.execute client sql f
  | (f,.call client) =>
    match (s.clients client).running with
    | none => none
    | some r => s.call client r f
  | (f,.checkpoint) => (s.session.perform .checkpoint f).map (fun (session,_) => { s with session })
  | (f,.gc) => (s.session.perform .gc f).map (fun (session,_) => { s with session })

/-- One step over storage that works. -/
def step (a : SqlLabel) : Option Server := s.stepWith (.none,a)

end Server
end InterchangeDb
