import InterchangeDb.Database.Faults
import InterchangeDb.Database.Shown
import InterchangeDb.Sql.Server
import InterchangeDb.Sql.StatementSpec

/-! Every state of a server under snapshot isolation: a statement locks the primary key of a row, without its table. -/
namespace InterchangeDb
open List Option
variable {rules : Rules} {s s' : MvccState}

/-- What a statement finds, it writes as the terms allow. -/
def Sql.Meets (T : Terms) : Sql → Prop
  | .insert schema _ => schema.Inserts T
  | .update schema _ filter setExprs =>
    ∀ row, schema.Found T row → filter row = true → schema.Updates T (setExprs.map (fun e => (e.1,e.2 row)))
  | .select _ | .delete _ _ _ | .createIndex _ _ _ _ => True

theorem Sql.program_keeps {T : Terms} {sql : Sql} (h : sql.Meets T) (c : Catalog) (held : Bytes → Prop) :
    (sql.program c).Keeps T (fun _ => True) held := by
  cases sql with
  | select query => exact query.2.keeps
  | insert schema rows =>
    exact (Table.each_keeps fun row _ => (c.resolveTable schema).insert_keeps h row).bind fun _ _ => trivial
  | update schema access filter setExprs =>
    refine ((c.resolveTable schema).rows_keeps access filter).bind fun rows hrows => ?_
    refine (Table.each_keeps fun target htarget => ?_).bind fun _ _ => trivial
    obtain ⟨row,hrow,rfl⟩ := mem_map.mp htarget
    exact (c.resolveTable schema).updateColumns_keeps (h row (hrows row hrow).1 (hrows row hrow).2) _
  | delete schema access filter =>
    refine ((c.resolveTable schema).rows_keeps access filter).bind fun rows _ => ?_
    exact (Table.each_keeps fun pk _ => (c.resolveTable schema).deleteByPk_keeps pk).bind fun _ _ => trivial
  | createIndex schema name columns unique =>
    have hrest : ∀ definition : IndexDef, (Statement.createIndex definition (fun id => do
        Table.backfillIndexes ⟨schema,[schema.handle id definition]⟩
        return [] : Nat → Statement (List Row))).Keeps T (fun _ => True) held := fun definition id =>
      (Table.backfillIndexes_keeps _).bind fun _ _ => trivial
    simp only [program,handleCreateIndex]
    split_ifs
    · exact ((Table.scan_keeps _).bind fun rows _ => .ofExcept (fun _ _ => trivial)).bind fun _ _ => hrest _
    · exact hrest _

/-- A statement writes no row whose lock it has not taken. -/
abbrev Statement.Guarded (held : Bytes → Prop) (p : Statement (List Row)) : Prop := p.Keeps .any (fun _ => True) held

theorem Sql.program_guarded (c : Catalog) (sql : Sql) (held : Bytes → Prop) : (sql.program c).Guarded held := by
  refine program_keeps ?_ c held
  cases sql with
  | select | delete | createIndex => trivial
  | insert => exact fun _ _ _ _ _ _ _ => trivial
  | update => exact fun _ _ _ _ _ _ _ _ _ _ _ => trivial

/-- Checkpoints and collections may occur, and writes are checked. -/
def allRules : Rules := ⟨True,True,True⟩

theorem MvccStep.nextTxnId_le {ev : List Event} (h : MvccStep rules s ev s') :
    s.nextTxnId ≤ s'.nextTxnId := by
  cases h with
  | begin => exact Nat.le_succ _
  | quiet | write | commit | abort | checkpoint | gc => exact le_rfl

theorem MvccStep.holds_kept {ev : List Event} (h : MvccStep rules s ev s') {t : Nat}
    (hc : ∀ c, .committed t c ∉ ev) (ha : .aborted t ∉ ev) {k : Bytes} (hk : s.holds t k) : s'.holds t k := by
  cases h with
  | quiet _ _ kept | write _ _ _ _ _ _ _ _ _ kept => exact kept t k hk
  | begin | checkpoint | gc => exact hk
  | commit t' b holds active unshared kept =>
    exact kept t k (fun heq => hc s.nextTs (heq ▸ mem_cons_self)) hk
  | abort t' b holds active unshared kept => exact kept t k (fun heq => ha (heq ▸ mem_cons_self)) hk

section

variable [Crc32]

theorem Database.step_began {db db' : Database} {op : Op} {t : Nat} (h : db.step op = some (db',.began t)) :
    t = db.mgr.nextTxnId ∧ t < db'.mgr.nextTxnId := by
  cases step_called h with
  | same hne => exact (hne t rfl).elim
  | began => exact ⟨rfl,Nat.lt_succ_self _⟩

/-- The database of a server, whose rows are locked by their keys. -/
structure Session.RowInv (s : Session) : Prop where
  sound : s.db.Sound
  policy : s.db.mgr.policy = .snapshotIsolation
  mvcc : MvccInv allRules (s.db.view.relock rowLock) s.history

namespace Session.RowInv
variable {s s' : Session}

theorem init : (Session.init .snapshotIsolation).RowInv := by
  obtain ⟨hs,hp,hm⟩ := inv_init .snapshotIsolation allRules
  refine ⟨hs,hp,⟨{ hm.life with },?_,hm.wins,hm.uncheckpointed,hm.uncollected⟩⟩
  exact Stored.init (fun k ts => Engine.version_empty k ts) (fun t t' k => hm.stored.unshared t t' (rowLock k))

/-- A step of the machine with the events it adds to the history. -/
structure Moves (s : Session) (ev : List Event) (s' : Session) : Prop where
  sound : s'.db.Sound
  policy : s'.db.mgr.policy = s.db.mgr.policy
  step : MvccStep allRules (s.db.view.relock rowLock) ev (s'.db.view.relock rowLock)
  history : s'.history = ev ++ s.history

omit [Crc32] in
theorem moved (hi : s.RowInv) {ev : List Event} (h : Moves s ev s') : s'.RowInv :=
  ⟨h.sound,h.policy.trans hi.policy,h.history ▸ hi.mvcc.step (fun _ => trivial) h.step⟩

theorem perform (hi : s.RowInv) {op : Op} {out : Outcome} (h : s.perform op = some (s',out))
    (hput : ∀ t k v, op ≠ .put t k v) (hdelete : ∀ t k, op ≠ .delete t k) :
    Moves s (s.db.events op out) s' ∧ s.db.mgr.nextTxnId ≤ s'.db.mgr.nextTxnId ∧
      (∀ t q, op ≠ .commit t → op ≠ .abort t → s.db.mgr.lockManager.Holds t q → s'.db.mgr.lockManager.Holds t q) ∧
      ∀ t, out = .began t → t = s.db.mgr.nextTxnId ∧ t < s'.db.mgr.nextTxnId := by
  obtain ⟨db,hstep,rfl⟩ := perform_eq_some h
  have hst : db.Sound ∧ db.mgr.policy = s.db.mgr.policy ∧ MvccStep allRules s.db.view (s.db.events op out) db.view :=
    Database.step_refines hi.sound (fun _ => hi.policy) (fun _ => trivial) (fun _ => trivial) hstep
  obtain ⟨hs,hp,hst⟩ := hst
  have hno : ∀ t k d, .wrote t k d ∉ s.db.events op out := by
    cases op with
    | put t k v => exact (hput t k v rfl).elim
    | delete t k => exact (hdelete t k rfl).elim
    | begin | get | commit | abort | checkpoint | gc => cases out <;> simp [Database.events]
  refine ⟨⟨hs,hp,hst.relock hno rowLock,rfl⟩,hst.nextTxnId_le,?_,?_⟩
  · intro t q hc ha hq
    refine hst.holds_kept (fun c hmem => ?_) (fun hmem => ?_) hq
    · cases op <;> cases out <;> simp [Database.events] at hmem
      exact hc (by rw [hmem.1])
    · cases op <;> cases out <;> simp [Database.events] at hmem
      exact ha (by rw [hmem])
  · rintro t rfl
    exact Database.step_began hstep

omit [Crc32] in
theorem lock (hi : s.RowInv) (t : Nat) (k : Bytes) :
    Moves s [] ⟨(s.db.lockForWrite t k).1,s.history⟩ ∧
      (∀ t' q, s.db.mgr.lockManager.Holds t' q → (s.db.lockForWrite t k).1.mgr.lockManager.Holds t' q) ∧
      ((s.db.lockForWrite t k).2 = .ok () → (s.db.lockForWrite t k).1.mgr.lockManager.Holds t k) := by
  obtain ⟨-,hkept,hgot⟩ := LockState.acquire_exclusive hi.sound.exclusive t k
  have hls := Database.locked_sound hi.sound t k
  have hst : MvccStep allRules s.db.view [] (s.db.locked t k).view := .quiet _ hls.unshared hkept
  exact ⟨⟨hls,rfl,hst.relock (by simp) rowLock,rfl⟩,hkept,fun hok => (hgot hok).1⟩

theorem write (hi : s.RowInv) {t : Nat} {k : Bytes} {v : MvccValue} (hown : v.txnId = t)
    (hheld : s.db.mgr.lockManager.Holds t (rowLock k)) {r : Except Error Unit} (h : s.write t k v = some (s',r)) :
    Moves s (match r with
      | .ok _ => [.wrote t k v.data]
      | .error _ => []) s' ∧ s'.db.mgr.nextTxnId = s.db.mgr.nextTxnId ∧
      s'.db.mgr.lockManager.Holds = s.db.mgr.lockManager.Holds := by
  obtain ⟨⟨db,r'⟩,hw,heq⟩ := map_eq_some_iff.mp h
  obtain ⟨rfl,rfl⟩ := Prod.mk.inj heq
  have hview : db.mgr.nextTxnId = s.db.mgr.nextTxnId ∧ db.mgr.lockManager.Holds = s.db.mgr.lockManager.Holds := by
    rcases Database.write_view hi.sound hown hw with ⟨e,-,rfl⟩ | ⟨b,-,-,-,-,-,hview⟩
    · exact ⟨rfl,rfl⟩
    · exact ⟨congrArg MvccState.nextTxnId hview,congrArg MvccState.holds hview⟩
  refine ⟨?_,hview⟩
  have hst : db.Sound ∧ db.mgr.policy = s.db.mgr.policy ∧
      MvccStep allRules (s.db.view.relock rowLock) _ (db.view.relock rowLock) :=
    Database.write_refines hi.sound (fun _ => hi.policy) hown hheld hw
  obtain ⟨hs,hp,hst⟩ := hst
  cases r' <;> exact ⟨hs,hp,hst,rfl⟩

end Session.RowInv

/-- A statement goes on with the answer of a call, or ends with its error. -/
def resume {A : Type} (next : A → Statement (List Row)) : Except Error A → Statement (List Row)
  | .ok a => next a
  | .error e => .throw e

omit [Crc32] in
theorem Statement.Keeps.resume {T : Terms} {post : List Row → Prop} {held : Bytes → Prop} {A : Type}
    {next : A → Statement (List Row)} {res : Except Error A} (h : ∀ a, res = .ok a → (next a).Keeps T post held) :
    (InterchangeDb.resume next res).Keeps T post held := by
  cases res with
  | error e => trivial
  | ok a => exact h a rfl

/-- A call of a statement in a transaction: what it leaves, and how the statement goes on. -/
inductive Server.Answer (s : Server) (f : Faults) (t : Nat) :
    Statement (List Row) → Session → Catalog → (Nat → Engine) → Statement (List Row) → Prop where
  | lock (key : Bytes) (next : Statement (List Row)) :
      Answer s f t (.lockForWrite key next) ⟨(s.session.db.lockForWrite t key).1,s.session.history⟩ s.catalog s.indexEngines
        (resume (fun _ => next) (s.session.db.lockForWrite t key).2)
  | get (key : Bytes) (next : Option Bytes → Statement (List Row)) {res : Except Error (Option Bytes)}
      (h : s.session.db.txnGet t key = some res) :
      Answer s f t (.get key next) s.session s.catalog s.indexEngines (resume next res)
  | put (key value : Bytes) (next : Statement (List Row)) {σ : Session} {res : Except Error Unit}
      (h : s.session.write t key (.value t value) f = some (σ,res)) :
      Answer s f t (.put key value next) σ s.catalog s.indexEngines (resume (fun _ => next) res)
  | delete (key : Bytes) (next : Statement (List Row)) {σ : Session} {res : Except Error Unit}
      (h : s.session.write t key (.tombstone t) f = some (σ,res)) :
      Answer s f t (.delete key next) σ s.catalog s.indexEngines (resume (fun _ => next) res)
  | scan (lo hi : Bound Bytes) (next : List (Bytes × Bytes) → Statement (List Row)) :
      Answer s f t (.scan lo hi next) s.session s.catalog s.indexEngines (resume next (s.session.db.txnScan t lo hi))
  | indexScan (index : Nat) (lo hi : Bound Bytes) (next : List (Bytes × Bytes) → Statement (List Row)) :
      Answer s f t (.indexScan index lo hi next) s.session s.catalog s.indexEngines (next ((s.indexEngines index).scan lo hi))
  | indexPut (index : Nat) (key : Bytes) (next : Statement (List Row)) (works : f.write = none) :
      Answer s f t (.indexPut index key next) s.session s.catalog
        (Function.update s.indexEngines index ((s.indexEngines index).put key [])) next
  | indexDelete (index : Nat) (key : Bytes) (next : Statement (List Row)) (works : f.write = none) :
      Answer s f t (.indexDelete index key next) s.session s.catalog
        (Function.update s.indexEngines index ((s.indexEngines index).delete key)) next
  | nameTaken (definition : IndexDef) (next : Nat → Statement (List Row)) :
      Answer s f t (.createIndex definition next) s.session s.catalog s.indexEngines
        (.throw (.indexAlreadyExists definition.name))
  | createIndex (definition : IndexDef) (next : Nat → Statement (List Row)) :
      Answer s f t (.createIndex definition next) s.session
        ⟨s.catalog.indexes ++ [(s.catalog.nextIndexId,definition)],s.catalog.nextIndexId + 1⟩
        (Function.update s.indexEngines s.catalog.nextIndexId OrdMap.empty) (next s.catalog.nextIndexId)
  /-- A read, or a call on an index or the catalog, that fails on the storage. -/
  | failed (program : Statement (List Row)) {x : Fault} {s' : Server} (fault : f.Has x)
      (left : s' = s.spoil x ∨ (∃ index, s' = s.spoilIndex index x) ∨ ∃ catalog, s' = { s with catalog }) :
      Answer s f t program s'.session s'.catalog s'.indexEngines (.throw x.error)

theorem Server.call_cases {s s' : Server} {c : Nat} {r : Running} {f : Faults} (h : s.call c r f = some s') :
    (∃ result, r.program = .done result ∧ s.finish c r result f = some s') ∨
    ∃ σ catalog engines p, s.Answer f r.txnId r.program σ catalog engines p ∧
      s' = setClient ⟨σ,catalog,engines,s.clients⟩ c { s.clients c with running := some { r with program := p } } := by
  have hreply : ∀ (σ : Session) (catalog : Catalog) (engines : Nat → Engine) {A : Type}
      (next : A → Statement (List Row)) (res : Except Error A), reply ⟨σ,catalog,engines,s.clients⟩ c r next res =
        setClient ⟨σ,catalog,engines,s.clients⟩ c { s.clients c with running := some { r with program := resume next res } } := by
    intro σ catalog engines A next res
    cases res <;> rfl
  have hread : ∀ {x}, s.session.db.readFault r.txnId f = some x → f.Has x := fun h => by
    simp [Faults.Has,(filter_eq_some_iff.mp h).1]
  have hwrite : ∀ {x}, f.write = some x → f.Has x := fun h => by simp [Faults.Has,h]
  simp only [call] at h
  generalize r.program = program at h ⊢
  cases program with
  | done result => exact .inl ⟨result,rfl,h⟩
  | lockForWrite key next => exact .inr ⟨_,_,_,_,.lock key next,(some.inj h).symm.trans (hreply ..)⟩
  | get key next =>
    dsimp only at h
    split at h
    case h_1 x hx =>
      cases h
      exact .inr ⟨_,_,_,_,.failed _ (hread hx) (.inl rfl),rfl⟩
    · obtain ⟨value,hget,rfl⟩ := map_eq_some_iff.mp h
      exact .inr ⟨_,_,_,_,.get key next hget,hreply ..⟩
  | put key value next =>
    obtain ⟨⟨σ,res⟩,hw,rfl⟩ := map_eq_some_iff.mp h
    exact .inr ⟨_,_,_,_,.put key value next hw,hreply ..⟩
  | delete key next =>
    obtain ⟨⟨σ,res⟩,hw,rfl⟩ := map_eq_some_iff.mp h
    exact .inr ⟨_,_,_,_,.delete key next hw,hreply ..⟩
  | scan lo hi next =>
    dsimp only at h
    split at h
    case h_1 x hx =>
      cases h
      exact .inr ⟨_,_,_,_,.failed _ (hread hx) (.inl rfl),rfl⟩
    · exact .inr ⟨_,_,_,_,.scan lo hi next,(some.inj h).symm.trans (hreply ..)⟩
  | indexScan index lo hi next =>
    dsimp only at h
    split at h
    case h_1 x hx =>
      cases h
      exact .inr ⟨_,_,_,_,.failed _ (by simp [Faults.Has,hx]) (.inr (.inl ⟨index,rfl⟩)),rfl⟩
    · exact .inr ⟨_,_,_,_,.indexScan index lo hi next,(some.inj h).symm⟩
  | indexPut index key next =>
    dsimp only at h
    split at h
    case h_1 x hx =>
      cases h
      exact .inr ⟨_,_,_,_,.failed _ (hwrite hx) (.inr (.inl ⟨index,rfl⟩)),rfl⟩
    case h_2 hworks => exact .inr ⟨_,_,_,_,.indexPut index key next hworks,(some.inj h).symm⟩
  | indexDelete index key next =>
    dsimp only at h
    split at h
    case h_1 x hx =>
      cases h
      exact .inr ⟨_,_,_,_,.failed _ (hwrite hx) (.inr (.inl ⟨index,rfl⟩)),rfl⟩
    case h_2 hworks => exact .inr ⟨_,_,_,_,.indexDelete index key next hworks,(some.inj h).symm⟩
  | createIndex definition next =>
    dsimp only at h
    split_ifs at h
    · exact .inr ⟨_,_,_,_,.nameTaken definition next,(some.inj h).symm⟩
    · split at h
      case h_1 x hx =>
        cases h
        exact .inr ⟨_,_,_,_,.failed _ (hwrite hx) (.inr (.inr ⟨⟨_,s.catalog.nextIndexId + 1⟩,rfl⟩)),rfl⟩
      · exact .inr ⟨_,_,_,_,.createIndex definition next,(some.inj h).symm⟩

def SqlLabel.client : SqlLabel → Option Nat
  | .begin c | .commit c | .rollback c | .execute c _ | .call c => some c
  | .checkpoint | .gc => none

omit [Crc32] in
def Server.commits (s : Server) : SqlLabel → Option Nat
  | .commit c => (s.clients c).currentTxn
  | .call c =>
    match (s.clients c).running with
    | some ⟨_,t,true,.done (.ok _)⟩ => some t
    | _ => none
  | _ => none

/-- What a step does to the database and to its client. -/
inductive Server.Stepped (s : Server) (f : Faults) (a : SqlLabel) : Server → Prop where
  /-- The client is told something, or its statement ends in the transaction of the session. -/
  | told {c : Nat} {cl : Client} (client : a.client = some c) (current : cl.currentTxn = (s.clients c).currentTxn)
      (running : cl.running = none) : Stepped s f a (s.setClient c cl)
  | started {c t : Nat} {sql : Sql} (label : a = .execute c sql)
      (txn : (s.clients c).currentTxn = some t ∨ t = TxnId.autoCommit) :
      Stepped s f a (s.setClient c { s.clients c with running := some ⟨sql,t,false,sql.program s.catalog⟩ })
  /-- A transaction begins or ends, of the session or of one statement. -/
  | performed {c : Nat} {cl : Client} {op : Op} {session : Session} {out : Outcome} (client : a.client = some c)
      (call : s.session.perform op f = some (session,out))
      (put : ∀ t k v, op ≠ .put t k v) (delete : ∀ t k, op ≠ .delete t k)
      (mine : ∀ t, op = .commit t ∨ op = .abort t → (s.clients c).currentTxn = some t ∨
        ∃ r, (s.clients c).running = some r ∧ r.implicit = true ∧ r.txnId = t)
      (commit : ∀ t, op = .commit t → s.commits a = some t)
      (current : ∀ t, cl.currentTxn = some t → (s.clients c).currentTxn = some t ∨ out = .began t)
      (running : ∀ r, cl.running = some r → a = .execute c r.sql ∧ r.program = r.sql.program s.catalog ∧ out = .began r.txnId) :
      Stepped s f a ({ s with session }.setClient c cl)
  | resumed {c : Nat} {r : Running} {σ : Session} {catalog : Catalog} {engines : Nat → Engine} {p : Statement (List Row)}
      (label : a = .call c) (running : (s.clients c).running = some r)
      (answer : s.Answer f r.txnId r.program σ catalog engines p) :
      Stepped s f a (setClient ⟨σ,catalog,engines,s.clients⟩ c { s.clients c with running := some { r with program := p } })
  | maintained {op : Op} {session : Session} {out : Outcome} (client : a.client = none) (kind : op = .checkpoint ∨ op = .gc)
      (call : s.session.perform op f = some (session,out)) : Stepped s f a { s with session }

namespace Server.Stepped
variable {s s' : Server} {c : Nat} {f : Faults}

private theorem of_finish {r : Running} (hr : (s.clients c).running = some r) {result : Except Error (List Row)}
    (hp : r.program = .done result) (h : s.finish c r result f = some s') : s.Stepped f (.call c) s' := by
  unfold finish at h
  dsimp only at h
  split_ifs at h with himp
  · cases result with
    | ok rows =>
      obtain ⟨⟨session,out⟩,hperf,rfl⟩ := map_eq_some_iff.mp h
      refine .performed rfl hperf (by simp) (by simp) (fun t ht => .inr ⟨r,hr,himp,?_⟩) (fun t ht => ?_)
        (fun t ht => .inl ht) (by rintro _ ⟨⟩)
      · rcases ht with ht | ht <;> cases ht
        rfl
      · obtain ⟨sql,t,implicit,program⟩ := r
        cases himp
        cases hp
        cases ht
        simp [commits,hr]
    | error e =>
      obtain ⟨⟨session,out⟩,hperf,rfl⟩ := map_eq_some_iff.mp h
      refine .performed rfl hperf (by simp) (by simp) (fun t ht => .inr ⟨r,hr,himp,?_⟩) (by simp) (fun t ht => .inl ht)
        (by rintro _ ⟨⟩)
      rcases ht with ht | ht <;> cases ht
      rfl
  · cases h
    exact .told rfl rfl rfl

private theorem of_endTxn {a : SqlLabel} {op : Nat → Op} {missing : String} (ha : a.client = some c)
    (hidle : (s.clients c).running = none) (hop : op = .abort ∨ op = .commit ∧ s.commits a = (s.clients c).currentTxn)
    (h : s.endTxn c op missing f = some s') : s.Stepped f a s' := by
  unfold endTxn at h
  dsimp only at h
  split at h
  · cases h
    exact .told ha rfl hidle
  case h_2 t ht =>
    obtain ⟨⟨session,out⟩,hperf,rfl⟩ := map_eq_some_iff.mp h
    refine .performed ha hperf ?_ ?_ (fun t' ht' => .inl (ht.trans ?_)) (fun t' ht' => ?_) (fun t' ht' => .inl ?_) (fun r hr => ?_)
    · rcases hop with rfl | ⟨rfl,-⟩ <;> simp
    · rcases hop with rfl | ⟨rfl,-⟩ <;> simp
    · rcases hop with rfl | ⟨rfl,-⟩ <;> rcases ht' with ht' | ht' <;> cases ht' <;> rfl
    · rcases hop with rfl | ⟨rfl,hc⟩ <;> cases ht'
      exact hc.trans ht
    · cases out with
      | failed => exact ht'
      | began | read | done | collected => cases ht'
    · have hnone : (s.clients c).running = some r := by cases out <;> exact hr
      rw [hidle] at hnone
      cases hnone

private theorem of_execute {sql : Sql} (hidle : (s.clients c).running = none) (h : s.execute c sql f = some s') :
    s.Stepped f (.execute c sql) s' := by
  have hno : ∀ {r : Running} {P : Prop}, (s.clients c).running = some r → P := fun hr => by rw [hidle] at hr; cases hr
  unfold execute at h
  dsimp only at h
  split at h
  case h_1 t ht =>
    cases h
    exact .started rfl (.inl ht)
  case h_2 ht =>
    split_ifs at h
    · obtain ⟨⟨session,out⟩,hperf,rfl⟩ := map_eq_some_iff.mp h
      cases out with
      | began t =>
        exact .performed rfl hperf (by simp) (by simp) (by simp) (by simp) (fun t ht => .inl ht)
          (by rintro _ ⟨⟩; exact ⟨rfl,rfl,rfl⟩)
      | failed | read | done | collected =>
        exact .performed rfl hperf (by simp) (by simp) (by simp) (by simp) (fun t ht => .inl ht) (fun r hr => hno hr)
    · cases h
      exact .started rfl (.inr rfl)

theorem of_step {a : SqlLabel} (h : s.stepWith (f,a) = some s') : s.Stepped f a s' := by
  have hidle : ∀ {c}, ¬(s.clients c).running.isSome = true → (s.clients c).running = none := fun h =>
    not_isSome_iff_eq_none.mp h
  cases a with
  | begin c =>
    simp only [stepWith] at h
    split_ifs at h with hrun htxn
    · cases h
      exact .told rfl rfl (hidle hrun)
    · obtain ⟨⟨session,out⟩,hperf,rfl⟩ := map_eq_some_iff.mp h
      refine .performed rfl hperf (by simp) (by simp) (by simp) (by simp) (fun t ht => ?_) (fun r hr => ?_)
      · cases out with
        | began t' =>
          cases ht
          exact .inr rfl
        | failed | read | done | collected => exact .inl ht
      · have hnone : (s.clients c).running = some r := by cases out <;> exact hr
        rw [hidle hrun] at hnone
        cases hnone
  | commit c =>
    simp only [stepWith] at h
    split_ifs at h with hrun
    exact of_endTxn rfl (hidle hrun) (.inr ⟨rfl,rfl⟩) h
  | rollback c =>
    simp only [stepWith] at h
    split_ifs at h with hrun
    exact of_endTxn rfl (hidle hrun) (.inl rfl) h
  | execute c sql =>
    simp only [stepWith] at h
    split_ifs at h with hrun
    exact of_execute (hidle hrun) h
  | call c =>
    simp only [stepWith] at h
    split at h
    · cases h
    case h_2 r hr =>
      rcases call_cases h with ⟨result,hp,hfin⟩ | ⟨σ,catalog,engines,p,hans,rfl⟩
      · exact of_finish hr hp hfin
      · exact .resumed rfl hr hans
  | checkpoint =>
    obtain ⟨⟨session,out⟩,hperf,rfl⟩ := map_eq_some_iff.mp h
    exact .maintained rfl (.inl rfl) hperf
  | gc =>
    rw [stepWith] at h
    obtain ⟨⟨session,out⟩,hperf,rfl⟩ := map_eq_some_iff.mp h
    exact .maintained rfl (.inr rfl) hperf

end Server.Stepped

/-- The transaction of a client or of its statement. -/
def Client.Owns (c : Client) (t : Nat) : Prop :=
  c.currentTxn = some t ∨ ∃ r, c.running = some r ∧ r.txnId = t ∧ t ≠ TxnId.autoCommit

namespace Server
variable {s s' : Server}

/-- A statement writes under locks its transaction holds, and a transaction that ends with it is a real one. -/
def Disciplined (db : Database) (r : Running) : Prop :=
  (r.implicit = true → r.txnId ≠ TxnId.autoCommit) ∧ r.program.Guarded (db.mgr.lockManager.Holds r.txnId)

structure Inv (s : Server) : Prop where
  rows : s.session.RowInv
  known : ∀ {c t}, (s.clients c).Owns t → 0 < t ∧ t < s.session.db.mgr.nextTxnId
  alone : ∀ {c c' t}, (s.clients c).Owns t → (s.clients c').Owns t → c = c'
  disciplined : ∀ {c r}, (s.clients c).running = some r → Disciplined s.session.db r

namespace Inv
variable {s s' : Server} {c : Nat} {r : Running}

theorem init : (Server.init .snapshotIsolation).Inv := by
  have hno : ∀ c t, ¬((Server.init .snapshotIsolation).clients c).Owns t := by
    rintro c t (h | ⟨r,h,-⟩) <;> cases h
  exact ⟨.init,fun h => (hno _ _ h).elim,fun h => (hno _ _ h).elim,nofun⟩

section

variable (hi : s.Inv)
include hi

omit [Crc32] in
/-- A step of one client. The others keep their statements and their locks. -/
theorem update (c : Nat) (hrows : s'.session.RowInv) (hnext : s.session.db.mgr.nextTxnId ≤ s'.session.db.mgr.nextTxnId)
    (hothers : ∀ c', c' ≠ c → s'.clients c' = s.clients c')
    (hlocks : ∀ c' r q, c' ≠ c → (s.clients c').running = some r → s.session.db.mgr.lockManager.Holds r.txnId q →
      s'.session.db.mgr.lockManager.Holds r.txnId q)
    (howns : ∀ t, (s'.clients c).Owns t → (s.clients c).Owns t ∨
      (t = s.session.db.mgr.nextTxnId ∧ t < s'.session.db.mgr.nextTxnId))
    (hself : ∀ r, (s'.clients c).running = some r → Disciplined s'.session.db r) : s'.Inv := by
  have hfresh := hi.rows.mvcc.life.next_pos.1
  have howned : ∀ {c' t}, (s'.clients c').Owns t →
      (s.clients c').Owns t ∨ (c' = c ∧ t = s.session.db.mgr.nextTxnId ∧ t < s'.session.db.mgr.nextTxnId) := by
    intro c' t ht
    by_cases hc : c' = c
    · subst hc
      exact (howns t ht).imp id (fun h => ⟨rfl,h⟩)
    · exact .inl (hothers c' hc ▸ ht)
  refine ⟨hrows,fun {c' t} ht => ?_,fun {c₁ c₂ t} h₁ h₂ => ?_,fun {c' r} hr => ?_⟩
  · rcases howned ht with h | ⟨-,rfl,hlt⟩
    · exact ⟨(hi.known h).1,(hi.known h).2.trans_le hnext⟩
    · exact ⟨hfresh,hlt⟩
  · rcases howned h₁ with h₁ | ⟨rfl,rfl,-⟩ <;> rcases howned h₂ with h₂ | ⟨rfl,hn,-⟩
    · exact hi.alone h₁ h₂
    · exact absurd (hi.known h₁).2 (by omega)
    · exact absurd (hi.known h₂).2 (lt_irrefl _)
    · rfl
  · by_cases hc : c' = c
    · subst hc
      exact hself r hr
    · rw [hothers c' hc] at hr
      exact ⟨(hi.disciplined hr).1,(hi.disciplined hr).2.mono (fun _ => id) (fun q => hlocks c' r q hc hr)⟩

theorem performed {op : Op} {session : Session} {out : Outcome}
    (h : s.session.perform op = some (session,out)) (hput : ∀ t k v, op ≠ .put t k v) (hdelete : ∀ t k, op ≠ .delete t k)
    (hmine : ∀ t, op = .commit t ∨ op = .abort t → (s.clients c).Owns t) {cl : Client}
    (howns : ∀ t, cl.Owns t → (s.clients c).Owns t ∨ out = .began t)
    (hself : ∀ r, cl.running = some r → Disciplined session.db r) : ({ s with session }.setClient c cl).Inv := by
  obtain ⟨hmoves,hnext,hlocks,hbegan⟩ := hi.rows.perform h hput hdelete
  refine hi.update c (hi.rows.moved hmoves) hnext (fun c' hc => setClient_of_ne _ hc cl) (fun c' r q hc hr hq => ?_)
    (fun t ht => ?_) (fun r hr => ?_)
  · -- the statements of others are in transactions of their own
    have hne : op ≠ .commit r.txnId ∧ op ≠ .abort r.txnId := by
      have hother : ¬(s.clients c).Owns r.txnId := by
        intro hown
        by_cases hauto : r.txnId = TxnId.autoCommit
        · exact absurd (hi.known hown).1 (by rw [hauto]; exact lt_irrefl _)
        · exact hc (hi.alone (.inr ⟨r,hr,rfl,hauto⟩) hown)
      exact ⟨fun heq => hother (hmine _ (.inl heq)),fun heq => hother (hmine _ (.inr heq))⟩
    exact hlocks r.txnId q hne.1 hne.2 hq
  · rw [setClient_self] at ht
    exact (howns t ht).imp id (hbegan t)
  · rw [setClient_self] at hr
    exact hself r hr

omit [Crc32] in
theorem resumed (hr : (s.clients c).running = some r) {σ : Session} {catalog : Catalog} {engines : Nat → Engine}
    (hrows : σ.RowInv) (hnext : σ.db.mgr.nextTxnId = s.session.db.mgr.nextTxnId)
    (hlocks : ∀ t q, s.session.db.mgr.lockManager.Holds t q → σ.db.mgr.lockManager.Holds t q) {p : Statement (List Row)}
    (hguard : p.Guarded (σ.db.mgr.lockManager.Holds r.txnId)) :
    (setClient ⟨σ,catalog,engines,s.clients⟩ c { s.clients c with running := some { r with program := p } }).Inv := by
  refine hi.update c hrows hnext.ge (fun c' hc => setClient_of_ne _ hc _) (fun c' r' q hc hr' hq => hlocks _ q hq)
    (fun t ht => ?_) (fun r' hr' => ?_)
  · rw [setClient_self] at ht
    refine .inl (ht.imp id ?_)
    rintro ⟨r',hr',rfl,hauto⟩
    cases hr'
    exact ⟨r,hr,rfl,hauto⟩
  · rw [setClient_self] at hr'
    cases hr'
    exact ⟨(hi.disciplined hr).1,hguard⟩

omit [Crc32] in
theorem answered {cl : Client} (howns : ∀ t, cl.Owns t → (s.clients c).Owns t)
    (hself : ∀ r, cl.running = some r → Disciplined s.session.db r) : (s.setClient c cl).Inv := by
  refine hi.update c hi.rows le_rfl (fun c' hc => setClient_of_ne _ hc _) (fun _ _ _ _ _ hq => hq) (fun t ht => ?_)
    (fun r hr => ?_)
  · rw [setClient_self] at ht
    exact .inl (howns t ht)
  · rw [setClient_self] at hr
    exact hself r hr

theorem called (hr : (s.clients c).running = some r) {σ : Session} {catalog : Catalog}
    {engines : Nat → Engine} {p : Statement (List Row)} (hans : s.Answer .none r.txnId r.program σ catalog engines p) :
    (setClient ⟨σ,catalog,engines,s.clients⟩ c { s.clients c with running := some { r with program := p } }).Inv := by
  have hg := (hi.disciplined hr).2
  generalize r.program = program at hans hg
  cases hans with
  | lock key next =>
    obtain ⟨hmoves,hkept,hgot⟩ := hi.rows.lock r.txnId key
    refine hi.resumed hr (hi.rows.moved hmoves) rfl hkept (.resume fun _ hok => ?_)
    refine .mono hg (fun _ => id) fun q hq => ?_
    rcases hq with rfl | hq
    · exact hgot hok
    · exact hkept _ q hq
  | put key value next hw =>
    obtain ⟨hmoves,hnext,hlocks⟩ := hi.rows.write (v := .value r.txnId value) rfl hg.1.1 hw
    refine hi.resumed hr (hi.rows.moved hmoves) hnext (fun t q hq => hlocks ▸ hq) (.resume fun _ _ => ?_)
    exact hlocks ▸ hg.2
  | delete key next hw =>
    obtain ⟨hmoves,hnext,hlocks⟩ := hi.rows.write (v := .tombstone r.txnId) rfl hg.1 hw
    refine hi.resumed hr (hi.rows.moved hmoves) hnext (fun t q hq => hlocks ▸ hq) (.resume fun _ _ => ?_)
    exact hlocks ▸ hg.2
  | get key next => exact hi.resumed hr hi.rows rfl (fun _ _ hq => hq) (.resume fun a _ => hg a (fun _ _ => trivial))
  | scan lo hi' next => exact hi.resumed hr hi.rows rfl (fun _ _ hq => hq) (.resume fun a _ => hg a (fun _ _ _ => trivial))
  | indexScan | createIndex => exact hi.resumed hr hi.rows rfl (fun _ _ hq => hq) (hg _)
  | indexPut index key next | indexDelete index key next => exact hi.resumed hr hi.rows rfl (fun _ _ hq => hq) hg
  | nameTaken definition next => exact hi.resumed hr hi.rows rfl (fun _ _ hq => hq) trivial
  | failed _ fault => simp [Faults.Has] at fault

theorem maintained {op : Op} (hop : op = .checkpoint ∨ op = .gc) {session : Session} {out : Outcome}
    (hp : s.session.perform op = some (session,out)) : ({ s with session } : Server).Inv := by
  obtain ⟨hmoves,hnext,hlocks,-⟩ := hi.rows.perform hp (by rcases hop with rfl | rfl <;> simp)
    (by rcases hop with rfl | rfl <;> simp)
  have hkept : ∀ t q, s.session.db.mgr.lockManager.Holds t q → session.db.mgr.lockManager.Holds t q := fun t q =>
    hlocks t q (by rcases hop with rfl | rfl <;> simp) (by rcases hop with rfl | rfl <;> simp)
  refine hi.update 0 (hi.rows.moved hmoves) hnext (fun _ _ => rfl) (fun _ _ q _ _ hq => hkept _ q hq) (fun _ ht => .inl ht) (fun r hr => ?_)
  exact ⟨(hi.disciplined hr).1,(hi.disciplined hr).2.mono (fun _ => id) (hkept _)⟩

theorem step {a : SqlLabel} (h : s.step a = some s') : s'.Inv := by
  cases Stepped.of_step h with
  | told client current running =>
    refine hi.answered (fun t ht => ?_) (fun r hr => by rw [running] at hr; cases hr)
    rcases ht with ht | ⟨r,hr,-⟩
    · exact .inl (current ▸ ht)
    · rw [running] at hr
      cases hr
  | started label txn =>
    refine hi.answered (fun t ht => ?_) (by rintro _ ⟨⟩; exact ⟨by simp,Sql.program_guarded _ _ _⟩)
    rcases ht with ht | ⟨r,⟨⟩,rfl,hauto⟩
    · exact .inl ht
    · exact .inl (txn.resolve_right hauto)
  | performed client call put delete mine commit current running =>
    refine hi.performed call put delete (fun t ht => ?_) (fun t ht => ?_) (fun r hr => ?_)
    · rcases mine t ht with ht | ⟨r,hr,himp,rfl⟩
      · exact .inl ht
      · exact .inr ⟨r,hr,rfl,(hi.disciplined hr).1 himp⟩
    · rcases ht with ht | ⟨r,hr,rfl,-⟩
      · exact (current t ht).imp .inl id
      · obtain ⟨-,-,hout⟩ := running r hr
        exact .inr hout
    · obtain ⟨-,hprog,hout⟩ := running r hr
      have hpos : 0 < s.session.db.mgr.nextTxnId := hi.rows.mvcc.life.next_pos.1
      have hbegan := ((hi.rows.perform call put delete).2.2.2 _ hout).1
      exact ⟨fun _ hauto => hpos.ne' (hbegan.symm.trans hauto),hprog ▸ Sql.program_guarded _ r.sql _⟩
  | resumed label running answer => exact hi.called running answer
  | maintained client kind call => exact hi.maintained kind call

end

end Inv

/-- What a step can do to the database. -/
inductive Effect (s : Server) (a : SqlLabel) : Session → Prop where
  | quiet : Effect s a s.session
  | perform (op : Op) {session : Session} {out : Outcome} (h : s.session.perform op = some (session,out))
      (put : ∀ t k v, op ≠ .put t k v) (delete : ∀ t k, op ≠ .delete t k)
      (commit : ∀ t, op = .commit t → s.commits a = some t) : Effect s a session
  | lock (t : Nat) (key : Bytes) : Effect s a ⟨(s.session.db.lockForWrite t key).1,s.session.history⟩
  | write (t : Nat) (key : Bytes) (v : MvccValue) {session : Session} {r : Except Error Unit} (own : v.txnId = t)
      (held : s.session.db.mgr.lockManager.Holds t (rowLock key)) (h : s.session.write t key v = some (session,r)) :
      Effect s a session

theorem step_effect (hi : s.Inv) {a : SqlLabel} (h : s.step a = some s') : s.Effect a s'.session := by
  cases Stepped.of_step h with
  | told | started => exact .quiet
  | performed client call put delete mine commit => exact .perform _ call put delete commit
  | @resumed c r σ _ _ _ label running answer =>
    change s.Effect a σ
    have hg := (hi.disciplined running).2
    generalize r.program = program at answer hg
    cases answer with
    | lock key next => exact .lock r.txnId key
    | put key value next hw => exact .write r.txnId key (.value r.txnId value) rfl hg.1.1 hw
    | delete key next hw => exact .write r.txnId key (.tombstone r.txnId) rfl hg.1 hw
    | get | scan | indexScan | indexPut | indexDelete | nameTaken | createIndex => exact .quiet
    | failed _ fault => simp [Faults.Has] at fault
  | maintained client kind call => rcases kind with rfl | rfl <;> exact .perform _ call (by simp) (by simp) (by simp)

/-- A step of the server is one of the machine, and commits the transaction it is said to. -/
theorem step_moves (hi : s.Inv) {a : SqlLabel} (h : s.step a = some s') :
    ∃ ev, Session.RowInv.Moves s.session ev s'.session ∧ ∀ t c, .committed t c ∈ ev → s.commits a = some t := by
  generalize hσ : s'.session = σ
  have heff := step_effect hi h
  rw [hσ] at heff
  cases heff with
  | quiet =>
    exact ⟨[],⟨hi.rows.sound,rfl,.quiet _ (fun t t' q => hi.rows.sound.unshared t t' (rowLock q)) (fun _ _ hq => hq),rfl⟩,
      by simp⟩
  | @perform op session out hp hput hdelete hcommit =>
    refine ⟨_,(hi.rows.perform hp hput hdelete).1,fun t c hmem => ?_⟩
    cases op <;> cases out <;> simp [Database.events] at hmem
    exact hcommit t (by rw [hmem.1])
  | lock t key => exact ⟨[],(hi.rows.lock t key).1,by simp⟩
  | write t key v own held hw =>
    refine ⟨_,(hi.rows.write own held hw).1,fun t' c hmem => ?_⟩
    split at hmem <;> simp at hmem

end Server
end

end InterchangeDb
