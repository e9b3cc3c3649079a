import InterchangeDb.Database.Calls

/-! The database over storage that may fail. A fault leaves engine, image and log in any condition; memory stays. -/
namespace InterchangeDb
open Option AList

namespace Database
variable [Crc32]

/-- Put and delete outside a transaction: begin, write, commit, each with its own faults. -/
def implicitly (f : Nat → Faults) (db : Database) (body : Nat → Op) : Option (Database × Outcome) :=
  match db.step (.begin .readWrite) (f 0) with
  | some (db,.began txn) =>
    match db.step (body txn) (f 1) with
    | some (db,.done) => db.step (.commit txn) (f 2)
    | failed => failed
  | failed => failed

end Database

/-- A call of a transaction, or a put or delete outside one. -/
inductive Call where
  | op (op : Op)
  | put (key value : Bytes)
  | delete (key : Bytes)
  deriving DecidableEq, Repr

structure Attempt where
  call : Call
  faults : Nat → Faults

namespace Database
variable [Crc32]

def attempt (db : Database) (a : Attempt) : Option (Database × Outcome) :=
  match a.call with
  | .op op => db.step op (a.faults 0)
  | .put key value => db.implicitly a.faults (.put · key value)
  | .delete key => db.implicitly a.faults (.delete · key)

def tryStep (db : Database) (a : Attempt) : Option Database := (db.attempt a).map Prod.fst

/-- What calls return, one after the other. -/
def returns (db : Database) : List Attempt → Option (List Outcome)
  | [] => some []
  | a::as =>
    match db.attempt a with
    | none => none
    | some (db,out) => (db.returns as).map (out :: ·)

end Database

/-- An operation that fails among these. -/
def Faults.Has (f : Faults) (x : Fault) : Prop :=
  some x ∈ [f.read,f.append,f.sync,f.write,f.flush,f.truncate,f.collect]

/-- The changes a call is made of. -/
inductive ManagerStep (m : TransactionManager) : TransactionManager → Prop where
  | begin (mode : TxnMode) (lsn : Nat) : ManagerStep m (m.started mode lsn)
  | lock (t : Nat) (k : Bytes) : ManagerStep m { m with lockManager := (m.lockManager.acquire t k .exclusive).1 }
  | log {t : Nat} {txn : Transaction} (active : m.activeTxns.lookup t = some txn) (lsn : Nat) : ManagerStep m (m.logged t txn lsn)
  | stamp {t : Nat} {txn : Transaction} (active : m.activeTxns.lookup t = some txn) : ManagerStep m (m.stamped t)
  | commit {t : Nat} {txn : Transaction} (active : m.activeTxns.lookup t = some txn) : ManagerStep m (m.committed t)
  | abort {t : Nat} {txn : Transaction} (active : m.activeTxns.lookup t = some txn) : ManagerStep m (m.aborted t)
  | checkpoint : ManagerStep m
      ((m.setCheckpointTs m.nextTs).pruneCommittedBelow (min (m.oldestActive m.nextTs) m.nextTs))
  | forget (ids : Finset Nat) : ManagerStep m (m.removeAbortedTxns ids)

namespace ManagerStep
variable {m m' : TransactionManager}

section

variable (h : ManagerStep m m')
include h

theorem policy : m'.policy = m.policy := by
  cases h <;> rfl

theorem uncommittedTxns : m'.uncommittedTxns = m.uncommittedTxns := by
  cases h <;> rfl

theorem counters : m.nextTxnId ≤ m'.nextTxnId ∧ m.nextTs ≤ m'.nextTs := by
  cases h <;> simp [TransactionManager.started,TransactionManager.logged,TransactionManager.stamped,
    TransactionManager.committed,TransactionManager.aborted,TransactionManager.removeAbortedTxns,
    TransactionManager.setCheckpointTs,TransactionManager.pruneCommittedBelow]

/-- Who is active after a step began in it, or was active before it with the same snapshot. -/
theorem lookup_active {t : Nat} {txn' : Transaction} (ht : m'.activeTxns.lookup t = some txn') :
    (t = m.nextTxnId ∧ txn'.beginTs = m.nextTs ∧ txn'.snapshot = ⟨m.nextTs⟩ ∧ t < m'.nextTxnId ∧ m.nextTs < m'.nextTs) ∨
    ∃ txn, m.activeTxns.lookup t = some txn ∧ txn'.beginTs = txn.beginTs ∧ txn'.snapshot = txn.snapshot := by
  cases h with
  | begin mode lsn =>
    rcases lookup_insert_cases ht with ⟨rfl,rfl⟩ | ⟨-,hold⟩
    · exact .inl ⟨rfl,rfl,rfl,Nat.lt_succ_self _,Nat.lt_succ_self _⟩
    · exact .inr ⟨txn',hold,rfl,rfl⟩
  | @log u txn hact lsn =>
    rcases lookup_insert_cases ht with ⟨rfl,rfl⟩ | ⟨-,hold⟩
    · exact .inr ⟨txn,hact,rfl,rfl⟩
    · exact .inr ⟨txn',hold,rfl,rfl⟩
  | commit | abort => exact .inr ⟨txn',(lookup_erase_cases ht).2,rfl,rfl⟩
  | lock | stamp | checkpoint | forget => exact .inr ⟨txn',ht,rfl,rfl⟩

/-- A commit timestamp stays, is drawn for an active transaction, or is forgotten at a checkpoint when every
active transaction began after it. -/
theorem lookup_committed (t : Nat) :
    m'.committedTxns.lookup t = m.committedTxns.lookup t ∨
    (t ∈ m.activeTxns ∧ m'.committedTxns.lookup t = some m.nextTs) ∨
    (m'.committedTxns.lookup t = none ∧ ∀ c, m.committedTxns.lookup t = some c → c ≤ m.oldestActive m.nextTs) := by
  have hstamp : ∀ {u txn}, m.activeTxns.lookup u = some txn →
      (m.committedTxns.insert u m.nextTs).lookup t = m.committedTxns.lookup t ∨
        t ∈ m.activeTxns ∧ (m.committedTxns.insert u m.nextTs).lookup t = some m.nextTs := by
    intro u txn hact
    by_cases heq : t = u
    · subst heq
      exact .inr ⟨lookup_isSome.mp (by rw [hact]; rfl),lookup_insert _⟩
    · exact .inl (lookup_insert_ne heq)
  cases h with
  | stamp hact | commit hact => exact (hstamp hact).imp_right .inl
  | checkpoint =>
    rcases (m.setCheckpointTs m.nextTs).lookup_pruned_cases (min (m.oldestActive m.nextTs) m.nextTs) t with
      hsame | ⟨c,hle,hc,hnone⟩
    · exact .inl hsame
    · refine .inr (.inr ⟨hnone,fun c' hc' => ?_⟩)
      cases hc.symm.trans hc'
      exact hle.trans (min_le_left _ _)
  | begin | lock | log | abort | forget => exact .inl rfl

end

end ManagerStep

namespace Database
open Relation
variable [Crc32] {db db' : Database}
variable {f : Faults} {mode : TxnMode} {r : Except Error Unit} {t : Nat} {k : Bytes} {v : MvccValue}

/-- A call during which x failed has left a manager, and what the failure made of the storage. -/
def Left (db : Database) (f : Faults) (m : TransactionManager) (e : Error) (db' : Database) : Prop :=
  ∃ x wal, f.Has x ∧ e = x.error ∧ db' = x.leave { db with wal, mgr := m }

omit [Crc32] in
theorem Left.mgr {m : TransactionManager} {e : Error} (h : db.Left f m e db') : db'.mgr = m := by
  obtain ⟨x,wal,-,-,rfl⟩ := h
  rfl

theorem write_failed (h : db.write t k v f = some (db',r)) :
    db.write t k v = some (db',r) ∨ (∃ x, f.Has x ∧ r = .error x.error ∧ db' = x.leave db) ∨
    ∃ x db₁, f.Has x ∧ db.write t k v = some (db₁,.ok ()) ∧ r = .error x.error ∧
      db' = x.leave { db₁ with engine := db.engine } := by
  unfold write at h ⊢
  cases hl : db.logWrite t k v f with
  | none => simp [hl] at h
  | some y =>
    obtain ⟨db₁,r₁⟩ := y
    rcases logWrite_cases hl with ⟨e,rfl,-,hl'⟩ | ⟨x,hx,rfl,rfl⟩ | ⟨txn,wal,lsn,rfl,-,-,-,-,-,rfl,hl'⟩
    · simp only [hl] at h
      simp only [hl']
      exact .inl h
    · simp only [hl] at h
      cases h
      exact .inr (.inl ⟨x,by rcases hx with hx | hx <;> simp [Faults.Has,hx],rfl,rfl⟩)
    · simp only [hl] at h
      simp only [hl']
      cases hw : f.write with
      | none =>
        simp only [hw] at h
        exact .inl h
      | some x =>
        simp only [hw] at h
        cases h
        exact .inr (.inr ⟨x,_,by simp [Faults.Has,hw],rfl,rfl,rfl⟩)

theorem beginTxn_failed {r : Except Error Nat} (h : db.beginTxn mode f = some (db',r)) :
    db.beginTxn mode = some (db',r) ∨ ∃ e, r = .error e ∧ db.Left f (db.mgr.started mode Lsn.invalid) e db' ∧
      db.mgr.nextTxnId < u64Max ∧ db.mgr.nextTs < u64Max := by
  cases happ : f.append with
  | none =>
    simp only [beginTxn,happ] at h ⊢
    exact .inl h
  | some x =>
    unfold beginTxn at h ⊢
    cases hb : db.mgr.begin mode Lsn.invalid with
    | none => simp [hb] at h
    | some y =>
      obtain ⟨m,rb⟩ := y
      simp only [hb] at h ⊢
      rcases TransactionManager.begin_cases hb with ⟨rfl,rfl,-⟩ | ⟨rfl,hid,hts,rfl,-⟩
      · exact .inl h
      · cases mode with
        | readOnly => exact .inl h
        | readWrite =>
          simp only [happ] at h
          cases h
          exact .inr ⟨_,rfl,⟨x,_,by simp [Faults.Has,happ],rfl,rfl⟩,hid,hts⟩

theorem commitTxn_failed (h : db.commitTxn t f = some (db',r)) :
    db.commitTxn t = some (db',r) ∨ ∃ e txn, r = .error e ∧ db.Left f (db.mgr.stamped t) e db' ∧
      db.mgr.activeTxns.lookup t = some txn ∧ db.mgr.nextTs < u64Max := by
  unfold commitTxn at h ⊢
  cases ht : db.mgr.transaction t with
  | error e =>
    simp only [ht] at h ⊢
    exact .inl h
  | ok txn =>
    have hlook := TransactionManager.transaction_eq_ok.mp ht
    simp only [ht] at h ⊢
    cases hv : db.mgr.validateCommit t with
    | none => simp [hv] at h
    | some x =>
      obtain ⟨m,rc⟩ := x
      obtain ⟨hts,rfl,rfl⟩ := TransactionManager.validateCommit_cases hlook hv
      simp only [hv] at h ⊢
      split_ifs at h ⊢
      · cases happ : f.append with
        | some x =>
          simp only [happ] at h
          cases h
          exact .inr ⟨_,txn,rfl,⟨x,_,by simp [Faults.Has,happ],rfl,rfl⟩,hlook,hts⟩
        | none =>
          cases ha : db.wal.append (.commit t txn.lastLsn db.mgr.nextTs) with
          | none => simp [happ,ha] at h
          | some y =>
            simp only [happ,ha] at h ⊢
            cases hsync : f.sync with
            | none =>
              simp only [hsync] at h
              exact .inl h
            | some x =>
              simp only [hsync] at h
              cases h
              exact .inr ⟨_,txn,rfl,⟨x,_,by simp [Faults.Has,hsync],rfl,rfl⟩,hlook,hts⟩
      · exact .inl h

theorem txnAbort_failed (h : db.txnAbort t f = some (db',r)) :
    db.txnAbort t = some (db',r) ∨ ∃ e, r = .error e ∧ db.Left f db.mgr e db' := by
  unfold txnAbort at h ⊢
  cases ht : db.mgr.transaction t with
  | error e =>
    simp only [ht] at h ⊢
    exact .inl h
  | ok txn =>
    simp only [ht] at h ⊢
    cases happ : f.append with
    | some x =>
      simp only [happ] at h
      cases h
      exact .inr ⟨_,rfl,x,_,by simp [Faults.Has,happ],rfl,rfl⟩
    | none =>
      cases ha : db.wal.append (.abort t txn.lastLsn) with
      | none => simp [happ,ha] at h
      | some y =>
        simp only [happ,ha] at h ⊢
        cases hsync : f.sync with
        | none =>
          simp only [hsync] at h
          exact .inl h
        | some x =>
          simp only [hsync] at h
          cases h
          exact .inr ⟨_,rfl,x,_,by simp [Faults.Has,hsync],rfl,rfl⟩

theorem checkpoint_failed (h : db.checkpoint f = some (db',r)) :
    db.checkpoint = some (db',r) ∨ ∃ e, r = .error e ∧ db.Left f db.mgr e db' := by
  cases hf : f.flush.or (f.append.or (f.sync.or f.truncate)) with
  | none =>
    simp only [checkpoint,hf] at h
    exact .inl h
  | some x =>
    simp only [checkpoint,hf] at h
    cases h
    refine .inr ⟨_,rfl,x,_,?_,rfl,rfl⟩
    simp only [or_eq_some_iff] at hf
    rcases hf with h | ⟨-,h | ⟨-,h | ⟨-,h⟩⟩⟩ <;> simp [Faults.Has,h]

/-- What a call that fails on the storage leaves of the manager. -/
inductive Fails (m : TransactionManager) : Op → TransactionManager → Prop
  | same (op : Op) : Fails m op m
  | began {mode : TxnMode} (id : m.nextTxnId < u64Max) (ts : m.nextTs < u64Max) :
      Fails m (.begin mode) (m.started mode Lsn.invalid)
  | stamped {t : Nat} {txn : Transaction} (active : m.activeTxns.lookup t = some txn) (ts : m.nextTs < u64Max) :
      Fails m (.commit t) (m.stamped t)
  | locked {op : Op} {t : Nat} {k : Bytes} {v : MvccValue} (op_eq : op.write? = some (t,k,v)) :
      Fails m op { m with lockManager := (m.lockManager.acquire t k .exclusive).1 }
  | logged {op : Op} {t lsn : Nat} {k : Bytes} {v : MvccValue} {txn : Transaction} (op_eq : op.write? = some (t,k,v))
      (active : m.activeTxns.lookup t = some txn) :
      Fails m op (({ m with lockManager := (m.lockManager.acquire t k .exclusive).1 } : TransactionManager).logged t txn lsn)

/-- A call with faults is the call without them, or fails on the storage. -/
theorem step_failed {op : Op} {out : Outcome} (h : db.step op f = some (db',out)) :
    db.step op = some (db',out) ∨ ∃ e m, out = .failed e ∧ db.Left f m e db' ∧ Fails db.mgr op m := by
  have hwrite : ∀ {t k v r}, op.write? = some (t,k,v) → db.afterLock t k (·.write t k v f) = some (db',r) →
      db.afterLock t k (·.write t k v) = some (db',r) ∨ ∃ e m, r = .error e ∧ db.Left f m e db' ∧ Fails db.mgr op m := by
    intro t k v r hop hw
    rcases db.afterLock_eq t k with ⟨e,-,heq⟩ | ⟨-,heq⟩ <;> rw [heq] at hw ⊢
    · exact .inl hw
    · refine (write_failed hw).imp_right ?_
      rintro (⟨x,hx,rfl,rfl⟩ | ⟨x,db₁,hx,hok,rfl,rfl⟩)
      · exact ⟨_,_,rfl,⟨x,db.wal,hx,rfl,rfl⟩,.locked hop⟩
      · rcases write_cases hok with ⟨e,hno,-⟩ | ⟨txn,wal,lsn,-,hact,-,-,-,-,rfl⟩
        · cases hno
        · exact ⟨_,_,rfl,⟨x,wal,hx,rfl,rfl⟩,.logged hop hact⟩
  cases op with
  | begin mode =>
    obtain ⟨⟨d,r⟩,hr,heq⟩ := map_eq_some_iff.mp h
    rcases beginTxn_failed hr with hr | ⟨e,rfl,hleft,hid,hts⟩
    · exact .inl (by rw [step,hr]; exact congrArg some heq)
    · cases heq
      exact .inr ⟨e,_,rfl,hleft,.began hid hts⟩
  | get t k =>
    simp only [step] at h ⊢
    cases hf : db.readFault t f with
    | none =>
      simp only [hf] at h
      exact .inl h
    | some x =>
      simp only [hf] at h
      cases h
      refine .inr ⟨_,_,rfl,⟨x,db.wal,?_,rfl,rfl⟩,.same _⟩
      simp [Faults.Has,(filter_eq_some_iff.mp hf).1]
  | put t k v | delete t k =>
    obtain ⟨⟨d,r⟩,hr,heq⟩ := map_eq_some_iff.mp h
    cases heq
    rcases hwrite rfl hr with hr | ⟨e,m,rfl,hleft,hm⟩
    · exact .inl (map_eq_some_iff.mpr ⟨_,hr,rfl⟩)
    · exact .inr ⟨e,m,rfl,hleft,hm⟩
  | commit t =>
    obtain ⟨⟨d,r⟩,hr,heq⟩ := map_eq_some_iff.mp h
    cases heq
    rcases commitTxn_failed hr with hr | ⟨e,txn,rfl,hleft,hact,hts⟩
    · exact .inl (map_eq_some_iff.mpr ⟨_,hr,rfl⟩)
    · exact .inr ⟨e,_,rfl,hleft,.stamped hact hts⟩
  | abort t =>
    obtain ⟨⟨d,r⟩,hr,heq⟩ := map_eq_some_iff.mp h
    cases heq
    rcases txnAbort_failed hr with hr | ⟨e,rfl,hleft⟩
    · exact .inl (map_eq_some_iff.mpr ⟨_,hr,rfl⟩)
    · exact .inr ⟨e,_,rfl,hleft,.same _⟩
  | checkpoint =>
    obtain ⟨⟨d,r⟩,hr,heq⟩ := map_eq_some_iff.mp h
    cases heq
    rcases checkpoint_failed hr with hr | ⟨e,rfl,hleft⟩
    · exact .inl (map_eq_some_iff.mpr ⟨_,hr,rfl⟩)
    · exact .inr ⟨e,_,rfl,hleft,.same _⟩
  | gc =>
    simp only [step] at h ⊢
    cases hf : f.collect with
    | none =>
      simp only [hf] at h
      exact .inl h
    | some x =>
      simp only [hf] at h
      cases h
      exact .inr ⟨_,_,rfl,⟨x,db.wal,by simp [Faults.Has,hf],rfl,rfl⟩,.same _⟩

omit [Crc32] in
theorem Fails.steps {m m' : TransactionManager} {op : Op} (h : Fails m op m') : ReflTransGen ManagerStep m m' := by
  cases h with
  | same => exact .refl
  | began => exact .single (.begin _ _)
  | stamped hact => exact .single (.stamp hact)
  | locked => exact .single (.lock _ _)
  | @logged op t lsn k v txn hop hact =>
    refine .tail (.single (.lock t k)) (.log ?_ lsn)
    exact hact

theorem step_steps {op : Op} {out : Outcome} (h : db.step op f = some (db',out)) :
    ReflTransGen ManagerStep db.mgr db'.mgr := by
  rcases step_failed h with h | ⟨e,m,-,hleft,hm⟩
  · cases step_called h with
    | same => exact .refl
    | locked => exact .single (.lock _ _)
    | began => exact .single (.begin _ _)
    | wrote _ _ hw =>
      rcases write_cases hw with ⟨_,-,rfl⟩ | ⟨txn,wal,lsn,-,hact,-,-,-,-,rfl⟩
      · exact .single (.lock _ _)
      · exact .tail (.single (.lock _ _)) (.log hact lsn)
    | committed hact => exact .single (.commit hact)
    | aborted hact => exact .single (.abort hact)
    | checkpoint hr =>
      obtain ⟨w,lsn,-,-,rfl⟩ := checkpoint_cases hr
      exact .single .checkpoint
    | gc => exact .single (.forget _)
  · rw [hleft.mgr]
    exact hm.steps

/-- A put or delete outside a transaction is made of these calls. -/
theorem implicitly_cases {f : Nat → Faults} {body : Nat → Op} {out : Outcome}
    (h : db.implicitly f body = some (db',out)) :
    ∃ db₁ out₁, db.step (.begin .readWrite) (f 0) = some (db₁,out₁) ∧
      ((∀ t, out₁ ≠ .began t) ∧ db' = db₁ ∧ out = out₁ ∨
      ∃ t db₂ out₂, out₁ = .began t ∧ db₁.step (body t) (f 1) = some (db₂,out₂) ∧
        (out₂ ≠ .done ∧ db' = db₂ ∧ out = out₂ ∨ out₂ = .done ∧ db₂.step (.commit t) (f 2) = some (db',out))) := by
  unfold implicitly at h
  cases hbegin : db.step (.begin .readWrite) (f 0) with
  | none => simp [hbegin] at h
  | some x =>
    obtain ⟨db₁,out₁⟩ := x
    refine ⟨db₁,out₁,rfl,?_⟩
    cases out₁ with
    | began t =>
      simp only [hbegin] at h
      cases hbody : db₁.step (body t) (f 1) with
      | none => simp [hbody] at h
      | some y =>
        obtain ⟨db₂,out₂⟩ := y
        refine .inr ⟨t,db₂,out₂,rfl,hbody,?_⟩
        simp only [hbody] at h
        cases out₂ with
        | done => exact .inr ⟨rfl,h⟩
        | began | read | collected | failed =>
          cases h
          exact .inl ⟨nofun,rfl,rfl⟩
    | done | read | collected | failed =>
      simp only [hbegin] at h
      cases h
      exact .inl ⟨fun _ => nofun,rfl,rfl⟩

/-- Every call, with any faults, is made of these changes. -/
theorem attempt_steps {a : Attempt} {out : Outcome} (h : db.attempt a = some (db',out)) :
    ReflTransGen ManagerStep db.mgr db'.mgr := by
  have himplicit : ∀ {body : Nat → Op}, db.implicitly a.faults body = some (db',out) →
      ReflTransGen ManagerStep db.mgr db'.mgr := by
    intro body h
    obtain ⟨db₁,out₁,hbegin,⟨-,rfl,-⟩ | ⟨t,db₂,out₂,-,hbody,⟨-,rfl,-⟩ | ⟨-,hcommit⟩⟩⟩ := implicitly_cases h
    · exact step_steps hbegin
    · exact (step_steps hbegin).trans (step_steps hbody)
    · exact ((step_steps hbegin).trans (step_steps hbody)).trans (step_steps hcommit)
  obtain ⟨call,f⟩ := a
  cases call with
  | op op => exact step_steps h
  | put | delete => exact himplicit h

/-- What every change keeps holds after every run. -/
theorem manager_invariant {Inv : TransactionManager → Prop} (hstep : ∀ m m', ManagerStep m m' → Inv m → Inv m')
    {as : List Attempt} (h : run tryStep db as = some db') (hdb : Inv db.mgr) : Inv db'.mgr := by
  refine run_keeps (P := fun s => Inv s.mgr) (fun a _ s s' hs hstep' => ?_) hdb h
  obtain ⟨⟨x,out⟩,hx,rfl⟩ := map_eq_some_iff.mp hstep'
  have hsteps : ∀ m', ReflTransGen ManagerStep s.mgr m' → Inv m' := by
    intro m' hm'
    induction hm' with
    | refl => exact hs
    | tail _ hm ih => exact hstep _ _ hm ih
  exact hsteps x.mgr (attempt_steps hx)

end Database
end InterchangeDb
