import InterchangeDb.Sql.StoredRows

/-! Statements that return an error, of their own or of the storage. The implicit transaction is aborted; index entries
and the session's own writes stay. -/
namespace InterchangeDb
open Option AList Function Nat

/-- Operations that fail leave the contents of the engines as they were. -/
def Faults.Harmless (f : Faults) : Prop := ∀ x, f.Has x → ∀ st, (x.damage st).engine = st.engine

theorem Faults.harmless_none : Faults.none.Harmless := fun x hx => by simp [Has] at hx

theorem Faults.Harmless.leave {f : Faults} (hf : f.Harmless) {x : Fault} (hx : f.Has x) (db : Database) :
    ∃ flushed wal, x.leave db = { db with flushed, wal } :=
  ⟨_,_,congrArg (fun engine => Database.mk engine _ _ _) (hf x hx _)⟩

/-- No id or timestamp is ahead of the counters. -/
structure MvccState.Bounded (s : MvccState) : Prop where
  active : ∀ {t b}, s.active t = some b → t < s.nextTxnId ∧ b < s.nextTs
  version : ∀ {k ts v}, s.version k ts = some v → v.txnId < s.nextTxnId ∧ ts < s.nextTs
  committed : ∀ {t c}, s.committed t = some c → t < s.nextTxnId ∧ c < s.nextTs
  checkpoint : s.checkpointTs ≤ s.nextTs

theorem MvccState.Bounded.write {s : MvccState} (hb : s.Bounded) {t b : Nat} (hact : s.active t = some b) {v : MvccValue}
    (hown : v.txnId = t) (k : Bytes) :
    ({ s with version := fun k' ts => if k' = k ∧ ts = b then some v else s.version k' ts } : MvccState).Bounded := by
  refine ⟨hb.active,fun {k' ts v'} hv => ?_,hb.committed,hb.checkpoint⟩
  dsimp only at hv ⊢
  split_ifs at hv with heq
  · cases hv
    rw [hown,heq.2]
    exact hb.active hact
  · exact hb.version hv

theorem MvccState.Bounded.step {rules : Rules} {s s' : MvccState} {ev : List Event} (hb : s.Bounded)
    (h : MvccStep rules s ev s') : s'.Bounded := by
  cases h with
  | quiet => exact ⟨hb.active,hb.version,hb.committed,hb.checkpoint⟩
  | begin =>
    refine ⟨fun {t b} ht => ?_,fun hv => ?_,fun hc => ?_,hb.checkpoint.trans (le_succ _)⟩
    · dsimp only at ht ⊢
      rw [update_apply] at ht
      split_ifs at ht with heq
      · cases ht
        omega
      · have := hb.active ht
        omega
    · exact (hb.version hv).imp lt_succ_of_lt lt_succ_of_lt
    · exact (hb.committed hc).imp lt_succ_of_lt lt_succ_of_lt
  | write t b k v holds active own =>
    have hw := hb.write active own k
    exact ⟨hw.active,hw.version,hw.committed,hw.checkpoint⟩
  | commit t b holds active =>
    refine ⟨fun {t' b'} ht => ?_,fun hv => ?_,fun {t' c} hc => ?_,hb.checkpoint.trans (le_succ _)⟩
    · dsimp only at ht ⊢
      rw [update_apply] at ht
      split_ifs at ht
      have := hb.active ht
      omega
    · exact (hb.version hv).imp_right lt_succ_of_lt
    · dsimp only at hc ⊢
      rw [update_apply] at hc
      split_ifs at hc with heq
      · cases hc
        have := hb.active active
        omega
      · have := hb.committed hc
        omega
  | abort t b holds active =>
    refine ⟨fun {t' b'} ht => ?_,hb.version,hb.committed,hb.checkpoint⟩
    dsimp only at ht ⊢
    rw [update_apply] at ht
    split_ifs at ht
    exact hb.active ht
  | checkpoint bound =>
    refine ⟨hb.active,hb.version,fun hc => ?_,le_rfl⟩
    exact hb.committed (filter_eq_some_iff.mp hc).1
  | gc lwm version aborted allowed le oldest kept => exact ⟨hb.active,fun hv => hb.version ((kept _ _ _).mp hv).1,hb.committed,hb.checkpoint⟩

/-- A database whose counters are ahead of everything, with an exclusive lock for each entry of its lock table. -/
structure Database.Orderly (db : Database) : Prop where
  sound : db.Sound
  bounded : db.view.Bounded
  tidy : db.mgr.lockManager.Tidy db.mgr.nextTxnId
  positive : 0 < db.mgr.nextTxnId

section

variable [Crc32]

namespace Database.Orderly
variable {db db' : Database} {f : Faults}

theorem fresh (policy : IsolationPolicy) : (Database.fresh policy).Orderly := by
  refine ⟨(Session.inv_init policy ⟨False,True,True⟩).sound,⟨?_,fun {k ts v} hv => ?_,?_,zero_le _⟩,
    LockState.tidy_new _,one_pos⟩
  · intro t b h
    simp [Database.fresh,Database.view,TransactionManager.withPolicy] at h
  · have hempty : (Database.fresh policy).view.version k ts = none := Engine.version_empty k ts
    rw [hempty] at hv
    cases hv
  · intro t c h
    simp [Database.fresh,Database.view,TransactionManager.withPolicy] at h

omit [Crc32] in
theorem lock (hi : db.Orderly) {t : Nat} (ht : t < db.mgr.nextTxnId) (k : Bytes) : (db.lockForWrite t k).1.Orderly :=
  ⟨locked_sound hi.sound t k,⟨hi.bounded.active,hi.bounded.version,hi.bounded.committed,hi.bounded.checkpoint⟩,
    hi.tidy.acquire t ht k,hi.positive⟩

omit [Crc32] in
/-- The engine of one database under the manager of a later one. -/
theorem later (hi : db.Orderly) (hi' : db'.Orderly) (hid : db.mgr.nextTxnId ≤ db'.mgr.nextTxnId)
    (hts : db.mgr.nextTs ≤ db'.mgr.nextTs) (flushed : Engine) (wal : Wal) : Orderly ⟨db.engine,flushed,wal,db'.mgr⟩ := by
  obtain ⟨-,hexclusive,hlastId,hlastTs,hactive⟩ := hi'.sound
  refine ⟨⟨hi.sound.versioned,hexclusive,hlastId,hlastTs,hactive⟩,?_,hi'.tidy,hi'.positive⟩
  exact ⟨hi'.bounded.active,fun hv => (hi.bounded.version hv).imp (·.trans_le hid) (·.trans_le hts),hi'.bounded.committed,
    hi'.bounded.checkpoint⟩

theorem written (hi : db.Orderly) {t : Nat} {k : Bytes} {v : MvccValue} (hown : v.txnId = t) {r : Except Error Unit}
    (h : db.write t k v = some (db',r)) :
    db'.Orderly ∧ db'.mgr.nextTxnId = db.mgr.nextTxnId ∧ db'.mgr.nextTs = db.mgr.nextTs := by
  rcases write_view hi.sound hown h with ⟨e,-,rfl⟩ | ⟨b,-,hact,hs,-,-,hview⟩
  · exact ⟨hi,rfl,rfl⟩
  · have hlocks : db'.mgr.lockManager = db.mgr.lockManager := by
      rcases write_cases h with ⟨e,-,rfl⟩ | ⟨txn,wal,lsn,-,-,-,-,-,-,rfl⟩ <;> rfl
    have hnext : db'.mgr.nextTxnId = db.mgr.nextTxnId := congrArg MvccState.nextTxnId hview
    refine ⟨⟨hs,hview ▸ hi.bounded.write hact hown k,?_,hnext ▸ hi.positive⟩,hnext,congrArg MvccState.nextTs hview⟩
    rw [hlocks,hnext]
    exact hi.tidy

theorem write (hi : db.Orderly) (hf : f.Harmless) {t : Nat} {k : Bytes} {v : MvccValue} (hown : v.txnId = t)
    {r : Except Error Unit} (h : db.write t k v f = some (db',r)) :
    db'.Orderly ∧ db'.mgr.nextTxnId = db.mgr.nextTxnId := by
  rcases write_failed h with h | ⟨x,hx,-,rfl⟩ | ⟨x,db₁,hx,hok,-,rfl⟩
  · obtain ⟨hdb,hnext,-⟩ := hi.written hown h
    exact ⟨hdb,hnext⟩
  · obtain ⟨flushed,wal,heq⟩ := hf.leave hx db
    rw [heq]
    exact ⟨hi.later hi le_rfl le_rfl flushed wal,rfl⟩
  · obtain ⟨hdb,hid,hts⟩ := hi.written hown hok
    obtain ⟨flushed,wal,heq⟩ := hf.leave hx { db₁ with engine := db.engine }
    rw [heq]
    exact ⟨hi.later hdb hid.ge hts.ge flushed wal,hid⟩

omit [Crc32] in
/-- A call that fails on the storage leaves a manager in order. -/
theorem failed (hi : db.Orderly) {op : Op} (hop : op.write? = none) {m : TransactionManager} (h : Fails db.mgr op m) :
    ({ db with mgr := m } : Database).Orderly ∧ db.mgr.nextTxnId ≤ m.nextTxnId ∧ db.mgr.nextTs ≤ m.nextTs := by
  cases h with
  | same => exact ⟨hi,le_rfl,le_rfl⟩
  | @began mode id ts =>
    have hbegan : Sound _ ∧ MvccStep ⟨False,True,True⟩ db.view _ _ := began_refines hi.sound id ts mode db.wal Lsn.invalid
    obtain ⟨hs,hm⟩ := hbegan
    exact ⟨⟨hs,hi.bounded.step hm,hi.tidy.mono (le_succ _),succ_pos _⟩,le_succ _,le_succ _⟩
  | @stamped t txn hact ts =>
    obtain ⟨hversioned,hexclusive,hnextId,-,hactive⟩ := hi.sound
    refine ⟨⟨⟨hversioned,hexclusive,hnextId,ts,fun ht => ?_⟩,⟨fun ht => ?_,fun hv => ?_,fun {t' c} hc => ?_,?_⟩,hi.tidy,hi.positive⟩,
      le_rfl,le_succ _⟩
    · exact (hactive ht).imp_right (.imp_left lt_succ_of_lt)
    · exact (hi.bounded.active ht).imp_right lt_succ_of_lt
    · exact (hi.bounded.version hv).imp_right lt_succ_of_lt
    · rcases lookup_insert_cases hc with ⟨rfl,rfl⟩ | ⟨-,hc⟩
      · exact ⟨(hactive hact).1,lt_succ_self _⟩
      · exact (hi.bounded.committed hc).imp_right lt_succ_of_lt
    · exact hi.bounded.checkpoint.trans (le_succ _)
  | locked hw | logged hw =>
    rw [hop] at hw
    cases hw

theorem stepped (hi : db.Orderly) {op : Op} {out : Outcome} (h : db.step op = some (db',out)) (hop : op.write? = none) :
    db'.Orderly ∧ db.mgr.nextTxnId ≤ db'.mgr.nextTxnId := by
  have hrefines : db'.Sound ∧ _ ∧ MvccStep ⟨False,True,True⟩ db.view (db.events op out) db'.view :=
    step_refines hi.sound False.elim (fun _ => trivial) (fun _ => trivial) h
  obtain ⟨hs,-,hm⟩ := hrefines
  have hnext : db.mgr.nextTxnId ≤ db'.mgr.nextTxnId := hm.nextTxnId_le
  refine ⟨⟨hs,hi.bounded.step hm,?_,hi.positive.trans_le hnext⟩,hnext⟩
  refine .mono ?_ hnext
  cases step_called h with
  | same | began | gc => exact hi.tidy
  | locked _ hw | wrote hw =>
    rw [hop] at hw
    cases hw
  | committed | aborted => exact hi.tidy.releaseAll _
  | checkpoint hr =>
    obtain ⟨w,lsn,-,-,rfl⟩ := checkpoint_cases hr
    exact hi.tidy

theorem step (hi : db.Orderly) (hf : f.Harmless) {op : Op} {out : Outcome} (h : db.step op f = some (db',out))
    (hput : ∀ t k v, op ≠ .put t k v) (hdelete : ∀ t k, op ≠ .delete t k) :
    db'.Orderly ∧ db.mgr.nextTxnId ≤ db'.mgr.nextTxnId ∧ ∀ t, out = .began t → t < db'.mgr.nextTxnId := by
  have hop : op.write? = none := by
    cases op with
    | put t k v => exact (hput t k v rfl).elim
    | delete t k => exact (hdelete t k rfl).elim
    | begin | get | commit | abort | checkpoint | gc => rfl
  rcases step_failed h with h | ⟨e,m,rfl,⟨x,wal,hx,-,rfl⟩,hm⟩
  · obtain ⟨hdb,hnext⟩ := hi.stepped h hop
    exact ⟨hdb,hnext,fun t ht => (step_began (ht ▸ h)).2⟩
  · obtain ⟨hdb,hid,hts⟩ := hi.failed hop hm
    obtain ⟨flushed,wal,heq⟩ := hf.leave hx { db with wal, mgr := m }
    rw [heq]
    exact ⟨hi.later hdb hid hts flushed wal,hid,by rintro _ ⟨⟩⟩

end Database.Orderly

namespace Server

/-- Every transaction of a client is one the database has begun. -/
structure Orderly (s : Server) : Prop where
  db : s.session.db.Orderly
  current : ∀ {c t}, (s.clients c).currentTxn = some t → t < s.session.db.mgr.nextTxnId
  running : ∀ {c r}, (s.clients c).running = some r → r.txnId < s.session.db.mgr.nextTxnId

namespace Orderly
variable {s s' : Server} {f : Faults}
variable {σ : Session}

theorem init (policy : IsolationPolicy) : (Server.init policy).Orderly :=
  ⟨.fresh policy,(by rintro _ _ ⟨⟩),(by rintro _ _ ⟨⟩)⟩

omit [Crc32] in
theorem update (hi : s.Orderly) (hdb : σ.db.Orderly)
    (hnext : s.session.db.mgr.nextTxnId ≤ σ.db.mgr.nextTxnId) (catalog : Catalog) (engines : Nat → Engine) {c : Nat}
    {cl : Client} (hcurrent : ∀ t, cl.currentTxn = some t → t < σ.db.mgr.nextTxnId)
    (hrunning : ∀ r, cl.running = some r → r.txnId < σ.db.mgr.nextTxnId) :
    (setClient ⟨σ,catalog,engines,s.clients⟩ c cl).Orderly := by
  have hclients := forall_setClient (s := ⟨σ,catalog,engines,s.clients⟩) (c := c)
    (P := fun cl => (∀ t, cl.currentTxn = some t → t < σ.db.mgr.nextTxnId) ∧
      ∀ r, cl.running = some r → r.txnId < σ.db.mgr.nextTxnId) ⟨hcurrent,hrunning⟩
    (fun c' => ⟨fun t ht => (hi.current ht).trans_le hnext,fun r hr => (hi.running hr).trans_le hnext⟩)
  exact ⟨hdb,fun {c' t} => (hclients c').1 t,fun {c' r} => (hclients c').2 r⟩

theorem called (hi : s.Orderly) (hf : f.Harmless) {c : Nat} {r : Running} (hr : (s.clients c).running = some r)
    {catalog : Catalog} {engines : Nat → Engine} {p : Statement (List Row)}
    (hans : s.Answer f r.txnId r.program σ catalog engines p) :
    (setClient ⟨σ,catalog,engines,s.clients⟩ c { s.clients c with running := some { r with program := p } }).Orderly := by
  have hresumed : σ.db.Orderly → σ.db.mgr.nextTxnId = s.session.db.mgr.nextTxnId →
      (setClient ⟨σ,catalog,engines,s.clients⟩ c { s.clients c with running := some { r with program := p } }).Orderly := by
    intro hdb hnext
    refine hi.update hdb hnext.ge catalog engines (fun t ht => hnext ▸ hi.current ht) ?_
    rintro _ ⟨⟩
    exact (hi.running hr).trans_le hnext.ge
  generalize r.program = program at hans
  cases hans with
  | lock key next => exact hresumed (hi.db.lock (hi.running hr) key) rfl
  | put key value next hw =>
    obtain ⟨hdb,hnext⟩ := hi.db.write hf (v := .value r.txnId value) rfl (Session.db_of_write hw)
    exact hresumed hdb hnext
  | delete key next hw =>
    obtain ⟨hdb,hnext⟩ := hi.db.write hf (v := .tombstone r.txnId) rfl (Session.db_of_write hw)
    exact hresumed hdb hnext
  | get | scan | indexScan | indexPut | indexDelete | nameTaken | createIndex => exact hresumed hi.db rfl
  | @failed _ x _ hx left =>
    rcases left with rfl | ⟨index,rfl⟩ | ⟨catalog,rfl⟩
    · obtain ⟨flushed,wal,heq⟩ := hf.leave hx s.session.db
      have hdb : (x.leave s.session.db).Orderly := heq ▸ hi.db.later hi.db le_rfl le_rfl flushed wal
      exact hresumed hdb rfl
    · exact hresumed hi.db rfl
    · exact hresumed hi.db rfl

theorem step (hi : s.Orderly) (hf : f.Harmless) {a : SqlLabel} (h : s.stepWith (f,a) = some s') : s'.Orderly := by
  cases Stepped.of_step h with
  | told client current running =>
    exact hi.update hi.db le_rfl _ _ (fun t ht => hi.current (current ▸ ht)) (fun r hr => by rw [running] at hr; cases hr)
  | started label txn =>
    refine hi.update hi.db le_rfl _ _ (fun t ht => hi.current ht) ?_
    rintro _ ⟨⟩
    rcases txn with ht | rfl
    · exact hi.current ht
    · exact hi.db.positive
  | performed client call put delete mine commit current running =>
    obtain ⟨db,hstep,rfl⟩ := Session.perform_eq_some call
    obtain ⟨hdb,hnext,hbegan⟩ := hi.db.step hf hstep put delete
    refine hi.update hdb hnext _ _ (fun t ht => ?_) (fun r hr => ?_)
    · rcases current t ht with ht | hout
      · exact (hi.current ht).trans_le hnext
      · exact hbegan t hout
    · obtain ⟨-,-,hout⟩ := running r hr
      exact hbegan _ hout
  | resumed label running answer => exact hi.called hf running answer
  | maintained client kind call =>
    obtain ⟨db,hstep,rfl⟩ := Session.perform_eq_some call
    obtain ⟨hdb,hnext,-⟩ := hi.db.step hf hstep (by rcases kind with rfl | rfl <;> simp)
      (by rcases kind with rfl | rfl <;> simp)
    exact ⟨hdb,fun ht => (hi.current ht).trans_le hnext,fun hr => (hi.running hr).trans_le hnext⟩

end Orderly
end Server

namespace Database
variable {db db' : Database}

omit [Crc32] in
/-- Reads outside a transaction see the same if the same versions are visible. -/
theorem get_congr (hs : db.Sound) (hs' : db'.Sound) {k : Bytes}
    (h : ∀ ts v, db'.Sees k ts v ↔ db.Sees k ts v) : db'.get k = db.get k := by
  by_cases hk : k.length ≤ u32Max
  · obtain ⟨r,hget,hr⟩ := get_seen hs hk
    obtain ⟨r',hget',hr'⟩ := get_seen hs' hk
    rw [hget,hget']
    match r, r' with
    | none, none => rfl
    | none, some (ts,v) => exact (hr ts v ((h ts v).mp hr'.1)).elim
    | some (ts,v), none => exact (hr' ts v ((h ts v).mpr hr.1)).elim
    | some (ts,v), some (ts',v') =>
      have heq : ts' = ts := le_antisymm (hr.2 ts' v' ((h ts' v').mp hr'.1)) (hr'.2 ts v ((h ts v).mpr hr.1))
      subst heq
      obtain rfl : v' = v := some.inj (((h ts' v').mp hr'.1).1.symm.trans hr.1.1)
      rfl
  · simp only [get,txnGet,readView_autoCommit,mvccGet,mvccFind,scanUserKey_oversized hk]
    rfl

/-- A database with a new transaction, and what this one did since. -/
structure Begun (db₀ db : Database) : Prop where
  orderly : db.Orderly
  own : ∃ txn, db.mgr.activeTxns.lookup db₀.mgr.nextTxnId = some txn ∧ txn.beginTs = db₀.mgr.nextTs
  others : ∀ a, a ≠ db₀.mgr.nextTxnId → db.mgr.activeTxns.lookup a = db₀.mgr.activeTxns.lookup a
  nextTs : db.mgr.nextTs = db₀.mgr.nextTs + 1
  committed : db.mgr.committedTxns = db₀.mgr.committedTxns
  uncommitted : db.mgr.uncommittedTxns = db₀.mgr.uncommittedTxns
  aborted : db.mgr.abortedTxns = db₀.mgr.abortedTxns
  checkpointTs : db.mgr.checkpointTs = db₀.mgr.checkpointTs
  version : ∀ k ts, ts ≠ db₀.mgr.nextTs → db.view.version k ts = db₀.view.version k ts
  mine : ∀ {k v}, db.view.version k db₀.mgr.nextTs = some v → v.txnId = db₀.mgr.nextTxnId
  locks : db₀.mgr.lockManager.Grown db₀.mgr.nextTxnId db.mgr.lockManager

/-- What a statement must leave as it was. -/
structure Restored (db₀ db : Database) : Prop where
  get : ∀ k, db.get k = db₀.get k
  active : ∀ a, db.mgr.activeTxns.lookup a = db₀.mgr.activeTxns.lookup a
  lockTable : ∀ key, db.mgr.lockManager.lockTable.lookup key = db₀.mgr.lockManager.lockTable.lookup key
  txnLocks : ∀ a, db.mgr.lockManager.txnLocks.lookup a = db₀.mgr.lockManager.txnLocks.lookup a

/-- A write that returns an error shows no reader anything. -/
theorem txnGet_of_failed {f : Faults} (hf : f.Harmless) {t : Nat} {k : Bytes} {v : MvccValue} {e : Error}
    (h : db.write t k v f = some (db',.error e)) (t' : Nat) (k' : Bytes) : db'.txnGet t' k' = db.txnGet t' k' := by
  rcases write_failed h with h | ⟨x,hx,-,rfl⟩ | ⟨x,db₁,hx,hok,-,rfl⟩
  · rcases write_cases h with ⟨_,-,rfl⟩ | ⟨txn,wal,lsn,hok,-⟩
    · rfl
    · cases hok
  · obtain ⟨flushed,wal,heq⟩ := hf.leave hx db
    rw [heq]
    rfl
  · rcases write_cases hok with ⟨_,hno,-⟩ | ⟨txn,wal,lsn,-,hact,-,-,-,-,rfl⟩
    · cases hno
    obtain ⟨flushed,wal,heq⟩ := hf.leave hx { db with wal, mgr := db.mgr.logged t txn lsn }
    have hview : (db.mgr.logged t txn lsn).readView t' = db.mgr.readView t' := by
      have hsnapshot : (db.mgr.logged t txn lsn).snapshot t' = db.mgr.snapshot t' := by
        simp only [TransactionManager.snapshot,TransactionManager.transaction,TransactionManager.logged,lookup_insert_eq]
        split_ifs with heq
        · subst heq
          rw [hact]
          rfl
        · rfl
      simp only [TransactionManager.readView,hsnapshot]
      rfl
    rw [heq]
    simp only [txnGet,hview]
    rfl

namespace Begun
variable {db₀ db db' : Database}
variable {f : Faults} {r : Except Error Unit}

theorem start (h₀ : db₀.Orderly) {t : Nat} (h : db₀.step (.begin .readWrite) = some (db,.began t)) :
    t = db₀.mgr.nextTxnId ∧ db₀.Begun db := by
  have horderly := (h₀.stepped h rfl).1
  refine ⟨(step_began h).1,?_⟩
  obtain ⟨⟨d,r⟩,hr,heq⟩ := map_eq_some_iff.mp h
  obtain ⟨rfl,heq⟩ := Prod.mk.inj heq
  rcases beginTxn_cases hr with ⟨rfl,rfl⟩ | ⟨wal,lsn,rfl,-,-,-,rfl⟩
  · cases heq
  · refine ⟨horderly,⟨_,lookup_insert _,rfl⟩,fun a ha => lookup_insert_ne ha,rfl,rfl,rfl,rfl,rfl,fun _ _ _ => rfl,
      fun {k v} hv => ?_,.refl _ _⟩
    have hlt : db₀.mgr.nextTs < db₀.mgr.nextTs := (h₀.bounded.version hv).2
    exact absurd hlt (lt_irrefl _)

omit [Crc32] in
theorem lock (hb : db₀.Begun db) (k : Bytes) : db₀.Begun (db.lockForWrite db₀.mgr.nextTxnId k).1 := by
  obtain ⟨txn,hact,-⟩ := hb.own
  exact { hb with
    orderly := hb.orderly.lock (hb.orderly.sound.active hact).1 k
    locks := hb.locks.acquire hb.orderly.tidy k }

omit [Crc32] in
theorem later (hb : db₀.Begun db) (hb' : db₀.Begun db') (hid : db.mgr.nextTxnId ≤ db'.mgr.nextTxnId) (flushed : Engine)
    (wal : Wal) : db₀.Begun ⟨db.engine,flushed,wal,db'.mgr⟩ := { hb' with
  orderly := hb.orderly.later hb'.orderly hid (hb.nextTs.trans hb'.nextTs.symm).le flushed wal
  version := hb.version
  mine := hb.mine }

theorem written (hb : db₀.Begun db) {k : Bytes} {v : MvccValue} (hown : v.txnId = db₀.mgr.nextTxnId)
    (h : db.write db₀.mgr.nextTxnId k v = some (db',r)) : db₀.Begun db' := by
  have horderly := (hb.orderly.written hown h).1
  obtain ⟨txn,hact,hts⟩ := hb.own
  rcases write_view hb.orderly.sound hown h with ⟨e,-,rfl⟩ | ⟨b,hok,hb',-,-,-,hview⟩
  · exact hb
  have hbegin : b = db₀.mgr.nextTs := by
    have hactive : db.view.active db₀.mgr.nextTxnId = some txn.beginTs := by
      change (db.mgr.activeTxns.lookup _).map _ = _
      rw [hact]
      rfl
    rw [← hts]
    exact some.inj (hb'.symm.trans hactive)
  have hversion : ∀ k' ts, db'.view.version k' ts = if k' = k ∧ ts = b then some v else db.view.version k' ts :=
    fun k' ts => congrFun (congrFun (congrArg MvccState.version hview) k') ts
  rcases write_cases h with ⟨e,-,rfl⟩ | ⟨txn',wal,lsn,-,hact',-,-,-,-,rfl⟩
  · exact hb
  cases hact.symm.trans hact'
  refine { hb with
    orderly := horderly
    own := ⟨_,lookup_insert _,hts⟩
    others := fun a ha => (lookup_insert_ne ha).trans (hb.others a ha)
    version := fun k' ts hne => ?_
    mine := fun {k' v'} hv => ?_ }
  · rw [hversion,if_neg (fun hc => hne (hc.2.trans hbegin))]
    exact hb.version k' ts hne
  · rw [hversion] at hv
    split_ifs at hv with hat
    · cases hv
      exact hown
    · exact hb.mine hv

theorem write (hb : db₀.Begun db) (hf : f.Harmless) {k : Bytes} {v : MvccValue} (hown : v.txnId = db₀.mgr.nextTxnId)
    (h : db.write db₀.mgr.nextTxnId k v f = some (db',r)) : db₀.Begun db' := by
  rcases write_failed h with h | ⟨x,hx,-,rfl⟩ | ⟨x,db₁,hx,hok,-,rfl⟩
  · exact hb.written hown h
  · obtain ⟨flushed,wal,heq⟩ := hf.leave hx db
    exact heq ▸ hb.later hb le_rfl flushed wal
  · obtain ⟨-,hid,-⟩ := hb.orderly.written hown hok
    obtain ⟨flushed,wal,heq⟩ := hf.leave hx { db₁ with engine := db.engine }
    exact heq ▸ hb.later (hb.written hown hok) hid.ge flushed wal

section

variable (h₀ : db₀.Orderly) (hb : db₀.Begun db)
include h₀ hb

omit [Crc32] in
/-- With the new transaction aborted, the versions from before it are visible as before it. -/
theorem visible_iff {w : Wal} {writer ts : Nat} (hwriter : writer < db₀.mgr.nextTxnId) (hts : ts < db₀.mgr.nextTs) :
    ({ db with wal := w, mgr := db.mgr.aborted db₀.mgr.nextTxnId } : Database).view.Visible autoCommit
      (max db.mgr.nextTs db.mgr.checkpointTs) writer ts ↔
    db₀.view.Visible autoCommit (max db₀.mgr.nextTs db₀.mgr.checkpointTs) writer ts := by
  have hcommitted : ∀ c, db₀.mgr.committedTxns.lookup writer = some c → c < db₀.mgr.nextTs :=
    fun c hc => (h₀.bounded.committed hc).2
  have hne : writer ≠ db₀.mgr.nextTxnId := hwriter.ne
  simp only [MvccState.Visible,MvccState.notCommitted,view,TransactionManager.aborted,hb.nextTs,hb.committed,
    hb.uncommitted,hb.aborted,hb.checkpointTs]
  refine or_congr Iff.rfl (or_congr (exists_congr fun c => and_congr_right fun hc => ?_) ?_)
  · have := hcommitted c hc
    omega
  · refine and_congr Iff.rfl (and_congr Iff.rfl (and_congr ?_ (by omega)))
    simp [hne]

omit [Crc32] in
theorem not_visible {w : Wal} {readTs ts : Nat} :
    ¬({ db with wal := w, mgr := db.mgr.aborted db₀.mgr.nextTxnId } : Database).view.Visible TxnId.autoCommit readTs
      db₀.mgr.nextTxnId ts := by
  rintro (hself | ⟨c,hc,-⟩ | ⟨-,-,hnot,-⟩)
  · exact absurd hself (pos_iff_ne_zero.mp h₀.positive)
  · have hc₀ : db₀.mgr.committedTxns.lookup db₀.mgr.nextTxnId = some c := by
      rw [← hb.committed]
      exact hc
    exact absurd (h₀.bounded.committed hc₀).1 (lt_irrefl _)
  · exact hnot (by simp [MvccState.notCommitted,view,TransactionManager.aborted])

/-- An abort hides what the transaction wrote and gives back what it took. -/
theorem abort (h : db.txnAbort db₀.mgr.nextTxnId = some (db',r)) : db₀.Restored db' := by
  obtain ⟨txn,hact,-⟩ := hb.own
  have hdb' : db'.Orderly := by
    have hstep : db.step (.abort db₀.mgr.nextTxnId) = some (db',.ofUnit r) := by
      rw [step,h]
      rfl
    exact (hb.orderly.stepped hstep rfl).1
  rcases txnAbort_cases h with ⟨e,rfl,rfl,hnone⟩ | ⟨txn',w,lsn,rfl,-,-,rfl⟩
  · rw [hnone] at hact
    cases hact
  have hlocks := hb.locks.released h₀.tidy hb.orderly.tidy
  refine ⟨fun k => get_congr h₀.sound hdb'.sound fun ts v => ?_,fun a => ?_,hlocks.1,hlocks.2⟩
  · by_cases hts : ts = db₀.mgr.nextTs
    · subst hts
      refine ⟨fun hsees => ?_,fun hsees => absurd (h₀.bounded.version hsees.1).2 (lt_irrefl _)⟩
      have hvis := hsees.2
      rw [hb.mine hsees.1] at hvis
      exact (not_visible h₀ hb hvis).elim
    · have hversion := hb.version k ts hts
      constructor
      · rintro ⟨hv,hvis⟩
        have hv₀ : db₀.view.version k ts = some v := hversion.symm.trans hv
        have hlt := h₀.bounded.version hv₀
        exact ⟨hv₀,(visible_iff h₀ hb hlt.1 hlt.2).mp hvis⟩
      · rintro ⟨hv₀,hvis⟩
        have hlt := h₀.bounded.version hv₀
        exact ⟨hversion.trans hv₀,(visible_iff h₀ hb hlt.1 hlt.2).mpr hvis⟩
  · change (db.mgr.activeTxns.erase db₀.mgr.nextTxnId).lookup a = _
    rw [lookup_erase_eq]
    split_ifs with ha
    · cases hl : db₀.mgr.activeTxns.lookup a with
      | none => rfl
      | some txn => exact absurd (h₀.sound.active hl).1 ha.not_lt
    · exact hb.others a ha

end

end Begun
end Database

namespace Server
variable {s₀ s s' : Server} {c : Nat}

/-- What a client sees under a key. -/
def sees (s : Server) (c : Nat) (k : Bytes) : Option (Except Error (Option Bytes)) :=
  s.session.db.txnGet ((s.clients c).currentTxn.getD TxnId.autoCommit) k

/-- A call that changes no index and puts no row into the transaction of the session, and whose own transaction begins and
ends without a failure of the log. -/
def undoable (s : Server) : Faults × SqlLabel → Bool
  | (f,.execute c _) => (s.clients c).currentTxn.isSome || f.append.isNone
  | (f,.call c) =>
    match (s.clients c).running with
    | none => true
    | some r =>
      match r.program with
      | .done _ => !r.implicit || (f.append.isNone && f.sync.isNone)
      | .put key value _ => r.implicit || fails (s.session.db.write r.txnId key (.value r.txnId value) f)
      | .delete key _ => r.implicit || fails (s.session.db.write r.txnId key (.tombstone r.txnId) f)
      | .indexPut _ _ _ | .indexDelete _ _ _ => f.write.isSome
      | .createIndex _ _ => false
      | .lockForWrite _ _ | .get _ _ | .scan _ _ _ | .indexScan _ _ _ _ => true
  | (_,.begin _) | (_,.commit _) | (_,.rollback _) | (_,.checkpoint) | (_,.gc) => true
where
  fails : Option (Database × Except Error Unit) → Bool
    | some (_,.error _) => true
    | some (_,.ok _) | none => false

/-- An undoable call ends the statement, with a log that works if it has to, or leaves the indexes and a database where at
most a lock was taken, or a write failed or was one of an implicit transaction. -/
theorem undoable_call {f : Faults} (hf : f.Harmless) (hu : s.undoable (f,.call c) = true)
    (h : s.stepWith (f,.call c) = some s') :
    ∃ r, (s.clients c).running = some r ∧
      ((∃ result, s.finish c r result f = some s' ∧ (r.implicit = true → f.append = none ∧ f.sync = none)) ∨
      ∃ p, s'.indexEngines = s.indexEngines ∧ s'.clients c = { s.clients c with running := some { r with program := p } } ∧
        ((∃ flushed wal, s'.session.db = { s.session.db with flushed, wal }) ∨
          (∃ key, s'.session.db = (s.session.db.lockForWrite r.txnId key).1) ∨
          ∃ key v res, v.txnId = r.txnId ∧ s.session.db.write r.txnId key v f = some (s'.session.db,res) ∧
            (r.implicit = true ∨ ∃ e, res = .error e))) := by
  simp only [stepWith] at h
  split at h
  · cases h
  case h_2 r hr =>
    refine ⟨r,hr,?_⟩
    simp only [undoable,hr] at hu
    rcases call_cases h with ⟨result,hdone,hfin⟩ | ⟨σ,catalog,engines,p,hans,rfl⟩
    · refine .inl ⟨result,hfin,fun himp => ?_⟩
      simpa [hdone,himp] using hu
    have hwritten : ∀ {key v res}, v.txnId = r.txnId → s.session.write r.txnId key v f = some (σ,res) →
        (r.implicit || undoable.fails (s.session.db.write r.txnId key v f)) = true →
        ∃ key v res, v.txnId = r.txnId ∧ s.session.db.write r.txnId key v f = some (σ.db,res) ∧
          (r.implicit = true ∨ ∃ e, res = .error e) := by
      intro key v res hown hw hu
      have hdb := Session.db_of_write hw
      rw [hdb] at hu
      refine ⟨key,v,res,hown,hdb,?_⟩
      cases res with
      | error e => exact .inr ⟨e,rfl⟩
      | ok u => exact .inl ((Bool.or_false _).symm.trans hu)
    refine .inr ⟨p,?_,setClient_self ..,?_⟩ <;> generalize r.program = program at hans hu
    · cases hans with
      | indexPut _ _ _ works | indexDelete _ _ _ works =>
        rw [works] at hu
        cases hu
      | createIndex => cases hu
      | @failed _ x _ hx left =>
        rcases left with rfl | ⟨index,rfl⟩ | ⟨catalog,rfl⟩
        · rfl
        · exact update_eq_self_iff.mpr (hf x hx _)
        · rfl
      | _ => rfl
    · cases hans with
      | lock key next => exact .inr (.inl ⟨key,rfl⟩)
      | put _ _ _ hw | delete _ _ hw => exact .inr (.inr (hwritten rfl hw hu))
      | @failed _ x _ hx left =>
        rcases left with rfl | ⟨index,rfl⟩ | ⟨catalog,rfl⟩
        · exact .inl (hf.leave hx _)
        · exact .inl ⟨_,_,rfl⟩
        · exact .inl ⟨_,_,rfl⟩
      | get | scan | indexScan | indexPut | indexDelete | nameTaken | createIndex => exact .inl ⟨_,_,rfl⟩

/-- A statement in a transaction of its own, which started in the first state. -/
structure Attempt (s₀ : Server) (c : Nat) (s : Server) : Prop where
  engines : s.indexEngines = s₀.indexEngines
  current : (s.clients c).currentTxn = (s₀.clients c).currentTxn
  going : ∀ {r}, (s.clients c).running = some r →
    r.implicit = true ∧ r.txnId = s₀.session.db.mgr.nextTxnId ∧ s₀.session.db.Begun s.session.db
  ended : ∀ {e}, (s.clients c).running = none → (s.clients c).result = some (.error e) →
    s₀.session.db.Restored s.session.db

theorem Attempt.finished (h₀ : s₀.Orderly) (hi : s₀.Attempt c s) {r : Running} (hr : (s.clients c).running = some r)
    {result : Except Error (List Row)} {f : Faults} (hlog : r.implicit = true → f.append = none ∧ f.sync = none)
    (h : s.finish c r result f = some s') : s₀.Attempt c s' := by
  obtain ⟨himp,ht,hbegun⟩ := hi.going hr
  obtain ⟨happend,hsync⟩ := hlog himp
  simp only [finish,himp,if_true] at h
  cases result with
  | ok rows =>
    obtain ⟨⟨σ,out⟩,hp,rfl⟩ := map_eq_some_iff.mp h
    obtain ⟨db,hstep,rfl⟩ := Session.perform_eq_some hp
    obtain ⟨⟨db',res⟩,hcommit,heq'⟩ := map_eq_some_iff.mp hstep
    obtain ⟨rfl,rfl⟩ := Prod.mk.inj heq'
    have hcommit : s.session.db.commitTxn r.txnId = some (db',res) := by
      simpa only [Database.commitTxn,happend,hsync] using hcommit
    cases res with
    | ok u =>
      refine ⟨hi.engines,by rw [setClient_self]; exact hi.current,fun {r'} hr' => ?_,fun {e} _ he => ?_⟩
      · rw [setClient_self] at hr'
        cases hr'
      · rw [setClient_self] at he
        cases he
    | error e =>
      obtain ⟨txn,hact,-⟩ := hbegun.own
      rcases Database.commitTxn_cases hcommit with ⟨-,-,-,hnone⟩ | ⟨_,_,hok,-⟩
      · rw [← ht,hnone] at hact
        cases hact
      · cases hok
  | error e =>
    obtain ⟨⟨σ,out⟩,hp,rfl⟩ := map_eq_some_iff.mp h
    obtain ⟨db,hstep,rfl⟩ := Session.perform_eq_some hp
    obtain ⟨⟨db',res⟩,habort,heq'⟩ := map_eq_some_iff.mp hstep
    obtain ⟨rfl,rfl⟩ := Prod.mk.inj heq'
    have habort : s.session.db.txnAbort r.txnId = some (db',res) := by
      simpa only [Database.txnAbort,happend,hsync] using habort
    refine ⟨hi.engines,by rw [setClient_self]; exact hi.current,fun {r'} hr' => ?_,fun _ _ => ?_⟩
    · rw [setClient_self] at hr'
      cases hr'
    · exact hbegun.abort h₀.db (ht ▸ habort)

theorem Attempt.step (h₀ : s₀.Orderly) (hi : s₀.Attempt c s) {f : Faults} (hf : f.Harmless)
    (hu : s.undoable (f,.call c) = true) (h : s.stepWith (f,.call c) = some s') : s₀.Attempt c s' := by
  obtain ⟨r,hr,⟨result,hfin,hlog⟩ | ⟨p,hengines,hclient,hdb⟩⟩ := undoable_call hf hu h
  · exact hi.finished h₀ hr hlog hfin
  obtain ⟨himp,ht,hbegun⟩ := hi.going hr
  refine ⟨hengines.trans hi.engines,hclient ▸ hi.current,fun hr' => ?_,fun hnone => ?_⟩
  · rw [hclient] at hr'
    cases hr'
    rw [ht] at hdb
    refine ⟨himp,ht,?_⟩
    rcases hdb with ⟨flushed,wal,hdb⟩ | ⟨key,hdb⟩ | ⟨key,v,res,hown,hw,-⟩
    · exact hdb ▸ hbegun.later hbegun le_rfl flushed wal
    · exact hdb ▸ hbegun.lock key
    · exact hbegun.write hf hown hw
  · rw [hclient] at hnone
    cases hnone

/-- A statement in the transaction of the session, which has written nothing that anyone reads. -/
structure Blocked (s₀ : Server) (c : Nat) (s : Server) : Prop where
  engines : s.indexEngines = s₀.indexEngines
  current : (s.clients c).currentTxn = (s₀.clients c).currentTxn
  going : ∀ {r}, (s.clients c).running = some r → r.implicit = false
  reads : ∀ t k, s.session.db.txnGet t k = s₀.session.db.txnGet t k

theorem Blocked.step (hi : s₀.Blocked c s) {f : Faults} (hf : f.Harmless) (hu : s.undoable (f,.call c) = true)
    (h : s.stepWith (f,.call c) = some s') : s₀.Blocked c s' := by
  obtain ⟨r,hr,hcall⟩ := undoable_call hf hu h
  have himp := hi.going hr
  rcases hcall with ⟨result,hfin,-⟩ | ⟨p,hengines,hclient,hdb⟩
  · simp only [finish,himp,Bool.false_eq_true,if_false] at hfin
    cases hfin
    refine ⟨hi.engines,by rw [setClient_self]; exact hi.current,fun {r'} hr' => ?_,hi.reads⟩
    rw [setClient_self] at hr'
    cases hr'
  · refine ⟨hengines.trans hi.engines,hclient ▸ hi.current,fun hr' => ?_,fun t k => .trans ?_ (hi.reads t k)⟩
    · rw [hclient] at hr'
      cases hr'
      exact himp
    · rcases hdb with ⟨flushed,wal,hdb⟩ | ⟨key,hdb⟩ | ⟨key,v,res,-,hw,htrue | ⟨e,rfl⟩⟩
      · rw [hdb]
        rfl
      · rw [hdb]
        rfl
      · rw [himp] at htrue
        cases htrue
      · exact Database.txnGet_of_failed hf hw t k

variable {s s' : Server} {c : Nat} {sql : Sql} {e : Error} {f : Faults} {fs : List Faults}

theorem calls_invariant {Inv : Server → Prop} (hstep : ∀ s s' f, Inv s → f.Harmless →
      s.undoable (f,.call c) = true → s.stepWith (f,.call c) = some s' → Inv s') (hs : Inv s)
    (hfs : ∀ f ∈ fs, f.Harmless)
    (hcalls : AllSteps stepWith (fun s a => s.undoable a = true) s (fs.map (·,.call c)))
    (h : run stepWith s (fs.map (·,.call c)) = some s') : Inv s' := by
  have hlabels : AllSteps stepWith (fun _ a => a.1.Harmless ∧ a.2 = .call c) s (fs.map (·,.call c)) :=
    allSteps_of_forall (by simpa using fun f hf _ => hfs f hf) s
  refine run_invariant _ (fun s a s' hi hcond h => ?_) hs (hcalls.and hlabels) h
  obtain ⟨f,a⟩ := a
  obtain ⟨hu,hf,rfl⟩ := hcond
  exact hstep s s' f hi hf hu h

theorem execute_attempt (hi : s.Orderly) (hsql : sql.isWrite = true) (hu : s.undoable (f,.execute c sql) = true)
    (h : s.stepWith (f,.execute c sql) = some s') :
    ((s.clients c).currentTxn = none ∧ s.Attempt c s') ∨ ((s.clients c).currentTxn ≠ none ∧ s.Blocked c s') := by
  simp only [stepWith,execute,hsql,if_true] at h
  split_ifs at h with hrun
  split at h
  case h_1 t ht =>
    cases h
    refine .inr ⟨by simp [ht],rfl,by rw [setClient_self],fun {r} hr => ?_,fun _ _ => rfl⟩
    rw [setClient_self] at hr
    cases hr
    rfl
  case h_2 hnone =>
    refine .inl ⟨hnone,?_⟩
    have happend : f.append = none := by simpa [undoable,hnone] using hu
    obtain ⟨⟨σ,out⟩,hp,rfl⟩ := map_eq_some_iff.mp h
    obtain ⟨db,hstep,rfl⟩ := Session.perform_eq_some hp
    have hstep : s.session.db.step (.begin .readWrite) = some (db,out) := by
      simpa only [Database.step,Database.beginTxn,happend] using hstep
    obtain ⟨⟨db',res⟩,hbegin,heq'⟩ := map_eq_some_iff.mp hstep
    cases res with
    | ok t =>
      obtain ⟨rfl,rfl⟩ := Prod.mk.inj heq'
      obtain ⟨rfl,hbegun⟩ := Database.Begun.start hi.db hstep
      refine ⟨rfl,by rw [setClient_self],fun {r} hr => ?_,fun hnone => ?_⟩
      · rw [setClient_self] at hr
        cases hr
        exact ⟨rfl,rfl,hbegun⟩
      · rw [setClient_self] at hnone
        cases hnone
    | error e =>
      obtain ⟨rfl,rfl⟩ := Prod.mk.inj heq'
      refine ⟨rfl,by rw [setClient_self],fun {r} hr => ?_,fun _ _ => ?_⟩
      · rw [setClient_self] at hr
        exact absurd (by rw [hr]; rfl) hrun
      · rcases Database.beginTxn_cases hbegin with ⟨-,rfl⟩ | ⟨wal,lsn,hok,-⟩
        · exact ⟨fun _ => rfl,fun _ => rfl,fun _ => rfl,fun _ => rfl⟩
        · cases hok

/-- A write statement that returns an error, whose own transaction began and ended without a failure of the log, and that
put nothing into an index and no row into the transaction of its session before, has no effect. -/
theorem failed_statement_undone {policy : IsolationPolicy} {before : List (Faults × SqlLabel)}
    (hs : run stepWith (init policy) before = some s) (hbefore : ∀ a ∈ before, a.1.Harmless) (hsql : sql.isWrite = true)
    (h : run stepWith s ((f,.execute c sql) :: fs.map (·,.call c)) = some s') (hfs : ∀ f ∈ fs, f.Harmless)
    (hcalls : AllSteps stepWith (fun s a => s.undoable a = true) s ((f,.execute c sql) :: fs.map (·,.call c)))
    (hended : (s'.clients c).running = none) (herror : (s'.clients c).result = some (.error e)) :
    (∀ k, s'.sees c k = s.sees c k) ∧ s'.indexEngines = s.indexEngines ∧
      ((s.clients c).currentTxn = none →
        (∀ t, s'.session.db.mgr.activeTxns.lookup t = s.session.db.mgr.activeTxns.lookup t) ∧
        (∀ key, s'.session.db.mgr.lockManager.lockTable.lookup key = s.session.db.mgr.lockManager.lockTable.lookup key) ∧
        ∀ t, s'.session.db.mgr.lockManager.txnLocks.lookup t = s.session.db.mgr.lockManager.txnLocks.lookup t) := by
  have hi : s.Orderly := run_keeps (fun a ha _ _ hi h => .step hi (hbefore a ha) h) (.init policy) hs
  obtain ⟨m,hm,hrun⟩ := run_cons_eq_some h
  rcases execute_attempt hi hsql hcalls.1 hm with ⟨hnone,hattempt⟩ | ⟨htxn,hblocked⟩
  · have hend : s.Attempt c s' := calls_invariant (fun _ _ _ ha => ha.step hi) hattempt hfs (hcalls.2 m hm) hrun
    have hrestored := hend.ended hended herror
    refine ⟨fun k => ?_,hend.engines,fun _ => ⟨hrestored.active,hrestored.lockTable,hrestored.txnLocks⟩⟩
    rw [sees,sees,hend.current,hnone]
    exact hrestored.get k
  · have hend : s.Blocked c s' := calls_invariant (fun _ _ _ hb => hb.step) hblocked hfs (hcalls.2 m hm) hrun
    refine ⟨fun k => ?_,hend.engines,fun hnone => absurd hnone htxn⟩
    rw [sees,sees,hend.current]
    exact hend.reads _ k

end Server

end

namespace Server

private def accounts : Schema where
  name := "accounts"
  tableId := 1
  columns := [⟨"id",.int32,false,none⟩,⟨"code",.int32,false,none⟩]
  primaryKey := [⟨0,by decide⟩]
  keyed := by decide
  keyNotNull := by decide

private def accountKey : Bytes := makeRowKey 1 [1,128,0,0,1]

private def diskFull : Faults := { Faults.none with append := some ⟨.io "No space left on device",id⟩ }

private def indexed : List (Faults × SqlLabel) :=
  (.execute 0 (.createIndex accounts "by_code" [⟨1,by decide⟩] true) :: List.replicate 4 (.call 0)).map (.none,·)

private def insertAccounts (rows : List Row) (fs : List Faults) : List (Faults × SqlLabel) :=
  (.none,.execute 0 (.insert accounts rows)) :: fs.map (·,.call 0)

private def works (n : Nat) : List Faults := List.replicate n .none

private def stocked : Server :=
  (run stepWith (init .snapshotIsolation) (insertAccounts [[.int32 1,.int32 5]] (works 4))).get (by decide +kernel)

/-- The second row is not logged. -/
private def unlogged : List (Faults × SqlLabel) :=
  insertAccounts [[.int32 2,.int32 6],[.int32 3,.int32 7]] (works 5 ++ diskFull :: works 1)

private def refused : Server := (run stepWith stocked unlogged).get (by decide +kernel)

private def failure : Except Error (List Row) → Option Error
  | .ok _ => none
  | .error e => some e

private theorem harmless_works {n : Nat} {f : Faults} (hf : f ∈ works n) : f.Harmless :=
  List.eq_of_mem_replicate hf ▸ Faults.harmless_none

/-- An INSERT whose second row cannot be logged returns an error, and everything is as before, the first row too. -/
theorem failed_statement_undone_unlogged :
    run stepWith stocked unlogged = some refused ∧
      (refused.clients 0).result = some (.error (.io "No space left on device")) ∧
      (∀ k, refused.sees 0 k = stocked.sees 0 k) ∧ refused.indexEngines = stocked.indexEngines ∧
      ∀ t, refused.session.db.mgr.activeTxns.lookup t = stocked.session.db.mgr.activeTxns.lookup t := by
  have hrun : run stepWith stocked unlogged = some refused := (some_get _).symm
  have hfailure : (refused.clients 0).result.bind failure = some (.io "No space left on device") := by decide +kernel
  have hresult : (refused.clients 0).result = some (.error (.io "No space left on device")) := by
    obtain ⟨result,hresult,hfail⟩ := bind_eq_some_iff.mp hfailure
    cases result with
    | ok rows => cases hfail
    | error e =>
      cases hfail
      exact hresult
  have hstocked : run stepWith (init .snapshotIsolation) (insertAccounts [[.int32 1,.int32 5]] (works 4)) = some stocked :=
    (some_get _).symm
  have hbefore : ∀ a ∈ insertAccounts [[.int32 1,.int32 5]] (works 4), a.1.Harmless := by
    simp only [insertAccounts,List.forall_mem_cons,List.forall_mem_map]
    exact ⟨Faults.harmless_none,fun f hf => harmless_works hf⟩
  have hfull : diskFull.Harmless := by
    intro x hx st
    simp only [Faults.Has,diskFull,List.mem_cons,some.injEq,reduceCtorEq,List.not_mem_nil,false_or,or_false] at hx
    rw [hx]
    rfl
  have hharmless : ∀ f ∈ works 5 ++ diskFull :: works 1, f.Harmless :=
    List.forall_mem_append.mpr ⟨fun f => harmless_works,List.forall_mem_cons.mpr ⟨hfull,fun f => harmless_works⟩⟩
  have hundone := failed_statement_undone hstocked hbefore rfl hrun hharmless (by decide +kernel)
    (isNone_iff_eq_none.mp (by decide +kernel)) hresult
  exact ⟨hrun,hresult,hundone.1,hundone.2.1,(hundone.2.2 (by decide +kernel)).1⟩

private def observed (before : List (Faults × SqlLabel)) : Option (Option Bytes × List Bytes) :=
  (run stepWith (init .snapshotIsolation) before).map (fun s =>
    (((s.sees 0 accountKey).bind (·.toOption)).join,(s.indexEngines 1).entries.map (·.1)))

private def failed (before : List (Faults × SqlLabel)) : Option Error :=
  ((run stepWith (init .snapshotIsolation) before).bind (fun s => (s.clients 0).result)).bind failure

private def twoRows (n : Nat) : List (Faults × SqlLabel) :=
  insertAccounts [[.int32 1,.int32 5],[.int32 1,.int32 6]] (works n)

/-- A failed INSERT of two rows leaves the first row in an explicit transaction, and its index entry also outside one. One
that fails in its commit leaves its row. -/
theorem failed_insert_leaves_row :
    (failed ((.none,.begin 0) :: twoRows 6) = some (.duplicateKey "accounts") ∧
      observed [(.none,.begin 0)] = some (none,[]) ∧
      observed ((.none,.begin 0) :: twoRows 6) = some (some [0,1,0,0,0,5,0,0,0],[])) ∧
    (failed (indexed ++ twoRows 8) = some (.duplicateKey "accounts") ∧ observed indexed = some (none,[]) ∧
      observed (indexed ++ twoRows 8) = some (none,[[1,128,0,0,5,1,128,0,0,1]])) ∧
    failed (insertAccounts [[.int32 1,.int32 5]] (works 3 ++ [diskFull])) = some (.io "No space left on device") ∧
      observed [] = some (none,[]) ∧
      observed (insertAccounts [[.int32 1,.int32 5]] (works 3 ++ [diskFull])) = some (some [0,1,0,0,0,5,0,0,0],[]) := by
  refine ⟨?_,?_,?_⟩ <;> decide +kernel

end Server

end InterchangeDb
