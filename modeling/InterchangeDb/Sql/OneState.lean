import InterchangeDb.Database.SnapshotReads
import InterchangeDb.Sql.Select
import InterchangeDb.Sql.ServerSpec

/-! SELECT outside a transaction takes a new read view for each read: one state, if no commit falls between. -/
namespace InterchangeDb
open List Option

/-- What the committed transactions of a history leave: for each key the write of the latest commit. -/
def committedState (h : History) (k : Bytes) : Option Bytes := latestWrite h k (committedWriters h k)

def ScanOf (state : Bytes → Option Bytes) (lo hi : Bound Bytes) (rows : List (Bytes × Bytes)) : Prop :=
  rows.Pairwise (fun a b => KeyBefore a.1 b.1) ∧
    ∀ k d, (k,d) ∈ rows ↔ scanStart lo ≤ k ∧ k ≤ scanEnd hi ∧ state k = some d

/-- The entry that a row of a state has in an index of one of the tables. -/
def EntryOf (tables : List Table) (state : Bytes → Option Bytes) (index : Nat) (key : Bytes) : Prop :=
  ∃ t ∈ tables, ∃ ix ∈ t.indexes, ix.id = index ∧ ∃ pk blob row, state (makeRowKey t.schema.tableId pk) = some blob ∧
    Tuple.decode t.schema.columnTypes blob = .ok row ∧ t.buildIndexKey ix row = .ok key

/-- The entries of a scan over an index that is kept for a state. -/
def IndexScanOf (tables : List Table) (state : Bytes → Option Bytes) (index : Nat) (lo hi : Bound Bytes)
    (entries : List (Bytes × Bytes)) : Prop :=
  entries.Pairwise (fun a b => a.1 < b.1) ∧
    ∀ k v, (k,v) ∈ entries ↔ (v = [] ∧ EntryOf tables state index k) ∧ lo.above k = true ∧ hi.below k = true

/-- The statement returns this when all its reads are of one state. -/
def Statement.Returns {R : Type} (tables : List Table) (state : Bytes → Option Bytes) : Statement R → R → Prop
  | .done result, r => result = .ok r
  | .get key next, r => (next (state key)).Returns tables state r
  | .scan lo hi next, r => ∃ rows, ScanOf state lo hi rows ∧ (next rows).Returns tables state r
  | .indexScan index lo hi next, r =>
    ∃ entries, IndexScanOf tables state index lo hi entries ∧ (next entries).Returns tables state r
  | _, _ => False

theorem Statement.Returns.of_ofExcept {R S : Type} {tables : List Table} {state : Bytes → Option Bytes}
    {r : Except Error S} {f : S → Statement R} {x : R} (h : (Statement.ofExcept r >>= f).Returns tables state x) :
    ∃ a, r = .ok a ∧ (f a).Returns tables state x := by
  cases r with
  | error e => cases h
  | ok a => exact ⟨a,rfl,h⟩

/-- No version as old as the last checkpoint is of a transaction still active. -/
def Database.Settled (db : Database) : Prop :=
  ∀ k ts v, db.view.version k ts = some v → ts ≤ db.mgr.checkpointTs → db.view.active v.txnId = none

namespace MvccInv
variable {rules : Rules} {s : MvccState} {h : History}

theorem committedState_newest (hi : MvccInv rules s h) (hchecked : rules.checked) {k : Bytes} {ts : Nat} {v : MvccValue}
    (hnew : Newest h k ts v) : committedState h k = v.data := by
  obtain ⟨⟨⟨c,hc⟩,hb,hw⟩,hmax⟩ := hnew
  refine latestWrite_eq (mem_committedWriters.mpr ⟨hc,by simp [hw]⟩) (fun w c' hmem => ?_) (fun w hmem => ?_) hw
  · obtain ⟨hc',hw'⟩ := mem_committedWriters.mp hmem
    obtain ⟨-,b',hb',-⟩ := hi.life.committed_bounds hc'
    obtain ⟨d,hd⟩ := ne_none_iff_exists'.mp hw'
    obtain ⟨v',rfl,rfl⟩ := MvccValue.exists_eq w d
    exact hi.commit_order hchecked hb hb' hc hc' (by simp [hw]) hw' (hmax b' v' ⟨⟨c',hc'⟩,hb',hd⟩)
  · exact hi.life.committed_inj (mem_committedWriters.mp hmem).1 hc

theorem committedState_none (hi : MvccInv rules s h) {k : Bytes} (hno : ∀ ts v, ¬Final h k ts v) :
    committedState h k = none := by
  have hnil : committedWriters h k = [] := by
    rw [eq_nil_iff_forall_not_mem]
    rintro ⟨w,c⟩ hmem
    obtain ⟨hc,hw⟩ := mem_committedWriters.mp hmem
    obtain ⟨-,b,hb,-⟩ := hi.life.committed_bounds hc
    obtain ⟨d,hd⟩ := ne_none_iff_exists'.mp hw
    obtain ⟨v,rfl,rfl⟩ := MvccValue.exists_eq w d
    exact hno b v ⟨⟨c,hc⟩,hb,hd⟩
  rw [committedState,hnil,latestWrite_nil]

/-- Only a commit of a transaction that wrote something changes the committed state. -/
theorem committedState_step (hi : MvccInv rules s h) {ev : List Event} {s' : MvccState} (hst : MvccStep rules s ev s')
    (hquiet : ∀ t c, .committed t c ∈ ev → ∀ k, lastWrite h t k = none) (k : Bytes) :
    committedState (ev ++ h) k = committedState h k := by
  have hkept : ∀ {w c}, .committed w c ∈ h → lastWrite (ev ++ h) w k = lastWrite h w k := fun hc =>
    hi.lastWrite_committed hst hc k
  have hwriters : committedWriters (ev ++ h) k = committedWriters h k := by
    unfold committedWriters
    rw [filterMap_append]
    refine (congrArg₂ (· ++ ·) (filterMap_eq_nil_iff.mpr fun e he => ?_)
      (filterMap_congr fun e he => ?_)).trans (nil_append _)
    · cases e with
      | committed w c =>
        have hsame : lastWrite (ev ++ h) w k = lastWrite h w k := by
          cases hst <;> simp_all
        simp [hsame,hquiet w c he k]
      | began | wrote | aborted => rfl
    · cases e with
      | committed w c => simp only [hkept he]
      | began | wrote | aborted => rfl
  unfold committedState latestWrite
  rw [hwriters]
  cases hm : (committedWriters h k).argmax Prod.snd with
  | none => rfl
  | some x =>
    have hmem : (x.1,x.2) ∈ committedWriters h k := argmax_mem hm
    simp [bind_some,hkept (mem_committedWriters.mp hmem).1]

end MvccInv

namespace Session.RowInv
variable {σ : Session}

section

variable (hi : σ.RowInv) (hset : σ.db.Settled)
include hi hset

theorem get_committed {k : Bytes} (hk : k.length ≤ u32Max) :
    σ.db.get k = some (.ok (committedState σ.history k)) := by
  have hshow : σ.db.Shows σ.history := hi.mvcc.shows (hset _ _ _)
  obtain ⟨hnone,hnew⟩ := hshow.get hi.sound hk
  by_cases hex : ∃ ts v, Final σ.history k ts v
  · obtain ⟨ts,v,hv⟩ := hex
    obtain ⟨ts,v,hv⟩ := exists_newest (fun hb => (hi.mvcc.life.began_bounds hb).2.2) hv
    rw [hnew ts v hv,hi.mvcc.committedState_newest trivial hv]
  · have hno : ∀ ts v, ¬Final σ.history k ts v := fun ts v hv => hex ⟨ts,v,hv⟩
    rw [hnone hno,hi.mvcc.committedState_none hno]

theorem committedState_oversized {k : Bytes} (hk : ¬k.length ≤ u32Max) :
    committedState σ.history k = none := by
  have hshow : σ.db.Shows σ.history := hi.mvcc.shows (hset _ _ _)
  refine hi.mvcc.committedState_none fun ts v hv => ?_
  obtain ⟨ts,v,hv⟩ := exists_newest (fun hb => (hi.mvcc.life.began_bounds hb).2.2) hv
  exact hk (Engine.version_bounds (hshow.complete hv).1).1

theorem scan_committed (lo hi' : Bound Bytes) :
    ∃ rows, σ.db.scan lo hi' = .ok rows ∧ ScanOf (committedState σ.history) lo hi' rows := by
  obtain ⟨rows,hscan,hsorted,hmem⟩ := Database.txnScan_spec hi.sound (Database.readView_autoCommit σ.db.mgr) lo hi'
  refine ⟨rows,hscan,hsorted,fun k d => ?_⟩
  rw [hmem]
  refine and_congr_right fun _ => and_congr_right fun _ => ?_
  change σ.db.get k = _ ↔ _
  by_cases hk : k.length ≤ u32Max
  · rw [hi.get_committed hset hk]
    simp
  · rw [hi.committedState_oversized hset hk]
    simp [Database.get,Database.txnGet,Database.readView_autoCommit,mvccGet,mvccFind,scanUserKey_oversized hk]

end

end Session.RowInv

namespace Server

/-- What the next call of a statement reads is the committed state. -/
def Current {R : Type} (tables : List Table) (s : Server) : Statement R → Prop
  | .done _ => True
  | .indexScan index _ _ _ =>
    ∀ k v, (s.indexEngines index).get k = some v ↔ v = [] ∧ EntryOf tables (committedState s.session.history) index k
  | _ => s.session.db.Settled

/-- A client's statement has calls left. -/
def Reading (s : Server) (c : Nat) : Prop := ∃ r, (s.clients c).running = some r ∧ ∀ result, r.program ≠ .done result

/-- No writer commits while a client reads, and the client reads what is committed. -/
def Steady (tables : List Table) (c : Nat) (s : Server) (a : SqlLabel) : Prop :=
  (s.Reading c → ∀ t, s.commits a = some t → ∀ k, lastWrite s.session.history t k = none) ∧
    (a = .call c → ∀ r, (s.clients c).running = some r → s.Current tables r.program)

section

variable [Crc32]
variable {s s' : Server} {c c' : Nat}

theorem step_clients {a : SqlLabel} (h : s.step a = some s') (hc : a.client ≠ some c) :
    s'.clients c = s.clients c := by
  have hne : ∀ {c'}, a.client = some c' → c ≠ c' := fun heq hcc => hc (hcc ▸ heq)
  cases Stepped.of_step h with
  | told client | performed client => exact setClient_of_ne _ (hne client) _
  | started label | resumed label => exact setClient_of_ne _ (hne (label ▸ rfl)) _
  | maintained => rfl

/-- The next call of a query outside a transaction: what the rest returns on the committed state, all of it returns. -/
theorem call_reads (hi : s.Inv) {tables : List Table} {sql : Sql} {p : Statement (List Row)}
    (hr : (s.clients c).running = some ⟨sql,TxnId.autoCommit,false,p⟩) (hp : p.ReadOnly) (hcur : s.Current tables p)
    (h : s.step (.call c) = some s') :
    (∃ result, p = .done result ∧ (s'.clients c).running = none ∧ (s'.clients c).result = some result) ∨
      ∃ p', (s'.clients c).running = some ⟨sql,TxnId.autoCommit,false,p'⟩ ∧ p'.ReadOnly ∧
        ∀ rows, p'.Returns tables (committedState s.session.history) rows →
          p.Returns tables (committedState s.session.history) rows := by
  simp only [step,stepWith,hr] at h
  rcases call_cases h with ⟨result,rfl,hfin⟩ | ⟨σ,catalog,engines,p',hans,rfl⟩
  · cases hfin
    exact .inl ⟨result,rfl,by simp⟩
  refine .inr ⟨p',by simp,?_⟩
  dsimp only at hans
  cases hans with
  | @get key next res hget =>
    cases res with
    | error e => exact ⟨trivial,fun _ h => by cases h⟩
    | ok v =>
      refine ⟨hp v,fun rows hret => ?_⟩
      by_cases hk : key.length ≤ u32Max
      · have hread := hi.rows.get_committed hcur hk
        rw [Database.get,hget] at hread
        cases hread
        exact hret
      · rw [Database.txnGet,Database.readView_autoCommit] at hget
        simp only [mvccGet,mvccFind,scanUserKey_oversized hk] at hget
        cases hget
  | scan lo hi' next =>
    obtain ⟨rows,hscan,hof⟩ := hi.rows.scan_committed hcur lo hi'
    rw [Database.scan] at hscan
    rw [hscan]
    exact ⟨hp rows,fun r hret => ⟨rows,hof,hret⟩⟩
  | indexScan index lo hi' next =>
    refine ⟨hp _,fun r hret => ⟨_,⟨?_,fun k v => ?_⟩,hret⟩⟩
    · exact OrdMap.range_sorted _ lo hi'
    · rw [Engine.scan,OrdMap.mem_range,hcur k v]
  | lock | put | delete | indexPut | indexDelete | nameTaken | createIndex => exact hp.elim
  | failed _ fault => simp [Faults.Has] at fault

/-- A query on its way answers for one state. -/
structure Answers (tables : List Table) (σ : Bytes → Option Bytes) (q : Statement (List Row)) (c : Nat) (s : Server) :
    Prop where
  inv : s.Inv
  still : s.Reading c → committedState s.session.history = σ
  running : ∀ {r}, (s.clients c).running = some r → r.txnId = TxnId.autoCommit ∧ r.implicit = false ∧
    r.program.ReadOnly ∧ ∀ rows, r.program.Returns tables σ rows → q.Returns tables σ rows
  ended : (s.clients c).running = none → ∀ rows, (s.clients c).result = some (.ok rows) → q.Returns tables σ rows

namespace Answers
variable {tables : List Table} {σ : Bytes → Option Bytes} {q : Statement (List Row)} {c : Nat} {s s' : Server}

theorem committed (hi : s.Inv) (hread : s.Reading c) {a : SqlLabel} (hsteady : Steady tables c s a)
    (h : s.step a = some s') : committedState s'.session.history = committedState s.session.history := by
  obtain ⟨ev,hmoves,hcommits⟩ := step_moves hi h
  rw [hmoves.history]
  funext k
  exact hi.rows.mvcc.committedState_step hmoves.step (fun t ts hmem => hsteady.1 hread t (hcommits t ts hmem)) k

theorem step (ha : s.Answers tables σ q c) {a : SqlLabel} (hsteady : Steady tables c s a)
    (honly : a.client = some c → a = .call c) (h : s.step a = some s') : s'.Answers tables σ q c := by
  by_cases hc : a.client = some c
  · obtain rfl := honly hc
    cases hr : (s.clients c).running with
    | none =>
      simp only [Server.step,stepWith,hr] at h
      cases h
    | some r =>
      obtain ⟨sql,t,implicit,p⟩ := r
      obtain ⟨ht,himp,hp,hret⟩ := ha.running hr
      dsimp only at ht himp hp hret
      subst ht himp
      rcases call_reads ha.inv hr hp (hsteady.2 rfl _ hr) h with ⟨result,rfl,hnone,hres⟩ | ⟨p',hr',hp',hback⟩
      · refine ⟨ha.inv.step h,fun hread => ?_,fun hrun => ?_,fun _ rows hrows => hret rows ?_⟩
        · obtain ⟨r,hrun,-⟩ := hread
          rw [hnone] at hrun
          cases hrun
        · rw [hnone] at hrun
          cases hrun
        · rw [hres] at hrows
          exact some.inj hrows
      · by_cases hdone : ∃ result, p = .done result
        · -- a statement that is done has no further call
          obtain ⟨result,rfl⟩ := hdone
          simp only [Server.step,stepWith,hr,call,finish] at h
          cases h
          simp at hr'
        · have hread : s.Reading c := ⟨_,hr,fun result heq => hdone ⟨result,heq⟩⟩
          have hσ := ha.still hread
          refine ⟨ha.inv.step h,fun _ => (committed ha.inv hread hsteady h).trans hσ,fun hrun => ?_,fun hrun => ?_⟩
          · rw [hr'] at hrun
            cases hrun
            exact ⟨rfl,rfl,hp',fun rows hrows => hret rows (hσ ▸ hback rows (hσ.symm ▸ hrows))⟩
          · rw [hr'] at hrun
            cases hrun
  · have hsame := step_clients h hc
    refine ⟨ha.inv.step h,fun hread => ?_,fun hrun => ha.running (hsame ▸ hrun),fun hrun => ?_⟩
    · have hread' : s.Reading c := by
        obtain ⟨r,hrun,hcalls⟩ := hread
        exact ⟨r,hsame ▸ hrun,hcalls⟩
      exact (committed ha.inv hread' hsteady h).trans (ha.still hread')
    · rw [hsame] at hrun ⊢
      exact ha.ended hrun

end Answers

/-- A SELECT outside a transaction returns what it returns on one committed state between its start and its end, if no
writer commits while it reads and it reads what is committed. -/
theorem select_reads_one_state {tables : List Table} {q : Select} (hq : q.execute.ReadOnly) {c : Nat}
    {prior before during : List SqlLabel} {s₀ s m s' : Server} {rows : List Row}
    (hprior : run Server.step (Server.init .snapshotIsolation) prior = some s₀) (hauto : (s₀.clients c).currentTxn = none)
    (hstart : s₀.step (.execute c (.select ⟨q.execute,hq⟩)) = some s) (hbefore : run Server.step s before = some m)
    (hothers : ∀ a ∈ before, a.client ≠ some c) (hduring : run Server.step m during = some s')
    (hcalls : ∀ a ∈ during, a.client = some c → a = .call c) (hsteady : AllSteps Server.step (Steady tables c) m during)
    (hended : (s'.clients c).running = none) (hrows : (s'.clients c).result = some (.ok rows)) :
    q.execute.Returns tables (committedState m.session.history) rows := by
  have hinv₀ : s₀.Inv := run_keeps (fun _ _ _ _ hi h => hi.step h) .init hprior
  obtain ⟨hinv,hr⟩ := run_keeps (P := fun x => x.Inv ∧ (x.clients c).running = (s.clients c).running)
    (fun a ha x x' hx h => ⟨hx.1.step h,by rw [step_clients h (hothers a ha)]; exact hx.2⟩) ⟨hinv₀.step hstart,rfl⟩ hbefore
  have hrun : (s.clients c).running = some ⟨.select ⟨q.execute,hq⟩,TxnId.autoCommit,false,q.execute⟩ := by
    simp only [Server.step,stepWith,execute,hauto,Sql.isWrite,Bool.false_eq_true,if_false] at hstart
    split_ifs at hstart
    cases hstart
    simp [Sql.program]
  rw [hrun] at hr
  have hanswers : m.Answers tables (committedState m.session.history) q.execute c := by
    refine ⟨hinv,fun _ => rfl,fun h => ?_,fun h => ?_⟩
    · rw [hr] at h
      cases h
      exact ⟨rfl,rfl,hq,fun _ h => h⟩
    · rw [hr] at h
      cases h
  have hsteps : AllSteps step (fun x a => Steady tables c x a ∧ (a.client = some c → a = .call c)) m during :=
    hsteady.and (allSteps_of_forall (fun a ha _ => hcalls a ha) _)
  have hend := run_invariant _ (fun x a x' hx hcond h => hx.step hcond.1 hcond.2 h) hanswers hsteps hduring
  exact hend.ended hended rows hrows

end

section
variable {rows : List Row} {h : History}

private def tableOf (name : String) (id : Fin 4294967296) : Table :=
  ⟨⟨name,id,[⟨"id",.int32,false,none⟩],[⟨0,by decide⟩],by decide,by decide⟩,[]⟩

private def orders : Table := tableOf "orders" 1
private def archive : Table := tableOf "archive" 2

private def bothPlaces : Select :=
  .mk [] [.mk [] [] [] [] (fun _ _ _ _ => archive.scan)] [] [] (fun _ _ inSets _ => do
    let rows ← orders.scan
    return rows.filter (fun row => decide ((row.headD .null).joinKeyNormalized ∈ (inSets.headD ⟨[],false,false⟩).values)))

private def found (inSet : InSubquerySet) (rows : List Row) : List Row :=
  rows.filter (fun row => decide ((row.headD .null).joinKeyNormalized ∈ inSet.values))

private theorem bothPlaces_eq : bothPlaces.execute = (do
    let archived ← archive.scan
    let inSet ← .ofExcept (materializeInSet archived)
    let rows ← orders.scan
    return found inSet rows) := by
  simp [bothPlaces,Select.execute,Select.resolveSubqueries,Select.resolveScalars,Select.resolveIns,
    Select.resolveDerived,found]
  rfl

private theorem scan_readOnly (t : Table) : t.scan.ReadOnly :=
  Statement.ReadOnly.bind (p := .ofExcept _) trivial (fun _ _ => trivial)

private theorem bothPlaces_readOnly : bothPlaces.execute.ReadOnly := by
  rw [bothPlaces_eq]
  exact .bind (scan_readOnly archive) fun _ => .bind trivial fun _ => .bind (scan_readOnly orders) fun _ => trivial

private def archiveId : List SqlLabel :=
  [.execute 0 (.insert archive.schema [[.int32 1]]),.call 0,.call 0,.call 0,.call 0]

private def orderId : List SqlLabel :=
  [.execute 0 (.insert orders.schema [[.int32 1]]),.call 0,.call 0,.call 0,.call 0]

private def selectBoth : SqlLabel := .execute 1 (.select ⟨bothPlaces.execute,bothPlaces_readOnly⟩)

private def calm (c : Nat) (s : Server) (a : SqlLabel) : Bool :=
  (s.commits a).isNone && decide (s.session.db.mgr.checkpointTs = 0) &&
    match (s.clients c).running with
    | some ⟨_,_,_,.indexScan _ _ _ _⟩ => false
    | _ => true

private theorem steady_of_calm {c : Nat} {s : Server} {a : SqlLabel} (hi : s.Inv) (h : calm c s a = true) :
    Steady [] c s a := by
  simp only [calm,Bool.and_eq_true,Option.isNone_iff_eq_none,decide_eq_true_eq] at h
  obtain ⟨⟨hcommits,hcheckpoint⟩,hindex⟩ := h
  refine ⟨fun _ t ht => absurd ht (by simp [hcommits]),fun _ r hr => ?_⟩
  have hset : s.session.db.Settled := by
    intro k ts v hv hts
    have hpos := (hi.rows.mvcc.life.began_bounds (hi.rows.mvcc.stored.version_sound hv).1).2.1
    omega
  obtain ⟨sql,t,implicit,p⟩ := r
  rw [hr] at hindex
  cases p with
  | indexScan => cases hindex
  | done => trivial
  | lockForWrite | get | put | delete | scan | indexPut | indexDelete | createIndex => exact hset

/-- The calls of the query, and between them an INSERT that another client does not commit. -/
private def selectDuringInsert : List SqlLabel :=
  [.call 1,.begin 2,.execute 2 (.insert orders.schema [[.int32 2]]),.call 2,.call 2,.call 2,.call 2,.call 1,.call 1]

/-- A query for what is in both tables, which is not disturbed by an INSERT under way. -/
theorem select_undisturbed :
    ∃ s₀ m s' : Server, run Server.step (Server.init .snapshotIsolation) (archiveId ++ orderId) = some s₀ ∧
      s₀.step selectBoth = some m ∧ run Server.step m selectDuringInsert = some s' ∧
      (s'.clients 1).result = some (.ok [[.int32 1]]) ∧
      bothPlaces.execute.Returns [] (committedState m.session.history) [[.int32 1]] := by
  have hrun : (run step (init .snapshotIsolation) (archiveId ++ orderId ++ selectBoth :: selectDuringInsert)).map
        (fun s => ((s.clients 1).running.isNone,(s.clients 1).result.bind (·.toOption))) =
      some (true,some [[.int32 1]]) := by decide +kernel
  have hauto : (run step (init .snapshotIsolation) (archiveId ++ orderId)).all
      (fun s => (s.clients 1).currentTxn.isNone) = true := by decide +kernel
  have hcalm : AllSteps step (fun s a => a.client = some 0 ∨ calm 1 s a = true) (init .snapshotIsolation)
      (archiveId ++ orderId ++ selectBoth :: selectDuringInsert) := by decide +kernel
  obtain ⟨s',hs',hresult⟩ := map_eq_some_iff.mp hrun
  obtain ⟨s₀,hprior,hrest⟩ := run_append_eq_some hs'
  obtain ⟨m,hstart,hduring⟩ := run_cons_eq_some hrest
  have hinv : AllSteps step (fun s _ => s.Inv) (init .snapshotIsolation)
      (archiveId ++ orderId ++ selectBoth :: selectDuringInsert) := allSteps_invariant (fun _ _ _ hi h => hi.step h) .init
  have hsteady : AllSteps step (Steady [] 1) m selectDuringInsert := by
    have hothers : AllSteps step (fun _ (a : SqlLabel) => a.client ≠ some 0) m selectDuringInsert :=
      allSteps_of_forall (by simp [selectDuringInsert,SqlLabel.client]) m
    refine ((((hcalm.and hinv).append_right hprior).2 m hstart).and hothers).imp fun x a hx => ?_
    exact steady_of_calm hx.1.2 (hx.1.1.resolve_left hx.2)
  rw [hprior] at hauto
  simp only [Prod.mk.injEq,isNone_iff_eq_none] at hresult
  obtain ⟨hended,hrows⟩ := hresult
  have hrows := eq_some_ok hrows
  have hbefore : run step m [] = some m := rfl
  refine ⟨s₀,m,s',hprior,hstart,hduring,hrows,?_⟩
  exact select_reads_one_state bothPlaces_readOnly hprior (isNone_iff_eq_none.mp hauto) hstart hbefore (by simp)
    hduring (by simp [selectDuringInsert,SqlLabel.client]) hsteady hended hrows

private def moveId : List SqlLabel :=
  [.begin 2,.execute 2 (.delete archive.schema (.pkLookup [.int32 1]) (fun _ => true)),.call 2,.call 2,.call 2,.call 2,
    .execute 2 (.insert orders.schema [[.int32 1]]),.call 2,.call 2,.call 2,.call 2]

private def vacant (id : Fin 4294967296) (h : History) : Bool :=
  h.all (fun
    | .wrote _ k _ => !(decide (makeRowKey id [] ≤ k) && decide (k ≤ makeRowKey (id + 1) [])) || (committedState h k).isNone
    | _ => true)

private theorem committedState_written {k d : Bytes} (hd : committedState h k = some d) :
    ∃ t v, .wrote t k v ∈ h := by
  obtain ⟨x,-,hw⟩ := bind_eq_some_iff.mp hd
  have hne : lastWrite h x.1 k ≠ none := fun hnone => by simp [hnone] at hw
  obtain ⟨v,hv⟩ := lastWrite_ne_none_iff.mp hne
  exact ⟨x.1,v,hv⟩

private theorem scanOf_vacant {id : Fin 4294967296} (hv : vacant id h = true) {rows : List (Bytes × Bytes)}
    (hscan : ScanOf (committedState h) (.included (makeRowKey id [])) (.excluded (makeRowKey (id + 1) [])) rows) :
    rows = [] := by
  rw [eq_nil_iff_forall_not_mem]
  rintro ⟨k,d⟩ hmem
  obtain ⟨hlo,hhi,hd⟩ := (hscan.2 k d).mp hmem
  obtain ⟨t,v,hw⟩ := committedState_written hd
  have hcheck := all_eq_true.mp hv _ hw
  simp only [scanStart,scanEnd] at hlo hhi
  simp [hlo,hhi,hd] at hcheck

private theorem bothPlaces_vacant (hv : vacant 1 h = true ∨ vacant 2 h = true)
    (hret : bothPlaces.execute.Returns [] (committedState h) rows) : rows = [] := by
  rw [bothPlaces_eq] at hret
  obtain ⟨archived,harch,hret⟩ := hret
  obtain ⟨ids,hids,hret⟩ := Statement.Returns.of_ofExcept hret
  obtain ⟨inSet,hset,hret⟩ := Statement.Returns.of_ofExcept hret
  obtain ⟨ordered,hord,hret⟩ := hret
  obtain ⟨all,hall,hret⟩ := Statement.Returns.of_ofExcept hret
  cases hret
  rcases hv with hv | hv
  · obtain rfl := scanOf_vacant hv hord
    cases hall
    rfl
  · obtain rfl := scanOf_vacant hv harch
    cases hids
    cases hset
    simp [found]

private def selectDuringMove : List SqlLabel := moveId ++ [.call 1,.commit 2,.call 1,.call 1]

/-- A query for what is in both tables returns an id that in every committed state is in one of them only. -/
theorem select_mixes_states :
    ∃ s₀ s s' : Server, run Server.step (Server.init .snapshotIsolation) archiveId = some s₀ ∧
      s₀.step selectBoth = some s ∧ run Server.step s selectDuringMove = some s' ∧
      (s'.clients 1).result = some (.ok [[.int32 1]]) ∧
      ∀ n x, run Server.step s (selectDuringMove.take n) = some x →
        ¬bothPlaces.execute.Returns [] (committedState x.session.history) [[.int32 1]] := by
  have hrun : (run step (init .snapshotIsolation) (archiveId ++ selectBoth :: selectDuringMove)).map
      (fun s => (s.clients 1).result.bind (·.toOption)) = some (some [[.int32 1]]) := by decide +kernel
  have hvacant : ∀ n < 16, (run step (init .snapshotIsolation)
      (archiveId ++ selectBoth :: selectDuringMove.take n)).all
        (fun x => vacant 1 x.session.history || vacant 2 x.session.history) = true := by decide +kernel
  obtain ⟨s',hs',hresult⟩ := map_eq_some_iff.mp hrun
  obtain ⟨s₀,hprior,hrest⟩ := run_append_eq_some hs'
  obtain ⟨s,hstart,hduring⟩ := run_cons_eq_some hrest
  refine ⟨s₀,s,s',hprior,hstart,hduring,eq_some_ok hresult,fun n x hx hret => ?_⟩
  have htake : selectDuringMove.take n = selectDuringMove.take (min n 15) := take_eq_take_min
  rw [htake] at hx
  have hall := hvacant (min n 15) (by omega)
  rw [run_append hprior,run_cons hstart,hx] at hall
  have hnil := bothPlaces_vacant (by simpa using hall) hret
  cases hnil

end

end Server

end InterchangeDb
