import InterchangeDb.Btree.Engine
import InterchangeDb.Database.Faults
import InterchangeDb.Database.Shown
import InterchangeDb.Database.WalRecovery

/-! Writes that the engine rejects after they were logged: replay has them once more, or does not open. -/
namespace InterchangeDb
open List Option
variable {reject : Bytes → Bytes → Option Error} {committed : Nat → Bool}

/-- The engine may return an error for a write, and stays as it is. -/
def rejecting (e : Option Error) : Faults := { Faults.none with write := e.map (fun e => ⟨e,id⟩) }

namespace Database
variable [Crc32]

/-- What a rejected write makes of a call over an engine that accepts it. -/
def rejected (db : Database) (e : Error) : Database × Except Error Unit → Database × Except Error Unit
  | (db',.ok _) => ({ db' with engine := db.engine },.error e)
  | (db',.error e') => (db',.error e')

private theorem write_rejecting (db : Database) (t : Nat) (k : Bytes) (v : MvccValue) (e : Error) :
    db.write t k v (rejecting (some e)) = (db.write t k v).map (db.rejected e) := by
  have hlog : db.logWrite t k v (rejecting (some e)) = db.logWrite t k v := rfl
  unfold write
  rw [hlog]
  cases hl : db.logWrite t k v with
  | none => rfl
  | some y =>
    obtain ⟨db₁,r₁⟩ := y
    rcases logWrite_cases hl with ⟨e',rfl,-⟩ | ⟨x,hx,-⟩ | ⟨txn,wal,lsn,rfl,-,-,-,-,-,rfl,-⟩
    · rfl
    · simp at hx
    · rfl

theorem txnWrite_rejecting (db : Database) (t : Nat) (k : Bytes) (v : MvccValue) (e : Error) :
    db.afterLock t k (·.write t k v (rejecting (some e))) = (db.afterLock t k (·.write t k v)).map (db.rejected e) := by
  rcases db.afterLock_eq t k with ⟨e',-,heq⟩ | ⟨-,heq⟩ <;> simp only [heq]
  · rfl
  · exact write_rejecting (db.locked t k) t k v e

/-- A call during which the engine rejects a write: the call over an engine that accepts it, without its effect on the
engine. -/
theorem step_rejecting {db db' : Database} {op : Op} {e : Option Error} {out : Outcome}
    (h : db.step op (rejecting e) = some (db',out)) :
    db.step op = some (db',out) ∨
    ∃ db₁ t k d, db.step op = some (db₁,.done) ∧ db.events op .done = [.wrote t k d] ∧
      db' = { db₁ with engine := db.engine } ∧ db.events op out = [] := by
  cases e with
  | none => exact .inl h
  | some e =>
    cases op with
    | begin | abort | checkpoint | gc | get | commit => exact .inl h
    | put | delete =>
      simp only [step,txnPut,txnDelete,txnWrite_rejecting,Option.map_map] at h ⊢
      obtain ⟨⟨db₁,r⟩,hr,heq⟩ := map_eq_some_iff.mp h
      rw [hr]
      cases r with
      | error e' => exact .inl (congrArg some heq)
      | ok u =>
        cases heq
        exact .inr ⟨db₁,_,_,_,rfl,rfl,rfl,rfl⟩

end Database

/-- Replay one record; an entry that the engine rejects ends the recovery. -/
def redoRecordWith (reject : Bytes → Bytes → Option Error) (committed : Nat → Bool) (s : Engine × Nat) (r : LogRecord) :
    Except Error (Engine × Nat) :=
  match r.payload with
  | .put key value =>
    match reject key value with
    | some e => .error e
    | none => .ok (s.1.put key value,s.2 + 1)
  | .delete key => .ok (s.1.delete key,s.2 + 1)
  | .txnPut key value _ =>
    if committed r.txnId then
      match reject key value with
      | some e => .error e
      | none => .ok (s.1.put key value,s.2 + 1)
    else .ok s
  | .txnDelete key _ => if committed r.txnId then .ok (s.1.delete key,s.2 + 1) else .ok s
  | _ => .ok s

def redoCommittedWith (reject : Bytes → Bytes → Option Error) (engine : Engine) (records : List LogRecord)
    (committed : Nat → Bool) : Except Error (Engine × Nat) :=
  records.foldlM (redoRecordWith reject committed) (engine,0)

theorem redoRecordWith_eq {r : LogRecord}
    (hown : r.OwnVersion) (haccept : ∀ key value old, r.payload = .txnPut key value old → committed r.txnId = true →
      reject key value = none) (s : Engine × Nat) : redoRecordWith reject committed s r = .ok (redoRecord committed s r) := by
  unfold redoRecordWith redoRecord
  unfold LogRecord.OwnVersion at hown
  cases hp : r.payload with
  | txnPut key value old =>
    dsimp only
    split_ifs with hc
    · rw [haccept key value old hp hc]
    · rfl
  | put | delete | txnDelete => simp only [hp] at hown
  | begin | commit | abort | checkpoint => rfl

theorem redoCommittedWith_eq {records : List LogRecord} (hown : ∀ r ∈ records, r.OwnVersion)
    (haccept : ∀ r ∈ records, ∀ key value old, r.payload = .txnPut key value old → committed r.txnId = true →
      reject key value = none) (engine : Engine) :
    redoCommittedWith reject engine records committed = .ok (redoCommitted engine records committed) := by
  unfold redoCommittedWith redoCommitted
  generalize (engine,0) = s
  induction records generalizing s with
  | nil => rfl
  | cons r records ih =>
    rw [foldlM_cons,redoRecordWith_eq (hown r mem_cons_self) (haccept r mem_cons_self)]
    exact ih (fun x hx => hown x (mem_cons_of_mem _ hx)) (fun x hx => haccept x (mem_cons_of_mem _ hx)) _

section

variable [Crc32]
variable {segments : Segments} {records : List LogRecord}

variable (reject : Bytes → Bytes → Option Error)

def recoverWith (segments : Segments) (engine : Engine) (lastCheckpointLsn : Nat) :
    Except Error (Engine × RecoveryStats) := do
  let startLsn := if Lsn.isValid lastCheckpointLsn then lastCheckpointLsn else 0
  let records ← collectItems (scanForward segments startLsn)
  let redone ← redoCommittedWith reject engine records (Database.recoveredCommit records)
  return (redone.1,{ (recoverRecords records engine).2 with recordsRedone := redone.2 })

/-- Open a log directory over an engine that may reject entries. -/
def Database.openInnerWith (segments : Segments) (engine : Engine)
    (policy : IsolationPolicy) : Option (Except Error Database) :=
  let wal := Wal.openDir segments
  openRecovered policy wal engine (recoverWith reject wal.writer.segments engine wal.lastCheckpointLsn)

private theorem openInnerWith_scanned (hscan : Database.recoveryScan segments = .ok records) (engine : Engine)
    (policy : IsolationPolicy) : Database.openInnerWith reject segments engine policy =
      match redoCommittedWith reject engine records (Database.recoveredCommit records) with
      | .error e => some (.error e)
      | .ok redone => (Database.seed policy (recoverRecords records engine).2).map
          (fun mgr => .ok ⟨redone.1,engine,Wal.openDir segments,mgr⟩) := by
  unfold Database.recoveryScan at hscan
  simp only [Database.openInnerWith,recoverWith,hscan,bind,Except.bind]
  cases redoCommittedWith reject engine records (Database.recoveredCommit records) <;> rfl

/-- Over an engine that accepts what is replayed the database opens as over one that accepts everything. -/
theorem Database.openInnerWith_eq {reject : Bytes → Bytes → Option Error} {engine : Engine} (policy : IsolationPolicy)
    (hscan : recoveryScan segments = .ok records)
    (hredo : redoCommittedWith reject engine records (Database.recoveredCommit records) =
      .ok (redoCommitted engine records (Database.recoveredCommit records))) :
    openInnerWith reject segments engine policy = openInner segments engine policy := by
  rw [openInnerWith_scanned reject hscan,hredo,openInner_eq_seed hscan]
  rfl

end

/-- A database, what its transactions did, and what they did or had logged before the engine rejected it. -/
structure Tried where
  db : Database
  history : History
  attempted : History

namespace Tried

def init (policy : IsolationPolicy) : Tried := ⟨.fresh policy,[],[]⟩

def live (s : Tried) : Session := ⟨s.db,s.history⟩

def logging (s : Tried) : Session := ⟨s.db,s.attempted⟩

variable [Crc32]

/-- One call, and the error of the engine if it rejects the write of the call. -/
def step (s : Tried) (x : Op × Option Error) : Option Tried :=
  match s.db.step x.1 (rejecting x.2), s.db.step x.1 with
  | some (db,out), some (_,accepted) =>
    some ⟨db,s.db.events x.1 out ++ s.history,s.db.events x.1 accepted ++ s.attempted⟩
  | _, _ => none

theorem step_accepted {s : Tried} {op : Op} {db : Database} {out : Outcome} (h : s.db.step op = some (db,out)) :
    s.step (op,none) = some ⟨db,s.db.events op out ++ s.history,s.db.events op out ++ s.attempted⟩ := by
  have hatt : s.db.step op (rejecting none) = some (db,out) := h
  simp [step,hatt,h]

theorem step_cases {s s' : Tried} {op : Op} {e : Option Error} (h : s.step (op,e) = some s') :
    (∃ db out, s.db.step op = some (db,out) ∧
      s' = ⟨db,s.db.events op out ++ s.history,s.db.events op out ++ s.attempted⟩) ∨
    ∃ db t k d, s.db.step op = some (db,.done) ∧ s.db.events op .done = [.wrote t k d] ∧
      s' = ⟨{ db with engine := s.db.engine },s.history,.wrote t k d :: s.attempted⟩ := by
  unfold step at h
  cases hatt : s.db.step op (rejecting e) with
  | none => simp [hatt] at h
  | some x =>
    obtain ⟨db,out⟩ := x
    rcases Database.step_rejecting hatt with hstep | ⟨db₁,t,k,d,hstep,hev,hdb,hno⟩
    · simp only [hatt,hstep] at h
      cases h
      exact .inl ⟨db,out,hstep,rfl⟩
    · simp only [hatt,hstep] at h
      cases h
      exact .inr ⟨db₁,t,k,d,hstep,hev,by rw [hev,hno,hdb]; rfl⟩

omit [Crc32] in
/-- Rejected writes apart, two histories agree. -/
structure Agree (accepted attempted : History) : Prop where
  same : ∀ {e : Event}, (∀ t k d, e ≠ .wrote t k d) → e ∈ attempted → e ∈ accepted
  sub : ∀ {e : Event}, e ∈ accepted → e ∈ attempted

omit [Crc32] in
theorem Agree.append {accepted attempted accepted' attempted' : History} (h : Agree accepted attempted)
    (h' : Agree accepted' attempted') : Agree (accepted ++ accepted') (attempted ++ attempted') := by
  refine ⟨fun hne he => ?_,fun he => ?_⟩
  · exact mem_append.mpr ((mem_append.mp he).imp (h.same hne) (h'.same hne))
  · exact mem_append.mpr ((mem_append.mp he).imp h.sub h'.sub)

omit [Crc32] in
theorem Agree.refl (h : History) : Agree h h := ⟨fun _ he => he,fun he => he⟩

omit [Crc32] in
/-- What an engine holds of the history when it is flushed. -/
structure Image (base : History) (engine : Engine) : Prop where
  versioned : engine.Versioned
  sound : ∀ {k ts v}, engine.version k ts = some v → .began v.txnId ts ∈ base ∧ lastWrite base v.txnId k = some v.data
  began : ∀ {t k}, lastWrite base t k ≠ none → ∃ b, .began t b ∈ base
  kept : ∀ {t k b}, lastWrite base t k ≠ none → .began t b ∈ base → engine.version k b ≠ none ∨ .aborted t ∈ base ∨
    ∃ c, .committed t c ∈ base ∧ ∃ ts v c', c < ts ∧ engine.version k ts = some v ∧ .committed v.txnId c' ∈ base

/-- What is known of a run: the histories before and since the last checkpoint, and the log. -/
structure Tracked (policy : IsolationPolicy) (rules : Rules) (s : Tried) (base base' since since' : History)
    (dropped front records : List LogRecord) : Prop where
  inv : Session.Inv policy rules s.live
  clean : s.logging.Clean
  last : CommitsLast s.attempted
  history : s.history = since ++ base
  attempted : s.attempted = since' ++ base'
  agreeBase : Agree base base'
  agreeSince : Agree since since'
  logged : s.logging.Logged dropped (front ++ records)
  told : LogsSince base' since' records
  recent : sinceCheckpoint (front ++ records) = records
  image : Image base s.db.flushed
  oracle : ∀ {t c}, .committed t c ∈ base' → c ≤ (analyzeTransactions records).checkpointOracleTs

section

variable {policy : IsolationPolicy} {rules : Rules} {s s' : Tried} {base base' since since' : History}
  {dropped front records : List LogRecord}

section

variable (ht : Tracked policy rules s base base' since since' dropped front records)
include ht

theorem Tracked.extend (s' : Tried) (hinv : Session.Inv policy rules s'.live) (hclean : s'.logging.Clean)
    (hlast : CommitsLast s'.attempted) {ev ev' : History} (hhist : s'.history = ev ++ s.history)
    (hatt : s'.attempted = ev' ++ s.attempted) (hagree : Agree ev ev') (hflushed : s'.db.flushed = s.db.flushed)
    {added : List LogRecord} (hlogged : s'.logging.Logged dropped (front ++ records ++ added))
    (hord : ∀ r ∈ added, r.isCheckpoint = false) (htold : LogsSince s.attempted ev' added) :
    Tracked policy rules s' base base' (ev ++ since) (ev' ++ since') dropped front (records ++ added) where
  inv := hinv
  clean := hclean
  last := hlast
  history := by rw [hhist,ht.history,append_assoc]
  attempted := by rw [hatt,ht.attempted,append_assoc]
  agreeBase := ht.agreeBase
  agreeSince := hagree.append ht.agreeSince
  logged := by rwa [← append_assoc]
  told := ht.told.append (ht.attempted ▸ htold)
  recent := by rw [← append_assoc,sinceCheckpoint_append _ hord,ht.recent]
  image := hflushed ▸ ht.image
  oracle := by
    rw [checkpointOracleTs_append records hord]
    exact ht.oracle

theorem Tracked.restart {db : Database} {r : Except Error Unit} (h : s.db.checkpoint = some (db,r))
    (hinv : Session.Inv policy rules ⟨db,s.history⟩) (hclean : Session.Clean ⟨db,s.attempted⟩) :
    ∃ dropped' front' record, Tracked policy rules ⟨db,s.history,s.attempted⟩ s.history s.attempted [] [] dropped' front' [record] ∧
      dropped' ++ (front' ++ [record]) = dropped ++ (front ++ records) ++ [record] := by
  obtain ⟨dropped',front',record,hl,heq,hid,hpay⟩ := ht.logged.checkpoint ht.clean h
  have hck : record.isCheckpoint = true := by simp [LogRecord.isCheckpoint,hpay,LogPayload.recordType]
  have hflushed : db.flushed = s.db.engine := by
    obtain ⟨w,lsn,-,-,rfl⟩ := Database.checkpoint_cases h
    rfl
  have hstored := ht.inv.mvcc.stored
  have horacle : (analyzeTransactions [record]).checkpointOracleTs = s.db.mgr.nextTs := by
    simp [analyzeTransactions,Analysis.step,hpay,logging]
  exact ⟨dropped',front',record,{
    inv := hinv
    clean := hclean
    last := ht.last
    history := rfl
    attempted := rfl
    agreeBase := ht.history ▸ ht.attempted ▸ ht.agreeSince.append ht.agreeBase
    agreeSince := .refl []
    logged := hl
    told := .checkpoint .nil hid (by rw [hpay]; rfl)
    recent := by rw [sinceCheckpoint_concat,if_pos hck]
    image := hflushed ▸ ⟨ht.inv.sound.versioned,hstored.version_sound,hstored.written_began,hstored.written_kept⟩
    oracle := fun hc => horacle ▸ (ht.clean.life.committed_bounds hc).1.le },heq⟩

private theorem Tracked.ordinary {op : Op} (hop : op.Fits) (hop' : op ≠ .checkpoint) {db : Database} {ev : History}
    (h : s.logging.step op = some ⟨db,ev ++ s.attempted⟩) :
    ∃ added, Session.Logged ⟨db,ev ++ s.attempted⟩ dropped (front ++ records ++ added) ∧ added.length ≤ 1 ∧
      (∀ r ∈ added, r.isCheckpoint = false) ∧ LogsSince s.attempted ev added := by
  obtain ⟨dropped',log',added,hl,heq,hlen,hord⟩ := ht.logged.step ht.clean hop h
  obtain ⟨rfl,hno,ev',hev,htold⟩ := hord hop'
  rw [append_assoc] at heq
  obtain rfl := append_cancel_left heq
  obtain rfl := append_cancel_right hev
  exact ⟨added,hl,hlen,hno,htold⟩

theorem Tracked.step {op : Op} {e : Option Error}
    {ops : List Op} (ha : Session.Allows policy rules (op::ops)) (hop : op.Fits) (h : s.step (op,e) = some s') :
    ∃ base base' since since' dropped' front' records',
      Tracked policy rules s' base base' since since' dropped' front' records' ∧
      (dropped' ++ (front' ++ records')).length ≤ (dropped ++ (front ++ records)).length + 1 := by
  have hck : op = .checkpoint → rules.checkpoints := fun heq => ha.checkpoint (heq ▸ mem_cons_self)
  have hgc : op = .gc → rules.collects := fun heq => ha.gc (heq ▸ mem_cons_self)
  have hpol : rules.checked → s.db.mgr.policy = .snapshotIsolation := fun hc => ht.inv.policy.trans (ha.checked hc)
  rcases step_cases h with ⟨db,out,hstep,rfl⟩ | ⟨db,t,k,d,hstep,hev,rfl⟩
  · obtain ⟨hsound,-,hst⟩ := Database.step_refines ht.inv.sound hpol hck hgc hstep
    have hinv : Session.Inv policy rules ⟨db,s.db.events op out ++ s.history⟩ :=
      ha.inv_step mem_cons_self ht.inv (map_eq_some_iff.mpr ⟨_,hstep,rfl⟩)
    have hclean : Session.Clean ⟨db,s.db.events op out ++ s.attempted⟩ :=
      ⟨hsound,ht.clean.life.step hst,ht.clean.life.written_began ht.clean.written_began hst⟩
    by_cases hop' : op = .checkpoint
    · subst hop'
      obtain ⟨⟨db',r⟩,hr,heq⟩ := map_eq_some_iff.mp hstep
      cases heq
      obtain ⟨dropped',front',record,ht',hlen⟩ := ht.restart hr hinv hclean
      refine ⟨_,_,_,_,dropped',front',[record],ht',?_⟩
      rw [hlen,length_append,length_singleton]
    · have hcall : s.logging.step op = some ⟨db,s.db.events op out ++ s.attempted⟩ :=
        map_eq_some_iff.mpr ⟨_,hstep,rfl⟩
      obtain ⟨added,hl,hlen,hno,htold⟩ := ht.ordinary hop hop' hcall
      refine ⟨base,base',s.db.events op out ++ since,s.db.events op out ++ since',dropped,front,records ++ added,?_,?_⟩
      · exact ht.extend ⟨db,_,_⟩ hinv hclean (ht.last.step ht.clean.life hst) rfl rfl (.refl _)
          (Database.step_flushed hstep hop') hl hno htold
      · simp only [length_append]
        omega
  · -- the engine is as before the call; the log and the manager are as after it
    have hop' : op ≠ .checkpoint := by
      rintro rfl
      cases hev
    obtain ⟨hsound,hpolicy,hst⟩ := Database.step_refines ht.inv.sound hpol hck hgc hstep
    rw [show s.live.db.events op .done = [.wrote t k d] from hev] at hst
    have hsound' : ({ db with engine := s.db.engine } : Database).Sound :=
      ⟨ht.inv.sound.versioned,hsound.exclusive,hsound.nextTxnId,hsound.nextTs,hsound.active⟩
    have hinv : Session.Inv policy rules ⟨{ db with engine := s.db.engine },s.history⟩ :=
      ⟨hsound',hpolicy.trans ht.inv.policy,ht.inv.mvcc.step ha.collects hst.without_write⟩
    have hlife := ht.clean.life.step hst
    have hclean : Session.Clean ⟨{ db with engine := s.db.engine },.wrote t k d :: s.attempted⟩ :=
      ⟨hsound',{ hlife with },ht.clean.life.written_began ht.clean.written_began hst⟩
    have hcall : s.logging.step op = some ⟨db,[.wrote t k d] ++ s.attempted⟩ :=
      map_eq_some_iff.mpr ⟨_,hstep,by simp [logging,hev]⟩
    obtain ⟨added,hl,hlen,hno,htold⟩ := ht.ordinary hop hop' hcall
    have hl' : Session.Logged ⟨{ db with engine := s.db.engine },.wrote t k d :: s.attempted⟩ dropped
        (front ++ records ++ added) := ⟨hl.files,hl.logs,hl.clients,hl.within⟩
    have hagree : Agree [] [.wrote t k d] := by
      refine ⟨fun hne he => ?_,nofun⟩
      exact (hne t k d (mem_singleton.mp he)).elim
    have hflushed : db.flushed = s.db.flushed := Database.step_flushed hstep hop'
    refine ⟨base,base',[] ++ since,[.wrote t k d] ++ since',dropped,front,records ++ added,?_,?_⟩
    · exact ht.extend ⟨{ db with engine := s.db.engine },_,_⟩ hinv hclean (ht.last.step ht.clean.life hst)
        (nil_append _).symm rfl hagree hflushed hl' hno htold
    · simp only [length_append]
      omega

theorem Tracked.run {calls : List (Op × Option Error)} (ha : Session.Allows policy rules (calls.map Prod.fst))
    (hfit : ∀ x ∈ calls, x.1.Fits) (h : InterchangeDb.run Tried.step s calls = some s') :
    ∃ base base' since since' dropped' front' records',
      Tracked policy rules s' base base' since since' dropped' front' records' ∧
      (dropped' ++ (front' ++ records')).length ≤ (dropped ++ (front ++ records)).length + calls.length := by
  induction calls generalizing s base base' since since' dropped front records with
  | nil =>
    cases h
    exact ⟨_,_,_,_,dropped,front,records,ht,le_rfl⟩
  | cons x calls ih =>
    obtain ⟨m,hm,hrun⟩ := run_cons_eq_some h
    obtain ⟨_,_,_,_,d₁,f₁,r₁,ht₁,hlen₁⟩ := ht.step ha (hfit x mem_cons_self) hm
    obtain ⟨_,_,_,_,d₂,f₂,r₂,ht₂,hlen₂⟩ := ih ht₁ (ha.mono (subset_cons_self _ _))
      (fun y hy => hfit y (mem_cons_of_mem _ hy)) hrun
    refine ⟨_,_,_,_,d₂,f₂,r₂,ht₂,?_⟩
    rw [length_cons]
    omega

theorem Tracked.lastWrite_base {t : Nat}
    {k : Bytes} (hnone : lastWrite since' t k = none) : lastWrite s.history t k = lastWrite base t k := by
  have hnone' : lastWrite since t k = none := by
    by_contra hsome
    obtain ⟨d,hd⟩ := lastWrite_ne_none_iff.mp hsome
    exact lastWrite_ne_none_iff.mpr ⟨d,ht.agreeSince.sub hd⟩ hnone
  rw [ht.history,lastWrite_append,hnone']
  rfl

/-- A final write that was not written again since the checkpoint stands in the flushed engine. -/
theorem Tracked.flushed_final {k : Bytes}
    {ts : Nat} {v : MvccValue} (hnew : Newest s.history k ts v) (hnone : lastWrite since' v.txnId k = none) :
    s.db.flushed.version k ts = some v := by
  have hlife := ht.inv.mvcc.life
  obtain ⟨⟨⟨c,hc⟩,hb,hw⟩,hmax⟩ := hnew
  have hbase : ∀ {e}, e ∈ base → e ∈ s.history := fun he => ht.history ▸ mem_append_right _ he
  rw [ht.lastWrite_base hnone] at hw
  obtain ⟨b,hb'⟩ := ht.image.began (t := v.txnId) (k := k) (by simp [hw])
  obtain rfl := hlife.began_unique hb (hbase hb')
  rcases ht.image.kept (k := k) (by simp [hw]) hb' with hkept | hab | ⟨c₁,hc₁,ts',v',c',hlt,hv',hc'⟩
  · obtain ⟨v',hv'⟩ := ne_none_iff_exists'.mp hkept
    obtain ⟨hb'',hw'⟩ := ht.image.sound hv'
    have hid := hlife.began_inj (hbase hb'') hb
    rw [hid,hw] at hw'
    rw [hv',MvccValue.ext hid (some.inj hw').symm]
  · exact (hlife.aborted_not_committed (hbase hab) hc).elim
  · obtain ⟨hb'',hw'⟩ := ht.image.sound hv'
    have hquiet : ∀ e ∈ since', e.txnId ≠ v'.txnId := by
      have hlast := ht.last
      rw [ht.attempted] at hlast
      exact fun e he => (pairwise_append.mp hlast).2.2 e he _ (ht.agreeBase.sub hc') _ _ rfl
    have hfinal : Final s.history k ts' v' := ⟨⟨c',hbase hc'⟩,hbase hb'',by
      rw [ht.lastWrite_base (lastWrite_untouched hquiet k),hw']⟩
    obtain ⟨-,b₁,hb₁,hlt₁⟩ := hlife.committed_bounds (hbase hc₁)
    have h1 := hmax ts' v' hfinal
    have h2 := hlife.began_unique hb hb₁
    omega

/-- The database reopened over the flushed engine shows what was accepted, if nothing else was logged last. -/
theorem Tracked.reopened
    {policy' : IsolationPolicy} {db : Database} (hr : Database.Reopened records s.db.flushed policy' db)
    (hlast : ∀ t c k, .committed t c ∈ s.history → lastWrite s.attempted t k = lastWrite s.history t k)
    (hflushed : ∀ k ts v, s.db.flushed.version k ts = some v → ∃ c, .committed v.txnId c ∈ s.history) :
    db.Shows s.history := by
  have hlife := ht.inv.mvcc.life
  have hagree := ht.agreeSince.append ht.agreeBase
  rw [← ht.history,← ht.attempted] at hagree
  have hbase : ∀ {e}, e ∈ base → e ∈ s.history := fun he => ht.history ▸ mem_append_right _ he
  have hsep : Separate (since' ++ base') := by
    rw [← ht.attempted]
    exact ⟨ht.clean.life.began_unique,ht.clean.life.began_inj⟩
  have hcommits : CommitsLast (since' ++ base') := ht.attempted ▸ ht.last
  have hmem : ∀ {e : Event}, (∀ t k d, e ≠ .wrote t k d) → (e ∈ since' ++ base' ↔ e ∈ s.history) :=
    fun hne => ht.attempted ▸ ⟨hagree.same hne,hagree.sub⟩
  have himage : ∀ {k ts v}, s.db.flushed.version k ts = some v → (∃ c, .committed v.txnId c ∈ s.history) ∧
      .began v.txnId ts ∈ s.history ∧ (lastWrite since' v.txnId k = none → lastWrite s.history v.txnId k = some v.data) := by
    intro k ts v hv
    obtain ⟨hb,hw⟩ := ht.image.sound hv
    exact ⟨hflushed k ts v hv,hbase hb,fun hnone => (ht.lastWrite_base hnone).trans hw⟩
  have hold : ∀ {t c b}, .committed t c ∈ base' → .began t b ∈ s.history →
      b ≤ (analyzeTransactions records).checkpointOracleTs := by
    intro t c b hc hb
    obtain ⟨-,b',hb',hlt⟩ := hlife.committed_bounds (hbase (ht.agreeBase.same (by simp) hc))
    obtain rfl := hlife.began_unique hb hb'
    exact hlt.le.trans (ht.oracle hc)
  exact hr.shows ht.told hsep hcommits (hmem (by simp)) (fun hb => (hlife.began_bounds hb).1.1.ne') (hmem (by simp))
    (fun k hc => ht.attempted ▸ hlast _ _ k hc) himage ht.flushed_final hold

end

theorem tracked_init (policy : IsolationPolicy) (rules : Rules) :
    Tracked policy rules (init policy) [] [] [] [] [] [] [] where
  inv := Session.inv_init policy rules
  clean := (Session.inv_init policy rules).clean
  last := .nil
  history := rfl
  attempted := rfl
  agreeBase := .refl []
  agreeSince := .refl []
  logged := Session.logged_init policy
  told := .nil
  recent := rfl
  image := ⟨Engine.versioned_empty,fun hv => by simp [init,Database.fresh] at hv,fun hw => by simp [lastWrite] at hw,
    fun hw => by simp [lastWrite] at hw⟩
  oracle hc := by cases hc

end

end Tried

section

variable [Crc32]

/-- Some writes of a run are rejected by the engine after they have been logged, and their transactions go on. If
replay accepts the logged writes of committed transactions, the last logged write of each key by a committed
transaction was accepted, what was flushed is committed and no active writer is older than the last checkpoint, then
the database opens over its flushed engine, and every key reads as before. -/
theorem rejected_writes_recovered {policy policy' : IsolationPolicy} {calls : List (Op × Option Error)} {s : Tried}
    (h : run Tried.step (.init policy) calls = some s) (hgc : .gc ∈ calls.map Prod.fst → policy = .snapshotIsolation)
    (hfit : ∀ x ∈ calls, x.1.Fits) (hlen : calls.length < maxRecoveryRecords) (hts : s.db.mgr.nextTs < u64Max)
    (hlast : ∀ t c k, .committed t c ∈ s.history → lastWrite s.attempted t k = lastWrite s.history t k)
    (hflushed : ∀ k ts v, s.db.flushed.version k ts = some v → ∃ c, .committed v.txnId c ∈ s.history)
    (hactive : ∀ k ts v, s.db.engine.version k ts = some v → ts ≤ s.db.mgr.checkpointTs → v.txnId ∉ s.db.mgr.activeTxns)
    {reject : Bytes → Bytes → Option Error}
    (haccept : ∀ r key value old c, Recent s.db.wal.writer.segments r → r.payload = .txnPut key value old →
      CommitIn s.db.wal.writer.segments r.txnId c → reject key value = none) :
    ∃ db, Database.openInnerWith reject s.db.wal.writer.segments s.db.flushed policy' = some (.ok db) ∧
      ∀ k, db.get k = s.db.get k := by
  obtain ⟨base,base',since,since',dropped,front,records,ht,hcount⟩ := (Tried.tracked_init policy
    (runRules policy (calls.map Prod.fst))).run (Session.allows_runRules hgc) hfit h
  have hi := ht.inv
  have hfiles := ht.logged.files
  have hshort : (front ++ records).length < maxRecoveryRecords := by
    simp only [length_append,length_nil,append_nil] at hcount ⊢
    omega
  have hmem : ∀ r ∈ records, r ∈ front ++ records := fun r hr => mem_append_right _ hr
  have hbounded : ∀ r ∈ sinceCheckpoint (front ++ records), r.Bounded := by
    rw [ht.recent]
    exact fun r hr => (ht.logged.within r (hmem r hr)).bounded hi.sound.nextTxnId hi.sound.nextTs (fun _ => hts)
  have hscan := Database.recoveryScan_eq hfiles.torn hfiles.fits hfiles.increasing hshort
  obtain ⟨db,hopen,-,hr⟩ := Database.openInner_eq hfiles.torn hfiles.fits hfiles.increasing hshort hbounded s.db.flushed policy'
  rw [ht.recent] at hscan hr
  have hown : ∀ r ∈ records, r.OwnVersion := fun r hr =>
    ht.logged.logs.ownVersion r (mem_append_right _ (hmem r hr))
  have haccept' : ∀ r ∈ records, ∀ key value old, r.payload = .txnPut key value old →
      Database.recoveredCommit records r.txnId = true → reject key value = none := by
    intro r hr key value old hp hcom
    obtain ⟨c,hc⟩ := isSome_iff_exists.mp hcom
    obtain ⟨r',hr',hid,hp'⟩ := commit_of_lookup hc
    refine haccept r key value old c ?_ hp ⟨r',(standsIn_iff hfiles.torn hfiles.fits r').mpr (hmem r' hr'),hid,hp'⟩
    exact (recent_iff hfiles.torn hfiles.fits hfiles.increasing r).mpr (ht.recent.symm ▸ hr)
  have hopen' := (Database.openInnerWith_eq policy' hscan (redoCommittedWith_eq hown haccept' s.db.flushed)).trans hopen
  have hver : db.engine.Versioned := hr.engine ▸ (redoCommitted_versions hown ht.image.versioned _).1
  have hlive : s.db.Shows s.history := by
    refine hi.shows fun {k ts v} hv hle => ?_
    have hnone := AList.lookup_eq_none.mpr (hactive k ts v hv hle)
    change (s.db.mgr.activeTxns.lookup v.txnId).map _ = none
    rw [hnone]
    rfl
  have hshows := ht.reopened hr hlast hflushed
  exact ⟨db,hopen',fun k => hshows.get_eq hlive (hr.sound hver) hi.sound (fun hb => (hi.mvcc.life.began_bounds hb).2.2) k⟩

end

/-- After a checkpoint, one write of a transaction fails and is repeated with another value. -/
def repeatedPut : List (Op × Option Error) :=
  [(.begin .readWrite,none),(.put 1 [7] [1],none),(.commit 1,none),(.checkpoint,none),(.begin .readWrite,none),
    (.put 2 [7] [2],some (.io "write failed")),(.put 2 [7] [3],none),(.commit 2,none)]

private def afterRepeated : Tried := (run Tried.step (.init .snapshotIsolation) repeatedPut).get (by decide +kernel)

/-- The write that was accepted in the end is the one read before and after the restart. -/
theorem rejected_writes_recovered_repeated : ∃ s db, run Tried.step (.init .snapshotIsolation) repeatedPut = some s ∧
    Database.openInnerWith (fun _ _ => none) s.db.wal.writer.segments s.db.flushed .snapshotIsolation = some (.ok db) ∧
    db.get [7] = s.db.get [7] ∧ (s.db.get [7]).map Except.toOption = some (some (some [3])) := by
  have hs : run Tried.step (.init .snapshotIsolation) repeatedPut = some afterRepeated := (some_get _).symm
  have hh : afterRepeated.history =
      [.committed 2 4,.wrote 2 [7] (some [3]),.began 2 3,.committed 1 2,.wrote 1 [7] (some [1]),.began 1 1] := by decide +kernel
  have ha : afterRepeated.attempted = [.committed 2 4,.wrote 2 [7] (some [3]),.wrote 2 [7] (some [2]),.began 2 3,
      .committed 1 2,.wrote 1 [7] (some [1]),.began 1 1] := by decide +kernel
  have hm : afterRepeated.db.mgr.activeTxnIds = [] := by decide +kernel
  have hts : afterRepeated.db.mgr.nextTs < u64Max := by decide +kernel
  have hv : (afterRepeated.db.get [7]).map Except.toOption = some (some (some [3])) := by decide +kernel
  have hf : afterRepeated.db.flushed.entries = [(mvccKey [7] 1,encodeMvccValue (.value 1 [1]))] := by decide +kernel
  generalize afterRepeated = s at *
  have hflushed : s.db.flushed = Engine.put OrdMap.empty (mvccKey [7] 1) (encodeMvccValue (.value 1 [1])) := by
    refine OrdMap.ext_get fun k => ?_
    simp only [OrdMap.get,hf]
    rfl
  have hlast : ∀ t c k, .committed t c ∈ s.history → lastWrite s.attempted t k = lastWrite s.history t k := by
    intro t c k _
    simp only [hh,ha,lastWrite_committed,lastWrite_wrote,lastWrite_began]
    split_ifs <;> rfl
  have hcommitted : ∀ k ts v, s.db.flushed.version k ts = some v → ∃ c, .committed v.txnId c ∈ s.history := by
    intro k ts v hver
    rw [hflushed,Engine.version_put _ (by decide) (by decide) ⟨by decide,by decide⟩] at hver
    split_ifs at hver
    · cases hver
      exact ⟨2,by simp [hh,MvccValue.txnId]⟩
    · simp at hver
  have hactive : ∀ t, t ∉ s.db.mgr.activeTxns := by
    intro t ht
    have hmem : t ∈ s.db.mgr.activeTxnIds := mem_map.mpr (mem_map.mp (AList.mem_keys.mpr ht))
    rw [hm] at hmem
    cases hmem
  obtain ⟨db,hopen,hget⟩ := rejected_writes_recovered hs (fun _ => rfl) (by decide) (by decide) hts hlast hcommitted
    (fun _ _ _ _ _ => hactive _) (fun _ _ _ _ _ _ _ _ => rfl)
  exact ⟨s,db,hs,hopen,hget [7],hv⟩

private theorem run_rejected {v : Bytes} (hv : v.length ≤ 2^20) (e : Error) :
    ∃ s, run Tried.step (.init .snapshotIsolation) [(.begin .readWrite,none),(.put 1 [1] v,some e),(.commit 1,none)] = some s ∧
      s.db.wal.writer.segments =
        [(0,LogRecord.codec.frames (oneWrite (encodeMvccValue (.value 1 v)) none))] := by
  obtain ⟨s,hs,hb⟩ := begun
  obtain ⟨db,hput,hw⟩ := put_ok hb hv
  obtain ⟨db',hcommit,hseg⟩ := commit_ok (show Written v { db with engine := s.db.engine } from hw) hv
  have hbegin : Tried.step (.init .snapshotIsolation) (.begin .readWrite,none) = some ⟨s.db,s.history,s.history⟩ := by
    obtain ⟨m,hm,hm'⟩ := run_cons_eq_some hs
    cases hm'
    obtain ⟨⟨db,out⟩,hstep,rfl⟩ := map_eq_some_iff.mp hm
    exact Tried.step_accepted hstep
  have hput' : Tried.step ⟨s.db,s.history,s.history⟩ (.put 1 [1] v,some e) =
      some ⟨{ db with engine := s.db.engine },s.history,.wrote 1 [1] (some v) :: s.history⟩ := by
    have hrej : s.db.txnPut 1 [1] v (rejecting (some e)) = some ({ db with engine := s.db.engine },.error e) := by
      rw [Database.txnPut,Database.txnWrite_rejecting,← Database.txnPut,hput]
      rfl
    simp [Tried.step,Database.step,hput,hrej,Outcome.ofUnit,Database.events]
  have hcommit' : Tried.step ⟨{ db with engine := s.db.engine },s.history,.wrote 1 [1] (some v) :: s.history⟩ (.commit 1,none) =
      some ⟨db',.committed 1 2 :: s.history,.committed 1 2 :: .wrote 1 [1] (some v) :: s.history⟩ := by
    rw [Tried.step_accepted (show Database.step _ (.commit 1) = some (db',.done) by
      simp [Database.step, hcommit, Outcome.ofUnit])]
    simp [Database.events,hw.2.1]
  exact ⟨⟨db',.committed 1 2 :: s.history,.committed 1 2 :: .wrote 1 [1] (some v) :: s.history⟩,
    by simp [run,hbegin,hput',hcommit'],hseg⟩

private theorem open_rejected {v : Bytes} (hv : v.length ≤ 2^15) {e : Error}
    (hreject : reject (mvccKey [1] 1) (encodeMvccValue (.value 1 v)) = some e) (image : Engine) (policy : IsolationPolicy) :
    Database.openInnerWith reject [(0,LogRecord.codec.frames (oneWrite (encodeMvccValue (.value 1 v)) none))] image policy =
      some (.error e) := by
  have hlen : (encodeMvccValue (.value 1 v)).length = v.length + 13 := by
    simp [encodeMvccValue]
    omega
  have hput : (putRecord (encodeMvccValue (.value 1 v)) none).Fits := by
    refine ⟨?_,?_,?_,⟨by decide,?_,by simp⟩,?_⟩
    · simp [putRecord,u64Max]
    · simp [putRecord,u64Max]
    · simp [putRecord]
    · simp only [hlen,u16Max]
      omega
    · simp only [putRecord,LogRecord.size,LogPayload.encode,encodeOldValue]
      simp [hlen,mvccKey,headerSize,crcSize,maxRecordSize]
      omega
  have hfits : ∀ r ∈ oneWrite (encodeMvccValue (.value 1 v)) none, r.Fits := by
    simp only [forall_mem_cons]
    exact ⟨by decide,hput,by decide,by simp⟩
  have hleft : HoldTorn [(0,LogRecord.codec.frames (oneWrite (encodeMvccValue (.value 1 v)) none))]
      (oneWrite (encodeMvccValue (.value 1 v)) none) :=
    ⟨[],0,[],_,[],by rw [append_nil,nil_append],.nil,.inl rfl,rfl⟩
  have hscan := Database.recoveryScan_eq hleft hfits (by simp [beginRecord,putRecord,commitRecord])
    (by simp [maxRecoveryRecords])
  have hredo : redoCommittedWith reject image (oneWrite (encodeMvccValue (.value 1 v)) none)
      (Database.recoveredCommit (oneWrite (encodeMvccValue (.value 1 v)) none)) = .error e := by
    simp only [redoCommittedWith,foldlM_cons,redoRecordWith,beginRecord,putRecord,hreject]
    rfl
  rw [openInnerWith_scanned reject hscan,
    show sinceCheckpoint _ = oneWrite (encodeMvccValue (.value 1 v)) none from rfl,hredo]

/-- A value above the limit of the B+tree engine fails the put, not the transaction, and after the commit the database
does not open. A put that fails once, after another of the same transaction, is read after a restart and not before. -/
theorem rejected_write_replayed :
    (∃ s, run Tried.step (.init .snapshotIsolation) [(.begin .readWrite,none),
          (.put 1 [1] (List.replicate 4100 0),BTreeEngine.reject (mvccKey [1] 1) (encodeMvccValue (.value 1 (List.replicate 4100 0)))),
          (.commit 1,none)] = some s ∧
        Database.openInnerWith BTreeEngine.reject s.db.wal.writer.segments s.db.flushed .snapshotIsolation =
          some (.error (.valueTooLarge 4113))) ∧
    ∃ s db, run Tried.step (.init .snapshotIsolation) [(.begin .readWrite,none),(.put 1 [7] [1],none),
          (.put 1 [7] [2],some (.io "write failed")),(.commit 1,none)] = some s ∧
        (s.db.get [7]).map Except.toOption = some (some (some [1])) ∧
        Database.openInnerWith (fun _ _ => none) s.db.wal.writer.segments s.db.flushed .snapshotIsolation = some (.ok db) ∧
        (db.get [7]).map Except.toOption = some (some (some [2])) := by
  refine ⟨?_,?_⟩
  · have hlen : (replicate 4100 (0 : Byte)).length = 4100 := length_replicate
    generalize replicate 4100 (0 : Byte) = v at hlen
    have hreject : BTreeEngine.reject (mvccKey [1] 1) (encodeMvccValue (.value 1 v)) = some (.valueTooLarge 4113) := by
      simp [BTreeEngine.reject,encodeMvccValue,mvccKey,leafBudget,hlen]
    rw [hreject]
    obtain ⟨s,hs,hseg⟩ := run_rejected (v := v) (hlen.trans_le (by decide)) (.valueTooLarge 4113)
    refine ⟨s,hs,?_⟩
    rw [hseg]
    exact open_rejected (hlen.trans_le (by decide)) hreject _ _
  · simp only [exists_and_left]
    refine exists_observed (fun s => ((s.db.get [7]).map Except.toOption,((Database.openInnerWith (fun _ _ => none)
        s.db.wal.writer.segments s.db.flushed .snapshotIsolation).bind Except.toOption).bind (fun db => (db.get [7]).map Except.toOption)))
      (some (some (some [1])),some (some (some [2]))) (by decide +kernel) (fun s _ hh => ?_)
    obtain ⟨hget,hopen⟩ := Prod.mk.inj hh
    obtain ⟨db,hdb,hget'⟩ := bind_eq_some_iff.mp hopen
    exact ⟨hget,db,eq_some_ok hdb,hget'⟩

end InterchangeDb
