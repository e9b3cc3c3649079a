import InterchangeDb.Database.Logged
import InterchangeDb.Database.Reopen

/-! Recovery from the log alone: the effects of the commits that are left, in the order of their commits. -/
namespace InterchangeDb
open List Option
variable {h : History} {k v rest ov : Bytes} {commits : List (Nat × Nat)} {rules : Rules} {log : List LogRecord}

/-- What a transaction makes of a state. -/
def applyTxn (h : History) (state : Bytes → Option Bytes) (t : Nat) : Bytes → Option Bytes :=
  fun k => (lastWrite h t k).getD (state k)

/-- The effects of some transactions, one after the other. -/
def applyCommits (h : History) (commits : List (Nat × Nat)) : Bytes → Option Bytes :=
  commits.foldl (fun state x => applyTxn h state x.1) (fun _ => none)

private theorem foldl_unwritten (hno : ∀ x ∈ commits, lastWrite h x.1 k = none) (state : Bytes → Option Bytes) :
    commits.foldl (fun state x => applyTxn h state x.1) state k = state k := by
  induction commits generalizing state with
  | nil => rfl
  | cons x commits ih =>
    rw [foldl_cons,ih (fun y hy => hno y (mem_cons_of_mem _ hy)),applyTxn,hno x mem_cons_self]
    rfl

theorem applyCommits_unwritten
    (hno : ∀ x ∈ commits, lastWrite h x.1 k = none) : applyCommits h commits k = none := foldl_unwritten hno _

theorem applyCommits_last (hs : commits.Pairwise (fun x y => x.2 < y.2)) {t c : Nat} (hmem : (t,c) ∈ commits)
    {d : Option Bytes} (hd : lastWrite h t k = some d) (hmax : ∀ x ∈ commits, lastWrite h x.1 k ≠ none → x.2 ≤ c) :
    applyCommits h commits k = d := by
  obtain ⟨front,back,rfl⟩ := append_of_mem hmem
  have hback : ∀ x ∈ back, lastWrite h x.1 k = none := by
    intro x hx
    by_contra hw
    have hlt := (pairwise_cons.mp (pairwise_append.mp hs).2.1).1 x hx
    exact absurd (hmax x (by simp [hx]) hw) (not_le.mpr hlt)
  rw [applyCommits,foldl_append,foldl_cons,foldl_unwritten hback,applyTxn,hd]
  rfl

private theorem exists_sorted (hinj : ∀ x ∈ commits, ∀ y ∈ commits, x.2 = y.2 → x = y) :
    ∃ sorted : List (Nat × Nat), sorted.Pairwise (fun x y => x.2 < y.2) ∧ ∀ x, x ∈ sorted ↔ x ∈ commits := by
  set sorted := commits.dedup.mergeSort (fun x y => decide (x.2 ≤ y.2)) with hsorted
  have hmem : ∀ x, x ∈ sorted ↔ x ∈ commits := fun x => (mergeSort_perm _ _).mem_iff.trans mem_dedup
  refine ⟨sorted,?_,hmem⟩
  have hle : sorted.Pairwise (fun x y => x.2 ≤ y.2) := by
    refine (pairwise_mergeSort ?_ ?_ _).imp (fun hxy => of_decide_eq_true hxy)
    · intro x y z
      simpa using le_trans
    · intro x y
      simpa using le_total x.2 y.2
  have hne : sorted.Pairwise (· ≠ ·) := (mergeSort_perm _ _).nodup_iff.mpr (nodup_dedup _)
  refine (hle.and hne).imp_of_mem fun {x y} hx hy hxy => lt_of_le_of_ne hxy.1 fun heq => hxy.2 ?_
  exact hinj x ((hmem x).mp hx) y ((hmem y).mp hy) heq

namespace Database

variable {h : History} {log : List LogRecord} {image : Engine} {db : Database}

/-- Over an engine that holds replayed writes only, recovery yields all of them. -/
theorem Reopened.version_iff {policy : IsolationPolicy} (hr : Reopened log image policy db) (hl : Logs h log)
    (hs : Separate h) (himage : ∀ k ts v, image.version k ts = some v → Replayed h (recoveredCommit log) k ts v)
    (k : Bytes) (ts : Nat) (v : MvccValue) :
    db.engine.version k ts = some v ↔ Replayed h (recoveredCommit log) k ts v := by
  rw [hr.engine,hl.redo_version hs]
  exact or_iff_left fun ⟨hv,hno⟩ => hno v (himage k ts v hv)

/-- A read outside a transaction finds the newest replayed write of its key. -/
theorem Reopened.get_newest (hr : Reopened log image .snapshotIsolation db) (hver : db.engine.Versioned)
    (hversion : ∀ k ts v, db.engine.version k ts = some v ↔ Replayed h (recoveredCommit log) k ts v) {k : Bytes}
    (hk : k.length ≤ u32Max) :
    (db.get k = some (.ok none) ∧ ∀ ts v, ¬ Replayed h (recoveredCommit log) k ts v) ∨
      ∃ ts v, db.get k = some (.ok v.data) ∧ Replayed h (recoveredCommit log) k ts v ∧
        ∀ ts' v', Replayed h (recoveredCommit log) k ts' v' → ts' ≤ ts := by
  have hread : db.mgr.readView TxnId.autoCommit = .ok ⟨max db.mgr.nextTs db.mgr.checkpointTs⟩ := by
    simp [TransactionManager.readView,hr.policy]
  -- every version is of a transaction recovered as committed, before the reader
  have hvisible : ∀ {ts v}, Replayed h (recoveredCommit log) k ts v →
      db.view.Visible TxnId.autoCommit (max db.mgr.nextTs db.mgr.checkpointTs) v.txnId ts := by
    intro ts v hrep
    obtain ⟨c,hc⟩ := isSome_iff_exists.mp hrep.1
    rw [← hr.committed] at hc
    exact .inr (.inl ⟨c,hc,le_max_of_le_left (hr.committed_lt hc).1.le⟩)
  obtain ⟨r,hfind,hsup⟩ := txnFind_spec (hr.sound hver) hk hread
  have hget : db.get k = some (.ok (r.bind (·.2.data))) := by
    simp [get,txnGet_eq,hfind,map_some,Except.map]
  cases r with
  | none => exact .inl ⟨hget,fun ts v hrep => hsup ts v ((hversion k ts v).mpr hrep) (hvisible hrep)⟩
  | some version =>
    obtain ⟨ts,v⟩ := version
    obtain ⟨hv,_,hmax⟩ := hsup
    refine .inr ⟨ts,v,hget,(hversion k ts v).mp hv,fun ts' v' hrep => ?_⟩
    exact hmax ts' v' ((hversion k ts' v').mpr hrep) (hvisible hrep)

end Database

private theorem newest_eq_applyCommits {s : MvccState} {full : History}
    (hi : MvccInv rules s h) (hchecked : rules.checked) (hl : Logs h log)
    (hsorted : commits.Pairwise (fun x y => x.2 < y.2))
    (hmem : ∀ t c, (t,c) ∈ commits ↔ ∃ r ∈ log, r.txnId = t ∧ r.payload = .commit c)
    (hfull : ∀ {t c}, .committed t c ∈ h → ∀ k, lastWrite full t k = lastWrite h t k) (k : Bytes) {value : Option Bytes}
    (hnewest : (value = none ∧ ∀ ts v, ¬ Replayed h (Database.recoveredCommit log) k ts v) ∨
      ∃ ts v, value = v.data ∧ Replayed h (Database.recoveredCommit log) k ts v ∧
        ∀ ts' v', Replayed h (Database.recoveredCommit log) k ts' v' → ts' ≤ ts) :
    value = applyCommits full commits k := by
  have hcommitted : ∀ {t c}, (t,c) ∈ commits → .committed t c ∈ h := by
    intro t c hx
    obtain ⟨r,hr,rfl,hp⟩ := (hmem t c).mp hx
    exact hl.committed_of_mem hr hp
  have hreplayed : ∀ {t c d}, (t,c) ∈ commits → lastWrite full t k = some d →
      ∃ b v, .began t b ∈ h ∧ v.txnId = t ∧ Replayed h (Database.recoveredCommit log) k b v := by
    intro t c d hx hd
    have hc := hcommitted hx
    obtain ⟨_,b,hb,_⟩ := hi.life.committed_bounds hc
    obtain ⟨v,rfl,rfl⟩ := MvccValue.exists_eq t d
    obtain ⟨r,hr,heq,hp⟩ := (hmem _ c).mp hx
    obtain ⟨c',hc'⟩ := lookup_of_commit hr hp
    refine ⟨b,v,hb,rfl,?_,hb,by rw [← hfull hc,hd]⟩
    rw [Database.recoveredCommit,← heq,hc']
    rfl
  rcases hnewest with ⟨rfl,hno⟩ | ⟨ts,v,rfl,hrep,hmax⟩
  · refine (applyCommits_unwritten fun x hx => ?_).symm
    by_contra hw
    obtain ⟨d,hd⟩ := ne_none_iff_exists'.mp hw
    obtain ⟨b,v,_,_,hrep⟩ := hreplayed hx hd
    exact hno b v hrep
  · obtain ⟨hcom,hb,hlast⟩ := hrep
    obtain ⟨c,hc⟩ := isSome_iff_exists.mp hcom
    obtain ⟨r,hr,heq,hp⟩ := commit_of_lookup hc
    have hx : (v.txnId,c) ∈ commits := (hmem _ c).mpr ⟨r,hr,heq,hp⟩
    have hc' := hcommitted hx
    have hd : lastWrite full v.txnId k = some v.data := (hfull hc' k).trans hlast
    refine (applyCommits_last hsorted hx hd fun y hy hw => ?_).symm
    obtain ⟨d,hd⟩ := ne_none_iff_exists'.mp hw
    obtain ⟨b,v',hb',hid,hrep'⟩ := hreplayed hy hd
    have hcy := hcommitted hy
    exact hi.commit_order hchecked hb hb' hc' hcy (by simp [hlast]) (hfull hcy k ▸ hw) (hmax b v' hrep')

private def commitOf (r : LogRecord) : Option (Nat × Nat) :=
  match r.payload with
  | .commit c => some (r.txnId,c)
  | _ => none

private theorem exists_commits {s : MvccState} (hi : MvccInv rules s h) (hl : Logs h log) :
    ∃ commits : List (Nat × Nat), commits.Pairwise (fun x y => x.2 < y.2) ∧
      ∀ t c, (t,c) ∈ commits ↔ ∃ r ∈ log, r.txnId = t ∧ r.payload = .commit c := by
  have hmem : ∀ t c, (t,c) ∈ log.filterMap commitOf ↔ ∃ r ∈ log, r.txnId = t ∧ r.payload = .commit c := by
    intro t c
    rw [mem_filterMap]
    refine exists_congr fun r => and_congr_right fun _ => ?_
    cases hp : r.payload <;> simp [commitOf,hp]
  have hinj : ∀ x ∈ log.filterMap commitOf, ∀ y ∈ log.filterMap commitOf, x.2 = y.2 → x = y := by
    intro ⟨t,c⟩ hx ⟨t',c'⟩ hy heq
    obtain ⟨r,hr,rfl,hp⟩ := (hmem t c).mp hx
    obtain ⟨r',hr',rfl,hp'⟩ := (hmem t' c').mp hy
    obtain rfl : c = c' := heq
    rw [hi.life.committed_inj (hl.committed_of_mem hr hp) (hl.committed_of_mem hr' hp')]
  obtain ⟨commits,hsorted,hiff⟩ := exists_sorted hinj
  exact ⟨commits,hsorted,fun t c => (hiff (t,c)).trans (hmem t c)⟩

section

variable [Crc32]

private theorem open_left {rules : Rules} {s : MvccState} {h full : History} {segments : Segments}
    {log : List LogRecord} (hi : MvccInv rules s h) (hchecked : rules.checked) (hl : Logs h log)
    (hno : ∀ r ∈ log, r.isCheckpoint = false) (hleft : HoldTorn segments log) (hv : ∀ r ∈ log, r.Fits)
    (hinc : log.Pairwise (fun r r' => r.lsn < r'.lsn)) (hlen : log.length < maxRecoveryRecords)
    (hb : ∀ r ∈ log, r.Bounded) {commits : List (Nat × Nat)} (hsorted : commits.Pairwise (fun x y => x.2 < y.2))
    (hmem : ∀ t c, (t,c) ∈ commits ↔ ∃ r ∈ log, r.txnId = t ∧ r.payload = .commit c)
    (hfull : ∀ {t c}, .committed t c ∈ h → ∀ k, lastWrite full t k = lastWrite h t k) (image : Engine)
    (hver : image.Versioned)
    (himage : ∀ k ts v, image.version k ts = some v → Replayed h (Database.recoveredCommit log) k ts v) :
    ∃ db, Database.openInner segments image .snapshotIsolation = some (.ok db) ∧
      db.wal.writer.segments = segments ∧ db.engine.Versioned ∧
      (∀ k ts v, db.engine.version k ts = some v → Replayed h (Database.recoveredCommit log) k ts v) ∧
      ∀ k, k.length ≤ u32Max → db.get k = some (.ok (applyCommits full commits k)) := by
  have hall := sinceCheckpoint_eq_self hno
  obtain ⟨db,hopen,hseg,hr⟩ := Database.openInner_eq hleft hv hinc hlen (hall.symm ▸ hb) image .snapshotIsolation
  rw [hall] at hr
  have hversion := hr.version_iff hl ⟨hi.life.began_unique,hi.life.began_inj⟩ himage
  have hver' : db.engine.Versioned := hr.engine ▸ (redoCommitted_versions hl.ownVersion hver _).1
  refine ⟨db,hopen,hseg,hver',fun k ts v => (hversion k ts v).mp,fun k hk => ?_⟩
  rcases hr.get_newest hver' hversion hk with ⟨hget,hnone⟩ | ⟨ts,v,hget,hrep⟩
  · rw [hget,newest_eq_applyCommits hi hchecked hl hsorted hmem hfull k (.inl ⟨rfl,hnone⟩)]
  · rw [hget,newest_eq_applyCommits hi hchecked hl hsorted hmem hfull k (.inr ⟨ts,v,rfl,hrep⟩)]

/-- Whatever is left of the log of a run, the database opened on it with an empty
engine holds what the transactions whose commit record is left wrote, applied in
commit order; opening it again changes nothing. -/
theorem recovers_commits_left {ops : List Op} {s : Session} (h : run Session.step (.init .snapshotIsolation) ops = some s)
    (hck : .checkpoint ∉ ops) (hfit : ∀ op ∈ ops, op.Fits) (hlen : ops.length < maxRecoveryRecords)
    {before after : Segments} {id : Nat} {data : Bytes}
    (hseg : s.db.wal.writer.segments = before ++ (id,data)::after) (n : Nat) :
    ∃ db commits, Database.openInner (before ++ [(id,data.take n)]) OrdMap.empty .snapshotIsolation = some (.ok db) ∧
      commits.Pairwise (fun x y => x.2 < y.2) ∧
      (∀ t c, (t,c) ∈ commits ↔ CommitIn (before ++ [(id,data.take n)]) t c) ∧
      (∀ k, k.length ≤ u32Max → db.get k = some (.ok (applyCommits s.history commits k))) ∧
      db.wal.writer.segments = before ++ [(id,data.take n)] ∧
      ∃ db', Database.openInner db.wal.writer.segments db.engine .snapshotIsolation = some (.ok db') ∧
        ∀ k, k.length ≤ u32Max → db'.get k = db.get k := by
  obtain ⟨_,log,hlogged,hcount,hplain⟩ := Session.reachable_logged (fun _ => rfl) hfit h
  obtain ⟨rfl,hno⟩ := hplain hck
  obtain ⟨left,hleft,hpre⟩ := (hseg ▸ hlogged.files.whole).cut hlogged.files.fits n
  -- what is left is the log of an earlier state
  obtain ⟨h',hsuf,hl⟩ := hlogged.logs.of_prefix hpre
  obtain ⟨earlierOps,laterOps,m,rfl,hm,rfl,hlater⟩ := Session.earlier h nil_suffix hsuf
  have ha : Session.Allows .snapshotIsolation _ (earlierOps ++ laterOps) := Session.allows_runRules (fun _ => rfl)
  have hi := (ha.mono (subset_append_left _ _)).inv_run (Session.inv_init _ _) hm
  have hfull : ∀ {t c}, .committed t c ∈ m.history → ∀ k, lastWrite s.history t k = lastWrite m.history t k :=
    fun hc k => Session.lastWrite_committed_run (ha.mono (subset_append_right _ _)) hi hlater hc k
  obtain ⟨commits,hsorted,hmem⟩ := exists_commits hi.mvcc hl
  have hs := Session.reachable (fun _ => rfl) h
  have hfits : ∀ r ∈ left, r.Fits := fun r hr => hlogged.files.fits r (hpre.subset hr)
  have hplain' : ∀ r ∈ left, r.isCheckpoint = false := fun r hr => hno r (hpre.subset hr)
  have hbounded : ∀ r ∈ left, r.Bounded := fun r hr =>
    (hlogged.within r (hpre.subset hr)).bounded hs.sound.nextTxnId hs.sound.nextTs
      (fun htrue => by simp [hplain' r hr] at htrue)
  have hcount' : left.length < maxRecoveryRecords :=
    lt_of_le_of_lt (hpre.length_le.trans (by simpa using hcount)) hlen
  have hopen := open_left hi.mvcc rfl hl hplain' hleft hfits (hlogged.files.increasing.sublist hpre.sublist) hcount'
    hbounded hsorted hmem hfull
  obtain ⟨db,hdb,hdbseg,hver,hreplayed,hget⟩ := hopen OrdMap.empty Engine.versioned_empty (by simp)
  obtain ⟨db',hdb',_,_,_,hget'⟩ := hopen db.engine hver hreplayed
  refine ⟨db,commits,hdb,hsorted,fun t c => ?_,hget,hdbseg,db',hdbseg ▸ hdb',fun k hk => (hget' k hk).trans (hget k hk).symm⟩
  rw [hmem,CommitIn]
  exact exists_congr fun r => by rw [standsIn_iff hleft hfits]

end

/-- Two interleaved transactions; the cut leaves the commit record of the second
and half of that of the first. -/
theorem recovers_commits_left_inside : ∃ s db commits, run Session.step (.init .snapshotIsolation)
      [.begin .readWrite,.begin .readWrite,.put 1 [7] [1],.put 2 [8] [2],.commit 2,.commit 1] = some s ∧
    Database.openInner (s.db.wal.writer.closed ++ [(s.db.wal.writer.activeSegmentId,s.db.wal.writer.active.take 250)])
      OrdMap.empty .snapshotIsolation = some (.ok db) ∧
    db.get [7] = some (.ok (applyCommits s.history commits [7])) ∧ applyCommits s.history commits [7] = none ∧
    db.get [8] = some (.ok (applyCommits s.history commits [8])) ∧ applyCommits s.history commits [8] = some [2] := by
  simp only [exists_and_left]
  refine exists_observed (fun s => [[7],[8]].map (Database.openedRead (s.db.wal.writer.closed ++
      [(s.db.wal.writer.activeSegmentId,s.db.wal.writer.active.take 250)]) OrdMap.empty .snapshotIsolation))
    [some none,some (some [2])] (by decide +kernel) (fun s hs hh => ?_)
  obtain ⟨db,commits,hopen,_,_,hget,_⟩ := recovers_commits_left hs (by decide) (by decide) (by decide) rfl 250
  have h7 := hget [7] (by decide)
  have h8 := hget [8] (by decide)
  simp only [map_cons,Database.openedRead,hopen,bind_some,Except.toOption,h7,h8,cons.injEq,
    some.injEq] at hh
  exact ⟨db,hopen,commits,h7,hh.1,h8,hh.2.1⟩

/-- The records of one transaction with one write. -/
def beginRecord : LogRecord := ⟨0,1,Lsn.invalid,.begin⟩
def putRecord (value : Bytes) (old : Option Bytes) : LogRecord := ⟨1,1,0,.txnPut (mvccKey [1] 1) value old⟩
def commitRecord : LogRecord := ⟨2,1,1,.commit 2⟩
abbrev oneWrite (value : Bytes) (old : Option Bytes) : List LogRecord := [beginRecord,putRecord value old,commitRecord]

def Begun (s : Session) : Prop :=
  s.history = [.began 1 1] ∧ (s.db.mgr.lockManager.acquire 1 [1] .exclusive).2 = .ok () ∧
    s.db.mgr.activeTxns.lookup 1 = some ⟨.readWrite,0,1,⟨1⟩⟩ ∧
    (s.db.locked 1 [1]).checkWrite [1] 1 = some (.ok ()) ∧ s.db.mgr.nextTs = 2 ∧
    s.db.wal.writer.segments = [(0,beginRecord.bytes)] ∧ s.db.wal.writer.nextLsn = 1 ∧
    s.db.wal.writer.maxSegmentSize = defaultMaxSegmentSize

private instance (s : Session) : Decidable (Begun s) := by
  unfold Begun
  infer_instance

theorem begun : ∃ s, run Session.step (.init .snapshotIsolation) [.begin .readWrite] = some s ∧ Begun s := by
  exact exists_observed (fun s => decide (Begun s)) true (by decide +kernel) (fun s _ hb => of_decide_eq_true hb)

theorem size_put (v : Bytes) :
    (LogRecord.txnPut 1 0 (mvccKey [1] 1) (encodeMvccValue (.value 1 v)) none).size = 64 + v.length := by
  simp [LogRecord.txnPut,LogRecord.size,LogPayload.encode,encodeMvccValue,mvccKey,encodeOldValue,headerSize,
    crcSize]
  omega

def Written (v : Bytes) (db : Database) : Prop :=
  db.mgr.activeTxns.lookup 1 = some ⟨.readWrite,1,1,⟨1⟩⟩ ∧ db.mgr.nextTs = 2 ∧ db.wal.writer.nextLsn = 2 ∧
    db.wal.writer.maxSegmentSize = defaultMaxSegmentSize ∧ db.wal.writer.closed = [] ∧
    db.wal.writer.activeSegmentId = 0 ∧
    db.wal.writer.active = LogRecord.codec.frames [beginRecord,putRecord (encodeMvccValue (.value 1 v)) none]

theorem put_ok {s : Session} (hs : Begun s) (hv : v.length ≤ 2^20) :
    ∃ db, s.db.txnPut 1 [1] v = some (db,.ok ()) ∧ Written v db := by
  obtain ⟨_,hlock,hact,hcheck,hts,hseg,hlsn,hlimit⟩ := hs
  obtain ⟨hclosed,hactive⟩ : s.db.wal.writer.closed = [] ∧
      (s.db.wal.writer.activeSegmentId,s.db.wal.writer.active) = (0,beginRecord.bytes) := by
    simpa [WalWriter.segments,append_eq_cons_iff] using hseg
  obtain ⟨hid,hactive⟩ := Prod.mk.inj hactive
  have hlen : s.db.wal.writer.active.length = 33 := by
    rw [hactive,LogRecord.length_bytes]
    rfl
  refine ⟨_,Database.txnPut_ok hlock hact rfl hcheck (by decide) (Wal.append_eq (by simp [hlsn,u64Max]) ?_ ?_),?_,hts,
    ?_,hlimit,hclosed,hid,?_⟩
  · rw [size_put,maxRecordSize]
    omega
  · rw [size_put,hlen,hlimit,defaultMaxSegmentSize]
    omega
  · simp [TransactionManager.logged,hlsn]
  · simp [hlsn]
  · simp only [hactive,hlsn]
    simp [putRecord,LogRecord.txnPut,LogRecord.codec]

theorem commit_ok {db : Database} (hw : Written v db) (hv : v.length ≤ 2^20) :
    ∃ db', db.commitTxn 1 = some (db',.ok ()) ∧
      db'.wal.writer.segments = [(0,LogRecord.codec.frames (oneWrite (encodeMvccValue (.value 1 v)) none))] := by
  obtain ⟨hact,hts,hlsn,hlimit,hclosed,hid,hactive⟩ := hw
  have hroom : db.wal.writer.active.length ≤ 2^21 := by
    have hp : (putRecord (encodeMvccValue (.value 1 v)) none).size = 64 + v.length := size_put v
    have hb : beginRecord.size = 33 := rfl
    simp only [hactive,FrameCodec.frames,LogRecord.codec,flatMap_cons,flatMap_nil,length_append,
      LogRecord.length_bytes,hp,hb,length_nil]
    omega
  have hsize : (LogRecord.commit 1 1 db.mgr.nextTs).size = 41 := by
    simp [LogRecord.commit,LogRecord.size,LogPayload.encode,headerSize,crcSize]
  refine ⟨_,Database.commitTxn_ok hact rfl (hts.trans_lt (by decide)) (Wal.append_eq (by simp [hlsn,u64Max]) ?_ ?_),?_⟩
  · rw [hsize]
    decide
  · rw [hsize,hlimit,defaultMaxSegmentSize]
    omega
  · simp only [Wal.syncTo]
    split_ifs <;>
    simp [WalWriter.segments,Wal.sync,WalWriter.sync,hclosed,hid,hactive,hlsn,hts,commitRecord,LogRecord.commit,LogRecord.codec]

private theorem run_put (hv : v.length ≤ 2^20) :
    ∃ s, run Session.step (.init .snapshotIsolation) [.begin .readWrite,.put 1 [1] v,.commit 1] = some s ∧
      s.history = [.committed 1 2,.wrote 1 [1] (some v),.began 1 1] ∧
      s.db.wal.writer.segments =
        [(0,LogRecord.codec.frames (oneWrite (encodeMvccValue (.value 1 v)) none))] := by
  obtain ⟨s,hs,hb⟩ := begun
  obtain ⟨db,hput,hw⟩ := put_ok hb hv
  obtain ⟨db',hcommit,hseg⟩ := commit_ok hw hv
  obtain ⟨m,hm,hm'⟩ := run_cons_eq_some hs
  cases hm'
  have hput' : s.step (.put 1 [1] v) = some ⟨db,.wrote 1 [1] (some v) :: s.history⟩ := by
    simp [Session.step,Database.step,hput,Outcome.ofUnit,Database.events]
  have hcommit' : Session.step ⟨db,.wrote 1 [1] (some v) :: s.history⟩ (.commit 1) =
      some ⟨db',.committed 1 2 :: .wrote 1 [1] (some v) :: s.history⟩ := by
    simp [Session.step,Database.step,hcommit,Outcome.ofUnit,Database.events,hw.2.1]
  refine ⟨⟨db',.committed 1 2 :: .wrote 1 [1] (some v) :: s.history⟩,?_,by rw [hb.1],hseg⟩
  simp [run,hm,hput',hcommit']

private def stub : Bytes := 1 :: (toLeBytes 8 1 ++ toLeBytes 4 65536)

private theorem bytes_oversized (h : rest.length = 65533) :
    (putRecord (encodeMvccValue (.value 1 (1::254::255::rest))) none).bytes =
      (putRecord stub (some (rest ++ [0]))).bytes := by
  have hvalue : encodeField (encodeMvccValue (.value 1 (1::254::255::rest))) ++ [0] =
      encodeField stub ++ (1 :: encodeField (rest ++ [0])) := by
    have hlen : toLeBytes 2 (encodeMvccValue (.value 1 (1::254::255::rest))).length = toLeBytes 2 stub.length := by
      simp only [encodeMvccValue,length_cons,length_append,length_toLeBytes,h]
      decide
    have hold : toLeBytes 2 (rest ++ [0]).length = [254,255] := by
      simp only [length_append,length_singleton,h]
      decide
    have hcut : encodeMvccValue (.value 1 (1::254::255::rest)) = stub ++ (1::254::255::rest) := by
      simp [encodeMvccValue,stub,h]
    rw [encodeField,hlen,hcut,encodeField,encodeField,hold]
    simp
  have hpay : (putRecord (encodeMvccValue (.value 1 (1::254::255::rest))) none).payload.encode =
      (putRecord stub (some (rest ++ [0]))).payload.encode := by
    simp [putRecord,LogPayload.encode,encodeOldValue,hvalue]
  have hsize : (putRecord (encodeMvccValue (.value 1 (1::254::255::rest))) none).size =
      (putRecord stub (some (rest ++ [0]))).size := by rw [LogRecord.size,hpay,LogRecord.size]
  have hbody : (putRecord (encodeMvccValue (.value 1 (1::254::255::rest))) none).body =
      (putRecord stub (some (rest ++ [0]))).body := by
    rw [LogRecord.body,hsize,hpay]
    rfl
  rw [LogRecord.bytes,hbody,LogRecord.bytes]

private theorem get_stub (visible : Nat → Nat → Bool) :
    mvccGet (Engine.put OrdMap.empty (mvccKey [1] 1) stub) [1] visible =
      some (.error (.storageCorrupted "mvcc value data length mismatch")) := by
  rfl

private theorem stub_fits (hov : ov.length = 65534) :
    ∀ r ∈ oneWrite stub (some ov), r.Fits := by
  have hput : (putRecord stub (some ov)).Fits := by
    refine ⟨?_,?_,?_,⟨by decide,by decide,?_⟩,?_⟩
    · simp [putRecord,u64Max]
    · simp [putRecord,u64Max]
    · simp [putRecord]
    · intro x hx
      cases hx
      rw [hov]
      decide
    · simp [putRecord,LogRecord.size,LogPayload.encode,encodeOldValue,hov,mvccKey,stub,headerSize,crcSize,
        maxRecordSize]
  simp only [forall_mem_cons]
  exact ⟨by decide,hput,by decide,by simp⟩

private theorem open_stub (hov : ov.length = 65534) :
    ∃ db, Database.openInner [(0,LogRecord.codec.frames (oneWrite stub (some ov)))]
        OrdMap.empty .snapshotIsolation = some (.ok db) ∧
      db.get [1] = some (.error (.storageCorrupted "mvcc value data length mismatch")) := by
  have hbounded : ∀ r ∈ sinceCheckpoint (oneWrite stub (some ov)), r.Bounded := by
    change ∀ r ∈ oneWrite stub (some ov), r.Bounded
    simp [LogRecord.Bounded,beginRecord,putRecord,commitRecord,u64Max]
  have hleft : HoldTorn [(0,LogRecord.codec.frames (oneWrite stub (some ov)))]
      (oneWrite stub (some ov)) :=
    ⟨[],0,[],_,[],by rw [append_nil,nil_append],.nil,.inl rfl,rfl⟩
  obtain ⟨db,hopen,_,hr⟩ := Database.openInner_eq hleft (stub_fits hov) (by simp [beginRecord,putRecord,commitRecord])
    (by simp [maxRecoveryRecords]) hbounded OrdMap.empty .snapshotIsolation
  refine ⟨db,hopen,?_⟩
  have hengine : db.engine = Engine.put OrdMap.empty (mvccKey [1] 1) stub := hr.engine
  have hread : db.mgr.readView TxnId.autoCommit = .ok ⟨max db.mgr.nextTs db.mgr.checkpointTs⟩ := by
    simp [TransactionManager.readView,hr.policy]
  simp [Database.get,Database.txnGet,hread,hengine,get_stub]

private theorem lost_oversized (hrest : rest.length = 65533) : ∃ s db,
    run Session.step (.init .snapshotIsolation) [.begin .readWrite,.put 1 [1] (1::254::255::rest),.commit 1] = some s ∧
    CommitIn s.db.wal.writer.segments 1 2 ∧ applyCommits s.history [(1,2)] [1] = some (1::254::255::rest) ∧
    Database.openInner s.db.wal.writer.segments OrdMap.empty .snapshotIsolation = some (.ok db) ∧
    db.get [1] = some (.error (.storageCorrupted "mvcc value data length mismatch")) := by
  have hov : (rest ++ [0]).length = 65534 := by simp [hrest]
  obtain ⟨s,hs,hh,hseg⟩ := run_put (v := 1::254::255::rest) (by simp [hrest])
  obtain ⟨db,hopen,hget⟩ := open_stub hov
  have hframes : s.db.wal.writer.segments =
      [(0,LogRecord.codec.frames (oneWrite stub (some (rest ++ [0]))))] := by
    have hcodec : ∀ r, LogRecord.codec.encode r = r.bytes := fun _ => rfl
    simp [hseg,FrameCodec.frames_cons,hcodec,bytes_oversized hrest]
  refine ⟨s,db,hs,?_,?_,hframes ▸ hopen,hget⟩
  · exact ⟨commitRecord,⟨_,hframes ▸ mem_singleton_self _,[beginRecord,putRecord stub (some (rest ++ [0]))],[],
      by simp,stub_fits hov⟩,rfl,rfl⟩
  · simp [applyCommits,applyTxn,hh]

/-- A committed value of 65536 bytes is lost: its record keeps the low 16 bits of
its length, and the recovered version does not decode. -/
theorem recovery_loses_oversized_value : ∃ s db,
    run Session.step (.init .snapshotIsolation)
      [.begin .readWrite,.put 1 [1] (1::254::255::List.replicate 65533 0),.commit 1] = some s ∧
    CommitIn s.db.wal.writer.segments 1 2 ∧
    applyCommits s.history [(1,2)] [1] = some (1::254::255::List.replicate 65533 0) ∧
    Database.openInner s.db.wal.writer.segments OrdMap.empty .snapshotIsolation = some (.ok db) ∧
    db.get [1] = some (.error (.storageCorrupted "mvcc value data length mismatch")) :=
  lost_oversized length_replicate

end InterchangeDb
