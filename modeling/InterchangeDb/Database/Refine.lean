import InterchangeDb.Database.Calls
import InterchangeDb.Txn.GcSpec
import InterchangeDb.Wal.RecordCodec

/-! The database refines the machine of versions: each call, read through the view below, is a step of it. -/
namespace InterchangeDb
open List Option AList Function

namespace Database
variable {db : Database} {t : Nat} {k : Bytes} {txn : Transaction}

/-- The database as a state of the machine. -/
def view (db : Database) : MvccState where
  nextTxnId := db.mgr.nextTxnId
  nextTs := db.mgr.nextTs
  checkpointTs := db.mgr.checkpointTs
  active t := (db.mgr.activeTxns.lookup t).map (·.beginTs)
  committed t := db.mgr.committedTxns.lookup t
  uncommitted := ↑db.mgr.uncommittedTxns
  aborted := ↑db.mgr.abortedTxns
  version := db.engine.version
  holds := db.mgr.lockManager.Holds

structure Sound (db : Database) : Prop where
  versioned : db.engine.Versioned
  exclusive : db.mgr.lockManager.Exclusive
  nextTxnId : db.mgr.nextTxnId ≤ u64Max
  nextTs : db.mgr.nextTs ≤ u64Max
  active : ∀ {t txn}, db.mgr.activeTxns.lookup t = some txn →
    t < db.mgr.nextTxnId ∧ txn.beginTs < db.mgr.nextTs ∧ txn.snapshot.readTs = txn.beginTs

theorem Sound.unshared (hs : db.Sound) : Unshared db.view.holds := by
  rintro t t' k ⟨e,he,ht⟩ ⟨e',he',ht'⟩
  obtain rfl : e = e' := some.inj (he.symm.trans he')
  exact (hs.exclusive k e he).2.1 t ht t' ht'

theorem visible_iff (db : Database) (reader readTs writer ts : Nat) :
    db.mgr.visible reader ⟨readTs⟩ writer ts = true ↔ db.view.Visible reader readTs writer ts := by
  unfold TransactionManager.visible isVisible MvccState.Visible
  by_cases hown : writer = reader
  · simp [hown]
  · cases hc : db.mgr.committedTxns.lookup writer with
    | some c => simp [view,hown,hc]
    | none => simp [view,hown,hc,TransactionManager.knownNotCommitted,MvccState.notCommitted,and_assoc]

/-- The read path returns, and what it returns is supplied by the machine. -/
theorem txnFind_spec (hs : db.Sound) (hk : k.length ≤ u32Max) {readTs : Nat} (hr : db.mgr.readView t = .ok ⟨readTs⟩) :
    ∃ r, db.txnFind t k = some (.ok r) ∧ db.view.Supplies t readTs k r := by
  obtain ⟨r,hfind,hnew⟩ := mvccFind_spec hs.versioned hk (db.mgr.visible t ⟨readTs⟩)
  refine ⟨r,by simp only [txnFind,hr,hfind],?_⟩
  match r with
  | none =>
    intro ts v hv hvis
    have hf := hnew ts v hv
    rw [(visible_iff db t readTs v.txnId ts).mpr hvis] at hf
    cases hf
  | some (ts,v) =>
    obtain ⟨h1,h2,h3⟩ := hnew
    exact ⟨h1,(visible_iff ..).mp h2,fun ts' v' hv' hvis => h3 ts' v' hv' ((visible_iff ..).mpr hvis)⟩

theorem txnGet_eq (db : Database) (t : Nat) (k : Bytes) :
    db.txnGet t k = (db.txnFind t k).map (fun r => r.map (fun found => found.bind (·.2.data))) := by
  unfold txnGet txnFind
  cases db.mgr.readView t <;> rfl

private theorem scanVersions_chain {es : List (Bytes × Bytes)} {vs : List (Nat × MvccValue)}
    (h : Chain k es vs) : scanVersions k es = .ok (vs.map (fun x => ⟨x.2.txnId,x.1⟩)) := by
  induction h with
  | nil => rfl
  | cons ts v hk ht hv _ _ ih =>
    simp [scanVersions,decodeMvccKey_mvccKey hk ht,decodeMvccValue_encodeMvccValue hv,ih,Except.map]

/-- A writer committed after a snapshot. -/
def conflicts (db : Database) (beginTs writer : Nat) : Bool :=
  (db.mgr.committedTxns.lookup writer).any (fun c => decide (beginTs < c))

private theorem conflictingWriter_eq (db : Database) (beginTs : Nat) (vs : List (Nat × MvccValue)) :
    db.mgr.conflictingWriter beginTs (vs.map (fun x => ⟨x.2.txnId,x.1⟩)) =
      (vs.find? (fun x => db.conflicts beginTs x.2.txnId)).map (·.2.txnId) := by
  induction vs with
  | nil => rfl
  | cons x vs ih =>
    simp only [map_cons,TransactionManager.conflictingWriter,List.find?_cons,conflicts]
    cases hc : db.mgr.committedTxns.lookup x.2.txnId with
    | none => simpa [conflicts] using ih
    | some c =>
      by_cases hlt : beginTs < c
      · simp [hlt]
      · simpa [hlt,conflicts] using ih

/-- The write check names the newest version whose writer committed after the
snapshot; read committed does not look. -/
theorem checkWrite_spec (hs : db.Sound) (hk : k.length ≤ u32Max) (beginTs : Nat) :
    ∃ r, NewestVisible db.engine k (fun w _ => db.conflicts beginTs w) r ∧
      db.checkWrite k beginTs = some (match db.mgr.policy, r with
        | .snapshotIsolation, some x => .error (.writeConflict x.2.txnId)
        | _, _ => .ok ()) := by
  obtain ⟨es,vs,hscan,hc,hm⟩ := scanUserKey_chain hs.versioned hk
  refine ⟨_,hc.newest hm (fun w _ => db.conflicts beginTs w),?_⟩
  rw [checkWrite,hscan,map_some,scanVersions_chain hc]
  change some (db.mgr.onWrite (vs.map (fun x => ⟨x.2.txnId,x.1⟩)) beginTs) = _
  rw [TransactionManager.onWrite,conflictingWriter_eq]
  cases db.mgr.policy with
  | readCommitted => rfl
  | snapshotIsolation => cases vs.find? (fun x => db.conflicts beginTs x.2.txnId) <;> rfl

theorem checkWrite_ok (hs : db.Sound) (hk : k.length ≤ u32Max) {beginTs : Nat}
    (hok : db.checkWrite k beginTs = some (.ok ())) (hsi : db.mgr.policy = .snapshotIsolation) {ts c : Nat}
    {w : MvccValue} (hw : db.view.version k ts = some w) (hc : db.view.committed w.txnId = some c) :
    c ≤ beginTs := by
  obtain ⟨r,hr,hcheck⟩ := checkWrite_spec hs hk beginTs
  rw [hok,hsi] at hcheck
  match r with
  | some x => cases hcheck
  | none =>
    have hno := hr ts w hw
    simp only [conflicts,show db.mgr.committedTxns.lookup w.txnId = some c from hc,any_some,
      decide_eq_false_iff_not,not_lt] at hno
    exact hno

theorem oldestActive_le (m : TransactionManager) (d : Nat)
    (h : m.activeTxns.lookup t = some txn) : m.oldestActive d ≤ txn.beginTs := by
  have hmem : txn.beginTs ∈ m.activeReadTimestamps :=
    mem_map.mpr ⟨⟨t,txn⟩,mem_lookup_iff.mp h,rfl⟩
  unfold TransactionManager.oldestActive
  cases hm : m.activeReadTimestamps.min? with
  | none =>
    rw [min?_eq_none_iff.mp hm] at hmem
    simp at hmem
  | some b => exact (min?_eq_some_iff.mp hm).2 _ hmem

theorem oldestActive_mem (m : TransactionManager) (d : Nat) :
    m.oldestActive d = d ∨ ∃ t txn, m.activeTxns.lookup t = some txn ∧ m.oldestActive d = txn.beginTs := by
  unfold TransactionManager.oldestActive
  cases hm : m.activeReadTimestamps.min? with
  | none => exact .inl rfl
  | some b =>
    obtain ⟨⟨t,txn⟩,hmem,hb⟩ := mem_map.mp (min?_eq_some_iff.mp hm).1
    exact .inr ⟨t,txn,mem_lookup_iff.mpr hmem,hb.symm⟩

theorem locked_sound (hs : db.Sound) (t : Nat) (k : Bytes) : (db.locked t k).Sound :=
  ⟨hs.versioned,(LockState.acquire_exclusive hs.exclusive t k).1,hs.nextTxnId,hs.nextTs,hs.active⟩

private theorem active_erase (db : Database) (t : Nat) :
    (fun t' => ((db.mgr.activeTxns.erase t).lookup t').map (·.beginTs)) =
      Function.update db.view.active t none := by
  funext t'
  rw [update_apply,lookup_erase_eq]
  split_ifs <;> rfl

private theorem view_active (hact : db.mgr.activeTxns.lookup t = some txn) :
    db.view.active t = some txn.beginTs := by
  change (db.mgr.activeTxns.lookup t).map _ = _
  rw [hact]
  rfl

private theorem isCommitted_iff (db : Database) (writer ts : Nat) :
    db.gcView.isCommitted writer ts = true ↔ db.view.CountsCommitted writer ts := by
  rw [GcView.isCommitted_iff]
  simp [gcView,MvccState.CountsCommitted,MvccState.notCommitted,view,
    TransactionManager.knownNotCommitted,Finset.mem_union,Set.mem_union]

private theorem reclaims_iff (db : Database) (k : Bytes) (ts : Nat) (v : MvccValue) :
    db.gcView.Reclaims db.engine.version k ts v ↔ db.view.Reclaimed db.lowWaterMark k ts v := by
  unfold GcView.Reclaims MvccState.Reclaimed
  simp only [← Bool.not_eq_true,isCommitted_iff]
  rfl

theorem gc_version (hs : db.Sound) (k : Bytes) (ts : Nat) (v : MvccValue) :
    db.gc.1.view.version k ts = some v ↔
      db.view.version k ts = some v ∧ ¬ db.view.Reclaimed db.lowWaterMark k ts v := by
  rw [← reclaims_iff]
  exact (gcCollect_spec hs.versioned db.gcView).2 k ts v

theorem lowWaterMark_le (hs : db.Sound) : db.lowWaterMark ≤ db.mgr.nextTs := by
  rcases oldestActive_mem db.mgr db.mgr.nextTs with heq | ⟨t,txn,htxn,heq⟩
  · exact heq.le
  · exact heq.le.trans (hs.active htxn).2.1.le

theorem lowWaterMark_oldest (db : Database) (t b : Nat) (ht : db.view.active t = some b) : db.lowWaterMark ≤ b := by
  obtain ⟨txn,htxn,rfl⟩ := map_eq_some_iff.mp ht
  exact oldestActive_le db.mgr _ htxn

private theorem gc_refines {rules : Rules} (hs : db.Sound) (hallowed : rules.collects) :
    db.gc.1.Sound ∧ db.gc.1.mgr.policy = db.mgr.policy ∧ MvccStep rules db.view [] db.gc.1.view := by
  have hver := (gcCollect_spec hs.versioned db.gcView).1
  refine ⟨⟨hver,hs.exclusive,hs.nextTxnId,hs.nextTs,hs.active⟩,rfl,?_⟩
  refine .gc db.lowWaterMark db.gc.1.view.version db.gc.1.view.aborted hallowed (lowWaterMark_le hs)
    (lowWaterMark_oldest db) (gc_version hs) ?_
  intro t
  have hmem := mem_stillPresent hver db.mgr.abortedTxns t
  simp only [view,gc,TransactionManager.removeAbortedTxns,Finset.mem_coe,Finset.mem_sdiff,hmem]
  constructor
  · rintro ⟨hab,hno⟩
    by_contra hc
    exact hno ⟨hab,hc⟩
  · intro hh
    exact ⟨hh.1,fun hno => hno.2 hh⟩

section Steps

variable [Crc32] {rules : Rules} {db db' : Database}
variable {r : Except Error Unit} {lsn t : Nat} {v : MvccValue} {k : Bytes} {txn : Transaction}

private theorem append_size {w w' : Wal} {r : LogRecord} (h : w.append r = some (w',lsn)) :
    r.size ≤ maxRecordSize := by
  by_contra hbig
  have hnone : ∀ l, LogRecord.encode { r with lsn := l } = none := fun l => if_neg hbig
  unfold Wal.append WalWriter.append at h
  split_ifs at h <;> simp [hnone] at h

omit [Crc32] in
theorem began_refines (hs : db.Sound) (hid : db.mgr.nextTxnId < u64Max) (hts : db.mgr.nextTs < u64Max)
    (mode : TxnMode) (wal : Wal) (lsn : Nat) : let db' : Database := { db with wal, mgr := db.mgr.started mode lsn }
    db'.Sound ∧ MvccStep rules db.view [.began db.mgr.nextTxnId db.mgr.nextTs] db'.view := by
  refine ⟨⟨hs.versioned,hs.exclusive,hid,hts,?_⟩,?_⟩
  · intro t txn ht
    rcases lookup_insert_cases ht with ⟨rfl,rfl⟩ | ⟨-,hold⟩
    · exact ⟨Nat.lt_succ_self _,Nat.lt_succ_self _,rfl⟩
    · obtain ⟨h1,h2,h3⟩ := hs.active hold
      exact ⟨Nat.lt_succ_of_lt h1,Nat.lt_succ_of_lt h2,h3⟩
  · have hview : ({ db with wal, mgr := db.mgr.started mode lsn } : Database).view = { db.view with
        nextTxnId := db.view.nextTxnId + 1
        nextTs := db.view.nextTs + 1
        active := update db.view.active db.view.nextTxnId (some db.view.nextTs) } := by
      refine MvccState.ext rfl rfl rfl ?_ rfl rfl rfl rfl rfl
      funext t
      simp only [view,TransactionManager.started]
      rw [update_apply,lookup_insert_eq]
      split_ifs <;> rfl
    rw [hview]
    exact .begin

private theorem encodable_of_logged {lsn' : Nat} {mk : Bytes} {w w' : Wal}
    (hid : v.txnId ≤ u64Max) (h : w.append (.txnPut t lsn mk (encodeMvccValue v) none) = some (w',lsn')) :
    v.Encodable := by
  refine ⟨hid,?_⟩
  intro d hd
  have hsize := append_size h
  cases v with
  | tombstone => cases hd
  | value t' d' =>
    cases hd
    simp only [LogRecord.size,LogRecord.txnPut,LogPayload.encode,encodeMvccValue,maxRecordSize,
      length_append,length_encodeField,length_cons,length_toLeBytes] at hsize
    unfold u32Max
    omega

section

variable (hs : db.Sound)
include hs

/-- What a write through an engine handle does to the machine's state, whoever holds which lock. -/
theorem write_view (hown : v.txnId = t) (h : db.write t k v = some (db',r)) :
    (∃ e, r = .error e ∧ db' = db) ∨
    ∃ b, r = .ok () ∧ db.view.active t = some b ∧ db'.Sound ∧ db'.mgr.policy = db.mgr.policy ∧
      (db.mgr.policy = .snapshotIsolation →
        ∀ ts w c, db.view.version k ts = some w → db.view.committed w.txnId = some c → c ≤ b) ∧
      db'.view = { db.view with version := fun k' ts => if k' = k ∧ ts = b then some v else db.view.version k' ts } := by
  rcases write_cases h with ⟨e,rfl,rfl⟩ | ⟨txn,wal,lsn,rfl,hact,_,hcheck,hk,happ,rfl⟩
  · exact .inl ⟨e,rfl,rfl⟩
  · obtain ⟨hid,hts,hsnap⟩ := hs.active hact
    have hb : txn.beginTs ≤ u64Max := (lt_of_lt_of_le hts hs.nextTs).le
    have hv : v.Encodable := encodable_of_logged (hown ▸ (lt_of_lt_of_le hid hs.nextTxnId).le) happ
    have hlook : ∀ t', (db.mgr.logged t txn lsn).activeTxns.lookup t' =
        if t' = t then some { txn with lastLsn := lsn } else db.mgr.activeTxns.lookup t' := fun t' => lookup_insert_eq ..
    refine .inr ⟨txn.beginTs,rfl,view_active hact,⟨hs.versioned.put hk hb hv,hs.exclusive,hs.nextTxnId,hs.nextTs,?_⟩,rfl,
      fun hpol ts w c hver hcom => checkWrite_ok hs hk hcheck hpol hver hcom,?_⟩
    · intro t' txn' ht'
      rw [hlook] at ht'
      split_ifs at ht' with heq
      · cases ht'
        exact ⟨heq ▸ hid,hts,hsnap⟩
      · exact hs.active ht'
    · refine MvccState.ext rfl rfl rfl ?_ rfl rfl rfl ?_ rfl
      · funext t'
        simp only [view,hlook]
        split_ifs with heq
        · subst heq
          rw [hact]
          rfl
        · rfl
      · funext k' ts
        exact Engine.version_put _ hk hb hv k' ts

section

variable (hpol : rules.checked → db.mgr.policy = .snapshotIsolation) (hown : v.txnId = t)
include hpol hown

theorem write_refines {f : Bytes → Bytes} (hheld : db.view.holds t (f k)) (h : db.write t k v = some (db',r)) :
    db'.Sound ∧ db'.mgr.policy = db.mgr.policy ∧
      MvccStep rules (db.view.relock f) (match r with
        | .ok _ => [.wrote t k v.data]
        | .error _ => []) (db'.view.relock f) := by
  have hun : Unshared (db.view.relock f).holds := fun t t' q => hs.unshared t t' (f q)
  rcases write_view hs hown h with ⟨e,rfl,rfl⟩ | ⟨b,rfl,hact,hs',hp,hcheck,hview⟩
  · exact ⟨hs,rfl,.quiet _ hun (fun _ _ hh => hh)⟩
  · refine ⟨hs',hp,?_⟩
    rw [hview]
    exact .write t b k v _ hact hown hheld hun (fun _ _ hh => hh) (fun hc => hcheck (hpol hc))

private theorem wrote_refines
    (hlock : (db.mgr.lockManager.acquire t k .exclusive).2 = .ok ()) (hw : (db.locked t k).write t k v = some (db',.ok ())) :
    db'.Sound ∧ db'.mgr.policy = db.mgr.policy ∧ MvccStep rules db.view [.wrote t k v.data] db'.view := by
  obtain ⟨hex,hkept,hgot⟩ := LockState.acquire_exclusive hs.exclusive t k
  have hls := locked_sound hs t k
  rcases write_view hls hown hw with ⟨e,hr,-⟩ | ⟨b,-,hact,hs',hp,hcheck,hview⟩
  · cases hr
  · refine ⟨hs',hp,?_⟩
    rw [hview]
    exact .write t b k v (db.locked t k).view.holds hact hown (hgot hlock).1 hls.unshared hkept
      (fun hc => hcheck (hpol hc))

end

omit [Crc32] in
private theorem committed_refines (hact : db.mgr.activeTxns.lookup t = some txn) (hts : db.mgr.nextTs < u64Max)
    (wal : Wal) : let db' : Database := { db with wal, mgr := db.mgr.committed t }
    db'.Sound ∧ MvccStep rules db.view [.committed t db.mgr.nextTs] db'.view := by
  obtain ⟨hex,hkept⟩ := LockState.releaseAll_spec hs.exclusive t
  have hsound : ({ db with wal, mgr := db.mgr.committed t } : Database).Sound := by
    refine ⟨hs.versioned,hex,hs.nextTxnId,hts,?_⟩
    intro t' txn' ht'
    obtain ⟨h1,h2,h3⟩ := hs.active (lookup_erase_cases ht').2
    exact ⟨h1,Nat.lt_succ_of_lt h2,h3⟩
  refine ⟨hsound,?_⟩
  have hview : ({ db with wal, mgr := db.mgr.committed t } : Database).view = { db.view with
      nextTs := db.view.nextTs + 1
      committed := update db.view.committed t (some db.view.nextTs)
      active := update db.view.active t none
      holds := (db.mgr.committed t).lockManager.Holds } := by
    refine MvccState.ext rfl rfl rfl (active_erase db t) ?_ rfl rfl rfl rfl
    funext t'
    exact (lookup_insert_eq ..).trans (update_apply db.view.committed t _ t').symm
  rw [hview]
  exact .commit t txn.beginTs _ (view_active hact) hsound.unshared hkept

omit [Crc32] in
private theorem aborted_refines (hact : db.mgr.activeTxns.lookup t = some txn) (wal : Wal) :
    let db' : Database := { db with wal, mgr := db.mgr.aborted t }
    db'.Sound ∧ MvccStep rules db.view [.aborted t] db'.view := by
  obtain ⟨hex,hkept⟩ := LockState.releaseAll_spec hs.exclusive t
  have hsound : ({ db with wal, mgr := db.mgr.aborted t } : Database).Sound := by
    refine ⟨hs.versioned,hex,hs.nextTxnId,hs.nextTs,?_⟩
    exact fun ht' => hs.active (lookup_erase_cases ht').2
  refine ⟨hsound,?_⟩
  have hstep : MvccStep rules db.view _ _ :=
    .abort t txn.beginTs (db.mgr.aborted t).lockManager.Holds (view_active hact) hsound.unshared hkept
  convert hstep using 1
  exact MvccState.ext rfl rfl rfl (active_erase db t) rfl rfl (Finset.coe_insert _ _) rfl rfl

private theorem checkpoint_refines (hallowed : rules.checkpoints) (h : db.checkpoint = some (db',r)) :
    db'.Sound ∧ db'.mgr.policy = db.mgr.policy ∧ MvccStep rules db.view [] db'.view := by
  obtain ⟨w,lsn,rfl,_,rfl⟩ := checkpoint_cases h
  refine ⟨⟨hs.versioned,hs.exclusive,hs.nextTxnId,hs.nextTs,hs.active⟩,rfl,?_⟩
  have hstep : MvccStep rules db.view _ _ := .checkpoint db.pruneBound hallowed (min_le_right _ _) (by
    intro t b hb
    obtain ⟨txn,htxn,rfl⟩ := map_eq_some_iff.mp hb
    exact le_trans (min_le_left _ _) (oldestActive_le db.mgr _ htxn))
  convert hstep using 1
  refine MvccState.ext rfl rfl rfl rfl ?_ rfl rfl rfl rfl
  funext t
  apply Option.ext
  intro c
  rw [filter_eq_some_iff]
  exact lookup_retain _ _ t c

theorem step_refines (hpol : rules.checked → db.mgr.policy = .snapshotIsolation) {op : Op}
    (hck : op = .checkpoint → rules.checkpoints) (hgc : op = .gc → rules.collects) {out : Outcome}
    (h : db.step op = some (db',out)) :
    db'.Sound ∧ db'.mgr.policy = db.mgr.policy ∧ MvccStep rules db.view (db.events op out) db'.view := by
  cases step_called h with
  | same _ hev =>
    rw [hev]
    exact ⟨hs,rfl,.quiet _ hs.unshared (fun _ _ hh => hh)⟩
  | locked e _ =>
    rw [events_failed]
    exact ⟨locked_sound hs _ _,rfl,.quiet _ (locked_sound hs _ _).unshared (LockState.acquire_exclusive hs.exclusive _ _).2.1⟩
  | began hid hts _ =>
    obtain ⟨hsound,hstep⟩ := began_refines hs hid hts _ _ _
    exact ⟨hsound,rfl,hstep⟩
  | wrote hop hlock hw =>
    obtain ⟨hown,hev⟩ := Op.write_eq hop
    rw [hev]
    exact wrote_refines hs hpol hown hlock hw
  | committed hact hts _ =>
    obtain ⟨hsound,hstep⟩ := committed_refines hs hact hts _
    exact ⟨hsound,rfl,hstep⟩
  | aborted hact _ =>
    obtain ⟨hsound,hstep⟩ := aborted_refines hs hact _
    exact ⟨hsound,rfl,hstep⟩
  | checkpoint hr => exact checkpoint_refines hs (hck rfl) hr
  | gc => exact gc_refines hs (hgc rfl)

end

end Steps

end Database
end InterchangeDb
