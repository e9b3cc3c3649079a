import InterchangeDb.Database.Logs
import InterchangeDb.Database.Reachable

/-! Every run keeps its log and its history in step. -/
namespace InterchangeDb
open List Option

/-- What a call writes fits the 16-bit lengths of its record: the version key has
12 bytes more than the user key, the version 13 more than the value. -/
def Op.Fits : Op → Prop
  | .put _ k v => k.length + 12 ≤ u16Max ∧ v.length + 13 ≤ u16Max
  | .delete _ k => k.length + 12 ≤ u16Max
  | _ => True

instance (op : Op) : Decidable op.Fits := by
  cases op <;> unfold Op.Fits <;> infer_instance

theorem encodable_of_length {v : MvccValue} (hid : v.txnId ≤ u64Max) (hlen : (encodeMvccValue v).length ≤ u16Max) :
    v.Encodable := by
  refine ⟨hid,fun d hd => ?_⟩
  cases v with
  | tombstone => cases hd
  | value t' d' =>
    cases hd
    simp only [encodeMvccValue,length_cons,length_append,u16Max] at hlen
    unfold u32Max
    omega

theorem Op.Fits.write {op : Op} (h : op.Fits) {t : Nat} {k : Bytes} {v : MvccValue} (hop : op.write? = some (t,k,v)) :
    k.length + 12 ≤ u16Max ∧ (encodeMvccValue v).length ≤ u16Max := by
  cases op with
  | put t' k' d =>
    cases hop
    refine ⟨h.1,?_⟩
    have := h.2
    simp only [encodeMvccValue,length_cons,length_append,length_toLeBytes]
    omega
  | delete t' k' =>
    cases hop
    exact ⟨h,by simp [encodeMvccValue,u16Max]⟩
  | begin | get | commit | abort | checkpoint | gc => cases hop

/-- The begin timestamp in the version key of a write. -/
def LogRecord.beginTs? (r : LogRecord) : Option Nat :=
  match r.payload with
  | .txnPut key _ _ | .txnDelete key _ => (decodeMvccKey key).toOption.map Prod.snd
  | _ => none

/-- All numbers of a record were drawn before these. -/
def LogRecord.Below (r : LogRecord) (nextTxnId nextTs : Nat) : Prop :=
  r.Within nextTxnId nextTs ∧ ∀ ts, r.beginTs? = some ts → ts < nextTs

theorem LogRecord.Below.mono {r : LogRecord} {n ts n' ts' : Nat} (h : r.Below n ts) (hn : n ≤ n') (hts : ts ≤ ts') :
    r.Below n' ts' :=
  ⟨h.1.mono hn hts,fun b hb => (h.2 b hb).trans_le hts⟩

section Calls
variable [Crc32] {db db' : Database} {log : List LogRecord}

theorem append_files {w w' : Wal} (h : w.writer.Files log) {r : LogRecord} {lsn : Nat}
    (hid : r.txnId ≤ u64Max) (hprev : r.prevLsn ≤ u64Max) (hpay : r.payload.Fits) (ha : w.append r = some (w',lsn)) :
    lsn ≤ u64Max ∧ w'.writer.Files (log ++ [{ r with lsn }]) := by
  obtain ⟨⟨writer,lsn'⟩,hwr,heq⟩ := bind_eq_some_iff.mp ha
  cases heq
  have hbounds := WalWriter.append_bounds hwr
  obtain ⟨rfl,hfiles⟩ := h.append ⟨hbounds.1,hid,hprev,hpay,hbounds.2⟩ hwr
  exact ⟨hbounds.1.le,hfiles⟩

theorem syncTo_files {w : Wal} (h : w.writer.Files log) (lsn : Nat) :
    (w.syncTo lsn).writer.Files log := by
  unfold Wal.syncTo
  split_ifs
  · exact h
  · exact h.sync

omit [Crc32] in
theorem activeTxnIds_lt (hs : db.Sound) : ∀ i ∈ db.mgr.activeTxnIds, i < db.mgr.nextTxnId := by
  intro i hmem
  obtain ⟨⟨t,txn⟩,hentry,rfl⟩ := mem_map.mp hmem
  exact (hs.active (AList.mem_lookup_iff.mpr hentry)).1

/-- A checkpoint ends the log with its record, and drops some of the records before. -/
theorem checkpoint_files {db' : Database} (hs : db.Sound) (hf : db.wal.writer.Files log)
    {r : Except Error Unit} (h : db.checkpoint = some (db',r)) :
    ∃ dropped front record, db'.wal.writer.Files (front ++ [record]) ∧ dropped ++ front = log ∧ record.txnId = 0 ∧
      record.payload = .checkpoint db.mgr.activeTxnIds db.mgr.nextTs db.mgr.nextTxnId := by
  obtain ⟨w,lsn,_,ha,rfl⟩ := Database.checkpoint_cases h
  obtain ⟨⟨writer,lsn'⟩,hwr,heq⟩ := bind_eq_some_iff.mp ha
  cases heq
  obtain ⟨closed,active,rfl,hh⟩ := hf
  have hbounds := WalWriter.append_bounds hwr
  have hpay : (LogPayload.checkpoint db.mgr.activeTxnIds db.mgr.nextTs db.mgr.nextTxnId).Fits := by
    refine ⟨?_,fun i hmem => (lt_of_lt_of_le (activeTxnIds_lt hs i hmem) hs.nextTxnId).le,hs.nextTs,hs.nextTxnId⟩
    have hsize := hbounds.2
    simp only [LogRecord.size,LogRecord.checkpoint,LogPayload.encode,length_append,length_toLeBytes,
      length_flatMap,map_const',sum_replicate,maxRecordSize] at hsize
    simp only [smul_eq_mul] at hsize
    unfold u32Max
    omega
  set record : LogRecord := { LogRecord.checkpoint db.mgr.activeTxnIds db.mgr.nextTs db.mgr.nextTxnId with
    lsn := db.wal.writer.nextLsn } with hrecord
  have hfits : record.Fits := ⟨hbounds.1,Nat.zero_le _,le_rfl,hpay,hbounds.2⟩
  obtain ⟨rfl,hcases⟩ := hh.append hfits hwr
  obtain ⟨closed',front,heq,hh'⟩ : ∃ closed' front, closed' ++ front = closed ++ active ∧
      writer.Holds closed' (front ++ [record]) [] := by
    rcases hcases with ⟨_,hh'⟩ | ⟨_,hh'⟩
    · exact ⟨closed,active,rfl,hh'⟩
    · exact ⟨closed ++ active,[],append_nil _,hh'⟩
  have hmem : record ∈ front ++ [record] := mem_append_right _ (mem_singleton_self _)
  -- the records of the closed segments precede the checkpoint record
  have hlt : ∀ r ∈ closed', r.lsn < db.wal.writer.nextLsn := by
    intro r hr
    exact (pairwise_append.mp hh'.increasing).2.2 r hr record hmem
  refine ⟨closed',front,record,⟨[],_,rfl,?_⟩,heq,rfl,rfl⟩
  exact .truncateBefore (w := .sync ⟨writer,db.wal.lastCheckpointLsn,db.wal.syncedLsn⟩)
    hh'.sync hlt hbounds.1.le

namespace Database
variable {op : Op} {out : Outcome}

/-- The files hold the records, and every transaction knows a place among them. -/
structure Filed (db : Database) (log : List LogRecord) : Prop where
  files : db.wal.writer.Files log
  lastLsn : ∀ {t txn}, db.mgr.activeTxns.lookup t = some txn → txn.lastLsn ≤ u64Max

omit [Crc32] in
/-- The records a call adds to the log. -/
inductive Adds (db : Database) : Op → Outcome → List LogRecord → Prop
  | none {op : Op} {out : Outcome} (events : db.events op out = []) : Adds db op out []
  | beganReader : Adds db (.begin .readOnly) (.began db.mgr.nextTxnId) []
  | began {r : LogRecord} (id : r.txnId = db.mgr.nextTxnId) (payload : r.payload = .begin) :
      Adds db (.begin .readWrite) (.began db.mgr.nextTxnId) [r]
  | wrote {op : Op} {t : Nat} {k : Bytes} {v : MvccValue} {txn : Transaction} {r : LogRecord} (op_eq : op.write? = some (t,k,v))
      (active : db.mgr.activeTxns.lookup t = some txn) (key : k.length ≤ u32Max) (value : v.Encodable) (id : r.txnId = t)
      (payload : r.payload = .txnPut (mvccKey k txn.beginTs) (encodeMvccValue v) Option.none) : Adds db op .done [r]
  | committedReader {t : Nat} {txn : Transaction} (active : db.mgr.activeTxns.lookup t = some txn) (mode : txn.mode = .readOnly) :
      Adds db (.commit t) .done []
  | committed {t : Nat} {txn : Transaction} {r : LogRecord} (active : db.mgr.activeTxns.lookup t = some txn) (id : r.txnId = t)
      (payload : r.payload = .commit db.mgr.nextTs) : Adds db (.commit t) .done [r]
  | aborted {t : Nat} {txn : Transaction} {r : LogRecord} (active : db.mgr.activeTxns.lookup t = some txn) (id : r.txnId = t)
      (payload : r.payload = .abort) : Adds db (.abort t) .done [r]

/-- Every call other than a checkpoint adds its records behind the log. -/
theorem Called.filed (h : db.Called op out db') (hs : db.Sound) (hf : db.Filed log) (hop : op.Fits) (hck : op ≠ .checkpoint) :
    ∃ added, db'.Filed (log ++ added) ∧ db.Adds op out added ∧ ∀ r ∈ added, r.Below db'.mgr.nextTxnId db'.mgr.nextTs := by
  have hid : ∀ {t txn}, db.mgr.activeTxns.lookup t = some txn → t ≤ u64Max :=
    fun hact => ((hs.active hact).1.trans_le hs.nextTxnId).le
  have hnone : ∀ {d : Database}, d.wal = db.wal → (∀ {t txn}, d.mgr.activeTxns.lookup t = some txn → txn.lastLsn ≤ u64Max) →
      d.Filed (log ++ []) := fun hw hl => ⟨by rw [append_nil,hw]; exact hf.files,hl⟩
  have herase : ∀ {t t' txn}, (db.mgr.activeTxns.erase t).lookup t' = some txn → txn.lastLsn ≤ u64Max :=
    fun ht => hf.lastLsn (lookup_erase_cases ht).2
  cases h with
  | same _ hev => exact ⟨[],hnone rfl hf.lastLsn,.none hev,by simp⟩
  | locked e _ => exact ⟨[],hnone rfl hf.lastLsn,.none (db.events_failed op e),by simp⟩
  | gc => exact ⟨[],hnone rfl hf.lastLsn,.none rfl,by simp⟩
  | checkpoint => exact (hck rfl).elim
  | @began mode wal lsn hid hts hlog =>
    have hclients : lsn ≤ u64Max → ∀ {t txn}, (db.mgr.started mode lsn).activeTxns.lookup t = some txn → txn.lastLsn ≤ u64Max := by
      intro hlsn t txn ht
      rcases lookup_insert_cases ht with ⟨-,rfl⟩ | ⟨-,hold⟩
      · exact hlsn
      · exact hf.lastLsn hold
    rcases hlog with ⟨rfl,rfl,rfl⟩ | ⟨rfl,ha⟩
    · exact ⟨[],hnone rfl (hclients le_rfl),.beganReader,by simp⟩
    · obtain ⟨hlsn,hfiles⟩ := append_files (r := .begin db.mgr.nextTxnId) hf.files hid.le le_rfl trivial ha
      refine ⟨[_],⟨hfiles,hclients hlsn⟩,.began rfl rfl,fun r hr => ?_⟩
      rw [mem_singleton.mp hr]
      exact ⟨⟨Nat.lt_succ_self _,trivial⟩,fun _ h => by cases h⟩
  | @wrote _ t k v _ heq hlock hw =>
    obtain ⟨hkey,hvalue⟩ := hop.write heq
    rcases write_cases hw with ⟨e,hr,-⟩ | ⟨txn,wal,lsn,-,hact,-,-,hk,ha,rfl⟩
    · cases hr
    have hact' : db.mgr.activeTxns.lookup t = some txn := hact
    obtain ⟨hlt,hts,-⟩ := hs.active hact'
    have hpay : (LogPayload.txnPut (mvccKey k txn.beginTs) (encodeMvccValue v) Option.none).Fits := by
      refine ⟨?_,hvalue,by simp⟩
      simp only [mvccKey,length_append,length_toBeBytes]
      omega
    obtain ⟨hlsn,hfiles⟩ := append_files hf.files (hid hact') (hf.lastLsn hact') hpay ha
    refine ⟨[_],⟨hfiles,fun ht => ?_⟩,.wrote heq hact' hk (encodable_of_length ((Op.write_eq heq).1 ▸ hid hact') hvalue) rfl rfl,
      fun r hr => ?_⟩
    · rcases lookup_insert_cases ht with ⟨-,rfl⟩ | ⟨-,hold⟩
      · exact hlsn
      · exact hf.lastLsn hold
    · rw [mem_singleton.mp hr]
      refine ⟨⟨hlt,trivial⟩,fun ts hstamp => ?_⟩
      change (decodeMvccKey (mvccKey k txn.beginTs)).toOption.map Prod.snd = some ts at hstamp
      rw [decodeMvccKey_mvccKey hk (hts.trans_le hs.nextTs).le] at hstamp
      cases hstamp
      exact hts
  | @committed t txn wal hact hts hlog =>
    rcases hlog with ⟨hmode,rfl⟩ | ⟨-,w,lsn,ha,rfl⟩
    · exact ⟨[],hnone rfl herase,.committedReader hact hmode,by simp⟩
    · obtain ⟨-,hfiles⟩ := append_files (r := .commit t txn.lastLsn db.mgr.nextTs) hf.files (hid hact) (hf.lastLsn hact) hts.le ha
      refine ⟨[_],⟨syncTo_files hfiles lsn,herase⟩,.committed hact rfl rfl,fun r hr => ?_⟩
      rw [mem_singleton.mp hr]
      exact ⟨⟨(hs.active hact).1,Nat.lt_succ_self _⟩,fun _ h => by cases h⟩
  | @aborted t txn w lsn hact ha =>
    obtain ⟨-,hfiles⟩ := append_files (r := .abort t txn.lastLsn) hf.files (hid hact) (hf.lastLsn hact) trivial ha
    refine ⟨[_],⟨syncTo_files hfiles lsn,herase⟩,.aborted hact rfl rfl,fun r hr => ?_⟩
    rw [mem_singleton.mp hr]
    exact ⟨⟨(hs.active hact).1,trivial⟩,fun _ h => by cases h⟩

omit [Crc32] in
theorem Adds.not_checkpoint {added : List LogRecord} (h : db.Adds op out added) : ∀ r ∈ added, r.isCheckpoint = false := by
  intro r hr
  cases h with
  | none | beganReader | committedReader => cases hr
  | began _ payload | wrote _ _ _ _ _ payload | committed _ _ payload | aborted _ _ payload =>
    rw [mem_singleton.mp hr]
    simp [LogRecord.isCheckpoint,payload,LogPayload.recordType]

theorem Called.numbers_le (h : db.Called op out db') : db.mgr.nextTxnId ≤ db'.mgr.nextTxnId ∧ db.mgr.nextTs ≤ db'.mgr.nextTs := by
  cases h with
  | same | locked | gc => exact ⟨le_rfl,le_rfl⟩
  | began => exact ⟨Nat.le_succ _,Nat.le_succ _⟩
  | committed => exact ⟨le_rfl,Nat.le_succ _⟩
  | aborted => exact ⟨le_rfl,le_rfl⟩
  | wrote _ _ hw => rcases write_cases hw with ⟨_,_,rfl⟩ | ⟨_,_,_,_,_,_,_,_,_,rfl⟩ <;> exact ⟨le_rfl,le_rfl⟩
  | checkpoint hr =>
    obtain ⟨_,_,_,-,rfl⟩ := checkpoint_cases hr
    exact ⟨le_rfl,le_rfl⟩

end Database

end Calls

namespace Session

variable [Crc32]
variable {policy : IsolationPolicy} {rules : Rules} {s s' : Session} {dropped log : List LogRecord} {db : Database}

/-- The files hold the log of the run, except for what checkpoints dropped. -/
structure Logged (s : Session) (dropped log : List LogRecord) : Prop where
  files : s.db.wal.writer.Files log
  logs : Logs s.history (dropped ++ log)
  clients : ∀ {t txn}, s.db.mgr.activeTxns.lookup t = some txn →
    txn.lastLsn ≤ u64Max ∧ (txn.mode = .readOnly → ∀ k, lastWrite s.history t k = none)
  within : ∀ r ∈ log, r.Within s.db.mgr.nextTxnId s.db.mgr.nextTs

omit [Crc32] in
/-- What the log needs to know of a state: it is well formed, and its history is that of its transactions. -/
structure Clean (s : Session) : Prop where
  sound : s.db.Sound
  life : Lifecycle s.db.view s.history
  written_began : ∀ {t k}, lastWrite s.history t k ≠ none → ∃ b, .began t b ∈ s.history

omit [Crc32] in
theorem Inv.clean {s : Session} (hi : Inv policy rules s) : s.Clean :=
  ⟨hi.sound,hi.mvcc.life,hi.mvcc.stored.written_began⟩

section

variable (hi : s.Clean) (hl : s.Logged dropped log)
include hi hl

private theorem Logged.readers {op : Op} {out : Outcome} (h : s.db.Called op out db)
    {t : Nat} {txn : Transaction} (ht : db.mgr.activeTxns.lookup t = some txn) (hmode : txn.mode = .readOnly) (k : Bytes) :
    lastWrite (s.db.events op out ++ s.history) t k = none := by
  have hold : ∀ {txn'}, s.db.mgr.activeTxns.lookup t = some txn' → txn'.mode = .readOnly → lastWrite s.history t k = none :=
    fun hact hro => (hl.clients hact).2 hro k
  cases h with
  | same _ hev =>
    rw [hev]
    exact hold ht hmode
  | locked e _ =>
    rw [Database.events_failed]
    exact hold ht hmode
  | gc => exact hold ht hmode
  | checkpoint hr =>
    obtain ⟨_,_,_,-,rfl⟩ := Database.checkpoint_cases hr
    exact hold ht hmode
  | began =>
    rcases lookup_insert_cases ht with ⟨rfl,-⟩ | ⟨-,ht⟩
    · by_contra hw
      obtain ⟨b,hb⟩ := hi.written_began (by simpa [Database.events] using hw)
      exact lt_irrefl _ (hi.life.began_bounds hb).1.2
    · simpa [Database.events] using hold ht hmode
  | wrote hop _ hw =>
    rcases Database.write_cases hw with ⟨_,hr,-⟩ | ⟨txn',_,_,-,-,hrw,-,-,-,rfl⟩
    · cases hr
    · rcases lookup_insert_cases ht with ⟨-,rfl⟩ | ⟨hne,ht⟩
      · cases hrw.symm.trans hmode
      · rw [(Op.write_eq hop).2,singleton_append,lastWrite_wrote,if_neg (fun hc => hne hc.1.symm)]
        exact hold ht hmode
  | committed | aborted => simpa [Database.events] using hold (lookup_erase_cases ht).2 hmode

private theorem Logged.since {op : Op} {out : Outcome} {added : List LogRecord}
    (h : s.db.Adds op out added) : LogsSince s.history (s.db.events op out) added := by
  cases h with
  | none hev =>
    rw [hev]
    exact .nil
  | beganReader => exact .unlogged .nil .began
  | began id payload => exact .single (.began id payload)
  | wrote hop hact hk hv id payload =>
    obtain ⟨hown,hev⟩ := Op.write_eq hop
    have hbegan := (hi.life.active_iff.mp (map_eq_some_iff.mpr ⟨_,hact,rfl⟩)).1
    rw [hev]
    exact .single (.wrote id hbegan hown hk ((hi.sound.active hact).2.1.trans_le hi.sound.nextTs).le hv payload)
  | committedReader hact hmode => exact .unlogged .nil (.committed ((hl.clients hact).2 hmode))
  | committed _ id payload => exact .single (.committed id payload)
  | aborted _ id payload => exact .single (.aborted id payload)

theorem Logged.checkpoint {r : Except Error Unit} (h : s.db.checkpoint = some (db,r)) :
    ∃ dropped' front record, Logged ⟨db,s.history⟩ dropped' (front ++ [record]) ∧
      dropped' ++ (front ++ [record]) = dropped ++ log ++ [record] ∧ record.txnId = 0 ∧
      record.payload = .checkpoint s.db.mgr.activeTxnIds s.db.mgr.nextTs s.db.mgr.nextTxnId := by
  obtain ⟨closed,front,record,hfiles,rfl,hid,hpay⟩ := checkpoint_files hi.sound hl.files h
  obtain ⟨w,lsn,_,-,rfl⟩ := Database.checkpoint_cases h
  have hall : dropped ++ closed ++ (front ++ [record]) = dropped ++ (closed ++ front) ++ [record] := by
    simp [append_assoc]
  refine ⟨dropped ++ closed,front,record,⟨hfiles,?_,hl.clients,?_⟩,hall,hid,hpay⟩
  · rw [hall]
    exact .checkpoint hl.logs hid (by rw [hpay]; rfl)
  · intro x hx
    rcases mem_append.mp hx with hx' | hx'
    · exact hl.within x (mem_append_right _ hx')
    · rw [mem_singleton.mp hx',LogRecord.Within,hid,hpay]
      exact ⟨hi.life.next_pos.1,activeTxnIds_lt hi.sound,le_rfl,le_rfl⟩

/-- Every call keeps the log and the history in step, and adds one record at most. -/
theorem Logged.step {op : Op} (hop : op.Fits) (h : s.step op = some s') :
    ∃ dropped' log' added, s'.Logged dropped' log' ∧ dropped' ++ log' = dropped ++ log ++ added ∧
      added.length ≤ 1 ∧ (op ≠ .checkpoint → dropped' = dropped ∧ (∀ r ∈ added, r.isCheckpoint = false) ∧
        ∃ ev, s'.history = ev ++ s.history ∧ LogsSince s.history ev added) := by
  obtain ⟨⟨db,out⟩,hstep,rfl⟩ := map_eq_some_iff.mp h
  have hcall := Database.step_called hstep
  by_cases hck : op = .checkpoint
  · subst hck
    cases hcall with
    | same _ _ => exact ⟨dropped,log,[],hl,by simp,Nat.zero_le _,fun hne => absurd rfl hne⟩
    | locked _ hop | wrote hop => cases hop
    | checkpoint hr =>
      obtain ⟨dropped',front,record,hl',heq,-⟩ := hl.checkpoint hi hr
      exact ⟨dropped',_,[record],hl',heq,le_rfl,fun hne => absurd rfl hne⟩
  · obtain ⟨added,hfiled,hadds,hbelow⟩ := hcall.filed hi.sound ⟨hl.files,fun ht => (hl.clients ht).1⟩ hop hck
    have hsince := hl.since hi hadds
    have hlen : added.length ≤ 1 := by cases hadds <;> simp
    refine ⟨dropped,log ++ added,added,⟨hfiled.files,?_,fun ht => ⟨hfiled.lastLsn ht,fun hro => hl.readers hi hcall ht hro⟩,?_⟩,
      (append_assoc ..).symm,hlen,fun _ => ⟨rfl,hadds.not_checkpoint,_,rfl,hsince⟩⟩
    · rw [← append_assoc]
      exact hl.logs.extend hsince
    · intro r hr
      rcases mem_append.mp hr with hr | hr
      · exact (hl.within r hr).mono hcall.numbers_le.1 hcall.numbers_le.2
      · exact (hbelow r hr).1

end

theorem logged_init (policy : IsolationPolicy) : (init policy).Logged [] [] where
  files := ⟨[],[],rfl,WalWriter.holds_create⟩
  logs := .nil
  clients ht := by simp [init,Database.fresh,TransactionManager.withPolicy] at ht
  within := by simp

theorem Logged.run {ops : List Op} (ha : Allows policy rules ops) (hfit : ∀ op ∈ ops, op.Fits)
    (hi : Inv policy rules s) (hl : s.Logged dropped log) (h : InterchangeDb.run Session.step s ops = some s') :
    ∃ dropped' log' added, s'.Logged dropped' log' ∧ dropped' ++ log' = dropped ++ log ++ added ∧
      added.length ≤ ops.length ∧ (.checkpoint ∉ ops → dropped' = dropped ∧ ∀ r ∈ added, r.isCheckpoint = false) := by
  induction ops generalizing s dropped log with
  | nil =>
    cases h
    exact ⟨dropped,log,[],hl,by simp,le_rfl,fun _ => ⟨rfl,by simp⟩⟩
  | cons op ops ih =>
    obtain ⟨m,hm,hrun⟩ := run_cons_eq_some h
    obtain ⟨d₁,l₁,a₁,hl₁,heq₁,hlen₁,hord₁⟩ := hl.step hi.clean (hfit op mem_cons_self) hm
    obtain ⟨d₂,l₂,a₂,hl₂,heq₂,hlen₂,hord₂⟩ := ih (ha.mono (subset_cons_self _ _))
      (fun x hx => hfit x (mem_cons_of_mem _ hx)) (ha.inv_step mem_cons_self hi hm) hl₁ hrun
    refine ⟨d₂,l₂,a₁ ++ a₂,hl₂,?_,?_,?_⟩
    · rw [heq₂,heq₁,append_assoc]
    · simp only [length_append,length_cons]
      omega
    · intro hck
      obtain ⟨rfl,hno₁,-⟩ := hord₁ (fun heq => hck (heq ▸ mem_cons_self))
      obtain ⟨rfl,hno₂⟩ := hord₂ (fun hmem => hck (mem_cons_of_mem _ hmem))
      refine ⟨rfl,fun r hr => ?_⟩
      rcases mem_append.mp hr with hr | hr
      · exact hno₁ r hr
      · exact hno₂ r hr

theorem reachable_logged {ops : List Op} (hgc : .gc ∈ ops → policy = .snapshotIsolation) (hfit : ∀ op ∈ ops, op.Fits)
    (h : run step (init policy) ops = some s) :
    ∃ dropped log, s.Logged dropped log ∧ (dropped ++ log).length ≤ ops.length ∧
      (.checkpoint ∉ ops → dropped = [] ∧ ∀ r ∈ log, r.isCheckpoint = false) := by
  obtain ⟨dropped,log,added,hl,heq,hlen,hord⟩ := (logged_init policy).run (allows_runRules hgc) hfit
    (inv_init policy _) h
  rw [append_nil,nil_append] at heq
  refine ⟨dropped,log,hl,heq ▸ hlen,fun hck => ?_⟩
  obtain ⟨rfl,hno⟩ := hord hck
  exact ⟨rfl,fun r hr => hno r (heq ▸ hr)⟩

end Session
end InterchangeDb
