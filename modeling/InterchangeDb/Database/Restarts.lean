import InterchangeDb.Database.LostWrites

/-! Restarts. Transaction ids and timestamps go on from the largest that recovery finds in the log. -/
namespace InterchangeDb
open List Option AList

section Records
variable {r r' : LogRecord} {n ts oracleTs next : Nat}

/-- Everything before a checkpoint record was drawn before what it holds. -/
def Marked (r checkpoint : LogRecord) : Prop :=
  ∀ ids oracleTs nextTxnId, checkpoint.payload = .checkpoint ids oracleTs nextTxnId → r.Below nextTxnId oracleTs

/-- Commit records stand in the order of their timestamps. -/
def InTurn (r r' : LogRecord) : Prop := ∀ c c', r.payload = .commit c → r'.payload = .commit c' → c < c'

variable {records log : List LogRecord} {r : LogRecord}

theorem since_or_before {R : LogRecord → LogRecord → Prop} (h : log.Pairwise R) (hr : r ∈ log) :
    r ∈ sinceCheckpoint log ∨ ∃ ck ∈ sinceCheckpoint log, ck.isCheckpoint = true ∧ R r ck := by
  induction log using reverseRecOn with
  | nil => cases hr
  | append_singleton log x ih =>
    obtain ⟨hlog,-,hx⟩ := pairwise_append.mp h
    rw [sinceCheckpoint_concat]
    rcases mem_append.mp hr with hr | hr
    · split_ifs with hck
      · exact .inr ⟨x,mem_singleton_self x,hck,hx r hr x (mem_singleton_self x)⟩
      · rcases ih hlog hr with hsince | ⟨ck,hmem,hck',hR⟩
        · exact .inl (mem_append_left _ hsince)
        · exact .inr ⟨ck,mem_append_left _ hmem,hck',hR⟩
    · left
      split_ifs
      · exact hr
      · exact mem_append_right _ hr

theorem oracleTs_of_mem {ids : List Nat} (hr : r ∈ sinceCheckpoint log) (hp : r.payload = .checkpoint ids oracleTs next) :
    (analyzeTransactions (sinceCheckpoint log)).checkpointOracleTs = oracleTs := by
  have hck : r.isCheckpoint = true := by
    rw [LogRecord.isCheckpoint,hp]
    rfl
  induction log using reverseRecOn with
  | nil => cases hr
  | append_singleton log x ih =>
    rw [sinceCheckpoint_concat] at hr ⊢
    split_ifs at hr ⊢ with hx
    · obtain rfl := mem_singleton.mp hr
      change ((Analysis.new).step r).checkpointOracleTs = oracleTs
      rw [Analysis.step,hp]
    · rcases mem_append.mp hr with hr | hr
      · rw [checkpointOracleTs_append _ (fun y hy => by rw [mem_singleton.mp hy]; simpa using hx)]
        exact ih hr
      · rw [mem_singleton.mp hr] at hck
        exact absurd hck hx

theorem checkpointMaxTxnId_le {ids : List Nat} (hr : r ∈ records) (hp : r.payload = .checkpoint ids oracleTs next) :
    (∀ i ∈ ids, i ≤ (analyzeTransactions records).checkpointMaxTxnId) ∧
      next ≤ (analyzeTransactions records).checkpointMaxTxnId + 1 := by
  induction records using reverseRecOn with
  | nil => cases hr
  | append_singleton records x ih =>
    rw [analyzeTransactions_concat,Analysis.step]
    rcases mem_append.mp hr with hr | hr
    · obtain ⟨hids,hnext⟩ := ih hr
      cases hx : x.payload with
      | checkpoint ids' oracleTs' next' =>
        exact ⟨fun i hi => le_max_of_le_left (hids i hi),hnext.trans (Nat.succ_le_succ (le_max_left _ _))⟩
      | put | delete | begin | commit | abort | txnPut | txnDelete => exact ⟨hids,hnext⟩
    · rw [← mem_singleton.mp hr,hp]
      refine ⟨fun i hi => le_max_of_le_right (le_max_of_le_left ((foldr_max_cases ids).1 i hi)),?_⟩
      have hcandidate := le_max_right (analyzeTransactions records).checkpointMaxTxnId (max (ids.foldr max 0) (next - 1))
      have hnext := le_max_right (ids.foldr max 0) (next - 1)
      simp only
      omega

theorem commit_le_lookup {c : Nat} (h : records.Pairwise InTurn) (hr : r ∈ records) (hp : r.payload = .commit c) :
    ∃ c', (analyzeTransactions records).committed.lookup r.txnId = some c' ∧ c ≤ c' := by
  induction records using reverseRecOn with
  | nil => cases hr
  | append_singleton records x ih =>
    obtain ⟨hrecords,-,hx⟩ := pairwise_append.mp h
    rw [analyzeTransactions_concat,Analysis.step]
    rcases mem_append.mp hr with hr | hr
    · obtain ⟨c',hc',hle⟩ := ih hrecords hr
      cases hpx : x.payload with
      | commit c₂ =>
        by_cases heq : r.txnId = x.txnId
        · refine ⟨c₂,by rw [heq,lookup_insert],?_⟩
          exact (hx r hr x (mem_singleton_self x) c c₂ hp hpx).le
        · exact ⟨c',by rw [lookup_insert_ne heq,hc'],hle⟩
      | put | delete | begin | abort | checkpoint | txnPut | txnDelete => exact ⟨c',hc',hle⟩
    · rw [← mem_singleton.mp hr,hp]
      exact ⟨c,lookup_insert _,le_rfl⟩

theorem redo_version {engine : Engine} (hown : ∀ r ∈ records, r.OwnVersion) (committed : Nat → Bool) {k : Bytes}
    {v : MvccValue} (h : (redoCommitted engine records committed).1.version k ts = some v) :
    engine.version k ts = some v ∨ ∃ r ∈ records, r.txnId = v.txnId ∧ r.beginTs? = some ts := by
  induction records using reverseRecOn with
  | nil => exact .inl h
  | append_singleton records x ih =>
    have hold : (redoCommitted engine records committed).1.version k ts = some v →
        engine.version k ts = some v ∨ ∃ r ∈ records ++ [x], r.txnId = v.txnId ∧ r.beginTs? = some ts := by
      intro hv
      exact (ih (fun r hr => hown r (mem_append_left _ hr)) hv).imp_right
        (fun ⟨r,hr,hrest⟩ => ⟨r,mem_append_left _ hr,hrest⟩)
    have hx := hown x (by simp)
    rw [redoCommitted,foldl_concat] at h
    change (redoRecord committed (redoCommitted engine records committed) x).1.version k ts = some v at h
    unfold redoRecord at h
    unfold LogRecord.OwnVersion at hx
    cases hp : x.payload with
    | txnPut key value old =>
      simp only [hp] at hx h
      obtain ⟨k',ts',v',hk,hts,henc,hid,rfl,rfl⟩ := hx
      split_ifs at h
      · rw [Engine.version_put _ hk hts henc] at h
        split_ifs at h with hhere
        · obtain ⟨rfl,rfl⟩ := hhere
          cases h
          refine .inr ⟨x,by simp,hid.symm,?_⟩
          rw [LogRecord.beginTs?,hp]
          simp only [decodeMvccKey_mvccKey hk hts]
          rfl
        · exact hold h
      · exact hold h
    | put | delete | txnDelete => simp only [hp] at hx
    | begin | commit | abort | checkpoint =>
      simp only [hp] at h
      exact hold h

private theorem marked_of_not (h : r.isCheckpoint = false) : Marked r' r := by
  intro ids oracleTs next hp
  rw [LogRecord.isCheckpoint,hp] at h
  cases h

private theorem inTurn_of_not (h : r.payload.recordType ≠ .commit) : InTurn r' r := by
  intro c c' _ hp
  rw [hp] at h
  exact absurd rfl h

end Records

section Counting
variable [Crc32] {db db' : Database} {log : List LogRecord}

/-- The log in the files holds numbers below the next ones only, and its checkpoint records stand above what is before them. -/
structure Database.Counted (db : Database) (log : List LogRecord) : Prop extends db.Filed log where
  nextTxnId : 0 < db.mgr.nextTxnId
  below : ∀ r ∈ log, r.Below db.mgr.nextTxnId db.mgr.nextTs
  own : ∀ r ∈ log, r.OwnVersion
  marked : log.Pairwise Marked
  inTurn : log.Pairwise InTurn

namespace Database.Counted
variable {r : Except Error Unit} {t : Nat}

theorem sublist (h : db.Counted log) {log' : List LogRecord} (hsub : log'.Sublist log) :
    (∀ r ∈ log', r.Below db.mgr.nextTxnId db.mgr.nextTs) ∧ (∀ r ∈ log', r.OwnVersion) ∧ log'.Pairwise Marked ∧
      log'.Pairwise InTurn :=
  ⟨fun r hr => h.below r (hsub.subset hr),fun r hr => h.own r (hsub.subset hr),h.marked.sublist hsub,h.inTurn.sublist hsub⟩

/-- One more record, after a part of the log. -/
private theorem concat (h : db.Counted log) {front : List LogRecord} (hsub : front.Sublist log) {record : LogRecord}
    (hid : db.mgr.nextTxnId ≤ db'.mgr.nextTxnId) (hts : db.mgr.nextTs ≤ db'.mgr.nextTs)
    (hfiled : Filed db' (front ++ [record])) (hbelow : record.Below db'.mgr.nextTxnId db'.mgr.nextTs) (hown : record.OwnVersion)
    (hlast : ∀ x ∈ front, Marked x record ∧ InTurn x record) : db'.Counted (front ++ [record]) := by
  obtain ⟨hbelows,howns,hmarked,hinTurn⟩ := h.sublist hsub
  refine ⟨hfiled,h.nextTxnId.trans_le hid,
    forall_mem_append.mpr ⟨fun x hx => (hbelows x hx).mono hid hts,forall_mem_singleton.mpr hbelow⟩,
    forall_mem_append.mpr ⟨howns,forall_mem_singleton.mpr hown⟩,
    pairwise_append.mpr ⟨hmarked,pairwise_singleton _ _,fun x hx => forall_mem_singleton.mpr (hlast x hx).1⟩,
    pairwise_append.mpr ⟨hinTurn,pairwise_singleton _ _,fun x hx => forall_mem_singleton.mpr (hlast x hx).2⟩⟩

private theorem checkpoint_step (h : db.Counted log) (hs : db.Sound)
    (hcall : db.checkpoint = some (db',r)) : ∃ log', db'.Counted log' := by
  obtain ⟨dropped,front,record,hfiles,rfl,hid,hpay⟩ := checkpoint_files hs h.files hcall
  obtain ⟨w,lsn,_,-,rfl⟩ := checkpoint_cases hcall
  have hsub := sublist_append_right dropped front
  refine ⟨_,h.concat hsub le_rfl le_rfl ⟨hfiles,h.lastLsn⟩ ?_ ?_ (fun x hx => ⟨?_,inTurn_of_not ?_⟩)⟩
  · rw [LogRecord.Below,LogRecord.Within,LogRecord.beginTs?,hid,hpay]
    exact ⟨⟨h.nextTxnId,activeTxnIds_lt hs,le_rfl,le_rfl⟩,fun _ h => by cases h⟩
  · rw [LogRecord.OwnVersion,hpay]
    trivial
  · intro ids oracleTs next hp
    cases hpay.symm.trans hp
    exact h.below x (hsub.subset hx)
  · simp [hpay,LogPayload.recordType]

omit [Crc32] in
private theorem adds_cases (hs : db.Sound) {op : Op} {out : Outcome} {added : List LogRecord} (h : db.Adds op out added) :
    added = [] ∨ ∃ r, added = [r] ∧ r.OwnVersion ∧ ∀ c, r.payload = .commit c → c = db.mgr.nextTs := by
  cases h with
  | none | beganReader | committedReader => exact .inl rfl
  | began _ payload | committed _ _ payload | aborted _ _ payload =>
    refine .inr ⟨_,rfl,?_,fun c hc => ?_⟩
    · rw [LogRecord.OwnVersion,payload]
      trivial
    · cases payload.symm.trans hc <;> rfl
  | wrote hop hact hk hv id payload =>
    refine .inr ⟨_,rfl,?_,fun c hc => nomatch payload.symm.trans hc⟩
    rw [LogRecord.OwnVersion,payload]
    exact ⟨_,_,_,hk,((hs.active hact).2.1.trans_le hs.nextTs).le,hv,(Op.write_eq hop).1.trans id.symm,rfl,rfl⟩

theorem step (h : db.Counted log) (hs : db.Sound) {op : Op} (hop : op.Fits) {out : Outcome}
    (hcall : db.step op = some (db',out)) : ∃ log', db'.Counted log' := by
  have hcalled := step_called hcall
  by_cases hck : op = .checkpoint
  · subst hck
    cases hcalled with
    | same => exact ⟨log,h⟩
    | locked _ hop | wrote hop => cases hop
    | checkpoint hr => exact h.checkpoint_step hs hr
  · obtain ⟨added,hfiled,hadds,hbelow⟩ := hcalled.filed hs h.toFiled hop hck
    obtain ⟨hid,hts⟩ := hcalled.numbers_le
    rcases adds_cases hs hadds with rfl | ⟨r,rfl,hown,hcommit⟩
    · rw [append_nil] at hfiled
      exact ⟨log,hfiled,h.nextTxnId.trans_le hid,fun r hr => (h.below r hr).mono hid hts,h.own,h.marked,h.inTurn⟩
    · refine ⟨_,h.concat (.refl _) hid hts hfiled (hbelow r mem_cons_self) hown (fun x hx =>
        ⟨marked_of_not (hadds.not_checkpoint r mem_cons_self),fun c c' hc hc' => ?_⟩)⟩
      have hlt := (h.below x hx).1.2
      rw [hc] at hlt
      exact hcommit c' hc' ▸ hlt

end Database.Counted

end Counting

/-- A database from one open to the next crash: its calls, what its engine has held since, and what it was opened on. -/
structure Life where
  session : Session
  contents : List Engine
  files : Segments
  image : Engine

inductive LifeOp where
  | call (op : Op)
  /-- A crash that leaves some bytes of the last log segment and an engine, and the open that follows. -/
  | crash (n : Nat) (image : Engine) (policy : IsolationPolicy)

namespace Life

def init (policy : IsolationPolicy) : Life := ⟨.init policy,[OrdMap.empty],[],OrdMap.empty⟩

variable [Crc32]

/-- A crash keeps what is known to be on disk of the log, and of the engine entries it has held. -/
def step (l : Life) : LifeOp → Option Life
  | .call op => (l.session.step op).map (fun s => { l with session := s, contents := s.db.engine::l.contents })
  | .crash n image policy =>
    if l.session.db.wal.writer.durable ≤ n ∧ ∀ x ∈ image.entries, ∃ e ∈ l.contents, e.get x.1 = some x.2 then
      match Database.openInner (l.session.filesLeft n) image policy with
      | some (.ok db) => some ⟨⟨db,[]⟩,[db.engine,image],l.session.filesLeft n,image⟩
      | _ => none
    else none

/-- A transaction id in a log record or a version that survived. -/
def SurvivingTxnId (l : Life) (t : Nat) : Prop :=
  (∃ r, StandsIn l.files r ∧ (r.txnId = t ∨ ∃ ids oracleTs next, r.payload = .checkpoint ids oracleTs next ∧ t ∈ ids)) ∨
    ∃ k ts v, l.image.version k ts = some v ∧ v.txnId = t

/-- A begin or commit timestamp in a log record or a version that survived. -/
def SurvivingTs (l : Life) (ts : Nat) : Prop :=
  (∃ r, StandsIn l.files r ∧ (r.beginTs? = some ts ∨ r.payload = .commit ts)) ∨ ∃ k v, l.image.version k ts = some v

end Life

section Accounts

/-- The checkpoint comes after the timestamp, or the commit does. -/
def LogRecord.follows (r : LogRecord) (ts : Nat) : Bool :=
  match r.payload with
  | .commit c => decide (ts < c)
  | .checkpoint _ oracleTs _ => decide (ts ≤ oracleTs)
  | _ => false

/-- The record is of the transaction, or of a checkpoint after its begin. -/
def LogRecord.knows (r : LogRecord) (t : Nat) : Bool :=
  match r.payload with
  | .checkpoint _ _ next => decide (t < next)
  | _ => decide (r.txnId = t)

/-- The writer and the timestamp of every stored version. -/
def storedVersions (image : Engine) : List (Nat × Nat) :=
  image.entries.filterMap (fun x => do
    let (_,ts) ← (decodeMvccKey x.1).toOption
    let v ← (decodeMvccValue x.2).toOption
    return (v.txnId,ts))

variable [Crc32]

/-- The records that are left since the last checkpoint among them. -/
def recordsLeft (files : Segments) : List LogRecord := sinceCheckpoint (files.flatMap (fun x => (scanSegment x.2).1))

/-- What a crash has to leave for the numbers to go on: the log ends with a whole record, a version that is left has a log
record of its transaction or is from before the last checkpoint, and every write that is left began before a commit that is
left, or before the last checkpoint. -/
structure Accounted (files : Segments) (image : Engine) : Prop where
  whole : ∀ x ∈ files.getLast?, (scanSegment x.2).2 = none
  short : (files.flatMap (fun x => (scanSegment x.2).1)).length < maxRecoveryRecords
  logged : ∀ x ∈ storedVersions image, ∃ r ∈ recordsLeft files, r.knows x.1 = true
  versions : ∀ x ∈ storedVersions image, ∃ r ∈ recordsLeft files, r.follows x.2 = true
  writes : ∀ r ∈ recordsLeft files, ∀ ts ∈ r.beginTs?, ∃ r' ∈ recordsLeft files, r'.follows ts = true

instance (files : Segments) (image : Engine) : Decidable (Accounted files image) :=
  decidable_of_iff (_ ∧ _ ∧ _ ∧ _ ∧ _) ⟨fun ⟨h₁,h₂,h₃,h₄,h₅⟩ => ⟨h₁,h₂,h₃,h₄,h₅⟩,fun h => ⟨h.whole,h.short,h.logged,h.versions,h.writes⟩⟩

/-- Calls fit their log records, and crashes leave the writes accounted for. -/
def Life.Accounts (l : Life) : LifeOp → Prop
  | .call op => op.Fits
  | .crash n image _ => Accounted (l.session.filesLeft n) image

instance (l : Life) (op : LifeOp) : Decidable (l.Accounts op) := by
  cases op <;> unfold Life.Accounts <;> infer_instance

end Accounts

section Opening
variable {image : Engine} {left : List LogRecord} {policy : IsolationPolicy}

private theorem image_versioned {contents : List Engine} (hver : ∀ e ∈ contents, e.Versioned)
    (h : ∀ x ∈ image.entries, ∃ e ∈ contents, e.get x.1 = some x.2) : image.Versioned := by
  intro key value hv
  obtain ⟨e,he,hev⟩ := h (key,value) ((OrdMap.get_eq_some_iff _ _ _).mp hv)
  exact hver e he key value hev

private theorem mem_storedVersions (hver : image.Versioned) {k : Bytes} {ts : Nat} {v : MvccValue}
    (h : image.version k ts = some v) : (v.txnId,ts) ∈ storedVersions image := by
  obtain ⟨hk,hts⟩ := Engine.version_bounds h
  obtain ⟨henc,hraw⟩ := (hver.version_eq_some_iff hk hts).mp h
  refine mem_filterMap.mpr ⟨_,(OrdMap.get_eq_some_iff _ _ _).mp hraw,?_⟩
  rw [decodeMvccKey_mvccKey hk hts,decodeMvccValue_encodeMvccValue henc]
  rfl

/-- Where the counters go on, and what they are past. -/
private structure Past (left : List LogRecord) (id n : Nat) : Prop where
  seen : ∀ r ∈ sinceCheckpoint left, r.txnId < id
  checkpoints : ∀ r ∈ sinceCheckpoint left, ∀ ids oracleTs next, r.payload = .checkpoint ids oracleTs next →
    (∀ i ∈ ids, i < id) ∧ next ≤ id ∧ oracleTs < n
  commits : ∀ r ∈ sinceCheckpoint left, ∀ c, r.payload = .commit c → c < n

private theorem past_of_opened {db : Database} (hinTurn : left.Pairwise InTurn)
    (h : Database.Opened (sinceCheckpoint left) image policy db) : Past left db.mgr.nextTxnId db.mgr.nextTs := by
  refine ⟨h.seen_lt,fun r hr ids oracleTs next hp => ?_,fun r hr c hp => ?_⟩
  · obtain ⟨hids,hnext⟩ := checkpointMaxTxnId_le hr hp
    refine ⟨fun i hi => (hids i hi).trans_lt h.known_lt,hnext.trans h.known_lt,?_⟩
    rw [← oracleTs_of_mem hr hp]
    exact h.oracle.2
  · obtain ⟨c',hlook,hle⟩ := commit_le_lookup (hinTurn.sublist (sinceCheckpoint_suffix left).sublist) hr hp
    exact hle.trans_lt (h.committed_lt (h.committed.symm ▸ hlook)).1

variable {left : List LogRecord} {id n : Nat}

private theorem Past.of_follows (h : Past left id n) {r : LogRecord} (hr : r ∈ sinceCheckpoint left) {ts : Nat}
    (hts : r.follows ts = true) : ts < n := by
  unfold LogRecord.follows at hts
  split at hts
  · next c hp => exact (of_decide_eq_true hts).trans (h.commits r hr c hp)
  · next ids oracleTs next hp => exact (of_decide_eq_true hts).trans_lt (h.checkpoints r hr ids oracleTs next hp).2.2
  · cases hts

private theorem Past.of_knows (h : Past left id n) {r : LogRecord} (hr : r ∈ sinceCheckpoint left) {t : Nat}
    (ht : r.knows t = true) : t < id := by
  unfold LogRecord.knows at ht
  split at ht
  · next ids oracleTs next hp => exact (of_decide_eq_true ht).trans_le (h.checkpoints r hr ids oracleTs next hp).2.1
  · exact of_decide_eq_true ht ▸ h.seen r hr

private theorem Past.below (h : Past left id n) (hmarked : left.Pairwise Marked)
    (hwrites : ∀ r ∈ sinceCheckpoint left, ∀ ts ∈ r.beginTs?, ∃ r' ∈ sinceCheckpoint left, r'.follows ts = true) :
    ∀ r ∈ left, r.Below id n := by
  intro r hr
  rcases since_or_before hmarked hr with hsince | ⟨ck,hmem,hck,hmark⟩
  · refine ⟨⟨h.seen r hsince,?_⟩,fun ts hts => ?_⟩
    · cases hp : r.payload with
      | commit c => exact h.commits r hsince c hp
      | checkpoint ids oracleTs next =>
        obtain ⟨hids,hnext,horacle⟩ := h.checkpoints r hsince ids oracleTs next hp
        exact ⟨hids,horacle.le,hnext⟩
      | put | delete | begin | abort | txnPut | txnDelete => trivial
    · obtain ⟨r',hr',hfollows⟩ := hwrites r hsince ts hts
      exact h.of_follows hr' hfollows
  · cases hp : ck.payload with
    | checkpoint ids oracleTs next =>
      obtain ⟨-,hnext,horacle⟩ := h.checkpoints ck hmem ids oracleTs next hp
      exact (hmark ids oracleTs next hp).mono hnext horacle.le
    | put | delete | begin | commit | abort | txnPut | txnDelete =>
      rw [LogRecord.isCheckpoint,hp] at hck
      cases hck

variable [Crc32]

private theorem reopen_counted {s : Session} {log : List LogRecord} (h : s.db.Counted log) (hs : s.db.Sound) {cut : Nat}
    {db : Database} (hopen : Database.openInner (s.filesLeft cut) image policy = some (.ok db))
    (hacc : Accounted (s.filesLeft cut) image) (hver : image.Versioned) :
    ∃ left, db.Counted left ∧ db.Sound ∧ (∀ r, StandsIn (s.filesLeft cut) r → r ∈ left) ∧
      ∀ k ts v, image.version k ts = some v ∨ db.engine.version k ts = some v → v.txnId < db.mgr.nextTxnId ∧ ts < db.mgr.nextTs := by
  obtain ⟨left,hleft,hpre⟩ := h.files.whole.cut h.files.fits cut
  change HoldTorn (s.filesLeft cut) left at hleft
  obtain ⟨hbelow,hown,hmarked,hinTurn⟩ := h.sublist hpre.sublist
  have hfits : ∀ r ∈ left, r.Fits := fun r hr => h.files.fits r (hpre.subset hr)
  have hinc := h.files.increasing.sublist hpre.sublist
  have hscan := hleft.scan_eq hfits
  have hstands := standsIn_iff hleft hfits
  have hshort : left.length < maxRecoveryRecords := by
    rw [← hscan]
    exact hacc.short
  obtain ⟨hr,hwal⟩ := Database.opened (Database.recoveryScan_eq hleft hfits hinc hshort) hopen
  obtain ⟨closed,id,front,rs,tail,heq,hw,ht,rfl⟩ := hleft
  obtain ⟨hh,-⟩ := WalWriter.holds_openDir id hw ht hfits hinc
  obtain rfl : tail = [] := by
    refine (scanSegment_torn (fun r hr => hfits r (mem_append_right _ hr)) ht).2.mp (hacc.whole (id,_) ?_)
    rw [heq,getLast?_append]
    rfl
  rw [← heq] at hh
  have hpast := past_of_opened hinTurn hr
  have hrecords : ∀ r ∈ sinceCheckpoint (front ++ rs), r.OwnVersion :=
    fun r hr => hown r ((sinceCheckpoint_suffix _).subset hr)
  have hid : db.mgr.nextTxnId ≤ s.db.mgr.nextTxnId := by
    have hwithin : ∀ r ∈ sinceCheckpoint (front ++ rs), r.Within s.db.mgr.nextTxnId s.db.mgr.nextTs :=
      fun r hr => (hbelow r ((sinceCheckpoint_suffix _).subset hr)).1
    refine hr.nextTxnId_le h.nextTxnId (fun r hr => (hwithin r hr).1)
      (analysis_bounds h.nextTxnId (Nat.succ_pos s.db.mgr.nextTs) fun r hr ids oracleTs next hp => ?_).2
    have hck := (hwithin r hr).2
    rw [hp] at hck
    exact ⟨hck.1,Nat.lt_succ_of_le hck.2.1,hck.2.2⟩
  have hnone : ∀ {t txn}, db.mgr.activeTxns.lookup t ≠ some txn := by
    rw [hr.active]
    exact nofun
  obtain ⟨-,-,hlogged,hstored,hwrites⟩ := hacc
  rw [recordsLeft,hscan] at hlogged hstored hwrites
  have hleft := hpast.below hmarked hwrites
  have himage : ∀ k ts v, image.version k ts = some v → v.txnId < db.mgr.nextTxnId ∧ ts < db.mgr.nextTs := by
    intro k ts v hv
    have hmem := mem_storedVersions hver hv
    obtain ⟨r,hr,hknows⟩ := hlogged _ hmem
    obtain ⟨r',hr',hfollows⟩ := hstored _ hmem
    exact ⟨hpast.of_knows hr hknows,hpast.of_follows hr' hfollows⟩
  refine ⟨front ++ rs,⟨⟨⟨front,rs,rfl,hwal ▸ hh⟩,fun ht => absurd ht hnone⟩,Nat.zero_lt_of_lt hr.known_lt,hleft,hown,hmarked,hinTurn⟩,?_,
    fun r hr => (hstands r).mp hr,?_⟩
  · exact ⟨hr.engine ▸ (redoCommitted_versions hrecords hver _).1,hr.locks ▸ LockState.exclusive_new,
      hid.trans hs.nextTxnId,hr.nextTs.2,fun ht => absurd ht hnone⟩
  · rintro k ts v (hv | hv)
    · exact himage k ts v hv
    · rcases redo_version hrecords _ (hr.engine ▸ hv) with hold | ⟨r,hr,heq,hstamp⟩
      · exact himage k ts v hold
      · have hr' := hleft r ((sinceCheckpoint_suffix _).subset hr)
        exact ⟨heq ▸ hr'.1.1,hr'.2 ts hstamp⟩

end Opening

namespace Life
variable [Crc32] {l l' : Life}

/-- Every number that survived or is stored is below the next one, and everything issued since the open is above what survived. -/
structure Inv (l : Life) : Prop where
  counted : ∃ log, l.session.db.Counted log
  sound : l.session.db.Sound
  engine : l.session.db.engine ∈ l.contents
  contents : ∀ e ∈ l.contents, e.Versioned ∧ ∀ k ts v, e.version k ts = some v →
    v.txnId < l.session.db.mgr.nextTxnId ∧ ts < l.session.db.mgr.nextTs
  txnIds : ∀ t, l.SurvivingTxnId t → t < l.session.db.mgr.nextTxnId
  timestamps : ∀ ts, l.SurvivingTs ts → ts < l.session.db.mgr.nextTs
  began : ∀ t b, .began t b ∈ l.session.history → (∀ t', l.SurvivingTxnId t' → t' < t) ∧ ∀ ts, l.SurvivingTs ts → ts < b
  committed : ∀ t c, .committed t c ∈ l.session.history → ∀ ts, l.SurvivingTs ts → ts < c

theorem inv_init (policy : IsolationPolicy) : (init policy).Inv := by
  have hrecords : ∀ r, ¬ StandsIn [] r := by
    rintro r ⟨x,hx,-⟩
    cases hx
  have hversions : ∀ k ts v, Engine.version OrdMap.empty k ts ≠ some v := by simp
  refine ⟨⟨[],⟨⟨[],[],rfl,WalWriter.holds_create⟩,nofun⟩,Nat.one_pos,by simp,by simp,.nil,.nil⟩,
    (Session.inv_init policy ⟨False,True,True⟩).sound,mem_singleton_self _,fun e he => ?_,?_,?_,by simp [init,Session.init],
    by simp [init,Session.init]⟩
  · rw [mem_singleton.mp he]
    exact ⟨Engine.versioned_empty,fun k ts v hv => absurd hv (hversions k ts v)⟩
  · rintro t (⟨r,hr,-⟩ | ⟨k,ts,v,hv,-⟩)
    · exact absurd hr (hrecords r)
    · exact absurd hv (hversions k ts v)
  · rintro ts (⟨r,hr,-⟩ | ⟨k,v,hv⟩)
    · exact absurd hr (hrecords r)
    · exact absurd hv (hversions k ts v)

omit [Crc32] in
private theorem call_numbers {rules : Rules} {s s' : MvccState} {ev : List Event} (h : MvccStep rules s ev s') :
    s.nextTxnId ≤ s'.nextTxnId ∧ s.nextTs ≤ s'.nextTs ∧
    (∀ k ts v, s'.version k ts = some v → s.version k ts = some v ∨ s.active v.txnId = some ts) ∧
    (∀ t b, .began t b ∈ ev → t = s.nextTxnId ∧ b = s.nextTs) ∧ ∀ t c, .committed t c ∈ ev → c = s.nextTs := by
  cases h with
  | quiet | checkpoint => exact ⟨le_rfl,le_rfl,fun _ _ _ hv => .inl hv,by simp,by simp⟩
  | begin => exact ⟨Nat.le_succ _,Nat.le_succ _,fun _ _ _ hv => .inl hv,by simp,by simp⟩
  | write t b k v holds active own =>
    refine ⟨le_rfl,le_rfl,fun k' ts v' hv => ?_,by simp,by simp⟩
    dsimp only at hv
    split_ifs at hv with hhere
    · cases hv
      exact .inr (by rw [own,hhere.2]; exact active)
    · exact .inl hv
  | commit t b => exact ⟨le_rfl,Nat.le_succ _,fun _ _ _ hv => .inl hv,by simp,by simp⟩
  | abort t b => exact ⟨le_rfl,le_rfl,fun _ _ _ hv => .inl hv,by simp,by simp⟩
  | gc lwm version aborted allowed le oldest kept =>
    exact ⟨le_rfl,le_rfl,fun k ts v hv => .inl ((kept k ts v).mp hv).1,by simp,by simp⟩

private theorem call_inv (h : l.Inv) {op : Op} (hop : op.Fits) (hstep : l.step (.call op) = some l') : l'.Inv := by
  obtain ⟨s,hs,rfl⟩ := map_eq_some_iff.mp hstep
  obtain ⟨⟨db,out⟩,hcall,rfl⟩ := map_eq_some_iff.mp hs
  obtain ⟨log,hlog⟩ := h.counted
  obtain ⟨hsound,-,hview⟩ : _ ∧ _ ∧ MvccStep ⟨False,True,True⟩ _ _ _ :=
    Database.step_refines h.sound False.elim (fun _ => trivial) (fun _ => trivial) hcall
  obtain ⟨hid,hts,hversions,hbegan,hcommitted⟩ := call_numbers hview
  refine ⟨hlog.step h.sound hop hcall,hsound,mem_cons_self,fun e he => ?_,fun t ht => (h.txnIds t ht).trans_le hid,
    fun ts hlt => (h.timestamps ts hlt).trans_le hts,fun t b hmem => ?_,fun t c hmem => ?_⟩
  · rcases mem_cons.mp he with rfl | he
    · refine ⟨hsound.versioned,fun k ts v hv => ?_⟩
      rcases hversions k ts v hv with hold | hact
      · obtain ⟨hv,hb⟩ := (h.contents _ h.engine).2 k ts v hold
        exact ⟨hv.trans_le hid,hb.trans_le hts⟩
      · obtain ⟨txn,htxn,rfl⟩ := map_eq_some_iff.mp hact
        obtain ⟨hv,hb,-⟩ := h.sound.active htxn
        exact ⟨hv.trans_le hid,hb.trans_le hts⟩
    · obtain ⟨hver,hbelow⟩ := h.contents e he
      exact ⟨hver,fun k ts v hv => ⟨(hbelow k ts v hv).1.trans_le hid,(hbelow k ts v hv).2.trans_le hts⟩⟩
  · rcases mem_append.mp hmem with hnew | hold
    · obtain ⟨rfl,rfl⟩ := hbegan t b hnew
      exact ⟨h.txnIds,h.timestamps⟩
    · exact h.began t b hold
  · rcases mem_append.mp hmem with hnew | hold
    · obtain rfl := hcommitted t c hnew
      exact h.timestamps
    · exact h.committed t c hold

private theorem crash_inv (h : l.Inv) {n : Nat} {image : Engine} {policy : IsolationPolicy}
    (hacc : Accounted (l.session.filesLeft n) image) (hstep : l.step (.crash n image policy) = some l') : l'.Inv := by
  rw [step] at hstep
  split_ifs at hstep with hguard
  obtain ⟨log,hlog⟩ := h.counted
  have hver := image_versioned (fun e he => (h.contents e he).1) hguard.2
  cases hopen : Database.openInner (l.session.filesLeft n) image policy with
  | none => simp [hopen] at hstep
  | some result =>
    cases result with
    | error e => simp [hopen] at hstep
    | ok db =>
      simp only [hopen] at hstep
      cases hstep
      obtain ⟨left,hleft,hsound,hstands,hversions⟩ := reopen_counted hlog h.sound hopen hacc hver
      refine ⟨⟨left,hleft⟩,hsound,mem_cons_self,fun e he => ?_,?_,?_,nofun,
        nofun⟩
      · rcases mem_pair.mp he with rfl | rfl
        · exact ⟨hsound.versioned,fun k ts v hv => hversions k ts v (.inr hv)⟩
        · exact ⟨hver,fun k ts v hv => hversions k ts v (.inl hv)⟩
      · rintro t (⟨r,hr,ht⟩ | ⟨k,ts,v,hv,rfl⟩)
        · have hbelow := (hleft.below r (hstands r hr)).1
          rcases ht with rfl | ⟨ids,oracleTs,next,hp,hmem⟩
          · exact hbelow.1
          · rw [LogRecord.Within,hp] at hbelow
            exact hbelow.2.1 t hmem
        · exact (hversions k ts v (.inl hv)).1
      · rintro ts (⟨r,hr,hts⟩ | ⟨k,v,hv⟩)
        · have hbelow := hleft.below r (hstands r hr)
          rcases hts with hts | hp
          · exact hbelow.2 ts hts
          · rw [LogRecord.Below,LogRecord.Within,hp] at hbelow
            exact hbelow.1.2
        · exact (hversions k ts v (.inl hv)).2

/-- In every run whose calls fit their log records, and whose crashes leave every write accounted for, each transaction id and
timestamp issued since an open is larger than all that survived to it. -/
theorem numbers_not_reused {policy : IsolationPolicy} {ops : List LifeOp} (h : run step (init policy) ops = some l)
    (hacc : AllSteps step Accounts (init policy) ops) :
    (∀ t b, .began t b ∈ l.session.history → (∀ t', l.SurvivingTxnId t' → t' < t) ∧ ∀ ts, l.SurvivingTs ts → ts < b) ∧
    ∀ t c, .committed t c ∈ l.session.history → ∀ ts, l.SurvivingTs ts → ts < c := by
  have hinv : l.Inv := by
    refine run_invariant Accounts (fun l op l' hl hop hstep => ?_) (inv_init policy) hacc h
    cases op with
    | call op => exact call_inv hl hop hstep
    | crash n image policy => exact crash_inv hl hop hstep
  exact ⟨hinv.began,hinv.committed⟩

end Life

namespace Life

private def stored (versions : List (Bytes × Nat × MvccValue)) : Engine :=
  versions.foldl (fun e x => e.put (mvccKey x.1 x.2.1) (encodeMvccValue x.2.2)) OrdMap.empty

private def cutOff : List LifeOp :=
  [.call (.begin .readWrite),.call (.put 1 [1] [7]),.call (.begin .readWrite),.call (.put 2 [2] [8]),.call (.commit 2),
    .crash 1000 (stored [([1],1,.value 1 [7]),([2],2,.value 2 [8])]) .snapshotIsolation,.call (.begin .readWrite)]

/-- The numbers go on behind the commit. -/
theorem numbers_not_reused_cutOff : ∃ l, run step (init .snapshotIsolation) cutOff = some l ∧
    .began 3 4 ∈ l.session.history ∧ l.SurvivingTxnId 1 ∧ l.SurvivingTs 2 ∧
    (∀ t', l.SurvivingTxnId t' → t' < 3) ∧ ∀ ts, l.SurvivingTs ts → ts < 4 := by
  refine exists_observed (fun l => (l.session.history,l.image.version [1] 1,l.image.version [2] 2))
    ([.began 3 4],some (.value 1 [7]),some (.value 2 [8])) (by decide +kernel) (fun l hl h => ?_)
  obtain ⟨hhistory,hone,htwo⟩ : _ ∧ _ ∧ _ := by simpa only [Prod.mk.injEq] using h
  have hbegan : .began 3 4 ∈ l.session.history := hhistory ▸ mem_singleton_self _
  have hfresh := (numbers_not_reused hl (by decide +kernel)).1 3 4 hbegan
  exact ⟨hbegan,.inr ⟨_,_,_,hone,rfl⟩,.inr ⟨_,_,htwo⟩,hfresh.1,hfresh.2⟩

/-- The timestamp of a write that the crash cut off is issued again: nothing was committed after it. -/
theorem timestamp_reused : ∃ l, run step (init .snapshotIsolation)
      [.call (.begin .readWrite),.call (.put 1 [1] [7]),.crash 1000 (stored [([1],1,.value 1 [7])]) .snapshotIsolation,
        .call (.begin .readWrite)] = some l ∧
    .began 2 1 ∈ l.session.history ∧ l.SurvivingTs 1 := by
  refine exists_observed (fun l => (l.session.history,l.image.version [1] 1)) ([.began 2 1],some (.value 1 [7]))
    (by decide +kernel) (fun l _ h => ?_)
  obtain ⟨hhistory,hone⟩ : _ ∧ _ := by simpa only [Prod.mk.injEq] using h
  exact ⟨hhistory ▸ mem_singleton_self _,.inr ⟨_,_,hone⟩⟩

end Life

end InterchangeDb
