import InterchangeDb.Wal.LogSpec
import InterchangeDb.Wal.Recovery
import InterchangeDb.Txn.MvccSpec

/-! What recovery reads from the log since the last checkpoint, and what it concludes. -/
namespace InterchangeDb
open List AList
variable {added log records closed active : List LogRecord} {r : LogRecord} {n t c ts : Nat}

def LogRecord.isCheckpoint (r : LogRecord) : Bool := decide (r.payload.recordType = .checkpoint)

/-- The records from the last checkpoint on, or all of them. -/
def sinceCheckpoint (log : List LogRecord) : List LogRecord :=
  log.foldl (fun acc r => if r.isCheckpoint then [r] else acc ++ [r]) []

theorem sinceCheckpoint_concat (log : List LogRecord) (r : LogRecord) :
    sinceCheckpoint (log ++ [r]) = if r.isCheckpoint then [r] else sinceCheckpoint log ++ [r] := by
  simp [sinceCheckpoint]

theorem sinceCheckpoint_suffix (log : List LogRecord) : sinceCheckpoint log <:+ log := by
  induction log using reverseRecOn with
  | nil => exact suffix_rfl
  | append_singleton log r ih =>
    rw [sinceCheckpoint_concat]
    split_ifs
    · exact suffix_append _ _
    · exact (suffix_append_self_iff).mpr ih

theorem sinceCheckpoint_append (log : List LogRecord) (h : ∀ r ∈ added, r.isCheckpoint = false) :
    sinceCheckpoint (log ++ added) = sinceCheckpoint log ++ added := by
  induction added using reverseRecOn with
  | nil => simp
  | append_singleton added r ih =>
    rw [← append_assoc,sinceCheckpoint_concat,h r (by simp),ih (fun x hx => h x (by simp [hx]))]
    simp

theorem sinceCheckpoint_eq_self (h : ∀ r ∈ log, r.isCheckpoint = false) :
    sinceCheckpoint log = log := sinceCheckpoint_append [] h

theorem mem_sinceCheckpoint (hinc : log.Pairwise (fun r r' => r.lsn < r'.lsn)) :
    r ∈ sinceCheckpoint log ↔ r ∈ log ∧ ∀ r' ∈ log, r'.isCheckpoint = true → r'.lsn ≤ r.lsn := by
  induction log using reverseRecOn with
  | nil => simp [sinceCheckpoint]
  | append_singleton log x ih =>
    obtain ⟨hinc',_,hlt⟩ := pairwise_append.mp hinc
    have hx : ∀ y ∈ log, y.lsn < x.lsn := fun y hy => hlt y hy x (mem_singleton_self _)
    simp only [sinceCheckpoint_concat,mem_append,mem_singleton,or_imp,forall_and,forall_eq]
    split_ifs with hck
    · rw [mem_singleton]
      constructor
      · rintro rfl
        exact ⟨.inr rfl,fun y hy _ => (hx y hy).le,fun _ => le_rfl⟩
      · rintro ⟨hr | rfl,_,hle⟩
        · exact absurd (hle hck) (not_le.mpr (hx r hr))
        · rfl
    · rw [mem_append,mem_singleton,ih hinc']
      constructor
      · rintro (⟨hr,hle⟩ | rfl)
        · exact ⟨.inl hr,hle,fun htrue => absurd htrue hck⟩
        · exact ⟨.inr rfl,fun y hy _ => (hx y hy).le,fun _ => le_rfl⟩
      · rintro ⟨hr | rfl,hle,_⟩
        · exact .inl ⟨hr,hle⟩
        · exact .inr rfl

/-- Where the scan of recovery starts. -/
def recoveryStart (lastCheckpointLsn : Nat) : Nat :=
  if Lsn.isValid lastCheckpointLsn then lastCheckpointLsn else 0

private def lastCheckpointOf (log : List LogRecord) : Nat :=
  log.foldl (fun last r => if r.payload.recordType = .checkpoint then r.lsn else last) Lsn.invalid

private theorem recoveryStart_le (hn : ∀ r ∈ log, r.lsn < n) : recoveryStart (lastCheckpointOf log) ≤ n := by
  induction log using reverseRecOn with
  | nil => simp [recoveryStart,lastCheckpointOf,Lsn.isValid]
  | append_singleton log r ih =>
    rw [lastCheckpointOf,foldl_concat]
    split_ifs
    · unfold recoveryStart
      split_ifs
      · exact (hn r (by simp)).le
      · exact Nat.zero_le _
    · exact ih (fun x hx => hn x (by simp [hx]))

/-- From the last checkpoint's sequence number on, the log is what stands since it. -/
theorem filter_recoveryStart (hinc : log.Pairwise (fun r r' => r.lsn < r'.lsn)) (hv : ∀ r ∈ log, r.Fits) :
    log.filter (fun r => decide (recoveryStart (lastCheckpointOf log) ≤ r.lsn)) = sinceCheckpoint log := by
  induction log using reverseRecOn with
  | nil => rfl
  | append_singleton log r ih =>
    obtain ⟨hinc',_,hlt⟩ := pairwise_append.mp hinc
    rw [sinceCheckpoint_concat,lastCheckpointOf,foldl_concat,filter_append]
    by_cases hck : r.payload.recordType = .checkpoint
    · have hvalid : Lsn.isValid r.lsn = true := by
        have := (hv r (by simp)).lsn
        simp only [Lsn.isValid,Lsn.invalid,bne_iff_ne]
        omega
      have hstart : recoveryStart r.lsn = r.lsn := by rw [recoveryStart,if_pos hvalid]
      rw [if_pos hck,hstart,if_pos (by simp [LogRecord.isCheckpoint, hck])]
      rw [filter_eq_nil_iff.mpr (fun x hx => by simpa using hlt x hx r (by simp))]
      simp
    · have hle := recoveryStart_le (fun x hx => hlt x hx r (by simp))
      have hrec := ih hinc' (fun x hx => hv x (by simp [hx]))
      rw [lastCheckpointOf] at hle hrec
      rw [if_neg hck,if_neg (by simp [LogRecord.isCheckpoint, hck]),hrec]
      simp [hle]

theorem analyzeTransactions_concat (records : List LogRecord) (r : LogRecord) :
    analyzeTransactions (records ++ [r]) = (analyzeTransactions records).step r := by
  simp [analyzeTransactions]

theorem checkpointOracleTs_append (records : List LogRecord)
    (h : ∀ r ∈ added, r.isCheckpoint = false) : (analyzeTransactions (records ++ added)).checkpointOracleTs =
      (analyzeTransactions records).checkpointOracleTs := by
  induction added using reverseRecOn with
  | nil => rw [append_nil]
  | append_singleton added r ih =>
    rw [← append_assoc,analyzeTransactions_concat,← ih (fun x hx => h x (by simp [hx])),Analysis.step]
    have hr := h r (by simp)
    cases hp : r.payload with
    | checkpoint => simp [LogRecord.isCheckpoint,hp,LogPayload.recordType] at hr
    | put | delete | begin | commit | abort | txnPut | txnDelete => rfl

/-- A transaction taken as committed has a commit record with that timestamp. -/
theorem commit_of_lookup (h : (analyzeTransactions records).committed.lookup t = some c) :
    ∃ r ∈ records, r.txnId = t ∧ r.payload = .commit c := by
  induction records using reverseRecOn with
  | nil => simp [analyzeTransactions,Analysis.new] at h
  | append_singleton records r ih =>
    have hold : (analyzeTransactions records).committed.lookup t = some c →
        ∃ x ∈ records ++ [r], x.txnId = t ∧ x.payload = .commit c := by
      intro hlook
      obtain ⟨x,hx,hrest⟩ := ih hlook
      exact ⟨x,mem_append_left _ hx,hrest⟩
    rw [analyzeTransactions_concat,Analysis.step] at h
    cases hp : r.payload with
    | commit c' =>
      simp only [hp] at h
      by_cases heq : t = r.txnId
      · subst heq
        rw [lookup_insert] at h
        cases h
        exact ⟨r,by simp,rfl,hp⟩
      · rw [lookup_insert_ne heq] at h
        exact hold h
    | put | delete | begin | abort | checkpoint | txnPut | txnDelete =>
      simp only [hp] at h
      exact hold h

theorem lookup_of_commit (hr : r ∈ records)
    (hp : r.payload = .commit c) : ∃ c', (analyzeTransactions records).committed.lookup r.txnId = some c' := by
  induction records using reverseRecOn with
  | nil => simp at hr
  | append_singleton records x ih =>
    rw [analyzeTransactions_concat,Analysis.step]
    by_cases hx : ∃ c', x.payload = .commit c' ∧ x.txnId = r.txnId
    · obtain ⟨c',hpx,heq⟩ := hx
      simp only [hpx,heq,lookup_insert]
      exact ⟨c',rfl⟩
    · have hmem : r ∈ records := by
        rcases mem_append.mp hr with hr | hr
        · exact hr
        · rw [mem_singleton.mp hr] at hp
          exact absurd ⟨c,hp,by rw [mem_singleton.mp hr]⟩ hx
      obtain ⟨c',hc'⟩ := ih hmem
      refine ⟨c',?_⟩
      cases hpx : x.payload with
      | commit c₂ =>
        have hne : r.txnId ≠ x.txnId := fun heq => hx ⟨c₂,hpx,heq.symm⟩
        simp [lookup_insert_ne hne,hc']
      | put | delete | begin | abort | checkpoint | txnPut | txnDelete => simp [hc']

theorem mem_aborted_iff :
    t ∈ (analyzeTransactions records).aborted ↔ ∃ r ∈ records, r.txnId = t ∧ r.payload = .abort := by
  induction records using reverseRecOn with
  | nil => simp [analyzeTransactions,Analysis.new]
  | append_singleton records x ih =>
    rw [analyzeTransactions_concat,Analysis.step]
    simp only [mem_append,mem_singleton,or_and_right,exists_or,← ih,exists_eq_left]
    cases hp : x.payload with
    | abort =>
      simp only [Finset.mem_insert,and_true]
      exact or_comm.trans (or_congr_right eq_comm)
    | put | delete | begin | commit | checkpoint | txnPut | txnDelete => simp

/-- Versions come from the engine, or from a committed transaction's own records. -/
def LogRecord.OwnVersion (r : LogRecord) : Prop :=
  match r.payload with
  | .txnPut key value _ => ∃ k ts v, k.length ≤ u32Max ∧ ts ≤ u64Max ∧ v.Encodable ∧ v.txnId = r.txnId ∧
      key = mvccKey k ts ∧ value = encodeMvccValue v
  | .put _ _ | .delete _ | .txnDelete _ _ => False
  | _ => True

theorem redoCommitted_versions (hown : ∀ r ∈ records, r.OwnVersion) {engine : Engine}
    (he : engine.Versioned) (committed : Nat → Bool) :
    (redoCommitted engine records committed).1.Versioned ∧
      ∀ k ts v, (redoCommitted engine records committed).1.version k ts = some v →
        engine.version k ts = some v ∨ committed v.txnId = true := by
  induction records using reverseRecOn with
  | nil => exact ⟨he,fun k ts v hv => .inl hv⟩
  | append_singleton records r ih =>
    obtain ⟨hver,hsub⟩ := ih (fun x hx => hown x (mem_append_left _ hx))
    have hr := hown r (by simp)
    rw [redoCommitted,foldl_concat]
    change (redoRecord committed (redoCommitted engine records committed) r).1.Versioned ∧
      ∀ k ts v, (redoRecord committed (redoCommitted engine records committed) r).1.version k ts = some v → _
    unfold redoRecord
    unfold LogRecord.OwnVersion at hr
    cases hp : r.payload with
    | txnPut key value old =>
      simp only [hp] at hr
      obtain ⟨k,ts,v,hk,hts,henc,hid,rfl,rfl⟩ := hr
      simp only
      split_ifs with hc
      · refine ⟨hver.put hk hts henc,fun k' ts' v' hv' => ?_⟩
        rw [Engine.version_put _ hk hts henc] at hv'
        split_ifs at hv' with hhere
        · cases hv'
          exact .inr (hid ▸ hc)
        · exact hsub k' ts' v' hv'
      · exact ⟨hver,hsub⟩
    | put | delete | txnDelete =>
      simp [hp] at hr
    | begin | commit | abort | checkpoint => exact ⟨hver,hsub⟩

-- a record writes a key whatever the engine holds, or leaves it alone
private theorem redoRecord_get (committed : Nat → Bool) (k : Bytes) (r : LogRecord) :
    ∃ (write : Option (Option Bytes)) (count : Nat), ∀ s : Engine × Nat,
      OrdMap.get (redoRecord committed s r).1 k = write.getD (OrdMap.get s.1 k) ∧
        (redoRecord committed s r).2 = s.2 + count := by
  have hput (key value : Bytes) (e : Engine) : OrdMap.get (e.put key value) k =
      (if k = key then some (some value) else none).getD (OrdMap.get e k) := by
    rw [Engine.put,OrdMap.get_insert]
    split_ifs <;> rfl
  have hdelete (key : Bytes) (e : Engine) : OrdMap.get (e.delete key) k =
      (if k = key then some none else none).getD (OrdMap.get e k) := by
    rw [Engine.delete,OrdMap.get_erase]
    split_ifs <;> rfl
  unfold redoRecord
  cases r.payload with
  | put key value => exact ⟨_,1,fun s => ⟨hput key value s.1,rfl⟩⟩
  | delete key => exact ⟨_,1,fun s => ⟨hdelete key s.1,rfl⟩⟩
  | txnPut key value =>
    cases committed r.txnId with
    | true => exact ⟨_,1,fun s => ⟨hput key value s.1,rfl⟩⟩
    | false => exact ⟨none,0,fun _ => ⟨rfl,rfl⟩⟩
  | txnDelete key =>
    cases committed r.txnId with
    | true => exact ⟨_,1,fun s => ⟨hdelete key s.1,rfl⟩⟩
    | false => exact ⟨none,0,fun _ => ⟨rfl,rfl⟩⟩
  | begin | commit | abort | checkpoint => exact ⟨none,0,fun _ => ⟨rfl,rfl⟩⟩

private theorem redo_get (committed : Nat → Bool) (k : Bytes) (records : List LogRecord) :
    ∃ (write : Option (Option Bytes)) (count : Nat), ∀ s : Engine × Nat,
      OrdMap.get (records.foldl (redoRecord committed) s).1 k = write.getD (OrdMap.get s.1 k) ∧
        (records.foldl (redoRecord committed) s).2 = s.2 + count := by
  induction records with
  | nil => exact ⟨none,0,fun _ => ⟨rfl,rfl⟩⟩
  | cons r records ih =>
    obtain ⟨write,count,hrest⟩ := ih
    obtain ⟨first,one,hfirst⟩ := redoRecord_get committed k r
    refine ⟨write.or first,one + count,fun s => ?_⟩
    rw [foldl_cons,(hrest _).1,(hrest _).2,(hfirst s).1,(hfirst s).2]
    exact ⟨by cases write <;> rfl,Nat.add_assoc _ _ _⟩

private theorem redo_again {engine engine' : Engine} {committed : Nat → Bool} (h : ∀ k, ∃ n,
    OrdMap.get engine' k = OrdMap.get (redoCommitted engine (records.take n) committed).1 k) :
    redoCommitted engine' records committed = redoCommitted engine records committed := by
  refine Prod.ext (OrdMap.ext_get fun k => ?_) ?_
  · obtain ⟨n,hn⟩ := h k
    -- the first records are replayed again: they write the key, or had left it as it was
    obtain ⟨early,_,hearly⟩ := redo_get committed k (records.take n)
    obtain ⟨late,_,hlate⟩ := redo_get committed k (records.drop n)
    rw [redoCommitted,(hearly _).1] at hn
    rw [redoCommitted,redoCommitted,← take_append_drop n records,foldl_append,foldl_append,
      (hlate _).1,(hlate _).1,(hearly _).1,(hearly _).1,hn]
    cases early <;> rfl
  · obtain ⟨_,count,hall⟩ := redo_get committed [] records
    rw [redoCommitted,redoCommitted,(hall _).2,(hall _).2]

/-- What a crash in the redo phase may leave: each key as some number of replayed records left it. -/
def Interrupted (records : List LogRecord) (engine engine' : Engine) : Prop :=
  ∀ k, ∃ n, OrdMap.get engine' k = OrdMap.get (redoCommitted engine (records.take n)
    (fun t => ((analyzeTransactions records).committed.lookup t).isSome)).1 k

/-- Recovery ends in the same engine and the same counts however often it was interrupted before. -/
theorem recoverRecords_interrupted {engine engine' : Engine}
    (h : Relation.ReflTransGen (Interrupted records) engine engine') :
    recoverRecords records engine' = recoverRecords records engine := by
  induction h with
  | refl => rfl
  | tail _ hlast ih =>
    rw [← ih]
    simp only [recoverRecords,redo_again hlast]

theorem recoverRecords_interrupted_overwriting :
    let records : List LogRecord := [⟨0,1,0,.txnPut [7] [1] none⟩,⟨1,1,0,.txnPut [7] [2] none⟩,⟨2,1,1,.commit 5⟩]
    recoverRecords records (Engine.put .empty [7] [1]) = recoverRecords records .empty :=
  recoverRecords_interrupted (.single fun _ => ⟨1,rfl⟩)

/-- The numbers of a record were drawn before these. -/
def LogRecord.Within (r : LogRecord) (nextTxnId nextTs : Nat) : Prop :=
  r.txnId < nextTxnId ∧
    match r.payload with
    | .commit commitTs => commitTs < nextTs
    | .checkpoint ids oracleTs next => (∀ i ∈ ids, i < nextTxnId) ∧ oracleTs ≤ nextTs ∧ next ≤ nextTxnId
    | _ => True

theorem LogRecord.Within.mono {n' ts' : Nat} (h : r.Within n ts) (hn : n ≤ n') (hts : ts ≤ ts') :
    r.Within n' ts' := by
  obtain ⟨hid,hpay⟩ := h
  refine ⟨lt_of_lt_of_le hid hn,?_⟩
  cases hp : r.payload with
  | commit c =>
    simp only [hp] at hpay
    exact lt_of_lt_of_le hpay hts
  | checkpoint ids o next =>
    simp only [hp] at hpay
    exact ⟨fun i hi => lt_of_lt_of_le (hpay.1 i hi) hn,hpay.2.1.trans hts,hpay.2.2.trans hn⟩
  | put | delete | begin | abort | txnPut | txnDelete => trivial

/-- The numbers of a record leave room for the next ones. -/
def LogRecord.Bounded (r : LogRecord) : Prop :=
  r.txnId < u64Max ∧
    match r.payload with
    | .commit commitTs => commitTs < u64Max
    | .checkpoint ids oracleTs nextTxnId => (∀ i ∈ ids, i < u64Max) ∧ oracleTs < u64Max ∧ nextTxnId ≤ u64Max
    | _ => True

theorem LogRecord.Within.bounded (h : r.Within n ts) (hn : n ≤ u64Max) (hts : ts ≤ u64Max)
    (hck : r.isCheckpoint = true → ts < u64Max) : r.Bounded := by
  obtain ⟨hid,hpay⟩ := h
  refine ⟨lt_of_lt_of_le hid hn,?_⟩
  cases hp : r.payload with
  | commit c =>
    simp only [hp] at hpay
    exact lt_of_lt_of_le hpay hts
  | checkpoint ids o next =>
    simp only [hp] at hpay
    refine ⟨fun i hi => lt_of_lt_of_le (hpay.1 i hi) hn,lt_of_le_of_lt hpay.2.1 (hck ?_),hpay.2.2.trans hn⟩
    simp [LogRecord.isCheckpoint,hp,LogPayload.recordType]
  | put | delete | begin | abort | txnPut | txnDelete => trivial

variable [Crc32]

/-- A record at or behind the last checkpoint record in the files. -/
def Recent (segments : Segments) (r : LogRecord) : Prop :=
  StandsIn segments r ∧ ∀ r', StandsIn segments r' → r'.isCheckpoint = true → r'.lsn ≤ r.lsn

theorem recent_iff {segments : Segments} (h : HoldTorn segments log) (hv : ∀ r ∈ log, r.Fits)
    (hinc : log.Pairwise (fun r r' => r.lsn < r'.lsn)) (r : LogRecord) :
    Recent segments r ↔ r ∈ sinceCheckpoint log := by
  simp [Recent,standsIn_iff h hv,mem_sinceCheckpoint hinc]

/-- Recovery works on the records since the last checkpoint. -/
theorem scanRecent_eq {w : WalWriter} {tail : Bytes} (h : w.Holds closed active tail)
    (hlen : (closed ++ active).length < maxRecoveryRecords) :
    collectItems (scanForward w.segments (recoveryStart (Wal.findLastCheckpoint w.segments))) =
      .ok (sinceCheckpoint (closed ++ active)) := by
  have hall : (closed ++ active).filter (fun r => decide (0 ≤ r.lsn)) = closed ++ active :=
    filter_eq_self.mpr (by simp)
  have hlast : Wal.findLastCheckpoint w.segments = lastCheckpointOf (closed ++ active) := by
    rw [Wal.findLastCheckpoint,h.scanForward hlen,hall,okItems_ok]
    rfl
  have hscan := h.scanForward hlen (recoveryStart (lastCheckpointOf (closed ++ active)))
  rw [filter_recoveryStart h.increasing h.fits] at hscan
  rw [hlast,hscan,collectItems_ok]

end InterchangeDb
