import InterchangeDb.Database.Refine
import InterchangeDb.Wal.RecoverySpec

/-! The database that opening a log directory yields. -/
namespace InterchangeDb
open List Option Nat

theorem foldr_max_cases (l : List Nat) :
    (∀ x ∈ l, x ≤ l.foldr max 0) ∧ (l.foldr max 0 = 0 ∨ l.foldr max 0 ∈ l) := by
  induction l with
  | nil => simp
  | cons a l ih =>
    simp only [foldr_cons,mem_cons,forall_eq_or_imp]
    refine ⟨⟨le_max_left _ _,fun x hx => le_max_of_le_right (ih.1 x hx)⟩,?_⟩
    rcases le_total a (l.foldr max 0) with hle | hle
    · rw [max_eq_right hle]
      exact ih.2.imp_right .inr
    · rw [max_eq_left hle]
      exact .inr (.inl rfl)

theorem foldr_max_lt {l : List Nat} {n : Nat} (hn : 0 < n) (h : ∀ x ∈ l, x < n) : l.foldr max 0 < n := by
  rcases (foldr_max_cases l).2 with heq | hmem
  · rw [heq]
    exact hn
  · exact h _ hmem

theorem analysis_bounds {records : List LogRecord} {n ts : Nat} (hn : 0 < n) (hts : 0 < ts)
    (h : ∀ r ∈ records, ∀ ids oracleTs next, r.payload = .checkpoint ids oracleTs next →
      (∀ i ∈ ids, i < n) ∧ oracleTs < ts ∧ next ≤ n) :
    (analyzeTransactions records).checkpointOracleTs < ts ∧ (analyzeTransactions records).checkpointMaxTxnId < n := by
  induction records using reverseRecOn with
  | nil => exact ⟨hts,hn⟩
  | append_singleton records r ih =>
    obtain ⟨ho,hm⟩ := ih (fun x hx => h x (mem_append_left _ hx))
    rw [analyzeTransactions_concat,Analysis.step]
    cases hp : r.payload with
    | checkpoint ids oracleTs next =>
      obtain ⟨hids,horacle,hnext⟩ := h r (by simp) ids oracleTs next hp
      exact ⟨horacle,max_lt hm (max_lt (foldr_max_lt hn hids) (by omega))⟩
    | put | delete | begin | commit | abort | txnPut | txnDelete => exact ⟨ho,hm⟩

namespace Database
variable {records log : List LogRecord} {image : Engine} {policy : IsolationPolicy} {m : TransactionManager}
  {stats : RecoveryStats} {segments : Segments}

/-- Who counts as committed after recovery. -/
def recoveredCommit (records : List LogRecord) (t : Nat) : Bool :=
  ((analyzeTransactions records).committed.lookup t).isSome

/-- The database that opens over the records since the last checkpoint and an engine image. -/
structure Opened (records : List LogRecord) (image : Engine) (policy : IsolationPolicy) (db : Database) : Prop where
  engine : db.engine = (redoCommitted image records (recoveredCommit records)).1
  policy : db.mgr.policy = policy
  active : db.mgr.activeTxns = ∅
  locks : db.mgr.lockManager = .new
  aborted : db.mgr.abortedTxns = ∅
  committed : db.mgr.committedTxns = (analyzeTransactions records).committed
  uncommitted : ∀ t, t ∈ db.mgr.uncommittedTxns ↔ t ≠ 0 ∧ (∃ r ∈ records, r.txnId = t) ∧
    recoveredCommit records t = false ∧ ∀ r ∈ records, r.txnId = t → r.payload ≠ .abort
  nextTs : 0 < db.mgr.nextTs ∧ db.mgr.nextTs ≤ u64Max
  committed_lt : ∀ {t c}, db.mgr.committedTxns.lookup t = some c → c < db.mgr.nextTs ∧ c ≤ db.mgr.checkpointTs
  oracle : (analyzeTransactions records).checkpointOracleTs ≤ db.mgr.checkpointTs ∧
    (analyzeTransactions records).checkpointOracleTs < db.mgr.nextTs
  checkpointTs : db.mgr.checkpointTs ≤ db.mgr.nextTs
  seen_lt : ∀ r ∈ records, r.txnId < db.mgr.nextTxnId
  known_lt : (analyzeTransactions records).checkpointMaxTxnId < db.mgr.nextTxnId
  nextTxnId_le : ∀ {n}, 0 < n → (∀ r ∈ records, r.txnId < n) → (analyzeTransactions records).checkpointMaxTxnId < n →
    db.mgr.nextTxnId ≤ n

/-- Its transaction ids have not run out. -/
structure Reopened (records : List LogRecord) (image : Engine) (policy : IsolationPolicy) (db : Database) : Prop
    extends Opened records image policy db where
  nextTxnId : db.mgr.nextTxnId ≤ u64Max

theorem Reopened.sound {db : Database}
    (h : Reopened records image policy db) (hver : db.engine.Versioned) : db.Sound where
  versioned := hver
  exclusive := h.locks ▸ LockState.exclusive_new
  nextTxnId := h.nextTxnId
  nextTs := h.nextTs.2
  active := by
    intro t txn ht
    rw [h.active] at ht
    cases ht

private theorem advanceOraclePast_cases {m' : TransactionManager} {ts : Nat} (h : m.advanceOraclePast ts = some m') :
    ∃ n, m' = { m with nextTs := n } ∧ m.nextTs ≤ n ∧ ts < n ∧ n ≤ max m.nextTs u64Max := by
  unfold TransactionManager.advanceOraclePast at h
  split_ifs at h with hle hmax
  · cases h
    exact ⟨ts + 1,rfl,le_succ_of_le hle,lt_succ_self ts,le_max_of_le_right hmax⟩
  · cases h
    exact ⟨m.nextTs,rfl,le_rfl,not_le.mp hle,le_max_left _ _⟩

theorem seed_numbers (h : seed policy stats = some m) :
    ∃ n id ts, m = { TransactionManager.withPolicy policy with
        committedTxns := stats.committedTxns, uncommittedTxns := stats.uncommittedTxns, nextTs := n, nextTxnId := id,
        checkpointTs := ts } ∧
      stats.checkpointOracleTs < n ∧ stats.checkpointOracleTs ≤ ts ∧ ts ≤ n ∧ n ≤ u64Max ∧ stats.maxTxnId < id ∧
      (∀ {t c}, stats.committedTxns.lookup t = some c → c < n ∧ c ≤ ts ∧ t < id) ∧
      id = max (max 1 ((stats.committedTxns.entries.map (·.1)).foldr max 0 + 1)) (stats.maxTxnId + 1) := by
  obtain ⟨m₁,hload,hseed⟩ := bind_eq_some_iff.mp h
  obtain ⟨m₂,hadvance,heq⟩ := bind_eq_some_iff.mp hload
  obtain ⟨n,rfl,hn,hts,hmax⟩ := advanceOraclePast_cases hadvance
  cases heq
  have hmax' : n ≤ u64Max := hmax.trans (max_le (show 1 ≤ u64Max by decide) le_rfl)
  have hcommitted : ∀ {t c}, stats.committedTxns.lookup t = some c →
      c ≤ (stats.committedTxns.entries.map (·.2)).foldr max 0 ∧
      t < max (max 1 ((stats.committedTxns.entries.map (·.1)).foldr max 0 + 1)) (stats.maxTxnId + 1) := by
    intro t c hc
    have hmem := AList.mem_lookup_iff.mp hc
    refine ⟨(foldr_max_cases _).1 c (mem_map.mpr ⟨⟨t,c⟩,hmem,rfl⟩),?_⟩
    refine lt_max_of_lt_left (lt_max_of_lt_right (lt_succ_of_le ((foldr_max_cases _).1 t ?_)))
    exact mem_map.mpr ⟨⟨t,c⟩,hmem,rfl⟩
  split_ifs at hseed with horacle
  · obtain ⟨n',rfl,hle,hlt,hmax''⟩ := advanceOraclePast_cases hseed
    refine ⟨n',_,_,rfl,hlt,le_max_right _ _,max_le (hts.le.trans hle) hlt.le,hmax''.trans (max_le hmax' le_rfl),
      lt_max_of_lt_right (lt_succ_self _),fun hc => ?_,rfl⟩
    obtain ⟨hc,ht⟩ := hcommitted hc
    exact ⟨(hc.trans_lt hts).trans_le hle,le_max_of_le_left hc,ht⟩
  · cases hseed
    have hpos : 1 ≤ n := hn
    refine ⟨n,_,_,rfl,by omega,by omega,hts.le,hmax',lt_max_of_lt_right (lt_succ_self _),fun hc => ?_,rfl⟩
    obtain ⟨hc,ht⟩ := hcommitted hc
    exact ⟨hc.trans_lt hts,hc,ht⟩

private theorem advanceOraclePast_some (m : TransactionManager) {ts : Nat} (h : ts < u64Max) :
    ∃ m', m.advanceOraclePast ts = some m' := by
  unfold TransactionManager.advanceOraclePast
  split_ifs <;> exact ⟨_,rfl⟩

private theorem seed_some (policy : IsolationPolicy) (hc : ∀ {t c}, stats.committedTxns.lookup t = some c → c < u64Max)
    (ho : stats.checkpointOracleTs < u64Max) : ∃ m, seed policy stats = some m := by
  have hts : (stats.committedTxns.entries.map (·.2)).foldr max 0 < u64Max := by
    refine foldr_max_lt (by simp [u64Max]) (fun c hmem => ?_)
    obtain ⟨⟨t,c'⟩,hx,rfl⟩ := mem_map.mp hmem
    exact hc (AList.mem_lookup_iff.mpr hx)
  obtain ⟨m,hm⟩ := advanceOraclePast_some { TransactionManager.withPolicy policy with committedTxns := stats.committedTxns } hts
  simp only [seed,TransactionManager.loadCommittedTxns,hm,bind_eq_bind,bind_some]
  split_ifs
  · exact advanceOraclePast_some _ ho
  · exact ⟨_,rfl⟩

theorem mem_uncommittedTxns (records : List LogRecord) (image : Engine) (t : Nat) :
    t ∈ (recoverRecords records image).2.uncommittedTxns ↔ t ≠ 0 ∧ (∃ r ∈ records, r.txnId = t) ∧
      recoveredCommit records t = false ∧ ∀ r ∈ records, r.txnId = t → r.payload ≠ .abort := by
  simp only [recoverRecords,recoveredCommit,seenTxns,Finset.mem_filter,List.mem_toFinset,List.mem_filter,
    List.mem_map,decide_eq_true_eq,Bool.and_eq_true,Bool.not_eq_true',mem_aborted_iff,not_exists,not_and]
  tauto

variable [Crc32]

def recoveryScan (segments : Segments) : Except Error (List LogRecord) :=
  let wal := Wal.openDir segments
  collectItems (scanForward wal.writer.segments (if Lsn.isValid wal.lastCheckpointLsn then wal.lastCheckpointLsn else 0))

theorem openInner_eq_seed (hscan : recoveryScan segments = .ok records) (image : Engine) (policy : IsolationPolicy) :
    openInner segments image policy = (seed policy (recoverRecords records image).2).map
      (fun mgr => .ok ⟨(recoverRecords records image).1,image,Wal.openDir segments,mgr⟩) := by
  unfold recoveryScan at hscan
  simp only [openInner,recover,hscan]
  rfl

theorem opened {db : Database} (hscan : recoveryScan segments = .ok records)
    (h : openInner segments image policy = some (.ok db)) :
    Opened records image policy db ∧ db.wal = Wal.openDir segments := by
  rw [openInner_eq_seed hscan] at h
  obtain ⟨m,hseed,heq⟩ := map_eq_some_iff.mp h
  cases heq
  obtain ⟨n,id,ts,rfl,hon,hots,hts,hmax,hid,hc,heq⟩ := seed_numbers hseed
  refine ⟨⟨rfl,rfl,rfl,rfl,rfl,rfl,mem_uncommittedTxns _ image,⟨Nat.zero_lt_of_lt hon,hmax⟩,
    fun h => ⟨(hc h).1,(hc h).2.1⟩,⟨hots,hon⟩,hts,?_,lt_of_le_of_lt (le_max_right _ _) hid,?_⟩,rfl⟩
  · intro r hr
    exact lt_of_le_of_lt (le_max_of_le_left ((foldr_max_cases _).1 _ (mem_map.mpr ⟨r,hr,rfl⟩))) hid
  · intro n hn hseen hknown
    refine heq.trans_le (max_le (max_le hn (foldr_max_lt hn fun i hi => ?_)) (max_lt (foldr_max_lt hn fun i hi => ?_) hknown))
    · obtain ⟨⟨t,c⟩,hmem,rfl⟩ := mem_map.mp hi
      obtain ⟨r,hr,rfl,-⟩ := commit_of_lookup (AList.mem_lookup_iff.mpr hmem)
      exact hseen r hr
    · obtain ⟨r,hr,rfl⟩ := mem_map.mp hi
      exact hseen r hr

section

variable (h : HoldTorn segments log) (hv : ∀ r ∈ log, r.Fits)
  (hinc : log.Pairwise (fun r r' => r.lsn < r'.lsn)) (hlen : log.length < maxRecoveryRecords)
include h hv hinc hlen

theorem recoveryScan_eq :
    recoveryScan segments = .ok (sinceCheckpoint log) := by
  obtain ⟨closed,id,front,rs,tail,rfl,hw,ht,rfl⟩ := h
  obtain ⟨hh,-⟩ := WalWriter.holds_openDir id hw ht hv hinc
  exact scanRecent_eq hh hlen

theorem openInner_eq (hb : ∀ r ∈ sinceCheckpoint log, r.Bounded) (image : Engine) (policy : IsolationPolicy) :
    ∃ db, openInner segments image policy = some (.ok db) ∧ db.wal.writer.segments = segments ∧
      Reopened (sinceCheckpoint log) image policy db := by
  have hscan := recoveryScan_eq h hv hinc hlen
  have hmax : 0 < u64Max := by simp [u64Max]
  obtain ⟨horacle,hid⟩ := analysis_bounds hmax hmax (fun r hr ids oracleTs next hp => by simpa [hp] using (hb r hr).2)
  obtain ⟨m,hm⟩ := @seed_some (recoverRecords (sinceCheckpoint log) image).2 policy (fun {t c} hc => by
    obtain ⟨r,hr,rfl,hp⟩ := commit_of_lookup hc
    simpa [hp] using (hb r hr).2) horacle
  have hopen := openInner_eq_seed hscan image policy
  rw [hm] at hopen
  obtain ⟨hr,hwal⟩ := opened hscan hopen
  refine ⟨_,hopen,?_,hr,hr.nextTxnId_le hmax (fun r hr => (hb r hr).1) hid⟩
  obtain ⟨closed,id,front,rs,tail,rfl,hw,ht,rfl⟩ := h
  exact (WalWriter.holds_openDir id hw ht hv hinc).2

end

/-- What a key reads in the database that opening yields. -/
def openedRead (segments : Segments) (image : Engine) (policy : IsolationPolicy) (k : Bytes) : Option (Option Bytes) :=
  ((openInner segments image policy).bind Except.toOption).bind (fun db => (db.get k).bind Except.toOption)

theorem openedRead_eq_some {k : Bytes} {value : Option Bytes} (h : openedRead segments image policy k = some value) :
    ∃ db, openInner segments image policy = some (.ok db) ∧ db.get k = some (.ok value) := by
  obtain ⟨db,hopen,hread⟩ := bind_eq_some_iff.mp h
  exact ⟨db,eq_some_ok hopen,eq_some_ok hread⟩

end Database
end InterchangeDb
