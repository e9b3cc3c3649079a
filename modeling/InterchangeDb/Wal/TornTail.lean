import InterchangeDb.Lib.Run
import InterchangeDb.Wal.LogSpec

/-! The log over crashes and reopens. Reopening appends behind a torn record; every scan stops there. -/
namespace InterchangeDb
open List Option

inductive WalOp where
  | append (record : LogRecord)
  | sync
  /-- The first bytes of the last segment survive, and the log is reopened. -/
  | crash (bytes : Nat)
  | reopen
  deriving DecidableEq

/-- A log and what it ought to hold: the records of the closed segments, and
those of the active one with the position of their last byte. -/
structure WalRun where
  wal : Wal
  closed : List LogRecord
  active : List (LogRecord × Nat)

namespace WalRun

section

variable [Crc32]

def init : WalRun := ⟨Wal.openDir [], [], []⟩

omit [Crc32] in
/-- The records that survived each crash and those appended since, in order. -/
def log (s : WalRun) : List LogRecord := s.closed ++ s.active.map Prod.fst

omit [Crc32] in
/-- After an append, to the active segment or to a new one. -/
def appended (s : WalRun) (wal : Wal) (r : LogRecord) : WalRun :=
  if wal.writer.activeSegmentId = s.wal.writer.activeSegmentId then
    ⟨wal, s.closed, s.active ++ [(r,wal.writer.active.length)]⟩
  else ⟨wal, s.log, [(r,wal.writer.active.length)]⟩

def step (s : WalRun) : WalOp → Option WalRun
  | .append record => (s.wal.append record).map (fun (wal,lsn) => s.appended wal { record with lsn })
  | .sync => some { s with wal := s.wal.sync }
  | .crash bytes =>
    let w := s.wal.writer
    some ⟨Wal.openDir (w.closed ++ [(w.activeSegmentId,w.active.take bytes)]), s.closed,
      s.active.filter (fun x => decide (x.2 ≤ bytes))⟩
  | .reopen => some { s with wal := Wal.openDir s.wal.writer.segments }

/-- A scan of the log once it is reopened. -/
def scan (s : WalRun) : Except Error (List LogRecord) :=
  collectItems (scanForward (Wal.openDir s.wal.writer.segments).writer.segments 0)

/-- Nothing is appended behind a torn record, and what is appended fits the
fields of its encoding. -/
def AppendsWhole (s : WalRun) : WalOp → Prop
  | .append r => (scanSegment s.wal.writer.active).2 = none ∧ LogRecord.Fits { r with lsn := s.wal.writer.nextLsn }
  | _ => True

instance (s : WalRun) (op : WalOp) : Decidable (s.AppendsWhole op) := by
  cases op <;> unfold AppendsWhole <;> infer_instance

/-- The files hold the log, up to a torn tail. -/
private def Inv (s : WalRun) : Prop :=
  ∃ rs tail, s.wal.writer.Holds s.closed rs tail ∧ s.active = LogRecord.codec.ends 0 rs

private theorem inv_init : init.Inv := ⟨[],[],WalWriter.holds_create,rfl⟩

private theorem inv_cut {s : WalRun} {rs : List LogRecord} {tail : Bytes} (h : s.wal.writer.Holds s.closed rs tail)
    (n : Nat) : Inv ⟨Wal.openDir (s.wal.writer.closed ++ [(s.wal.writer.activeSegmentId,s.wal.writer.active.take n)]),
      s.closed,LogRecord.codec.ends 0 (LogRecord.codec.whole n rs)⟩ := by
  have hsub := (LogRecord.codec.whole_isPrefix n rs).sublist.append_left s.closed
  obtain ⟨tail',hcut,ht'⟩ := FrameCodec.take_frames_torn (c := LogRecord.codec)
    (fun r hr => h.fits r (mem_append_right _ hr)) h.torn n
  refine ⟨LogRecord.codec.whole n rs,tail',?_,rfl⟩
  rw [h.last,hcut]
  exact (WalWriter.holds_openDir _ h.whole ht' (fun r hr => h.fits r (hsub.subset hr))
    (h.increasing.sublist hsub)).1

private theorem inv_step {s s' : WalRun} {op : WalOp} (hi : s.Inv) (hc : s.AppendsWhole op)
    (h : s.step op = some s') : s'.Inv := by
  obtain ⟨rs,tail,hh,hactive⟩ := hi
  cases op with
  | sync =>
    cases h
    exact ⟨rs,tail,⟨hh.whole,hh.last,hh.torn,hh.fits,hh.increasing,hh.next⟩,hactive⟩
  | crash n =>
    cases h
    have hcut := inv_cut hh n
    have hends := FrameCodec.filter_ends (c := LogRecord.codec) 0 n rs
    rw [zero_add] at hends
    simpa only [hactive,hends] using hcut
  | reopen =>
    cases h
    have hcut := inv_cut hh s.wal.writer.active.length
    rw [take_length] at hcut
    have hall : LogRecord.codec.whole s.wal.writer.active.length rs = rs := by
      apply FrameCodec.whole_of_length_le
      rw [hh.last,length_append]
      exact Nat.le_add_right _ _
    rw [hall,← hactive] at hcut
    exact hcut
  | append r =>
    obtain ⟨hstop,hfits⟩ := hc
    have htail : tail = [] := by
      rw [hh.last] at hstop
      exact (scanSegment_torn (fun r hr => hh.fits r (mem_append_right _ hr)) hh.torn).2.mp hstop
    subst htail
    obtain ⟨⟨wal,lsn⟩,hap,rfl⟩ := map_eq_some_iff.mp h
    obtain ⟨⟨writer,lsn'⟩,hwr,heq⟩ := bind_eq_some_iff.mp hap
    cases heq
    obtain ⟨rfl,hcases⟩ := hh.append hfits hwr
    change Inv (s.appended _ _)
    rcases hcases with ⟨hid,hh'⟩ | ⟨hid,hh'⟩
    · rw [appended,if_pos hid]
      refine ⟨_,[],hh',?_⟩
      have hlen := hh'.last
      simp [hactive,FrameCodec.ends_append,FrameCodec.ends,hlen,LogRecord.codec]
    · have hlog : s.log = s.closed ++ rs := by rw [log,hactive,FrameCodec.map_ends]
      rw [appended,if_neg hid,hlog]
      refine ⟨_,[],hh',?_⟩
      have hlen := hh'.last
      simp [FrameCodec.ends,hlen,LogRecord.codec]

private theorem scan_of_inv {s : WalRun} (hi : s.Inv) (hlen : s.log.length < maxRecoveryRecords) :
    s.scan = .ok s.log ∧ s.log.Pairwise (fun r r' => r.lsn < r'.lsn) := by
  obtain ⟨rs,tail,hh,hactive⟩ := hi
  have hlog : s.log = s.closed ++ rs := by rw [log,hactive,FrameCodec.map_ends]
  rw [hlog] at hlen ⊢
  refine ⟨?_,hh.increasing⟩
  have hscan := hh.scanForward hlen 0
  rw [← hh.reopen.2,filter_eq_self.mpr (by simp)] at hscan
  change collectItems (scanForward (WalWriter.openDir s.wal.writer.segments).segments 0) = _
  rw [hscan,collectItems_ok]

/-- In every run that appends only whole records behind whole records, the scan
after a reopen returns what survived and what was appended since. -/
theorem scan_after_reopen {ops : List WalOp} {s : WalRun} (h : run step init ops = some s)
    (hc : AllSteps step AppendsWhole init ops) (hlen : s.log.length < maxRecoveryRecords) :
    s.scan = .ok s.log ∧ s.log.Pairwise (fun r r' => r.lsn < r'.lsn) :=
  scan_of_inv (run_invariant AppendsWhole (fun _ _ _ hi hcond hstep => inv_step hi hcond hstep) inv_init hc h) hlen

end

/-- A crash at the end of a record, and one inside a record that a second crash
removes. -/
theorem scan_after_reopen_cut : ∃ s, run step init
      [.append (.begin 1),.append (.begin 2),.sync,.crash 33,.append (.begin 3),.append (.begin 4),.crash 70,.crash 66,
        .append (.begin 5),.sync] = some s ∧
    s.log.map (fun r => (r.lsn,r.txnId)) = [(0,1),(1,3),(2,5)] ∧
    s.scan = .ok s.log ∧ s.log.Pairwise (fun r r' => r.lsn < r'.lsn) := by
  refine exists_observed (fun s => s.log.map (fun r => (r.lsn,r.txnId))) [(0,1),(1,3),(2,5)] (by decide +kernel)
    (fun s hs hlog => ⟨hlog,scan_after_reopen hs (by decide +kernel) ?_⟩)
  have hlen := congrArg length hlog
  rw [length_map] at hlen
  rw [hlen]
  decide

/-- A crash inside the second record; the record appended behind its remains is
synced and never read again. -/
theorem scan_loses_append_behind_torn : ∃ s, run step init
      [.append (.begin 1),.append (.begin 2),.crash 34,.append (.begin 3),.sync,.reopen] = some s ∧
    s.log.map (fun r => (r.lsn,r.txnId)) = [(0,1),(1,3)] ∧
    s.scan.map (fun log => log.map (fun r => (r.lsn,r.txnId))) = .ok [(0,1)] := by
  exact exists_observed (fun s => (s.log.map (fun r => (r.lsn,r.txnId)),s.scan.map (fun log => log.map (fun r => (r.lsn,r.txnId)))))
    ([(0,1),(1,3)],.ok [(0,1)]) (by decide +kernel) (fun s _ hh => Prod.mk.inj hh)

end WalRun
end InterchangeDb
