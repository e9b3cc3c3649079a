import InterchangeDb.Wal.Log
import InterchangeDb.Wal.RecordCodec

/-! What the files of a log hold: whole records, and at most a torn one at the end of the last. -/
namespace InterchangeDb
open List Option

variable [Crc32]
variable {log rs : List LogRecord} {tail : Bytes} {closed segments : Segments} {r : LogRecord}

/-- The segments hold these records and nothing else. -/
def HoldWhole (segments : Segments) (log : List LogRecord) : Prop :=
  ∃ parts : List (List LogRecord), segments.map Prod.snd = parts.map LogRecord.codec.frames ∧ parts.flatten = log

namespace HoldWhole

theorem nil : HoldWhole [] [] := ⟨[],rfl,rfl⟩

theorem append {segments segments' : Segments} {log log' : List LogRecord} (h : HoldWhole segments log)
    (h' : HoldWhole segments' log') : HoldWhole (segments ++ segments') (log ++ log') := by
  obtain ⟨parts,hs,rfl⟩ := h
  obtain ⟨parts',hs',rfl⟩ := h'
  exact ⟨parts ++ parts',by simp [hs,hs'],flatten_append⟩

theorem single (id : Nat) (rs : List LogRecord) : HoldWhole [(id,LogRecord.codec.frames rs)] rs :=
  ⟨[rs],rfl,by simp⟩

theorem cons_cases {id : Nat} {data : Bytes} {segments : Segments} {log : List LogRecord}
    (h : HoldWhole ((id,data)::segments) log) :
    ∃ rs log', data = LogRecord.codec.frames rs ∧ log = rs ++ log' ∧ HoldWhole segments log' := by
  obtain ⟨parts,hs,rfl⟩ := h
  cases parts with
  | nil => simp at hs
  | cons rs parts =>
    simp only [map_cons,cons.injEq] at hs
    exact ⟨rs,parts.flatten,hs.1,rfl,parts,hs.2,rfl⟩

end HoldWhole

omit [Crc32] in
theorem boundItems_ok {n : Nat} (h : log.length < n) :
    boundItems n (log.map .ok) = log.map .ok := by
  induction log generalizing n with
  | nil =>
    cases n with
    | zero => simp at h
    | succ n => rfl
  | cons r log ih =>
    cases n with
    | zero => simp at h
    | succ n => simp [boundItems,ih (show log.length < n by simpa using h)]

omit [Crc32] in
theorem collectItems_ok (log : List LogRecord) : collectItems (log.map .ok) = .ok log := by
  induction log with
  | nil => rfl
  | cons r log ih => simp [collectItems,ih,Except.map]

omit [Crc32] in
theorem okItems_ok (log : List LogRecord) : okItems (log.map .ok) = log := by
  induction log with
  | nil => rfl
  | cons r log ih => simp [okItems,ih]

/-- A segment with a torn tail scans to its whole records. -/
theorem scanSegment_torn (hv : ∀ r ∈ rs, r.Fits) (ht : LogRecord.codec.Torn tail) :
    (scanSegment (LogRecord.codec.frames rs ++ tail)).1 = rs ∧
      ((scanSegment (LogRecord.codec.frames rs ++ tail)).2 = none ↔ tail = []) :=
  FrameCodec.scanFrames_torn (c := LogRecord.codec) hv ht le_rfl

theorem scanSegment_whole (hv : ∀ r ∈ rs, r.Fits) :
    scanSegment (LogRecord.codec.frames rs) = (rs,none) := by
  have hscan := scanSegment_torn hv (.inl rfl)
  rw [append_nil] at hscan
  exact Prod.ext hscan.1 (hscan.2.mpr rfl)

section

variable (h : HoldWhole closed log) (hv : ∀ r ∈ log ++ rs, r.Fits) (ht : LogRecord.codec.Torn tail)
include h hv ht

/-- The forward scan of whole segments and a last one with a torn tail. -/
theorem forwardItems_eq (startLsn id : Nat) :
    forwardItems startLsn (closed ++ [(id,LogRecord.codec.frames rs ++ tail)]) =
      ((log ++ rs).filter (fun r => decide (startLsn ≤ r.lsn))).map .ok := by
  induction closed generalizing log with
  | nil =>
    obtain ⟨parts,hs,rfl⟩ := h
    obtain rfl : parts = [] := by simpa using hs.symm
    have hscan := scanSegment_torn (fun r hr => hv r (by simpa using hr)) ht
    rw [nil_append,forwardItems]
    simp only [hscan.1,forwardItems]
    cases hstop : (scanSegment (LogRecord.codec.frames rs ++ tail)).2 with
    | none | some => simp
  | cons x closed ih =>
    obtain ⟨id',data⟩ := x
    obtain ⟨rs',log',rfl,rfl,hrest⟩ := h.cons_cases
    rw [cons_append,forwardItems,scanSegment_whole (fun r hr => hv r (by simp [hr]))]
    simp only
    rw [ih hrest (fun r hr => hv r (by
      rw [append_assoc]
      exact mem_append_right _ hr))]
    simp

theorem scanForward_eq (startLsn id : Nat) (hlen : (log ++ rs).length < maxRecoveryRecords) :
    scanForward (closed ++ [(id,LogRecord.codec.frames rs ++ tail)]) startLsn =
      ((log ++ rs).filter (fun r => decide (startLsn ≤ r.lsn))).map .ok := by
  rw [scanForward,forwardItems_eq h hv ht]
  exact boundItems_ok (lt_of_le_of_lt (length_filter_le _ _) hlen)

end

theorem highestLsn_torn (hv : ∀ r ∈ rs, r.Fits) (ht : LogRecord.codec.Torn tail) :
    highestLsn (LogRecord.codec.frames rs ++ tail) = rs.getLast?.map (·.lsn) := by
  rw [highestLsn,(scanSegment_torn hv ht).1]

theorem highestLsn_whole (hv : ∀ r ∈ rs, r.Fits) :
    highestLsn (LogRecord.codec.frames rs) = rs.getLast?.map (·.lsn) := by
  rw [highestLsn,scanSegment_whole hv]

private theorem findSome_highest (h : HoldWhole segments log) (hv : ∀ r ∈ log, r.Fits) :
    segments.reverse.findSome? (fun s => highestLsn s.2) = log.getLast?.map (·.lsn) := by
  induction segments generalizing log with
  | nil =>
    obtain ⟨parts,hs,rfl⟩ := h
    obtain rfl : parts = [] := by simpa using hs.symm
    rfl
  | cons x segments ih =>
    obtain ⟨id,data⟩ := x
    obtain ⟨rs,log',rfl,rfl,hrest⟩ := h.cons_cases
    have hhigh := highestLsn_whole (fun r hr => hv r (mem_append_left _ hr))
    rw [reverse_cons,findSome?_append,ih hrest (fun r hr => hv r (mem_append_right _ hr)),
      getLast?_append]
    simp only [findSome?_cons,findSome?_nil,hhigh]
    cases log'.getLast? with
    | some r => rfl
    | none => cases rs.getLast? <;> rfl

namespace WalWriter
variable {r : LogRecord} {lsn : Nat} {segments : Segments}

/-- The writer's files hold the records of the closed segments, those of the
active one, and a torn tail; the sequence numbers grow towards the next one. -/
structure Holds (w : WalWriter) (closed active : List LogRecord) (tail : Bytes) : Prop where
  whole : HoldWhole w.closed closed
  last : w.active = LogRecord.codec.frames active ++ tail
  torn : LogRecord.codec.Torn tail
  fits : ∀ r ∈ closed ++ active, r.Fits
  increasing : (closed ++ active).Pairwise (fun r r' => r.lsn < r'.lsn)
  next : ∀ r ∈ closed ++ active, r.lsn < w.nextLsn

theorem holds_create : create.Holds [] [] [] :=
  ⟨.nil,rfl,.inl rfl,by simp,by simp,by simp⟩

variable {w w' : WalWriter} {closed active : List LogRecord} {tail : Bytes}

theorem append_bounds (ha : w.append r = some (w',lsn)) :
    w.nextLsn < u64Max ∧ r.size ≤ maxRecordSize := by
  unfold append at ha
  split_ifs at ha with hlsn
  refine ⟨hlsn,?_⟩
  by_contra hbig
  have hnone : LogRecord.encode { r with lsn := w.nextLsn } = none := if_neg hbig
  simp [hnone] at ha

theorem append_eq (hlsn : w.nextLsn < u64Max) (hsize : r.size ≤ maxRecordSize)
    (hroom : w.active.length + r.size ≤ w.maxSegmentSize) :
    w.append r = some ({ w with
      active := w.active ++ LogRecord.bytes { r with lsn := w.nextLsn }
      nextLsn := w.nextLsn + 1 },w.nextLsn) := by
  have henc : LogRecord.encode { r with lsn := w.nextLsn } = some (LogRecord.bytes { r with lsn := w.nextLsn }) :=
    if_pos hsize
  have hlen : (LogRecord.bytes { r with lsn := w.nextLsn }).length = r.size := LogRecord.length_bytes _
  simp only [append,if_pos hlsn,henc,bind_eq_bind,bind_some,hlen]
  rw [if_neg (by omega)]
  rfl

/-- An append to files without torn tail, in the active segment or the next one. -/
theorem Holds.append (h : w.Holds closed active [])
    (hr : LogRecord.Fits { r with lsn := w.nextLsn }) (ha : w.append r = some (w',lsn)) :
    lsn = w.nextLsn ∧
      ((w'.activeSegmentId = w.activeSegmentId ∧ w'.Holds closed (active ++ [{ r with lsn := w.nextLsn }]) []) ∨
        (w'.activeSegmentId ≠ w.activeSegmentId ∧ w'.Holds (closed ++ active) [{ r with lsn := w.nextLsn }] [])) := by
  set r' : LogRecord := { r with lsn := w.nextLsn } with hr'
  have henc : LogRecord.encode r' = some r'.bytes := if_pos hr.size
  have hfits : ∀ x ∈ closed ++ active ++ [r'], x.Fits := by
    intro x hx
    rcases mem_append.mp hx with hx | hx
    · exact h.fits x hx
    · rw [mem_singleton.mp hx]
      exact hr
  have hinc : (closed ++ active ++ [r']).Pairwise (fun r r' => r.lsn < r'.lsn) := by
    rw [pairwise_append]
    refine ⟨h.increasing,by simp,?_⟩
    intro x hx y hy
    rw [mem_singleton.mp hy]
    exact h.next x hx
  have hnext : ∀ x ∈ closed ++ active ++ [r'], x.lsn < w.nextLsn + 1 := by
    intro x hx
    rcases mem_append.mp hx with hx | hx
    · exact Nat.lt_succ_of_lt (h.next x hx)
    · rw [mem_singleton.mp hx]
      exact Nat.lt_succ_self _
  have hframes : LogRecord.codec.frames [r'] = r'.bytes := by simp [LogRecord.codec]
  unfold WalWriter.append at ha
  split_ifs at ha with hlsn
  simp only [← hr',henc,bind_eq_bind,bind_some] at ha
  split_ifs at ha with hrot
  · unfold rotateSegment at ha
    split_ifs at ha with hid
    swap
    · cases ha
    simp only [Option.bind_some,Option.pure_def,Option.some.injEq,Prod.mk.injEq] at ha
    obtain ⟨rfl,rfl⟩ := ha
    refine ⟨rfl,.inr ⟨Nat.succ_ne_self _,?_⟩⟩
    refine ⟨?_,by simp [hframes],.inl rfl,hfits,hinc,hnext⟩
    have hlast : w.active = LogRecord.codec.frames active := by rw [h.last,append_nil]
    simp only [segments,hlast]
    exact h.whole.append (.single _ _)
  · simp only [Option.pure_def,Option.some.injEq,Prod.mk.injEq] at ha
    obtain ⟨rfl,rfl⟩ := ha
    rw [append_assoc] at hfits hinc hnext
    refine ⟨rfl,.inl ⟨rfl,h.whole,?_,.inl rfl,hfits,hinc,hnext⟩⟩
    simp [h.last,append_nil,FrameCodec.frames_append,hframes]

theorem holds_openDir {log rs : List LogRecord} (id : Nat) (hw : HoldWhole segments log) (ht : LogRecord.codec.Torn tail)
    (hv : ∀ r ∈ log ++ rs, r.Fits) (hinc : (log ++ rs).Pairwise (fun r r' => r.lsn < r'.lsn)) :
    (openDir (segments ++ [(id,LogRecord.codec.frames rs ++ tail)])).Holds log rs tail ∧
      (openDir (segments ++ [(id,LogRecord.codec.frames rs ++ tail)])).segments =
        segments ++ [(id,LogRecord.codec.frames rs ++ tail)] := by
  have hopen : openDir (segments ++ [(id,LogRecord.codec.frames rs ++ tail)]) =
      ⟨segments, id, LogRecord.codec.frames rs ++ tail, (LogRecord.codec.frames rs ++ tail).length,
        ((log ++ rs).getLast?.map (·.lsn)).elim 0 (· + 1), defaultMaxSegmentSize⟩ := by
    have hhigh := highestLsn_torn (fun r hr => hv r (mem_append_right _ hr)) ht
    have hback := findSome_highest hw (fun r hr => hv r (mem_append_left _ hr))
    simp only [openDir,getLast?_append,getLast?_singleton,some_or,dropLast_concat,
      hhigh,hback]
    cases rs.getLast? <;> simp
  rw [hopen]
  refine ⟨⟨hw,rfl,ht,hv,hinc,?_⟩,rfl⟩
  intro r hr
  obtain ⟨init,last,hlog⟩ : ∃ init last, log ++ rs = init ++ [last] := by
    refine ⟨(log ++ rs).dropLast,(log ++ rs).getLast (ne_nil_of_mem hr),?_⟩
    exact (dropLast_append_getLast _).symm
  rw [hlog] at hr hinc ⊢
  simp only [getLast?_append,getLast?_singleton,some_or,map_some,elim_some]
  rcases mem_append.mp hr with hr | hr
  · exact Nat.lt_succ_of_lt ((pairwise_append.mp hinc).2.2 r hr last (by simp))
  · rw [mem_singleton.mp hr]
    exact Nat.lt_succ_self _

theorem Holds.reopen (h : w.Holds closed active tail) :
    (openDir w.segments).Holds closed active tail ∧ (openDir w.segments).segments = w.segments := by
  have hopen := holds_openDir w.activeSegmentId h.whole h.torn h.fits h.increasing
  rwa [← h.last] at hopen

/-- Scanning the files returns the records from a sequence number on. -/
theorem Holds.scanForward (h : w.Holds closed active tail) (hlen : (closed ++ active).length < maxRecoveryRecords)
    (startLsn : Nat) :
    InterchangeDb.scanForward w.segments startLsn =
      ((closed ++ active).filter (fun r => decide (startLsn ≤ r.lsn))).map .ok := by
  rw [segments,h.last]
  exact scanForward_eq h.whole h.fits h.torn startLsn _ hlen

private theorem holdWhole_truncate {log : List LogRecord} (h : HoldWhole segments log)
    (hv : ∀ r ∈ log, r.Fits) (hlt : ∀ r ∈ log, r.lsn < lsn) (hle : lsn ≤ u64Max) :
    HoldWhole (segments.filter (fun s =>
      match highestLsn s.2 with
      | some h => !(Lsn.isValid h && decide (h < lsn))
      | none => true)) [] := by
  induction segments generalizing log with
  | nil => exact .nil
  | cons x segments ih =>
    obtain ⟨id,data⟩ := x
    obtain ⟨rs,log',rfl,rfl,hrest⟩ := h.cons_cases
    have hrec := ih hrest (fun r hr => hv r (mem_append_right _ hr)) (fun r hr => hlt r (mem_append_right _ hr))
    have hhigh := highestLsn_whole (fun r hr => hv r (mem_append_left _ hr))
    cases hlast : rs.getLast? with
    | none =>
      rw [hlast,map_none] at hhigh
      rw [filter_cons_of_pos (by simp only [hhigh]),getLast?_eq_none_iff.mp hlast]
      exact (HoldWhole.single id []).append hrec
    | some r =>
      have hr := hlt r (mem_append_left _ (mem_of_getLast? hlast))
      have hvalid : Lsn.isValid r.lsn = true := by
        simp only [Lsn.isValid,Lsn.invalid,bne_iff_ne]
        omega
      rw [filter_cons_of_neg (by simp [hhigh, hlast, hvalid, hr])]
      exact hrec

theorem Holds.sync (h : w.Holds closed active tail) : w.sync.Holds closed active tail :=
  ⟨h.whole,h.last,h.torn,h.fits,h.increasing,h.next⟩

theorem Holds.truncateBefore {w : Wal} (h : w.writer.Holds closed active [])
    (hlt : ∀ r ∈ closed, r.lsn < lsn) (hle : lsn ≤ u64Max) : (w.truncateBefore lsn).writer.Holds [] active [] where
  whole := holdWhole_truncate h.whole (fun r hr => h.fits r (mem_append_left _ hr)) hlt hle
  last := h.last
  torn := h.torn
  fits r hr := h.fits r (mem_append_right _ hr)
  increasing := (pairwise_append.mp h.increasing).2.1
  next r hr := h.next r (mem_append_right _ hr)

/-- The files hold this log and nothing else. -/
def Files (w : WalWriter) (log : List LogRecord) : Prop := ∃ closed active, closed ++ active = log ∧ w.Holds closed active []

variable {log : List LogRecord}

section

variable (h : w.Files log)
include h

theorem Files.append (hr : LogRecord.Fits { r with lsn := w.nextLsn })
    (ha : w.append r = some (w',lsn)) : lsn = w.nextLsn ∧ w'.Files (log ++ [{ r with lsn }]) := by
  obtain ⟨closed,active,rfl,hh⟩ := h
  obtain ⟨rfl,⟨_,hh'⟩ | ⟨_,hh'⟩⟩ := hh.append hr ha
  · exact ⟨rfl,closed,_,(append_assoc ..).symm,hh'⟩
  · exact ⟨rfl,closed ++ active,_,rfl,hh'⟩

theorem Files.sync : w.sync.Files log := by
  obtain ⟨closed,active,rfl,hh⟩ := h
  exact ⟨closed,active,rfl,hh.sync⟩

theorem Files.fits : ∀ r ∈ log, r.Fits := by
  obtain ⟨closed,active,rfl,hh⟩ := h
  exact hh.fits

theorem Files.increasing : log.Pairwise (fun r r' => r.lsn < r'.lsn) := by
  obtain ⟨closed,active,rfl,hh⟩ := h
  exact hh.increasing

theorem Files.whole : HoldWhole w.segments log := by
  obtain ⟨closed,active,rfl,hh⟩ := h
  have hlast : w.active = LogRecord.codec.frames active := by rw [hh.last,append_nil]
  rw [segments,hlast]
  exact hh.whole.append (.single _ _)

end

end WalWriter

theorem Wal.append_eq {w : Wal} (hlsn : w.writer.nextLsn < u64Max) (hsize : r.size ≤ maxRecordSize)
    (hroom : w.writer.active.length + r.size ≤ w.writer.maxSegmentSize) :
    w.append r = some ({ w with writer := { w.writer with
      active := w.writer.active ++ LogRecord.bytes { r with lsn := w.writer.nextLsn }
      nextLsn := w.writer.nextLsn + 1 } },w.writer.nextLsn) := by
  rw [Wal.append,WalWriter.append_eq hlsn hsize hroom]
  rfl

/-- The files hold these records up to a torn tail of the last segment. -/
def HoldTorn (segments : Segments) (log : List LogRecord) : Prop :=
  ∃ closed id front rs tail, segments = closed ++ [(id,LogRecord.codec.frames rs ++ tail)] ∧ HoldWhole closed front ∧
    LogRecord.codec.Torn tail ∧ front ++ rs = log

theorem WalWriter.Files.torn {w : WalWriter} (h : w.Files log) : HoldTorn w.segments log := by
  obtain ⟨closed,active,rfl,hh⟩ := h
  exact ⟨w.closed,w.activeSegmentId,closed,active,[],by rw [segments,hh.last],hh.whole,hh.torn,rfl⟩

theorem HoldTorn.scan_eq (h : HoldTorn segments log)
    (hv : ∀ r ∈ log, r.Fits) : segments.flatMap (fun x => (scanSegment x.2).1) = log := by
  obtain ⟨closed,id,front,rs,tail,rfl,hw,ht,rfl⟩ := h
  induction closed generalizing front with
  | nil =>
    obtain ⟨parts,hs,rfl⟩ := hw
    obtain rfl : parts = [] := by simpa using hs.symm
    simpa using (scanSegment_torn (fun r hr => hv r (by simpa using hr)) ht).1
  | cons x closed ih =>
    obtain ⟨id',data⟩ := x
    obtain ⟨rs',log',rfl,rfl,hrest⟩ := hw.cons_cases
    rw [cons_append,flatMap_cons,scanSegment_whole (fun r hr => hv r (by simp [hr])),append_assoc]
    exact congrArg (rs' ++ ·) (ih log' hrest (fun r hr => hv r (by
      rw [append_assoc]
      exact mem_append_right _ hr)))

theorem HoldWhole.cut {before after : Segments} {id : Nat} {data : Bytes}
    (h : HoldWhole (before ++ (id,data)::after) log) (hv : ∀ r ∈ log, r.Fits) (n : Nat) :
    ∃ log', HoldTorn (before ++ [(id,data.take n)]) log' ∧ log' <+: log := by
  induction before generalizing log with
  | nil =>
    obtain ⟨rs,rest,rfl,rfl,_⟩ := h.cons_cases
    obtain ⟨tail,hcut,ht⟩ := FrameCodec.take_frames (c := LogRecord.codec)
      (fun r hr => hv r (mem_append_left _ hr)) n
    refine ⟨_,⟨[],id,[],_,tail,by rw [hcut],.nil,ht,rfl⟩,?_⟩
    exact (LogRecord.codec.whole_isPrefix n rs).trans (prefix_append _ _)
  | cons x before ih =>
    obtain ⟨id',data'⟩ := x
    obtain ⟨rs₀,rest,rfl,rfl,hrest⟩ := h.cons_cases
    obtain ⟨log',⟨closed,id₁,front,rs,tail,heq,hfront,ht,rfl⟩,hpre⟩ :=
      ih hrest (fun r hr => hv r (mem_append_right _ hr))
    refine ⟨rs₀ ++ (front ++ rs),⟨_::closed,id₁,rs₀ ++ front,rs,tail,?_,(single id' rs₀).append hfront,ht,
      append_assoc ..⟩,?_⟩
    · rw [cons_append,heq,cons_append]
    · exact prefix_append_right_inj rs₀ |>.mpr hpre

/-- A record that stands whole in a segment file, behind whole records. -/
def StandsIn (segments : Segments) (r : LogRecord) : Prop :=
  ∃ x ∈ segments, ∃ front back, x.2 = LogRecord.codec.frames (front ++ [r]) ++ back ∧ ∀ y ∈ front ++ [r], y.Fits

/-- The whole commit record of a transaction is left in the files. -/
def CommitIn (segments : Segments) (t c : Nat) : Prop :=
  ∃ r, StandsIn segments r ∧ r.txnId = t ∧ r.payload = .commit c

private theorem mem_of_frames_append {front : List LogRecord} {back : Bytes}
    (hfront : ∀ y ∈ front ++ [r], y.Fits) (hv : ∀ y ∈ rs, y.Fits) (ht : LogRecord.codec.Torn tail)
    (h : LogRecord.codec.frames rs ++ tail = LogRecord.codec.frames (front ++ [r]) ++ back) : r ∈ rs := by
  have hscan := (scanSegment_torn hv ht).1
  obtain ⟨fuel,_,hs⟩ := FrameCodec.scanFrames_append (c := LogRecord.codec) hfront _ back le_rfl
  rw [h,scanSegment] at hscan
  rw [← hscan]
  refine (congrArg (r ∈ Prod.fst ·) hs).mpr ?_
  simp

private theorem frames_append_of_mem (hr : r ∈ rs) (tail : Bytes) :
    ∃ front back, LogRecord.codec.frames rs ++ tail = LogRecord.codec.frames (front ++ [r]) ++ back ∧
      ∀ y ∈ front ++ [r], y ∈ rs := by
  obtain ⟨front,back,rfl⟩ := append_of_mem hr
  refine ⟨front,LogRecord.codec.frames back ++ tail,by simp,fun y hy => ?_⟩
  rw [← singleton_append,← append_assoc]
  exact mem_append_left _ hy

private theorem standsIn_torn_iff {id : Nat} (hw : HoldWhole closed log)
    (ht : LogRecord.codec.Torn tail) (hv : ∀ r ∈ log ++ rs, r.Fits) (r : LogRecord) :
    StandsIn (closed ++ [(id,LogRecord.codec.frames rs ++ tail)]) r ↔ r ∈ log ++ rs := by
  induction closed generalizing log with
  | nil =>
    obtain ⟨parts,hs,rfl⟩ := hw
    obtain rfl : parts = [] := by simpa using hs.symm
    simp only [flatten_nil,nil_append] at hv ⊢
    constructor
    · rintro ⟨x,hx,front,back,heq,hfront⟩
      rw [mem_singleton.mp hx] at heq
      exact mem_of_frames_append hfront hv ht heq
    · intro hr
      obtain ⟨front,back,heq,hsub⟩ := frames_append_of_mem hr tail
      exact ⟨_,mem_singleton_self _,front,back,heq,fun y hy => hv y (hsub y hy)⟩
  | cons x closed ih =>
    obtain ⟨id',data⟩ := x
    obtain ⟨rs',log',rfl,rfl,hrest⟩ := hw.cons_cases
    have hv' : ∀ y ∈ log' ++ rs, y.Fits := fun y hy => hv y (by
      rw [append_assoc]
      exact mem_append_right _ hy)
    rw [append_assoc,mem_append,← ih hrest hv']
    constructor
    · rintro ⟨x,hx,front,back,heq,hfront⟩
      rcases mem_cons.mp hx with rfl | hx
      · left
        rw [← append_nil (LogRecord.codec.frames rs')] at heq
        exact mem_of_frames_append hfront (fun y hy => hv y (by simp [hy])) (.inl rfl) heq
      · exact .inr ⟨x,hx,front,back,heq,hfront⟩
    · rintro (hr | ⟨x,hx,hstands⟩)
      · obtain ⟨front,back,heq,hsub⟩ := frames_append_of_mem hr []
        rw [append_nil] at heq
        exact ⟨_,mem_cons_self,front,back,heq,fun y hy => hv y (by simp [hsub y hy])⟩
      · exact ⟨x,mem_cons_of_mem _ hx,hstands⟩

/-- In files that hold a log up to a torn tail, these are the records of the log. -/
theorem standsIn_iff (h : HoldTorn segments log) (hv : ∀ r ∈ log, r.Fits)
    (r : LogRecord) : StandsIn segments r ↔ r ∈ log := by
  obtain ⟨closed,id,front,rs,tail,rfl,hw,ht,rfl⟩ := h
  exact standsIn_torn_iff hw ht hv r

end InterchangeDb
