import InterchangeDb.Database.Logged
import InterchangeDb.Database.Reopen

/-! Uncommitted writes after a restart. Recovery leaves them in the engine, hidden by a list rebuilt from the log. -/
namespace InterchangeDb
open List Option Function

namespace MvccState

/-- Listed as unfinished, and not to be active or committed any more. -/
structure Listed (s : MvccState) (t : Nat) : Prop where
  listed : t ∈ s.uncommitted
  known : t < s.nextTxnId
  inactive : s.active t = none
  uncommitted : s.committed t = none

variable {rules : Rules} {s s' : MvccState} {ev : List Event}

theorem Listed.step {t : Nat} (h : s.Listed t) (hst : MvccStep rules s ev s') : s'.Listed t := by
  obtain ⟨hl,hk,ha,hc⟩ := h
  cases hst with
  | quiet | write | gc => exact ⟨hl,hk,ha,hc⟩
  | begin => exact ⟨hl,Nat.lt_succ_of_lt hk,(update_of_ne hk.ne _ _).trans ha,hc⟩
  | commit t' b _ hact =>
    have hne : t ≠ t' := fun heq => by simp [← heq,ha] at hact
    exact ⟨hl,hk,(update_of_ne hne _ _).trans ha,(update_of_ne hne _ _).trans hc⟩
  | abort t' b _ hact =>
    have hne : t ≠ t' := fun heq => by simp [← heq,ha] at hact
    exact ⟨hl,hk,(update_of_ne hne _ _).trans ha,hc⟩
  | checkpoint => exact ⟨hl,hk,ha,by simp [hc]⟩

theorem Listed.not_visible {t : Nat} (h : s.Listed t) {reader : Nat} (hne : t ≠ reader) (readTs ts : Nat) :
    ¬ s.Visible reader readTs t ts := by
  rintro (heq | ⟨c,hc,_⟩ | ⟨_,_,hnot,_⟩)
  · exact hne heq
  · rw [h.uncommitted] at hc
    cases hc
  · exact hnot (.inl h.listed)

/-- Every version was there before, or belongs to a transaction of the history. -/
structure Adds (old : Bytes → Nat → Option MvccValue) (s : MvccState) (h : History) : Prop where
  version : ∀ {k ts v}, s.version k ts = some v → old k ts = some v ∨ .began v.txnId ts ∈ h
  active : ∀ {t b}, s.active t = some b → .began t b ∈ h

theorem Adds.step {old : Bytes → Nat → Option MvccValue} {h : History} (ha : Adds old s h)
    (hst : MvccStep rules s ev s') : Adds old s' (ev ++ h) := by
  have hold : ∀ {k ts v}, s.version k ts = some v → old k ts = some v ∨ .began v.txnId ts ∈ ev ++ h :=
    fun hv => (ha.version hv).imp_right (mem_append_right _)
  have hactive : ∀ {t b}, s.active t = some b → .began t b ∈ ev ++ h := fun hb => mem_append_right _ (ha.active hb)
  have herase : ∀ {t₀ t b}, update s.active t₀ none t = some b → .began t b ∈ ev ++ h := by
    intro t₀ t b hb
    rw [update_apply] at hb
    split_ifs at hb
    exact hactive hb
  cases hst with
  | quiet | checkpoint => exact ⟨hold,hactive⟩
  | begin =>
    refine ⟨hold,fun {t b} hb => ?_⟩
    simp only [update_apply] at hb
    split_ifs at hb with heq
    · cases hb
      exact heq ▸ mem_append_left _ (mem_singleton_self _)
    · exact hactive hb
  | write t b k v holds hact hown =>
    refine ⟨fun {k' ts v'} hv' => ?_,hactive⟩
    by_cases hhere : k' = k ∧ ts = b
    · simp only [hhere,and_self,if_true,some.injEq] at hv'
      subst hv'
      rw [hown,hhere.2]
      exact .inr (hactive hact)
    · simp only [hhere,if_false] at hv'
      exact hold hv'
  | commit => exact ⟨hold,herase⟩
  | abort => exact ⟨hold,herase⟩
  | gc _ _ _ _ _ _ kept => exact ⟨fun hv => hold ((kept _ _ _).mp hv).1,hactive⟩

end MvccState

section

variable [Crc32]

namespace Database

omit [Crc32] in
theorem supplies_of_txnFind {db : Database} (hs : db.Sound) {t : Nat} {k : Bytes} {r : Option (Nat × MvccValue)}
    (h : db.txnFind t k = some (.ok r)) : ∃ readTs, db.view.Supplies t readTs k r := by
  have hk : k.length ≤ u32Max := by
    by_contra hk
    unfold txnFind at h
    cases hr : db.mgr.readView t <;> simp [hr,mvccFind,scanUserKey_oversized hk] at h
  cases hr : db.mgr.readView t with
  | error e => simp [txnFind,hr] at h
  | ok snapshot =>
    obtain ⟨r',hfind,hsup⟩ := txnFind_spec hs hk hr
    obtain rfl : r' = r := by simpa [hfind] using h
    exact ⟨_,hsup⟩

end Database

/-- What a run keeps that starts over an engine with some transactions listed. -/
private structure Resumed (old : Bytes → Nat → Option MvccValue) (listed : Set Nat) (s : Session) : Prop where
  sound : s.db.Sound
  adds : s.db.view.Adds old s.history
  hidden : ∀ t ∈ listed, s.db.view.Listed t

private theorem resumed_step {old : Bytes → Nat → Option MvccValue} {listed : Set Nat} {s s' : Session} {op : Op}
    (hr : Resumed old listed s) (h : s.step op = some s') : Resumed old listed s' := by
  obtain ⟨⟨db,out⟩,hstep,rfl⟩ := map_eq_some_iff.mp h
  obtain ⟨hs,_,hst⟩ : db.Sound ∧ _ ∧ MvccStep ⟨False,True,True⟩ s.db.view _ db.view :=
    Database.step_refines hr.sound False.elim (fun _ => trivial) (fun _ => trivial) hstep
  exact ⟨hs,hr.adds.step hst,fun t ht => (hr.hidden t ht).step hst⟩

omit [Crc32] in
private theorem Resumed.not_listed {old : Bytes → Nat → Option MvccValue} {listed : Set Nat} {s : Session}
    (hr : Resumed old listed s) (hauto : TxnId.autoCommit ∉ listed) {reader : Nat}
    (hreader : reader = TxnId.autoCommit ∨ s.db.view.active reader ≠ none) {k : Bytes} {ts : Nat} {v : MvccValue}
    (hfind : s.db.txnFind reader k = some (.ok (some (ts,v)))) :
    (old k ts = some v ∧ v.txnId ∉ listed) ∨ .began v.txnId ts ∈ s.history := by
  obtain ⟨readTs,hv,hvis,_⟩ := Database.supplies_of_txnFind hr.sound hfind
  refine (hr.adds.version hv).imp_left fun hold => ⟨hold,fun hmem => ?_⟩
  have hl := hr.hidden _ hmem
  refine hl.not_visible ?_ _ _ hvis
  rintro rfl
  rcases hreader with heq | hact
  · exact hauto (heq ▸ hmem)
  · exact hact hl.inactive

namespace Session

omit [Crc32] in
/-- The log files after a crash that leaves some bytes of the last segment. -/
def filesLeft (s : Session) (n : Nat) : Segments :=
  s.db.wal.writer.closed ++ [(s.db.wal.writer.activeSegmentId,s.db.wal.writer.active.take n)]

/-- The transaction aborted, or neither a checkpoint followed its commit nor is
its commit record left in the log. -/
def Lost (s : Session) (left : Segments) (t : Nat) : Prop :=
  .aborted t ∈ s.history ∨
    ∀ c, .committed t c ∈ s.history → ¬ c < s.db.mgr.checkpointTs ∧ ¬ CommitIn left t c

/-- The log left since its last checkpoint has a record of the transaction, and
no abort record of it. -/
def KnownUnfinished (left : Segments) (t : Nat) : Prop :=
  (∃ r, Recent left r ∧ r.txnId = t) ∧ ∀ r, Recent left r → r.txnId = t → r.payload ≠ .abort

private theorem not_lost_of_recovered {rules : Rules} {s : Session} (hi : MvccInv rules s.db.view s.history)
    {whole log : List LogRecord} (hl : Logs s.history whole) (hsub : ∀ r ∈ log, r ∈ whole) {left : Segments}
    (hleft : HoldTorn left log) (hv : ∀ r ∈ log, r.Fits) {t : Nat}
    (hcom : Database.recoveredCommit (sinceCheckpoint log) t = true) : ¬ s.Lost left t := by
  obtain ⟨c,hc⟩ := isSome_iff_exists.mp hcom
  obtain ⟨r,hmem,rfl,hp⟩ := commit_of_lookup hc
  have hr := (sinceCheckpoint_suffix log).subset hmem
  have hcommitted := hl.committed_of_mem (hsub r hr) hp
  rintro (hab | hno)
  · exact hi.life.aborted_not_committed hab hcommitted
  · exact (hno c hcommitted).2 ⟨r,(standsIn_iff hleft hv r).mpr hr,rfl,hp⟩

omit [Crc32] in
private theorem resumed_reopened {records : List LogRecord} {image : Engine} {policy : IsolationPolicy} {db : Database}
    (hr : Database.Reopened records image policy db) (hver : db.engine.Versioned) :
    Resumed db.engine.version {t | t ∈ db.mgr.uncommittedTxns} ⟨db,[]⟩ := by
  refine ⟨hr.sound hver,⟨fun hv => .inl hv,fun hact => ?_⟩,fun t hmem => ⟨hmem,?_,?_,?_⟩⟩
  · simp [Database.view,hr.active] at hact
  · obtain ⟨_,⟨r,hrec,rfl⟩,_⟩ := (hr.uncommitted t).mp hmem
    exact hr.seen_lt r hrec
  · simp [Database.view,hr.active]
  · have hno := ((hr.uncommitted t).mp hmem).2.2.1
    simpa [Database.view,hr.committed,Database.recoveredCommit] using hno

/-- After a crash of any run, opening what is left of the log over any part of the
written versions, if recovery knows the lost writers among them as unfinished, no
read of any later run returns a value of a lost transaction. -/
theorem lost_writes_hidden {policy policy' : IsolationPolicy} {ops : List Op} {s : Session}
    (h : run step (init policy) ops = some s) (hgc : .gc ∈ ops → policy = .snapshotIsolation)
    (hfit : ∀ op ∈ ops, op.Fits) (hlen : ops.length < maxRecoveryRecords) (hts : s.db.mgr.nextTs < u64Max) (n : Nat)
    {image : Engine} (hver : image.Versioned) (himage : ∀ k ts v, image.version k ts = some v →
      .began v.txnId ts ∈ s.history ∧ .wrote v.txnId k v.data ∈ s.history)
    (hknown : ∀ k ts v, image.version k ts = some v → s.Lost (s.filesLeft n) v.txnId →
      KnownUnfinished (s.filesLeft n) v.txnId) :
    ∃ db, Database.openInner (s.filesLeft n) image policy' = some (.ok db) ∧
      ∀ ops' s', run step ⟨db,[]⟩ ops' = some s' → ∀ reader k ts v,
        reader = TxnId.autoCommit ∨ s'.db.view.active reader ≠ none →
        s'.db.txnFind reader k = some (.ok (some (ts,v))) →
        .began v.txnId ts ∈ s'.history ∨ ¬ s.Lost (s.filesLeft n) v.txnId := by
  have hi := reachable hgc h
  obtain ⟨dropped,whole,hl,hcount,_⟩ := reachable_logged hgc hfit h
  obtain ⟨log,hleft,hpre⟩ := hl.files.whole.cut hl.files.fits n
  have hsub : ∀ r ∈ log, r ∈ whole := fun r hr => hpre.subset hr
  have hrecent : ∀ r ∈ sinceCheckpoint log, r ∈ whole := fun r hr => hsub r ((sinceCheckpoint_suffix log).subset hr)
  have hfits : ∀ r ∈ log, r.Fits := fun r hr => hl.files.fits r (hsub r hr)
  have hinc := hl.files.increasing.sublist hpre.sublist
  have hshort : log.length < maxRecoveryRecords := by
    have := hpre.length_le
    rw [length_append] at hcount
    omega
  obtain ⟨db,hopen,_,hr⟩ := Database.openInner_eq hleft hfits hinc hshort (fun r hmem =>
    (hl.within r (hrecent r hmem)).bounded hi.sound.nextTxnId hi.sound.nextTs (fun _ => hts)) image policy'
  obtain ⟨hver',horigin⟩ := redoCommitted_versions (fun r hmem =>
    hl.logs.ownVersion r (mem_append_right _ (hrecent r hmem))) hver (Database.recoveredCommit (sinceCheckpoint log))
  rw [← hr.engine] at hver' horigin
  have hnotlost : ∀ {t}, Database.recoveredCommit (sinceCheckpoint log) t = true → ¬ s.Lost (s.filesLeft n) t :=
    not_lost_of_recovered hi.mvcc hl.logs (fun r hmem => mem_append_right _ (hsub r hmem)) hleft hfits
  refine ⟨db,hopen,fun ops' s' hrun reader k ts v hreader hfind => ?_⟩
  have hend := run_keeps (fun _ _ _ _ => resumed_step) (resumed_reopened hr hver') hrun
  have hauto : TxnId.autoCommit ∉ {t | t ∈ db.mgr.uncommittedTxns} := fun hmem => ((hr.uncommitted _).mp hmem).1 rfl
  rcases hend.not_listed hauto hreader hfind with ⟨hold,hout⟩ | hnew
  · right
    intro hlost
    rcases horigin k ts v hold with hfrom | hcom
    · obtain ⟨⟨r,hrec,hid⟩,hnoabort⟩ := hknown k ts v hfrom hlost
      refine hout ((hr.uncommitted v.txnId).mpr ⟨?_,⟨r,(recent_iff hleft hfits hinc r).mp hrec,hid⟩,?_,fun r' hr' => ?_⟩)
      · exact (hi.mvcc.life.began_bounds (himage k ts v hfrom).1).1.1.ne'
      · exact Bool.eq_false_iff.mpr fun hcom => hnotlost hcom hlost
      · exact hnoabort r' ((recent_iff hleft hfits hinc r').mpr hr')
    · exact hnotlost hcom hlost
  · exact .inl hnew

end Session

end

namespace Session

/-- A writer active at the checkpoint writes again and is cut off by the crash. -/
theorem lost_writes_hidden_unfinished : ∃ s db, run step (init .snapshotIsolation)
      [.begin .readWrite,.put 1 [1] [7],.checkpoint,.put 1 [3] [9],.begin .readWrite,.put 2 [2] [8],.commit 2] = some s ∧
    s.Lost (s.filesLeft 1000) 1 ∧
    Database.openInner (s.filesLeft 1000) s.db.engine .snapshotIsolation = some (.ok db) ∧
    ∀ ops' s', run step ⟨db,[]⟩ ops' = some s' → ∀ reader k ts v,
      reader = TxnId.autoCommit ∨ s'.db.view.active reader ≠ none →
      s'.db.txnFind reader k = some (.ok (some (ts,v))) → .began v.txnId ts ∈ s'.history ∨ v.txnId ≠ 1 := by
  simp only [exists_and_left]
  refine exists_observed (fun s => (s.history,s.db.mgr.nextTs,(sinceCheckpoint ((s.filesLeft 1000).flatMap
      (fun x => (scanSegment x.2).1))).map (fun r => (r.txnId,r.payload.recordType))))
    ([.committed 2 3,.wrote 2 [2] (some [8]),.began 2 2,.wrote 1 [3] (some [9]),.wrote 1 [1] (some [7]),.began 1 1],
      4,[(0,.checkpoint),(1,.txnPut),(2,.begin),(2,.txnPut),(2,.commit)]) (by decide +kernel) (fun s hs hh => ?_)
  obtain ⟨hhist,hnext,hrecent⟩ : _ ∧ _ ∧ _ := by simpa only [Prod.mk.injEq] using hh
  have hi := reachable (fun _ => rfl) hs
  obtain ⟨dropped,whole,hl,_⟩ := reachable_logged (fun _ => rfl) (by decide) hs
  obtain ⟨log,hleft,hpre⟩ := hl.files.whole.cut hl.files.fits 1000
  have hfits : ∀ r ∈ log, r.Fits := fun r hr => hl.files.fits r (hpre.subset hr)
  have hiff := recent_iff hleft hfits (hl.files.increasing.sublist hpre.sublist)
  rw [show (s.filesLeft 1000).flatMap (fun x => (scanSegment x.2).1) = log from hleft.scan_eq hfits] at hrecent
  have hknown : ∀ t, (t,.txnPut) ∈ (sinceCheckpoint log).map (fun r => (r.txnId,r.payload.recordType)) →
      KnownUnfinished (s.filesLeft 1000) t := by
    intro t ht
    obtain ⟨r,hr,heq⟩ := mem_map.mp ht
    refine ⟨⟨r,(hiff r).mpr hr,(Prod.mk.inj heq).1⟩,fun r' hr' hid hab => ?_⟩
    have hmem : (t,.abort) ∈ (sinceCheckpoint log).map (fun r => (r.txnId,r.payload.recordType)) :=
      mem_map.mpr ⟨r',(hiff r').mp hr',by rw [hid,hab]; rfl⟩
    simp [hrecent] at hmem
  have hlost : s.Lost (s.filesLeft 1000) 1 := .inr fun c hc => by simp [hhist] at hc
  have himage : ∀ k ts v, s.db.engine.version k ts = some v →
      .began v.txnId ts ∈ s.history ∧ .wrote v.txnId k v.data ∈ s.history := fun k ts v hv =>
    have hstored := hi.mvcc.stored.version_sound hv
    ⟨hstored.1,mem_of_lastWrite hstored.2⟩
  obtain ⟨db,hopen,hreads⟩ : ∃ db,
      Database.openInner (s.filesLeft 1000) s.db.engine .snapshotIsolation = some (.ok db) ∧ _ :=
    lost_writes_hidden hs (fun _ => rfl) (by decide) (by decide) (by rw [hnext]; decide) 1000 hi.sound.versioned himage
      (fun k ts v hv _ => by
      have hb := (himage k ts v hv).1
      apply hknown
      rw [hrecent]
      simp only [hhist,mem_cons,reduceCtorEq,Event.began.injEq,false_or,not_mem_nil,or_false] at hb
      rcases hb with ⟨hb,_⟩ | ⟨hb,_⟩ <;> simp [hb])
  refine ⟨hlost,db,hopen,fun ops' s' hrun reader k ts v hreader hfind => ?_⟩
  exact (hreads ops' s' hrun reader k ts v hreader hfind).imp_right fun hnot heq => hnot (heq ▸ hlost)

/-- An aborted write is read after a restart: recovery finds its abort record and
does not list it, and the next commit moves the checkpoint timestamp past it. -/
theorem aborted_write_shown_after_restart : ∃ s db, run step (init .snapshotIsolation)
      [.begin .readWrite,.put 1 [1] [7],.abort 1,.begin .readWrite,.commit 2] = some s ∧ .aborted 1 ∈ s.history ∧
    s.filesLeft 1000 = s.db.wal.writer.segments ∧
    Database.openInner (s.filesLeft 1000) s.db.engine .snapshotIsolation = some (.ok db) ∧
    db.get [1] = some (.ok (some [7])) := by
  simp only [exists_and_left]
  refine exists_observed (fun s => (decide (.aborted 1 ∈ s.history),decide (s.filesLeft 1000 = s.db.wal.writer.segments),
      Database.openedRead (s.filesLeft 1000) s.db.engine .snapshotIsolation [1]))
    (true,true,some (some [7])) (by decide +kernel) (fun s hs hh => ?_)
  obtain ⟨hab,hwhole,hread⟩ : _ ∧ _ ∧ _ := by simpa only [Prod.mk.injEq,decide_eq_true_eq] using hh
  obtain ⟨db,hopen,hget⟩ := Database.openedRead_eq_some hread
  exact ⟨hab,hwhole,db,hopen,hget⟩

end Session
end InterchangeDb
