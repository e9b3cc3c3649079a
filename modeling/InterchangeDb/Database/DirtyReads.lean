import InterchangeDb.Database.Reachable

/-! Uncommitted data seen by others: writers that count as committed once the checkpoint reaches their begin
timestamp. -/
namespace InterchangeDb

/-- The version that supplies a read, if it holds a value, is the reader's own or
its writer has committed. -/
def Session.CleanRead (s : Session) (r : Nat) (k : Bytes) : Prop :=
  ∀ ts v, s.db.txnFind r k = some (.ok (some (ts,v))) → v.data ≠ none →
    v.txnId = r ∨ ∃ c, .committed v.txnId c ∈ s.history

/-- Another transaction is active, has put the key, and began at or before the
checkpoint timestamp and the reader's snapshot. -/
def Session.UncommittedShown (s : Session) (r readTs : Nat) (k : Bytes) : Prop :=
  ∃ w b d, w ≠ r ∧ s.db.mgr.beginTs w = .ok b ∧ lastWrite s.history w k = some (some d) ∧
    b ≤ s.db.mgr.checkpointTs ∧ b ≤ readTs

private theorem Session.Inv.active_reader {rules : Rules} {s : Session} (hi : Session.Inv .snapshotIsolation rules s)
    {r readTs : Nat} (hr : s.db.mgr.readView r = .ok ⟨readTs⟩) {b : Nat} (hb : .began r b ∈ s.history) :
    s.db.view.active r = some b := by
  rcases hi.readView_cases hr with ⟨rfl,_⟩ | hact
  · exact absurd (hi.mvcc.life.began_bounds hb).1.1 (lt_irrefl 0)
  · rw [hact,hi.mvcc.life.began_unique hb (hi.mvcc.life.active_iff.mp hact).1]

/-- A read is clean exactly when no other active transaction, old enough for the
checkpoint and the snapshot, has put the key. -/
theorem clean_read_iff [Crc32] {ops : List Op} {s : Session}
    (h : run Session.step (.init .snapshotIsolation) ops = some s) {r readTs : Nat} {k : Bytes}
    (hr : s.db.mgr.readView r = .ok ⟨readTs⟩) (hk : k.length ≤ u32Max) :
    s.CleanRead r k ↔ ¬ s.UncommittedShown r readTs k := by
  have hi := Session.reachable (fun _ => rfl) h
  obtain ⟨found,hfind,hsup⟩ := Database.txnFind_spec hi.sound hk hr
  constructor
  · rintro hclean ⟨w,b,d,hne,hb,hd,hck,hle⟩
    have hact := Session.active_of_beginTs hb
    obtain ⟨v,hv,hwriter,hdata⟩ := hi.mvcc.active_version hact hd
    have hvis : s.db.view.Visible r readTs v.txnId b := by
      rw [hwriter]
      exact (hi.mvcc.visible_active_iff hne hact).mpr ⟨hck,hle⟩
    match found with
    | none => exact hsup b v hv hvis
    | some (ts,v') =>
      obtain ⟨hv',hvis',hmax⟩ := hsup
      have hts := hi.mvcc.le_of_visible rfl (fun b' => hi.active_reader hr) hact (by simp [hd]) hv' hvis'
      obtain rfl : ts = b := le_antisymm hts (hmax b v hv hvis)
      obtain rfl : v' = v := Option.some.inj (hv'.symm.trans hv)
      rcases hclean ts v' hfind (by simp [hdata]) with heq | ⟨c,hc⟩
      · exact hne (hwriter.symm.trans heq)
      · rw [hwriter] at hc
        exact (hi.mvcc.life.active_iff.mp hact).2.2 c hc
  · intro hno ts v hread hdata
    obtain rfl : found = some (ts,v) := by
      rw [hfind] at hread
      simpa using hread
    by_contra hdirty
    rw [not_or,not_exists] at hdirty
    have hact := hi.mvcc.active_of_visible hsup.1 hsup.2.1 hdirty.1 hdirty.2
    obtain ⟨d,hd⟩ := Option.ne_none_iff_exists'.mp hdata
    obtain ⟨hck,hle⟩ := (hi.mvcc.visible_active_iff hdirty.1 hact).mp hsup.2.1
    refine hno ⟨v.txnId,ts,d,hdirty.1,?_,?_,hck,hle⟩
    · exact Session.beginTs_of_active hact
    · rw [(hi.mvcc.stored.version_sound hsup.1).2,hd]

/-- The writer has committed and the key is shown after the checkpoint. -/
theorem clean_read_after_commit : ∃ s, run Session.step (.init .snapshotIsolation)
      [.begin .readWrite,.put 1 [1] [2],.commit 1,.checkpoint,.begin .readWrite] = some s ∧
    s.db.txnGet 2 [1] = some (.ok (some [2])) ∧ (s.CleanRead 2 [1] ↔ ¬ s.UncommittedShown 2 3 [1]) := by
  refine exists_observed (fun s => ((s.db.mgr.activeTxns.lookup 2).map (·.beginTs),s.db.txnGet 2 [1]))
    (some 3,some (.ok (some [2]))) (by decide +kernel) (fun s hs hh => ?_)
  obtain ⟨hb,hr⟩ := Prod.mk.inj hh
  exact ⟨hr,clean_read_iff hs ((Session.reachable (fun _ => rfl) hs).readView hb) (by decide)⟩

/-- A checkpoint runs while a transaction is active; a transaction that begins
after it reads the uncommitted value. -/
theorem dirty_read_after_checkpoint : ∃ s, run Session.step (.init .snapshotIsolation)
      [.begin .readWrite,.put 1 [1] [2],.checkpoint,.begin .readWrite] = some s ∧
    s.db.txnGet 2 [1] = some (.ok (some [2])) ∧ s.db.txnFind 2 [1] = some (.ok (some (1,.value 1 [2]))) ∧
    ∀ c, .committed 1 c ∉ s.history := by
  refine exists_observed (fun s => (s.db.txnFind 2 [1],s.history))
    (some (.ok (some (1,.value 1 [2]))),[.began 2 2,.wrote 1 [1] (some [2]),.began 1 1]) (by decide +kernel) (fun s _ hh => ?_)
  obtain ⟨hfind,hh⟩ := Prod.mk.inj hh
  refine ⟨?_,hfind,by simp [hh]⟩
  rw [Database.txnGet_eq,hfind]
  rfl

end InterchangeDb
