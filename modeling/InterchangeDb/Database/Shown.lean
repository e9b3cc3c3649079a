import InterchangeDb.Database.Logged
import InterchangeDb.Database.Reopen

/-! Databases that show a history to reads outside a transaction, live or reopened. -/
namespace InterchangeDb
open List Option

/-- The last write of a committed transaction to a key, as a version. -/
def Final (h : History) (k : Bytes) (ts : Nat) (v : MvccValue) : Prop :=
  (∃ c, .committed v.txnId c ∈ h) ∧ .began v.txnId ts ∈ h ∧ lastWrite h v.txnId k = some v.data

/-- The final write with the latest begin timestamp. -/
def Newest (h : History) (k : Bytes) (ts : Nat) (v : MvccValue) : Prop :=
  Final h k ts v ∧ ∀ ts' v', Final h k ts' v' → ts' ≤ ts

theorem exists_newest {h : History} {bound : Nat} (hbound : ∀ {t b}, .began t b ∈ h → b < bound) {k : Bytes} {ts : Nat}
    {v : MvccValue} (hv : Final h k ts v) : ∃ ts v, Newest h k ts v := by
  classical
  have hle : ∀ ts v, Final h k ts v → ts ≤ bound := fun ts v hf => (hbound hf.2.1).le
  have hspec : ∃ v, Final h k (.findGreatest (fun ts => ∃ v, Final h k ts v) bound) v :=
    Nat.findGreatest_spec (P := fun ts => ∃ v, Final h k ts v) (hle ts v hv) ⟨v,hv⟩
  obtain ⟨v',hv'⟩ := hspec
  refine ⟨_,v',hv',fun ts'' v'' hv'' => ?_⟩
  exact Nat.le_findGreatest (hle ts'' v'' hv'') ⟨v'',hv''⟩

namespace Database

/-- What a read outside a transaction sees. -/
def Sees (db : Database) (k : Bytes) (ts : Nat) (v : MvccValue) : Prop :=
  db.view.version k ts = some v ∧
    db.view.Visible TxnId.autoCommit (max db.mgr.nextTs db.mgr.checkpointTs) v.txnId ts

/-- Only final writes are seen, and the newest one is. -/
structure Shows (db : Database) (h : History) : Prop where
  sound : ∀ {k ts v}, db.Sees k ts v → Final h k ts v
  complete : ∀ {k ts v}, Newest h k ts v → db.Sees k ts v

theorem readView_autoCommit (m : TransactionManager) :
    m.readView TxnId.autoCommit = .ok ⟨max m.nextTs m.checkpointTs⟩ := by
  unfold TransactionManager.readView
  cases m.policy <;> rfl

theorem get_seen {db : Database} (hs : db.Sound) {k : Bytes} (hk : k.length ≤ u32Max) :
    ∃ r : Option (Nat × MvccValue), db.get k = some (.ok (r.bind (·.2.data))) ∧
      match r with
      | none => ∀ ts v, ¬db.Sees k ts v
      | some (ts,v) => db.Sees k ts v ∧ ∀ ts' v', db.Sees k ts' v' → ts' ≤ ts := by
  obtain ⟨r,hfind,hsup⟩ := txnFind_spec hs hk (readView_autoCommit db.mgr)
  refine ⟨r,by simp only [get,txnGet_eq,hfind,map_some,Except.map],?_⟩
  match r with
  | none => exact fun ts v hsees => hsup ts v hsees.1 hsees.2
  | some (ts,v) => exact ⟨⟨hsup.1,hsup.2.1⟩,fun ts' v' hsees => hsup.2.2 ts' v' hsees.1 hsees.2⟩

theorem Shows.get {db : Database} {h : History} (hshow : db.Shows h) (hs : db.Sound) {k : Bytes} (hk : k.length ≤ u32Max) :
    ((∀ ts v, ¬Final h k ts v) → db.get k = some (.ok none)) ∧
      ∀ ts v, Newest h k ts v → db.get k = some (.ok v.data) := by
  obtain ⟨r,hget,hr⟩ := get_seen hs hk
  match r with
  | none =>
    refine ⟨fun _ => hget,fun ts v hnew => ?_⟩
    exact (hr ts v (hshow.complete hnew)).elim
  | some (ts,v) =>
    obtain ⟨hsees,hmax⟩ := hr
    have hfinal := hshow.sound hsees
    refine ⟨fun hno => (hno ts v hfinal).elim,fun ts' v' hnew => ?_⟩
    have hsees' := hshow.complete hnew
    have heq : ts' = ts := le_antisymm (hmax ts' v' hsees') (hnew.2 ts v hfinal)
    subst heq
    obtain rfl : v = v' := some.inj (hsees.1.symm.trans hsees'.1)
    exact hget

theorem Shows.get_eq {db db' : Database} {h : History} (hshow : db.Shows h) (hshow' : db'.Shows h) (hs : db.Sound)
    (hs' : db'.Sound) {bound : Nat} (hbound : ∀ {t b}, .began t b ∈ h → b < bound) (k : Bytes) : db.get k = db'.get k := by
  by_cases hk : k.length ≤ u32Max
  · obtain ⟨hnone,hnew⟩ := hshow.get hs hk
    obtain ⟨hnone',hnew'⟩ := hshow'.get hs' hk
    by_cases hex : ∃ ts v, Final h k ts v
    · obtain ⟨ts,v,hv⟩ := hex
      obtain ⟨ts,v,hv⟩ := exists_newest hbound hv
      rw [hnew ts v hv,hnew' ts v hv]
    · have hno : ∀ ts v, ¬Final h k ts v := fun ts v hv => hex ⟨ts,v,hv⟩
      rw [hnone hno,hnone' hno]
  · simp only [Database.get,txnGet,readView_autoCommit,mvccGet,mvccFind,scanUserKey_oversized hk]
    rfl

end Database

/-- A live database shows its history, if no active writer began before the last checkpoint. -/
theorem MvccInv.shows {rules : Rules} {db : Database} {f : Bytes → Bytes} {h : History}
    (hi : MvccInv rules (db.view.relock f) h)
    (hactive : ∀ {k ts v}, db.view.version k ts = some v → ts ≤ db.mgr.checkpointTs → db.view.active v.txnId = none) :
    db.Shows h := by
  have hlife : Lifecycle db.view h := { hi.life with }
  have hstored := hi.stored
  have hown : ∀ {k b t v}, db.view.version k b = some v → .began t b ∈ h → v.txnId = t :=
    fun hv hb => hstored.writer_eq hi.life hv hb
  have hnotKnown : ∀ {k ts v}, db.view.version k ts = some v → .aborted v.txnId ∈ h → v.txnId ∈ db.view.aborted :=
    fun hv hab => hstored.aborted_known hv hab
  constructor
  · rintro k ts v ⟨hv,hvis⟩
    obtain ⟨hb,hw⟩ := hstored.version_sound hv
    rcases hvis with hauto | ⟨c,hc,-⟩ | ⟨-,hle,hnot,-⟩
    · exact absurd (hlife.began_bounds hb).1.1 (by rw [hauto]; exact lt_irrefl _)
    · exact ⟨⟨c,hlife.remembered hc⟩,hb,hw⟩
    · rcases hlife.fate hb with hact | hab | ⟨c,hc,-⟩
      · rw [hactive hv hle] at hact
        cases hact
      · exact (hnot (.inr (hnotKnown hv hab))).elim
      · exact ⟨⟨c,hc⟩,hb,hw⟩
  · rintro k ts v ⟨⟨⟨c,hc⟩,hb,hw⟩,hmax⟩
    have hv : db.view.version k ts = some v := by
      rcases hstored.written_kept (k := k) (by simp [hw]) hb with hkept | hab | ⟨c₁,hc₁,ts',v',c',hlt,hv',hc'⟩
      · obtain ⟨v',hv'⟩ := ne_none_iff_exists'.mp hkept
        have hid := hown hv' hb
        have hw' := (hstored.version_sound hv').2
        rw [hid,hw] at hw'
        exact MvccValue.ext hid (some.inj hw').symm ▸ hv'
      · exact (hlife.aborted_not_committed hab hc).elim
      · -- superseded by a later final write
        obtain ⟨hb',hw'⟩ := hstored.version_sound hv'
        obtain ⟨-,b,hb₁,hlt₁⟩ := hlife.committed_bounds hc₁
        have h1 := hmax ts' v' ⟨⟨c',hc'⟩,hb',hw'⟩
        have h2 := hlife.began_unique hb hb₁
        omega
    refine ⟨hv,?_⟩
    obtain ⟨hlt,b,hb',hlt'⟩ := hlife.committed_bounds hc
    obtain rfl := hlife.began_unique hb hb'
    rcases hlife.forgotten hc with hm | ⟨hle,-⟩
    · exact .inr (.inl ⟨c,hm,le_max_of_le_left hlt.le⟩)
    · have hold : ts ≤ db.mgr.checkpointTs := hlt'.le.trans hle
      cases hm : db.view.committed v.txnId with
      | some c' =>
        obtain rfl := hlife.committed_unique hc (hlife.remembered hm)
        exact .inr (.inl ⟨c,hm,le_max_of_le_left hlt.le⟩)
      | none =>
        refine .inr (.inr ⟨hm,hold,?_,le_max_of_le_right hold⟩)
        rintro (hun | hab)
        · rw [hlife.uncommitted] at hun
          exact hun
        · exact hlife.aborted_not_committed (hlife.aborted_sound hab) hc

theorem Session.Inv.shows {policy : IsolationPolicy} {rules : Rules} {s : Session} (hi : Session.Inv policy rules s)
    (hactive : ∀ {k ts v}, s.db.view.version k ts = some v → ts ≤ s.db.mgr.checkpointTs → s.db.view.active v.txnId = none) :
    s.db.Shows s.history := MvccInv.shows (f := id) hi.mvcc hactive

theorem lastWrite_untouched {h : History} {t : Nat} (hno : ∀ e ∈ h, e.txnId ≠ t) (k : Bytes) :
    lastWrite h t k = none := by
  by_contra hw
  obtain ⟨d,hd⟩ := lastWrite_ne_none_iff.mp hw
  exact hno _ hd rfl

/-- A reopened database shows a history, if its log tells the commits and the last writes of the part since the
engine image, and the image holds what was final before. -/
theorem Database.Reopened.shows {records : List LogRecord} {image : Engine} {policy : IsolationPolicy} {db : Database}
    (hr : Database.Reopened records image policy db) {base since h : History} (hl : LogsSince base since records)
    (hs : Separate (since ++ base)) (hlast : CommitsLast (since ++ base))
    (hbegan : ∀ {t b}, .began t b ∈ since ++ base ↔ .began t b ∈ h) (hpos : ∀ {t b}, .began t b ∈ h → t ≠ 0)
    (hcommits : ∀ {t c}, .committed t c ∈ since ++ base ↔ .committed t c ∈ h)
    (hwrites : ∀ {t c} k, .committed t c ∈ h → lastWrite (since ++ base) t k = lastWrite h t k)
    (himage : ∀ {k ts v}, image.version k ts = some v → (∃ c, .committed v.txnId c ∈ h) ∧ .began v.txnId ts ∈ h ∧
      (lastWrite since v.txnId k = none → lastWrite h v.txnId k = some v.data))
    (hkept : ∀ {k ts v}, Newest h k ts v → lastWrite since v.txnId k = none → image.version k ts = some v)
    (hold : ∀ {t c b}, .committed t c ∈ base → .began t b ∈ h → b ≤ (analyzeTransactions records).checkpointOracleTs) :
    db.Shows h := by
  have hversion : ∀ k ts v, db.view.version k ts = some v ↔
      ReplayedSince base since (recoveredCommit records) k ts v ∨
        (image.version k ts = some v ∧ ∀ v', ¬ReplayedSince base since (recoveredCommit records) k ts v') := by
    intro k ts v
    have hengine : db.view.version = (redoCommitted image records (recoveredCommit records)).1.version :=
      congrArg Engine.version hr.engine
    rw [hengine]
    exact hl.redo_version hs image (recoveredCommit records) k ts v
  -- who committed since the image is recovered as committed, if it wrote anything
  have hrecovered : ∀ {t c k}, .committed t c ∈ since → lastWrite (since ++ base) t k ≠ none →
      recoveredCommit records t = true := by
    intro t c k hc hw
    obtain ⟨r,hmem,rfl,hp⟩ := hl.commit_logged hlast hc hw
    obtain ⟨c',hc'⟩ := lookup_of_commit hmem hp
    rw [recoveredCommit,hc']
    rfl
  have hsince : ∀ {t}, recoveredCommit records t = true → ∃ c, .committed t c ∈ since := by
    intro t hcom
    obtain ⟨c,hc⟩ := isSome_iff_exists.mp hcom
    obtain ⟨r,hmem,rfl,hp⟩ := commit_of_lookup hc
    exact ⟨c,hl.committed_of_mem hmem hp⟩
  have huntouched : ∀ {t c}, .committed t c ∈ base → ∀ e ∈ since, e.txnId ≠ t := fun hc e he =>
    (pairwise_append.mp hlast).2.2 e he _ hc _ _ rfl
  constructor
  · rintro k ts v ⟨hv,-⟩
    rcases (hversion k ts v).mp hv with ⟨hcom,hb,hw⟩ | ⟨hv,hno⟩
    · obtain ⟨c,hc⟩ := hsince hcom
      have hc' := hcommits.mp (mem_append_left base hc)
      refine ⟨⟨c,hc'⟩,hbegan.mp hb,?_⟩
      rw [← hwrites k hc',lastWrite_append,hw]
      rfl
    · obtain ⟨⟨c,hc⟩,hb,hw⟩ := himage hv
      refine ⟨⟨c,hc⟩,hb,hw ?_⟩
      by_contra hsome
      obtain ⟨d,hd⟩ := ne_none_iff_exists'.mp hsome
      obtain ⟨v',hid,rfl⟩ := MvccValue.exists_eq v.txnId d
      rcases mem_append.mp (hcommits.mpr hc) with hc | hc
      · refine hno v' ⟨?_,hid.symm ▸ hbegan.mpr hb,hid.symm ▸ hd⟩
        rw [hid]
        refine hrecovered (k := k) hc ?_
        rw [lastWrite_append,hd]
        simp
      · exact hsome (lastWrite_untouched (huntouched hc) k)
  · rintro k ts v hnew
    obtain ⟨⟨⟨c,hc⟩,hb,hw⟩,-⟩ := id hnew
    have hfrom : lastWrite since v.txnId k = none → db.view.version k ts = some v := by
      intro hnone
      refine (hversion k ts v).mpr (.inr ⟨hkept hnew hnone,fun v' hrep => ?_⟩)
      have hd := hrep.2.2
      rw [hs.inj hrep.2.1 (hbegan.mpr hb),hnone] at hd
      cases hd
    rcases mem_append.mp (hcommits.mpr hc) with hc' | hc'
    · have hcom : recoveredCommit records v.txnId = true := by
        refine hrecovered (k := k) hc' ?_
        rw [hwrites k hc,hw]
        simp
      obtain ⟨c₁,hc₁⟩ := isSome_iff_exists.mp hcom
      rw [← hr.committed] at hc₁
      refine ⟨?_,.inr (.inl ⟨c₁,hc₁,le_max_of_le_left (hr.committed_lt hc₁).1.le⟩)⟩
      cases hd : lastWrite since v.txnId k with
      | none => exact hfrom hd
      | some d =>
        have heq := hwrites k hc
        rw [lastWrite_append,hd,hw] at heq
        refine (hversion k ts v).mpr (.inl ⟨hcom,hbegan.mpr hb,?_⟩)
        rw [hd]
        exact heq
    · have hnone := huntouched hc'
      have hle : ts ≤ db.mgr.checkpointTs := (hold hc' hb).trans hr.oracle.1
      refine ⟨hfrom (lastWrite_untouched hnone k),.inr (.inr ⟨?_,hle,?_,le_max_of_le_right hle⟩)⟩
      · cases hlook : db.view.committed v.txnId with
        | none => rfl
        | some c₁ =>
          have hcom : recoveredCommit records v.txnId = true := by
            rw [recoveredCommit,← hr.committed]
            exact isSome_iff_exists.mpr ⟨c₁,hlook⟩
          obtain ⟨c₂,hc₂⟩ := hsince hcom
          exact (hnone _ hc₂ rfl).elim
      · rintro (hun | hab)
        · obtain ⟨-,⟨r,hmem,hid⟩,-⟩ := (hr.uncommitted _).mp hun
          obtain ⟨e,he,heq⟩ := hl.event_of_mem hmem (hid ▸ hpos hb)
          exact hnone e he (heq.trans hid)
        · have hempty : v.txnId ∈ db.mgr.abortedTxns := hab
          rw [hr.aborted] at hempty
          exact Finset.notMem_empty _ hempty

end InterchangeDb
