import InterchangeDb.Database.Lockstep
import InterchangeDb.Database.Reachable
import InterchangeDb.Txn.Collected

/-! Garbage collection compares its watermark with the begin timestamp of a version, readers decide by its commit
timestamp. -/
namespace InterchangeDb
open Option

private def gcRules : Rules := ⟨True,False,True⟩

private def callRules : Rules := ⟨True,False,False⟩

namespace Session

def collected (s : Session) : Session := ⟨s.db.gc.1, s.history⟩

/-- Both sessions did the same, and every read of either returns the same. -/
def SameReads (s s' : Session) : Prop :=
  s'.history = s.history ∧ ∀ t k, s'.db.txnGet t k = s.db.txnGet t k

/-- An active transaction reads a value of a key of which another one, begun
before the watermark, committed a version after the reader began. -/
def ReaderStraddled (s : Session) (t : Nat) (k : Bytes) : Prop :=
  ∃ b ts v c d, s.db.mgr.beginTs t = .ok b ∧ s.db.engine.version k ts = some v ∧ ts < s.db.lowWaterMark ∧
    .committed v.txnId c ∈ s.history ∧ b < c ∧ s.db.txnGet t k = some (.ok (some d))

/-- A session and the same session after a collection, from then on. -/
private structure Twins (low g : Nat) (s s' : Session) : Prop where
  history : s'.history = s.history
  alike : s.db.Alike s'.db
  inv : Inv .snapshotIsolation gcRules s
  inv' : Inv .snapshotIsolation gcRules s'
  stores : Collected low g s.history s.db.view s'.db.view

end Session

namespace Session

section

variable [Crc32] {low g : Nat} {s s' : Session}

section

variable (ht : Twins low g s s')
include ht

omit [Crc32] in
private theorem Twins.checkWrite (t : Nat) (k : Bytes) (b : Nat) :
    (s'.db.locked t k).checkWrite k b = (s.db.locked t k).checkWrite k b := by
  by_cases hk : k.length ≤ u32Max
  · obtain ⟨r,hr,hcheck⟩ := Database.checkWrite_spec (Database.locked_sound ht.inv.sound t k) hk b
    obtain ⟨r',hr',hcheck'⟩ := Database.checkWrite_spec (Database.locked_sound ht.inv'.sound t k) hk b
    have hpolicy : (s'.db.locked t k).mgr.policy = (s.db.locked t k).mgr.policy :=
      ht.inv'.policy.trans ht.inv.policy.symm
    have hconf : (s'.db.locked t k).conflicts = (s.db.locked t k).conflicts := by
      obtain ⟨e,a,heq⟩ := ht.alike
      rw [heq]
      rfl
    rw [hconf] at hr'
    have hsame : NewestVisible s'.db.engine k (fun w _ => (s.db.locked t k).conflicts b w) r := by
      match r with
      | none => exact fun ts v hv => hr ts v (ht.stores.sub hv)
      | some (ts,v) =>
        obtain ⟨hv,hsees,hmax⟩ := hr
        have hkept : s'.db.engine.version k ts = some v := by
          cases hlost : s'.db.engine.version k ts with
          | some w => exact ((ht.stores.sub hlost).symm.trans hv).symm ▸ rfl
          | none =>
            obtain ⟨c,hc,hbc⟩ := (any_eq_true ..).mp hsees
            obtain ⟨ts',v',c',hlt,hv',hcom',hle⟩ := ht.stores.later_conflict ht.inv.mvcc trivial hv hlost
              (ht.inv.mvcc.life.remembered hc)
            refine absurd (hmax ts' v' (ht.stores.sub hv') ?_) (not_le.mpr hlt)
            have hmem : s.db.mgr.committedTxns.lookup v'.txnId = some c' :=
              ht.inv.mvcc.committed_eq (fun hf => hf) hcom'
            refine (any_eq_true ..).mpr ⟨c',hmem,?_⟩
            simp only [decide_eq_true_eq] at hbc ⊢
            omega
        exact ⟨hkept,hsees,fun ts' v' hv' => hmax ts' v' (ht.stores.sub hv')⟩
    rw [hcheck,hcheck',hpolicy,NewestVisible.unique hr' hsame]
  · simp [Database.checkWrite,scanUserKey_oversized hk]

private theorem Twins.call {op : Op} (hck : op ≠ .checkpoint) (hgc : op ≠ .gc)
    (h : Option.Rel (fun x y => s'.db.events op y.2 = s.db.events op x.2 ∧ x.1.Alike y.1)
      (s.db.step op) (s'.db.step op)) : Option.Rel (Twins low g) (s.step op) (s'.step op) := by
  have hstep : ∀ {z : Session} {w : Database × Outcome}, Inv .snapshotIsolation gcRules z → z.db.step op = some w →
      Inv .snapshotIsolation gcRules ⟨w.1, z.db.events op w.2 ++ z.history⟩ ∧
        MvccStep callRules z.db.view (z.db.events op w.2) w.1.view := by
    intro z w hz hw
    refine ⟨hz.step (fun _ => rfl) (fun _ => trivial) (fun hop => absurd hop hck) (fun hop => absurd hop hgc) ?_,?_⟩
    · rw [step,hw]
      rfl
    · exact (Database.step_refines hz.sound (fun _ => hz.policy) (fun hop => absurd hop hck)
        (fun hop => absurd hop hgc) hw).2.2
  unfold step
  cases hx : s.db.step op with
  | none =>
    rw [hx] at h
    generalize s'.db.step op = y at h
    cases h
    exact .none
  | some x =>
    cases hy : s'.db.step op with
    | none =>
      rw [hx,hy] at h
      cases h
    | some y =>
      rw [hx,hy] at h
      obtain ⟨hev,halike⟩ := rel_some_some.mp h
      obtain ⟨hix,hmx⟩ := hstep ht.inv hx
      obtain ⟨hiy,hmy⟩ := hstep ht.inv' hy
      rw [hev,ht.history] at hiy
      rw [hev] at hmy
      refine .some ⟨?_,halike,hix,?_,?_⟩
      · simp [hev,ht.history]
      · simpa only [hev,ht.history] using hiy
      · have hy0 : MvccInv gcRules s'.db.view s.history := ht.history ▸ ht.inv'.mvcc
        refine ht.stores.step ht.inv.mvcc hy0 hix.mvcc hiy.mvcc (fun hf => hf) (fun hf => hf) hmx hmy ?_
        obtain ⟨e,a,heq⟩ := halike
        change y.1.view.active = x.1.view.active
        rw [heq]
        rfl

private theorem Twins.gc : Option.Rel (Twins low g) (s.step .gc) (s'.step .gc) := by
  have hstep : ∀ {z : Session}, Inv .snapshotIsolation gcRules z →
      Inv .snapshotIsolation gcRules ⟨z.db.gc.1,z.history⟩ := fun hz =>
    hz.step (fun _ => rfl) (fun _ => trivial) (fun hop : Op.gc = .checkpoint => nomatch hop) (fun _ => trivial) rfl
  have hix := hstep ht.inv
  have hiy := hstep ht.inv'
  refine .some ⟨ht.history,?_,hix,hiy,?_⟩
  · obtain ⟨e,a,heq⟩ := ht.alike
    rw [heq]
    exact ⟨_,_,rfl⟩
  · have hy0 : MvccInv gcRules s'.db.view s.history := ht.history ▸ ht.inv'.mvcc
    have hlwm : s'.db.lowWaterMark = s.db.lowWaterMark := by
      obtain ⟨e,a,heq⟩ := ht.alike
      rw [heq]
      rfl
    have hle : low ≤ s.db.lowWaterMark := by
      rcases Database.oldestActive_mem s.db.mgr s.db.mgr.nextTs with heq | ⟨t,txn,htxn,heq⟩
      · exact ht.stores.low_le.trans heq.ge
      · exact (ht.stores.oldest (map_eq_some_iff.mpr ⟨txn,htxn,rfl⟩)).trans heq.ge
    refine .of_version_eq hix.mvcc (ht.history ▸ hiy.mvcc) (fun hf => hf) ht.stores.active ?_
      ht.stores.low_le ht.stores.time_le ht.stores.oldest
    refine ht.stores.version_gc ht.inv.mvcc hy0 (fun hf => hf) hle (Database.gc_version ht.inv.sound) ?_
    rw [← hlwm]
    exact Database.gc_version ht.inv'.sound

private def outcomeOfBegin : Except Error Nat → Outcome
  | .ok t => .began t
  | .error e => .failed e

private theorem Twins.step {op : Op} (hck : op ≠ .checkpoint) :
    Option.Rel (Twins low g) (s.step op) (s'.step op) := by
  have hts : s'.db.mgr.nextTs = s.db.mgr.nextTs := by
    obtain ⟨e,a,heq⟩ := ht.alike
    rw [heq]
    rfl
  -- a call whose results agree is recorded alike
  have hmap : ∀ {α : Type} {x y : Option (Database × α)} (out : α → Outcome),
      Option.Rel Database.AlikeResults x y → Option.Rel (fun x y => s'.db.events op y.2 = s.db.events op x.2 ∧
        x.1.Alike y.1) (x.map (fun z => (z.1,out z.2))) (y.map (fun z => (z.1,out z.2))) := by
    intro α x y out h
    cases h with
    | none => exact .none
    | @some a b h =>
      refine .some ⟨?_,h.2⟩
      change s'.db.events op (out b.2) = s.db.events op (out a.2)
      rw [h.1]
      unfold Database.events
      rw [hts]
  cases op with
  | begin mode =>
    have hbegin := hmap outcomeOfBegin (Database.beginTxn_alike ht.alike mode)
    exact ht.call hck (fun h => by cases h) hbegin
  | get t k =>
    refine ht.call hck (fun h => by cases h) ?_
    have hview : s'.db.mgr.readView t = s.db.mgr.readView t := by
      obtain ⟨e,a,heq⟩ := ht.alike
      rw [heq]
      rfl
    simp only [Database.step,Database.txnGet,hview]
    cases s.db.mgr.readView t with
    | error e => exact .some ⟨rfl,ht.alike⟩
    | ok snapshot =>
      by_cases hk : k.length ≤ u32Max
      · simp only [mvccGet,mvccFind,scanUserKey,encodeMvccKeyStart,encodeMvccKeyEnd,encodeMvccKey,if_pos hk]
        exact .some ⟨rfl,ht.alike⟩
      · simp only [mvccGet,mvccFind,scanUserKey_oversized hk]
        exact .none
  | put t k v =>
    exact ht.call hck (fun h => by cases h) (hmap .ofUnit
      (Database.txnWrite_alike ht.alike (.value t v) (ht.checkWrite t k)))
  | delete t k =>
    exact ht.call hck (fun h => by cases h) (hmap .ofUnit
      (Database.txnWrite_alike ht.alike (.tombstone t) (ht.checkWrite t k)))
  | commit t => exact ht.call hck (fun h => by cases h) (hmap .ofUnit (Database.commitTxn_alike ht.alike t))
  | abort t => exact ht.call hck (fun h => by cases h) (hmap .ofUnit (Database.txnAbort_alike ht.alike t))
  | checkpoint => exact absurd rfl hck
  | gc => exact ht.gc

omit [Crc32] in
private theorem Twins.sameReads : SameReads s s' := by
  refine ⟨ht.history,fun t k => ?_⟩
  have hview : s'.db.mgr.readView t = s.db.mgr.readView t := by
    obtain ⟨e,a,heq⟩ := ht.alike
    rw [heq]
    rfl
  have hy : MvccInv gcRules s'.db.view s.history := ht.history ▸ ht.inv'.mvcc
  cases hr : s.db.mgr.readView t with
  | error e => simp only [Database.txnGet,hview,hr]
  | ok snapshot =>
    obtain ⟨readTs⟩ := snapshot
    by_cases hk : k.length ≤ u32Max
    · obtain ⟨r,hfind,hsup⟩ := Database.txnFind_spec ht.inv.sound hk hr
      obtain ⟨r',hfind',hsup'⟩ := Database.txnFind_spec ht.inv'.sound hk (hview.trans hr)
      have hdata : r.bind (·.2.data) = r'.bind (·.2.data) := by
        rcases ht.inv.readView_cases hr with ⟨rfl,rfl⟩ | hact
        · -- a read outside any transaction is later than the collection
          have hlate := ht.stores.supplies_late ht.inv.mvcc hy (fun hf => hf)
            (ht.stores.time_le.trans (le_max_left _ _))
            (fun b hb => absurd (ht.inv.mvcc.life.began_bounds hb).1.1 (lt_irrefl 0)) hsup
          rw [hsup'.unique hlate]
        · by_cases hg : readTs < g
          · exact ht.stores.agree hact hg hsup hsup'
          · have hlate := ht.stores.supplies_late ht.inv.mvcc hy (fun hf => hf) (not_lt.mp hg) (fun b hb => by
              rw [ht.inv.mvcc.life.began_unique hb (ht.inv.mvcc.life.active_iff.mp hact).1]
              exact ht.stores.oldest hact) hsup
            rw [hsup'.unique hlate]
      simp [Database.txnGet_eq,hfind,hfind',map_some,Except.map,hdata]
    · simp [Database.txnGet,hview,hr,mvccGet,mvccFind,scanUserKey_oversized hk,map_none]

end

private theorem inv_of_run {ops : List Op} (hck : .checkpoint ∉ ops)
    (h : run Session.step (.init .snapshotIsolation) ops = some s) : Inv .snapshotIsolation gcRules s := by
  refine run_keeps (fun op hop s₀ s₁ hi hstep => ?_) (inv_init _ _) h
  exact hi.step (fun _ => rfl) (fun _ => trivial) (fun heq => absurd (heq ▸ hop) hck) (fun _ => trivial) hstep

private theorem inv_collected (hi : Inv .snapshotIsolation gcRules s) : Inv .snapshotIsolation gcRules s.collected :=
  hi.step (fun _ => rfl) (fun _ => trivial) (fun hop : Op.gc = .checkpoint => nomatch hop) (fun _ => trivial) rfl

omit [Crc32] in
private theorem get_straddled (hi : Inv .snapshotIsolation gcRules s) (hi' : Inv .snapshotIsolation gcRules s.collected)
    {t b ts c : Nat} {k : Bytes} {v : MvccValue} (hact : s.db.view.active t = some b)
    (hv : s.db.engine.version k ts = some v) (hlt : ts < s.db.lowWaterMark) (hcom : .committed v.txnId c ∈ s.history)
    (hbc : b < c) : s.collected.db.txnGet t k = some (.ok none) := by
  have hk : k.length ≤ u32Max := (Engine.version_bounds hv).1
  have hact' : s.collected.db.view.active t = some b := hact
  obtain ⟨r,hfind,hsup⟩ := Database.txnFind_spec hi'.sound hk (hi'.readView hact')
  have hnone : s.collected.db.view.Supplies t b k none :=
    Collected.supplies_straddled hi.mvcc hi'.mvcc trivial (fun hf => hf) (Database.gc_version hi.sound) hact hv hlt
      hcom hbc
  rw [Database.txnGet_eq,hfind,hsup.unique hnone]
  rfl

end
end Session

/-- A collection is unobservable, now and in whatever follows, exactly when no
active transaction reads a value from under a commit it does not see. -/
theorem gc_unobservable_iff [Crc32] {ops : List Op} {s : Session} (hck : .checkpoint ∉ ops)
    (h : run Session.step (.init .snapshotIsolation) ops = some s) :
    (∀ later, .checkpoint ∉ later →
      Option.Rel Session.SameReads (run Session.step s later) (run Session.step s.collected later)) ↔
    ¬ ∃ t k, s.ReaderStraddled t k := by
  have hi := Session.inv_of_run hck h
  have hi' := Session.inv_collected hi
  constructor
  · rintro hsame ⟨t,k,b,ts,v,c,d,hb,hv,hlt,hcom,hbc,hget⟩
    obtain ⟨_,hreads⟩ := rel_some_some.mp (hsame [] (by simp))
    have hlost := Session.get_straddled hi hi' (Session.active_of_beginTs hb) hv hlt hcom hbc
    rw [hreads t k,hget] at hlost
    cases hlost
  · intro hno later hlater
    have hstart : Session.Twins s.db.lowWaterMark s.db.mgr.nextTs s s.collected := by
      refine ⟨rfl,⟨_,_,rfl⟩,hi,hi',?_⟩
      refine Collected.init hi.mvcc hi'.mvcc trivial (fun hf => hf) (Database.lowWaterMark_le hi.sound)
        (Database.lowWaterMark_oldest s.db) rfl (Database.gc_version hi.sound) ?_
      intro t b k ts v c r hact hv hlt hcom hbc hsup
      by_contra hne
      obtain ⟨d,hd⟩ := ne_none_iff_exists'.mp hne
      obtain ⟨r',hfind,hsup'⟩ := Database.txnFind_spec hi.sound (Engine.version_bounds hv).1 (hi.readView hact)
      refine hno ⟨t,k,b,ts,v,c,d,Session.beginTs_of_active hact,hv,hlt,hcom,hbc,?_⟩
      rw [Database.txnGet_eq,hfind,hsup'.unique hsup]
      simp [map_some,Except.map,hd]
    have hrel : Option.Rel (Session.Twins s.db.lowWaterMark s.db.mgr.nextTs) (run Session.step s later)
        (run Session.step s.collected later) :=
      run_rel (fun op hop s₁ s₂ ht => ht.step (fun heq => hlater (heq ▸ hop))) hstart
    generalize run Session.step s later = x at hrel ⊢
    generalize run Session.step s.collected later = y at hrel ⊢
    cases hrel with
    | none => exact .none
    | some ht => exact .some ht.sameReads

/-- A reader, and a writer that began and committed after it. -/
theorem gc_unobservable_later_writer : ∃ s, run Session.step (.init .snapshotIsolation)
      [.begin .readWrite,.put 1 [1] [0],.commit 1,.begin .readOnly,.begin .readWrite,.put 3 [1] [9],.commit 3] =
        some s ∧ s.db.txnGet 2 [1] = some (.ok (some [0])) ∧
    ((∀ later, .checkpoint ∉ later →
      Option.Rel Session.SameReads (run Session.step s later) (run Session.step s.collected later)) ↔
      ¬ ∃ t k, s.ReaderStraddled t k) := by
  refine exists_observed (·.db.txnGet 2 [1]) (some (.ok (some [0]))) (by decide +kernel) (fun s hs hget => ?_)
  exact ⟨hget,gc_unobservable_iff (by decide) hs⟩

/-- A writer begins before the only reader and commits after it began; the
collection takes the version the reader sees. -/
theorem gc_observed_by_straddled_reader : ∃ s, run Session.step (.init .snapshotIsolation)
      [.begin .readWrite,.put 1 [1] [0],.commit 1,.begin .readWrite,.begin .readOnly,.put 2 [1] [9],.commit 2] =
        some s ∧ s.db.txnGet 3 [1] = some (.ok (some [0])) ∧ s.db.gc.1.txnGet 3 [1] = some (.ok none) := by
  exact exists_observed (fun s => (s.db.txnGet 3 [1],s.db.gc.1.txnGet 3 [1])) (some (.ok (some [0])),some (.ok none))
    (by decide +kernel) (fun s _ hget => Prod.mk.inj hget)

end InterchangeDb
