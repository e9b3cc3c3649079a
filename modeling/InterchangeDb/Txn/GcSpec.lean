import InterchangeDb.Txn.MvccSpec
import InterchangeDb.Txn.Gc

/-! What a collection removes, version by version. -/
namespace InterchangeDb
open List Option Function

theorem GcView.isCommitted_iff (g : GcView) (writer ts : Nat) : g.isCommitted writer ts = true ↔
    writer ∉ g.nonCommitted ∧ (g.committedTxns.lookup writer ≠ none ∨ ts ≤ g.checkpointTs) := by
  simp [isCommitted,isSome_iff_ne_none]

/-- A version is taken: below the watermark, and not committed or older than a
committed one below the watermark. -/
def GcView.Reclaims (g : GcView) (version : Bytes → Nat → Option MvccValue) (k : Bytes) (ts : Nat)
    (v : MvccValue) : Prop :=
  ts < g.lowWaterMark ∧ (g.isCommitted v.txnId ts = false ∨
    ∃ ts' v', ts < ts' ∧ ts' < g.lowWaterMark ∧ version k ts' = some v' ∧ g.isCommitted v'.txnId ts' = true)

namespace DecodedEntry

/-- A committed entry below the watermark. -/
private def Candidate (g : GcView) (x : DecodedEntry) : Prop :=
  x.ts < g.lowWaterMark ∧ g.isCommitted x.value.txnId x.ts = true

end DecodedEntry

private theorem mvccKey_anti {k : Bytes} {ts ts' : Nat} (h : ts' ≤ ts) (ht : ts ≤ u64Max) :
    mvccKey k ts ≤ mvccKey k ts' := by
  apply not_lt.mp
  intro hlt
  exact absurd ((mvccKey_lt_iff (le_trans h ht) ht).mp hlt) (not_lt.mpr h)

private theorem key_eq_of_sandwich {x y z : DecodedEntry} (hx : x.WellFormed) (hy : y.WellFormed) (hz : z.WellFormed)
    (hk : y.key = x.key) (h1 : mvccKey y.key y.ts ≤ mvccKey z.key z.ts)
    (h2 : mvccKey z.key z.ts ≤ mvccKey x.key x.ts) : z.key = x.key := by
  rw [hk] at h1
  exact userKey_eq_of_between hx.1 hz.1 (le_trans (mvccKey_anti hy.2.1 le_rfl) h1)
    (le_trans h2 (mvccKey_anti (Nat.zero_le _) hx.2.1))

/-- An entry below the watermark that is not committed, or older than a
committed one of its key below the watermark. -/
private def Doomed (g : GcView) (seen : List DecodedEntry) (x : DecodedEntry) : Prop :=
  x.ts < g.lowWaterMark ∧ (g.isCommitted x.value.txnId x.ts = false ∨
    ∃ y ∈ seen, y.key = x.key ∧ x.ts < y.ts ∧ y.Candidate g)

/-- What the pass knows after some entries. -/
private structure GcScan.Spec (g : GcView) (seen : List DecodedEntry) (s : GcScan) : Prop where
  current : s.currentUserKey = seen.getLast?.map DecodedEntry.key
  keeper : s.foundKeeper = true ↔ ∃ x ∈ seen, some x.key = s.currentUserKey ∧ x.Candidate g
  deleted : ∀ ek, ek ∈ s.keysToDelete ↔ ∃ x ∈ seen, ek = mvccKey x.key x.ts ∧ Doomed g seen x

private theorem step_encode (g : GcView) (s : GcScan) {x : DecodedEntry} (hx : x.WellFormed) :
    GcScan.step g s x.encode =
      if g.lowWaterMark ≤ x.ts then s.enter x.key
      else if !g.isCommitted x.value.txnId x.ts then (s.enter x.key).remove (mvccKey x.key x.ts) x.value
      else if !(s.enter x.key).foundKeeper then { s.enter x.key with foundKeeper := true }
      else (s.enter x.key).remove (mvccKey x.key x.ts) x.value := by
  simp [GcScan.step,DecodedEntry.encode,decodeMvccKey_mvccKey hx.1 hx.2.1,decodeMvccValue_encodeMvccValue hx.2.2]

private theorem enter_current (s : GcScan) (k : Bytes) : (s.enter k).currentUserKey = some k := by
  unfold GcScan.enter
  split_ifs with h
  · exact h
  · rfl

private theorem enter_keysToDelete (s : GcScan) (k : Bytes) : (s.enter k).keysToDelete = s.keysToDelete := by
  unfold GcScan.enter
  split_ifs <;> rfl

private theorem remove_current (s : GcScan) (ek : Bytes) (v : MvccValue) :
    (s.remove ek v).currentUserKey = s.currentUserKey := rfl

private theorem remove_keeper (s : GcScan) (ek : Bytes) (v : MvccValue) :
    (s.remove ek v).foundKeeper = s.foundKeeper := rfl

private theorem mem_remove (s : GcScan) (ek ek' : Bytes) (v : MvccValue) :
    ek' ∈ (s.remove ek v).keysToDelete ↔ ek' ∈ s.keysToDelete ∨ ek' = ek := by
  simp [GcScan.remove]

private theorem enter_keeper {g : GcView} {seen : List DecodedEntry} {s : GcScan} {x : DecodedEntry} (hs : GcScan.Spec g seen s)
    (hw : ∀ y ∈ seen, y.WellFormed) (hx : x.WellFormed) (hsorted : DecodedEntry.Sorted seen)
    (hlast : ∀ y ∈ seen, mvccKey y.key y.ts < mvccKey x.key x.ts) :
    (s.enter x.key).foundKeeper = true ↔ ∃ y ∈ seen, y.key = x.key ∧ y.Candidate g := by
  unfold GcScan.enter
  split_ifs with hcur
  · simp [hs.keeper,hcur,some.injEq]
  · -- the last entry seen is of another key, so no entry of this key was seen
    refine iff_of_false (by simp) ?_
    rintro ⟨y,hy,hkey,_⟩
    have hne : seen ≠ [] := ne_nil_of_mem hy
    obtain ⟨front,z,rfl⟩ : ∃ front z, seen = front ++ [z] :=
      ⟨seen.dropLast,seen.getLast hne,(dropLast_append_getLast hne).symm⟩
    have hz : z ∈ front ++ [z] := by simp
    apply hcur
    rw [hs.current,getLast?_append_of_ne_nil _ (by simp)]
    simp only [getLast?_singleton,map_some,some.injEq]
    refine key_eq_of_sandwich hx (hw y hy) (hw z hz) hkey ?_ (hlast z hz).le
    rcases mem_append.mp hy with hy | hy
    · exact ((pairwise_append.mp hsorted).2.2 y hy z (by simp)).le
    · rw [mem_singleton.mp hy]

section Step

variable {g : GcView} {seen : List DecodedEntry} {x : DecodedEntry} (hw : ∀ y ∈ seen, y.WellFormed) (hx : x.WellFormed)
  (hlast : ∀ y ∈ seen, mvccKey y.key y.ts < mvccKey x.key x.ts)
include hw hx hlast

private theorem newer_of_seen {y : DecodedEntry} (hy : y ∈ seen) (hkey : y.key = x.key) : x.ts < y.ts := by
  have hlt := hlast y hy
  rw [hkey] at hlt
  exact (mvccKey_lt_iff (hw y hy).2.1 hx.2.1).mp hlt

private theorem doomed_append {z : DecodedEntry} (hz : z ∈ seen) : Doomed g (seen ++ [x]) z ↔ Doomed g seen z := by
  refine and_congr_right fun _ => or_congr_right ⟨?_,?_⟩
  · rintro ⟨y,hy,hkey,hlt,hc⟩
    rcases mem_append.mp hy with hy | hy
    · exact ⟨y,hy,hkey,hlt,hc⟩
    · rw [mem_singleton.mp hy] at hkey hlt
      exact absurd (newer_of_seen hw hx hlast hz hkey.symm) (not_lt.mpr hlt.le)
  · rintro ⟨y,hy,hrest⟩
    exact ⟨y,mem_append_left _ hy,hrest⟩

private theorem doomed_last : Doomed g (seen ++ [x]) x ↔ x.ts < g.lowWaterMark ∧
    (g.isCommitted x.value.txnId x.ts = false ∨ ∃ y ∈ seen, y.key = x.key ∧ y.Candidate g) := by
  refine and_congr_right fun _ => or_congr_right ⟨?_,?_⟩
  · rintro ⟨y,hy,hkey,hlt,hc⟩
    rcases mem_append.mp hy with hy | hy
    · exact ⟨y,hy,hkey,hc⟩
    · rw [mem_singleton.mp hy] at hlt
      exact absurd hlt (lt_irrefl _)
  · rintro ⟨y,hy,hkey,hc⟩
    exact ⟨y,mem_append_left _ hy,hkey,newer_of_seen hw hx hlast hy hkey,hc⟩

private theorem deleted_append {s : GcScan} (hs : GcScan.Spec g seen s) (ek : Bytes) :
    (∃ z ∈ seen ++ [x], ek = mvccKey z.key z.ts ∧ Doomed g (seen ++ [x]) z) ↔
      ek ∈ s.keysToDelete ∨ (ek = mvccKey x.key x.ts ∧ Doomed g (seen ++ [x]) x) := by
  rw [hs.deleted]
  constructor
  · rintro ⟨z,hz,hek,hd⟩
    rcases mem_append.mp hz with hz | hz
    · exact .inl ⟨z,hz,hek,(doomed_append hw hx hlast hz).mp hd⟩
    · rw [mem_singleton.mp hz] at hek hd
      exact .inr ⟨hek,hd⟩
  · rintro (⟨z,hz,hek,hd⟩ | ⟨hek,hd⟩)
    · exact ⟨z,mem_append_left _ hz,hek,(doomed_append hw hx hlast hz).mpr hd⟩
    · exact ⟨x,by simp,hek,hd⟩

private theorem spec_step {s : GcScan} (hs : GcScan.Spec g seen s) (hsorted : DecodedEntry.Sorted seen) :
    GcScan.Spec g (seen ++ [x]) (GcScan.step g s x.encode) := by
  have hkeep := enter_keeper hs hw hx hsorted hlast
  have hcand : (∃ z ∈ seen ++ [x], some z.key = some x.key ∧ z.Candidate g) ↔
      x.Candidate g ∨ (s.enter x.key).foundKeeper = true := by
    rw [hkeep]
    simp only [mem_append,mem_singleton,or_and_right,exists_or,exists_eq_left,some.injEq,
      true_and]
    exact or_comm
  have hdel := deleted_append hw hx hlast hs
  have hdoom := doomed_last hw hx hlast (g := g)
  rw [← hkeep] at hdoom
  have hcur : some x.key = (seen ++ [x]).getLast?.map DecodedEntry.key := by simp
  rw [step_encode g s hx]
  split_ifs with hlwm hnc hfk
  · -- at or above the watermark nothing changes but the key
    refine ⟨(enter_current s x.key).trans hcur,?_,?_⟩
    · rw [enter_current,hcand]
      exact ⟨.inr,fun h => h.resolve_left (fun hc => absurd hc.1 (not_lt.mpr hlwm))⟩
    · intro ek
      rw [enter_keysToDelete,hdel]
      exact ⟨.inl,fun h => h.resolve_right (fun hd => absurd hd.2.1 (not_lt.mpr hlwm))⟩
  · -- not committed: deleted
    rw [Bool.not_eq_true'] at hnc
    refine ⟨(enter_current s x.key).trans hcur,?_,?_⟩
    · rw [remove_current,remove_keeper,enter_current,hcand]
      exact ⟨.inr,fun h => h.resolve_left (fun hc => by simp [hc.2] at hnc)⟩
    · intro ek
      rw [mem_remove,enter_keysToDelete,hdel,and_iff_left (hdoom.mpr ⟨not_le.mp hlwm,.inl hnc⟩)]
  · -- the newest committed version: kept, and the flag goes up
    rw [Bool.not_eq_true',Bool.not_eq_false] at hnc
    rw [Bool.not_eq_true'] at hfk
    refine ⟨(enter_current s x.key).trans hcur,?_,?_⟩
    · simp only [enter_current,hcand]
      exact iff_of_true trivial (.inl ⟨not_le.mp hlwm,hnc⟩)
    · intro ek
      simp only [enter_keysToDelete,hdel]
      refine ⟨.inl,fun h => h.resolve_right ?_⟩
      rintro ⟨_,hd⟩
      rcases (hdoom.mp hd).2 with h | h
      · simp [h] at hnc
      · simp [h] at hfk
  · -- an older committed version: deleted
    rw [Bool.not_eq_true',Bool.not_eq_false] at hfk
    refine ⟨(enter_current s x.key).trans hcur,?_,?_⟩
    · rw [remove_current,remove_keeper,enter_current,hcand]
      exact iff_of_true hfk (.inr hfk)
    · intro ek
      rw [mem_remove,enter_keysToDelete,hdel,and_iff_left (hdoom.mpr ⟨not_le.mp hlwm,.inr hfk⟩)]

end Step

private theorem spec_scan (g : GcView) (xs : List DecodedEntry) (hw : ∀ x ∈ xs, x.WellFormed) (hs : DecodedEntry.Sorted xs) :
    GcScan.Spec g xs ((xs.map DecodedEntry.encode).foldl (GcScan.step g) .new) := by
  induction xs using reverseRecOn with
  | nil => exact ⟨rfl,by simp [GcScan.new],by simp [GcScan.new]⟩
  | append_singleton front x ih =>
    obtain ⟨hfront,_,hlast⟩ := pairwise_append.mp hs
    have hwf : ∀ y ∈ front, y.WellFormed := fun y hy => hw y (mem_append_left _ hy)
    rw [map_append,foldl_append]
    exact spec_step hwf (hw x (by simp)) (fun y hy => hlast y hy x (by simp)) (ih hwf hfront) hfront

private theorem get_foldl_delete (ks : List Bytes) (e : Engine) (q : Bytes) :
    (ks.foldl Engine.delete e).get q = if q ∈ ks then none else e.get q := by
  induction ks generalizing e with
  | nil => simp
  | cons k ks ih =>
    rw [foldl_cons,ih,Engine.delete,OrdMap.get_erase]
    by_cases hq : q = k <;> by_cases hm : q ∈ ks <;> simp [hq,hm]

/-- A collection removes exactly the versions it reclaims. -/
theorem gcCollect_spec {e : Engine} (he : e.Versioned) (g : GcView) :
    (gcCollect e g).1.Versioned ∧ ∀ k ts v, (gcCollect e g).1.version k ts = some v ↔
      e.version k ts = some v ∧ ¬ g.Reclaims e.version k ts v := by
  obtain ⟨xs,hxs,hwf,hsorted,hmem⟩ := entries_decoded he
  have hspec := spec_scan g xs hwf hsorted
  rw [← hxs] at hspec
  have hget : ∀ q, (gcCollect e g).1.get q = if q ∈ ((e.scan .unbounded .unbounded).foldl
      (GcScan.step g) .new).keysToDelete then none else e.get q := fun q => get_foldl_delete _ e q
  have hver : (gcCollect e g).1.Versioned := by
    intro ek ev h
    rw [hget] at h
    split_ifs at h
    exact he ek ev h
  refine ⟨hver,?_⟩
  intro k ts v
  -- the deleted keys are those of reclaimed versions
  have hdel : e.version k ts = some v → (mvccKey k ts ∈ ((e.scan .unbounded .unbounded).foldl
      (GcScan.step g) .new).keysToDelete ↔ g.Reclaims e.version k ts v) := by
    intro hv
    obtain ⟨hk,ht⟩ := Engine.version_bounds hv
    rw [hspec.deleted]
    constructor
    · rintro ⟨x,hx,hkey,hlt,hd⟩
      obtain ⟨rfl,rfl⟩ := mvccKey_inj hk ht (hwf x hx).1 (hwf x hx).2.1 hkey
      obtain rfl : v = x.value := some.inj (hv.symm.trans ((hmem x).mp hx))
      refine ⟨hlt,hd.imp_right ?_⟩
      rintro ⟨y,hy,hyk,hlt',hc⟩
      exact ⟨y.ts,y.value,hlt',hc.1,hyk ▸ (hmem y).mp hy,hc.2⟩
    · rintro ⟨hlt,hd⟩
      refine ⟨⟨k,ts,v⟩,(hmem _).mpr hv,rfl,hlt,hd.imp_right ?_⟩
      rintro ⟨ts',v',hlt',hlwm,hv',hc⟩
      exact ⟨⟨k,ts',v'⟩,(hmem _).mpr hv',rfl,hlt',hlwm,hc⟩
  by_cases hb : k.length ≤ u32Max ∧ ts ≤ u64Max
  · rw [hver.version_eq_some_iff hb.1 hb.2,hget]
    split_ifs with hm
    · refine iff_of_false (fun h => by cases h.2) ?_
      rintro ⟨hv,hnr⟩
      exact hnr ((hdel hv).mp hm)
    · rw [← he.version_eq_some_iff hb.1 hb.2]
      exact ⟨fun hv => ⟨hv,fun hr => hm ((hdel hv).mpr hr)⟩,And.left⟩
  · refine iff_of_false (fun h => hb (Engine.version_bounds h)) ?_
    rintro ⟨hv,_⟩
    exact hb (Engine.version_bounds hv)

/-- An earlier collection, at a lower watermark, changes nothing about what a later one leaves. -/
theorem gcCollect_staged {e : Engine} (he : e.Versioned) {g g' : GcView} (hle : g.lowWaterMark ≤ g'.lowWaterMark)
    (hsame : ∀ t, ∀ ts < g.lowWaterMark, g'.isCommitted t ts = g.isCommitted t ts) (k : Bytes) (ts : Nat) :
    (gcCollect (gcCollect e g).1 g').1.version k ts = (gcCollect e g').1.version k ts := by
  obtain ⟨he',hspec⟩ := gcCollect_spec he g
  refine Option.ext fun v => ?_
  rw [(gcCollect_spec he' g').2,hspec,(gcCollect_spec he g').2]
  constructor
  · rintro ⟨⟨hv,-⟩,hkept⟩
    refine ⟨hv,fun hr => hkept ⟨hr.1,hr.2.imp_right ?_⟩⟩
    rintro ⟨ts',v',hlt,hlow,hv',hc⟩
    -- the newest committed version below the later watermark is not taken by the earlier collection
    let Newer (n : Nat) : Prop := n < g'.lowWaterMark ∧ ∃ w, e.version k n = some w ∧ g'.isCommitted w.txnId n = true
    obtain ⟨n,hn,⟨hnlow,w,hw,hwc⟩,hmax⟩ : ∃ n, ts' ≤ n ∧ Newer n ∧ ∀ m, Newer m → m ≤ n := by
      classical
      refine ⟨Nat.findGreatest Newer g'.lowWaterMark,Nat.le_findGreatest hlow.le ⟨hlow,v',hv',hc⟩,
        Nat.findGreatest_spec hlow.le ⟨hlow,v',hv',hc⟩,fun m hm => Nat.le_findGreatest hm.1.le hm⟩
    refine ⟨n,w,hlt.trans_le hn,hnlow,(hspec k n w).mpr ⟨hw,?_⟩,hwc⟩
    rintro ⟨hnl,hun | ⟨m,x,hnm,hml,hx,hxc⟩⟩
    · exact absurd hwc (by rw [hsame _ _ hnl,hun]; decide)
    · exact absurd (hmax m ⟨hml.trans_le hle,x,hx,(hsame _ _ hml).trans hxc⟩) (not_le.mpr hnm)
  · rintro ⟨hv,hkept⟩
    refine ⟨⟨hv,fun hr => hkept ⟨hr.1.trans_le hle,?_⟩⟩,fun hr => hkept ⟨hr.1,hr.2.imp_right ?_⟩⟩
    · refine hr.2.imp (hsame _ _ hr.1).trans ?_
      rintro ⟨ts',v',hlt,hlow,hv',hc⟩
      exact ⟨ts',v',hlt,hlow.trans_le hle,hv',(hsame _ _ hlow).trans hc⟩
    · rintro ⟨ts',v',hlt,hlow,hv',hc⟩
      exact ⟨ts',v',hlt,hlow,((hspec k ts' v').mp hv').1,hc⟩

theorem gcCollect_staged_overwritten : ∃ e : Engine, e.version [7] 1 = some (.value 1 [1]) ∧
    ∀ k ts, (gcCollect (gcCollect e ⟨3,∅,5,∅⟩).1 ⟨6,∅,5,∅⟩).1.version k ts = (gcCollect e ⟨6,∅,5,∅⟩).1.version k ts := by
  have hone : MvccValue.Encodable (.value 1 [1]) := ⟨by decide,by decide⟩
  have htwo : MvccValue.Encodable (.tombstone 2) := ⟨by decide,by decide⟩
  have hver := (Engine.versioned_empty.put (k := [7]) (by decide) (show 1 ≤ u64Max by decide) hone).put (k := [7])
    (by decide) (show 4 ≤ u64Max by decide) htwo
  refine ⟨_,?_,gcCollect_staged hver (by decide) (fun _ _ _ => rfl)⟩
  rw [Engine.version_put _ (by decide) (by decide) htwo,if_neg (by decide),Engine.version_put _ (by decide) (by decide) hone]
  rfl

theorem mem_stillPresent {e : Engine} (he : e.Versioned) (ids : Finset Nat) (t : Nat) :
    t ∈ stillPresent e ids ↔ t ∈ ids ∧ ∃ k ts v, e.version k ts = some v ∧ v.txnId = t := by
  obtain ⟨xs,hxs,hwf,_,hmem⟩ := entries_decoded he
  rw [stillPresent,Finset.mem_filter,hxs,List.any_map,List.any_eq_true]
  refine and_congr_right fun _ => ⟨?_,?_⟩
  · rintro ⟨x,hx,hp⟩
    obtain ⟨hk,ht,hv⟩ := hwf x hx
    simp only [Function.comp_apply,DecodedEntry.encode,decodeMvccKey_mvccKey hk ht,
      decodeMvccValue_encodeMvccValue hv,Bool.and_eq_true,decide_eq_true_eq] at hp
    exact ⟨x.key,x.ts,x.value,(hmem x).mp hx,hp.2⟩
  · rintro ⟨k,ts,v,hv,rfl⟩
    have hx : (⟨k,ts,v⟩ : DecodedEntry) ∈ xs := (hmem ⟨k,ts,v⟩).mpr hv
    obtain ⟨hk,ht,henc⟩ := hwf _ hx
    refine ⟨⟨k,ts,v⟩,hx,?_⟩
    simp [comp_apply,DecodedEntry.encode,decodeMvccKey_mvccKey hk ht,
      decodeMvccValue_encodeMvccValue henc,Except.isOk,Except.toBool]

end InterchangeDb
