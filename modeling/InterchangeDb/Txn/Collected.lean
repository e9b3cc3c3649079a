import InterchangeDb.Txn.Visibility

/-! Two runs that differ by one garbage collection, and the relation that holds from there on. -/
namespace InterchangeDb

/-- A committed version of the key stands above, in a store collected below `low`
before time `g`. -/
def Outlived (y : MvccState) (h : History) (low g : Nat) (k : Bytes) (ts : Nat) : Prop :=
  ∃ ts' v c, ts < ts' ∧ ts' < low ∧ y.version k ts' = some v ∧ .committed v.txnId c ∈ h ∧ c < g

/-- The store `y` is `x` without what a collection at time `g` with watermark
`low` took. The readers of that time must agree; later ones then do. -/
structure Collected (low g : Nat) (h : History) (x y : MvccState) : Prop where
  active : y.active = x.active
  low_le : low ≤ x.nextTs
  time_le : g ≤ x.nextTs
  oldest : ∀ {t b}, x.active t = some b → low ≤ b
  sub : ∀ {k ts v}, y.version k ts = some v → x.version k ts = some v
  lost : ∀ {k ts v}, x.version k ts = some v → y.version k ts = none →
    ts < low ∧ (.aborted v.txnId ∈ h ∨ Outlived y h low g k ts)
  agree : ∀ {t b k r r'}, x.active t = some b → b < g → x.Supplies t b k r → y.Supplies t b k r' →
    r.bind (·.2.data) = r'.bind (·.2.data)

namespace MvccInv

variable {rules : Rules} {s : MvccState} {h : History}

theorem counts_iff (hi : MvccInv rules s h) (hck : ¬ rules.checkpoints) {k : Bytes} {ts : Nat} {v : MvccValue}
    (hv : s.version k ts = some v) : s.CountsCommitted v.txnId ts ↔ ∃ c, .committed v.txnId c ∈ h := by
  constructor
  · rintro ⟨_,hc | hle⟩
    · obtain ⟨c,hc⟩ := Option.ne_none_iff_exists'.mp hc
      exact ⟨c,hi.life.remembered hc⟩
    · rw [hi.uncheckpointed hck] at hle
      exact absurd (hi.life.began_bounds (hi.stored.version_sound hv).1).2.1 (by omega)
  · rintro ⟨c,hc⟩
    refine ⟨?_,.inl (by simp [hi.committed_eq hck hc])⟩
    rintro (hu | ha)
    · simp [hi.life.uncommitted] at hu
    · exact hi.life.aborted_not_committed (hi.life.aborted_sound ha) hc

theorem reclaimed_iff (hi : MvccInv rules s h) (hck : ¬ rules.checkpoints) {lwm : Nat} {k : Bytes} {ts : Nat}
    {v : MvccValue} (hv : s.version k ts = some v) :
    s.Reclaimed lwm k ts v ↔ ts < lwm ∧ ((∀ c, .committed v.txnId c ∉ h) ∨
      ∃ ts' v' c, ts < ts' ∧ ts' < lwm ∧ s.version k ts' = some v' ∧ .committed v'.txnId c ∈ h) := by
  refine and_congr_right fun _ => or_congr ?_ ?_
  · rw [hi.counts_iff hck hv,not_exists]
  · refine exists_congr fun ts' => exists_congr fun v' => ?_
    constructor
    · rintro ⟨hlt,hlt',hv',hc⟩
      obtain ⟨c,hc⟩ := (hi.counts_iff hck hv').mp hc
      exact ⟨c,hlt,hlt',hv',hc⟩
    · rintro ⟨c,hlt,hlt',hv',hc⟩
      exact ⟨hlt,hlt',hv',(hi.counts_iff hck hv').mpr ⟨c,hc⟩⟩

end MvccInv

namespace MvccStep

variable {rules : Rules} {s s' : MvccState} {ev : List Event}

theorem version_cases (hst : MvccStep rules s ev s') (hgc : ¬ rules.collects) :
    (s'.version = s.version ∧ ∀ t k d, ev ≠ [.wrote t k d]) ∨
    ∃ t b k v, ev = [.wrote t k v.data] ∧ s.active t = some b ∧ v.txnId = t ∧
      s'.version = fun k' ts => if k' = k ∧ ts = b then some v else s.version k' ts := by
  cases hst with
  | quiet | begin | commit | abort | checkpoint => exact .inl ⟨rfl,by simp⟩
  | write t b k v holds hact hown => exact .inr ⟨t,b,k,v,rfl,hact,hown,rfl⟩
  | gc _ _ _ hallowed => exact absurd hallowed hgc

theorem active_cases (hst : MvccStep rules s ev s') :
    s.nextTs ≤ s'.nextTs ∧ ∀ t b, s'.active t = some b → s.active t = some b ∨ b = s.nextTs := by
  cases hst with
  | begin =>
    refine ⟨Nat.le_succ _,fun t b ht => ?_⟩
    simp only [Function.update_apply] at ht
    split_ifs at ht with heq
    · exact .inr (Option.some.inj ht).symm
    · exact .inl ht
  | commit t₀ | abort t₀ =>
    refine ⟨by simp,fun t b ht => ?_⟩
    simp only [Function.update_apply] at ht
    split_ifs at ht with heq
    exact .inl ht
  | _ => exact ⟨le_rfl,fun t b ht => .inl ht⟩

theorem committed_before (hst : MvccStep rules s ev s') {h : History} {w c b : Nat} (hb : b < s.nextTs) (hc : c ≤ b) :
    .committed w c ∈ ev ++ h ↔ .committed w c ∈ h := by
  cases hst with
  | commit t =>
    have hne : c ≠ s.nextTs := by omega
    simp [hne]
  | _ => simp

end MvccStep

namespace MvccInv

variable {rules steps : Rules} {s s' : MvccState} {ev : List Event} {h : History}

/-- Without checkpoints an active writer shows its versions to nobody else. -/
theorem not_visible_of_active (hi : MvccInv rules s h) (hck : ¬ rules.checkpoints) {t readTs w b : Nat} (hne : w ≠ t)
    (hw : s.active w = some b) : ¬ s.Visible t readTs w b := by
  rw [hi.visible_active_iff hne hw,hi.uncheckpointed hck]
  have := (hi.life.began_bounds (hi.life.active_iff.mp hw).1).2.1
  omega

/-- The versions an active transaction sees change only by its own writes and
by collection. -/
theorem shows_step (hi : MvccInv rules s h) (hi' : MvccInv rules s' (ev ++ h)) (hck : ¬ rules.checkpoints)
    (hst : MvccStep steps s ev s') (hgc : ¬ steps.collects) {t b : Nat} {k : Bytes} (hact : s.active t = some b)
    (hother : ∀ d, ev ≠ [.wrote t k d]) (ts : Nat) (v : MvccValue) :
    s'.version k ts = some v ∧ s'.Visible t b v.txnId ts ↔ s.version k ts = some v ∧ s.Visible t b v.txnId ts := by
  have hb := (hi.life.began_bounds (hi.life.active_iff.mp hact).1).2.2
  have hsame : s'.version k ts = s.version k ts →
      (s'.version k ts = some v ∧ s'.Visible t b v.txnId ts ↔
        s.version k ts = some v ∧ s.Visible t b v.txnId ts) := by
    intro heq
    rw [heq]
    refine and_congr_right fun hv => ?_
    rw [hi'.visible_iff hck (hi'.stored.version_sound (heq.trans hv)).1,
      hi.visible_iff hck (hi.stored.version_sound hv).1]
    refine or_congr_right (exists_congr fun c => and_congr_left fun hle => ?_)
    exact hst.committed_before hb hle
  rcases hst.version_cases hgc with ⟨heq,_⟩ | ⟨t₀,b₀,k₀,v₀,rfl,hact₀,hown,heq⟩
  · exact hsame (by rw [heq])
  · by_cases hhere : k = k₀ ∧ ts = b₀
    · obtain ⟨rfl,rfl⟩ := hhere
      have hne : t₀ ≠ t := fun heq => hother v₀.data (by rw [heq])
      have hact₁ : s'.active t₀ = some ts := by
        refine hi'.life.active_iff.mpr ?_
        simpa using hi.life.active_iff.mp hact₀
      refine iff_of_false ?_ ?_
      · rintro ⟨hv,hvis⟩
        obtain rfl : v₀ = v := by simpa [heq] using hv
        rw [hown] at hvis
        exact hi'.not_visible_of_active hck hne hact₁ hvis
      · rintro ⟨hv,hvis⟩
        rw [hi.stored.writer_eq hi.life hv (hi.life.active_iff.mp hact₀).1] at hvis
        exact hi.not_visible_of_active hck hne hact₀ hvis
    · exact hsame (by rw [heq]; exact if_neg hhere)

end MvccInv

namespace Collected

variable {rules steps : Rules} {low g : Nat} {h : History} {x y x' y' : MvccState} {ev : List Event}
variable {k : Bytes} {ts c t lwm b : Nat} {v : MvccValue}

section

variable (hc : Collected low g h x y)
include hc

theorem outlived_of_committed (hi : MvccInv rules x h) (hv : x.version k ts = some v) (hlost : y.version k ts = none)
    (hcom : .committed v.txnId c ∈ h) : Outlived y h low g k ts := by
  rcases (hc.lost hv hlost).2 with ha | ho
  · exact absurd hcom (hi.life.aborted_not_committed ha)
  · exact ho

theorem later_conflict (hi : MvccInv rules x h) (hchecked : rules.checked) (hv : x.version k ts = some v)
    (hlost : y.version k ts = none) (hcom : .committed v.txnId c ∈ h) :
    ∃ ts' v' c', ts < ts' ∧ y.version k ts' = some v' ∧ .committed v'.txnId c' ∈ h ∧ c ≤ c' := by
  obtain ⟨ts',v',c',hlt,_,hv',hcom',_⟩ := hc.outlived_of_committed hi hv hlost hcom
  have hx := hc.sub hv'
  exact ⟨ts',v',c',hlt,hv',hcom',hi.commit_order hchecked (hi.stored.version_sound hx).1
    (hi.stored.version_sound hv).1 hcom' hcom (hi.stored.version_written hx) (hi.stored.version_written hv) hlt.le⟩

section

variable (hx : MvccInv rules x h) (hy : MvccInv rules y h)
include hx hy

/-- A reader whose snapshot is not older than the collection sees no difference. -/
theorem supplies_late (hck : ¬ rules.checkpoints) {readTs : Nat} (hlate : g ≤ readTs)
    (hact : ∀ b, .began t b ∈ h → low ≤ b) {r : Option (Nat × MvccValue)} (hr : x.Supplies t readTs k r) : y.Supplies t readTs k r := by
  have hvis : ∀ {ts v}, y.version k ts = some v → (y.Visible t readTs v.txnId ts ↔ x.Visible t readTs v.txnId ts) := by
    intro ts v hv
    rw [hy.visible_iff hck (hy.stored.version_sound hv).1,hx.visible_iff hck (hx.stored.version_sound (hc.sub hv)).1]
  match r with
  | none => exact fun ts v hv hv' => hr ts v (hc.sub hv) ((hvis hv).mp hv')
  | some (ts,v) =>
    obtain ⟨hv,hsees,hmax⟩ := hr
    have hkept : y.version k ts = some v := by
      cases hlost : y.version k ts with
      | some v' => rw [← hc.sub hlost,hv]
      | none =>
        rcases (hx.visible_iff hck (hx.stored.version_sound hv).1).mp hsees with heq | ⟨c,hcom,_⟩
        · have hb := (hx.stored.version_sound hv).1
          rw [heq] at hb
          exact absurd (hact ts hb) (not_le.mpr (hc.lost hv hlost).1)
        · -- the version above was committed before the snapshot
          obtain ⟨ts',v',c',hlt,_,hv',hcom',hcg⟩ := hc.outlived_of_committed hx hv hlost hcom
          have hv'' := hc.sub hv'
          refine absurd (hmax ts' v' hv'' ?_) (not_le.mpr hlt)
          exact (hx.visible_iff hck (hx.stored.version_sound hv'').1).mpr (.inr ⟨c',hcom',by omega⟩)
    exact ⟨hkept,(hvis hkept).mpr hsees,fun ts' v' hv' hsees' => hmax ts' v' (hc.sub hv') ((hvis hv').mp hsees')⟩

theorem step (hx' : MvccInv rules x' (ev ++ h)) (hy' : MvccInv rules y' (ev ++ h)) (hck : ¬ rules.checkpoints)
    (hgc : ¬ steps.collects) (hstx : MvccStep steps x ev x') (hsty : MvccStep steps y ev y')
    (hactive : y'.active = x'.active) : Collected low g (ev ++ h) x' y' := by
  obtain ⟨hts,hnew⟩ := hstx.active_cases
  have hver : (x'.version = x.version ∧ y'.version = y.version) ∨
      ∃ b k v, low ≤ b ∧ (x'.version = fun k' ts => if k' = k ∧ ts = b then some v else x.version k' ts) ∧
        y'.version = fun k' ts => if k' = k ∧ ts = b then some v else y.version k' ts := by
    rcases hstx.version_cases hgc with ⟨hxv,hno⟩ | ⟨t,b,k,v,rfl,hact,hown,hxv⟩
    · rcases hsty.version_cases hgc with ⟨hyv,_⟩ | ⟨t,b,k,v,hev,_⟩
      · exact .inl ⟨hxv,hyv⟩
      · exact absurd hev (hno t k v.data)
    · rcases hsty.version_cases hgc with ⟨_,hno⟩ | ⟨t',b',k',v',hev,hact',hown',hyv⟩
      · exact absurd rfl (hno t k v.data)
      · simp only [List.cons.injEq,Event.wrote.injEq,and_true] at hev
        obtain ⟨rfl,rfl,hdata⟩ := hev
        rw [hc.active,hact] at hact'
        cases hact'
        obtain rfl : v = v' := MvccValue.ext (hown.trans hown'.symm) hdata
        exact .inr ⟨b,k,v,hc.oldest hact,hxv,hyv⟩
  have houtlived : ∀ {k ts}, Outlived y h low g k ts → Outlived y' (ev ++ h) low g k ts := by
    rintro k ts ⟨ts',v',c,hlt,hlow,hv',hcom,hcg⟩
    refine ⟨ts',v',c,hlt,hlow,?_,List.mem_append_right _ hcom,hcg⟩
    rcases hver with ⟨_,heq⟩ | ⟨b,k₀,v₀,hle,_,heq⟩
    · rw [heq,hv']
    · simp only [heq]
      rw [if_neg (fun hhere => by omega),hv']
  refine ⟨hactive,hc.low_le.trans hts,hc.time_le.trans hts,?_,?_,?_,?_⟩
  · intro t b ht
    rcases hnew t b ht with hold | rfl
    · exact hc.oldest hold
    · exact hc.low_le
  · intro k ts v hv
    rcases hver with ⟨heqx,heqy⟩ | ⟨b,k₀,v₀,_,heqx,heqy⟩
    · rw [heqx]
      exact hc.sub (heqy ▸ hv)
    · simp only [heqx]
      simp only [heqy] at hv
      split_ifs at hv ⊢
      · exact hv
      · exact hc.sub hv
  · intro k ts v hv hlost
    have hold : x.version k ts = some v ∧ y.version k ts = none := by
      rcases hver with ⟨heqx,heqy⟩ | ⟨b,k₀,v₀,_,heqx,heqy⟩
      · exact ⟨heqx ▸ hv,heqy ▸ hlost⟩
      · simp only [heqx] at hv
        simp only [heqy] at hlost
        split_ifs at hv hlost with hhere
        exact ⟨hv,hlost⟩
    obtain ⟨hlt,ha | ho⟩ := hc.lost hold.1 hold.2
    · exact ⟨hlt,.inl (List.mem_append_right _ ha)⟩
    · exact ⟨hlt,.inr (houtlived ho)⟩
  · intro t b k r r' ht hb hr hr'
    have hold : x.active t = some b := by
      rcases hnew t b ht with hold | rfl
      · exact hold
      · exact absurd hc.time_le (not_le.mpr hb)
    by_cases hown : ∃ d, ev = [.wrote t k d]
    · obtain ⟨d,rfl⟩ := hown
      have hlast : lastWrite ([.wrote t k d] ++ h) t k = some d := by simp
      rw [hx'.own_supplies hck ht hlast hr,hy'.own_supplies hck (hactive ▸ ht) hlast hr']
    · rw [not_exists] at hown
      refine hc.agree hold hb ((MvccState.supplies_congr ?_ r).mp hr) ((MvccState.supplies_congr ?_ r').mp hr')
      · exact hx.shows_step hx' hck hstx hgc hold hown
      · exact hy.shows_step hy' hck hsty hgc (hc.active ▸ hold) hown

theorem version_gc (hck : ¬ rules.checkpoints) (hle : low ≤ lwm)
    (hkx : ∀ k ts v, x'.version k ts = some v ↔ x.version k ts = some v ∧ ¬ x.Reclaimed lwm k ts v)
    (hky : ∀ k ts v, y'.version k ts = some v ↔ y.version k ts = some v ∧ ¬ y.Reclaimed lwm k ts v) :
    y'.version = x'.version := by
  funext k ts
  refine Option.ext fun v => ?_
  rw [hkx,hky]
  constructor
  · rintro ⟨hv,hnr⟩
    refine ⟨hc.sub hv,fun hr => hnr ?_⟩
    obtain ⟨hlt,hcases⟩ := (hx.reclaimed_iff hck (hc.sub hv)).mp hr
    refine (hy.reclaimed_iff hck hv).mpr ⟨hlt,hcases.imp_right ?_⟩
    rintro ⟨ts',v',c,hlt',hlwm,hv',hcom⟩
    cases hlost : y.version k ts' with
    | some w =>
      obtain rfl : v' = w := Option.some.inj (hv'.symm.trans (hc.sub hlost))
      exact ⟨ts',v',c,hlt',hlwm,hlost,hcom⟩
    | none =>
      obtain ⟨ts₂,v₂,c₂,hlt₂,hlow,hv₂,hcom₂,_⟩ := hc.outlived_of_committed hx hv' hlost hcom
      exact ⟨ts₂,v₂,c₂,by omega,by omega,hv₂,hcom₂⟩
  · rintro ⟨hv,hnr⟩
    have hkept : y.version k ts = some v := by
      cases hlost : y.version k ts with
      | some w => rw [← hc.sub hlost,hv]
      | none =>
        refine absurd ((hx.reclaimed_iff hck hv).mpr ?_) hnr
        obtain ⟨hlt,ha | ⟨ts',v',c,hlt',hlow,hv',hcom,_⟩⟩ := hc.lost hv hlost
        · exact ⟨by omega,.inl fun c hcom => hx.life.aborted_not_committed ha hcom⟩
        · exact ⟨by omega,.inr ⟨ts',v',c,hlt',by omega,hc.sub hv',hcom⟩⟩
    refine ⟨hkept,fun hr => hnr ?_⟩
    obtain ⟨hlt,hcases⟩ := (hy.reclaimed_iff hck hkept).mp hr
    refine (hx.reclaimed_iff hck hv).mpr ⟨hlt,hcases.imp_right ?_⟩
    rintro ⟨ts',v',c,hlt',hlwm,hv',hcom⟩
    exact ⟨ts',v',c,hlt',hlwm,hc.sub hv',hcom⟩

end

end

section

variable (hx : MvccInv rules x h)
include hx

theorem of_version_eq (hy : MvccInv rules y h) (hck : ¬ rules.checkpoints)
    (hactive : y.active = x.active) (hversion : y.version = x.version) (hlow : low ≤ x.nextTs) (hg : g ≤ x.nextTs)
    (hold : ∀ {t b}, x.active t = some b → low ≤ b) : Collected low g h x y := by
  refine ⟨hactive,hlow,hg,hold,?_,?_,?_⟩
  · intro k ts v hv
    rwa [← hversion]
  · intro k ts v hv hlost
    rw [hversion,hv] at hlost
    cases hlost
  · intro t b k r r' _ _ hr hr'
    have heq : r = r' := by
      refine MvccState.Supplies.unique hr ((MvccState.supplies_congr (fun ts v => ?_) r').mp hr')
      rw [hversion]
      refine and_congr_right fun hv => ?_
      rw [hy.visible_iff hck (hx.stored.version_sound hv).1,hx.visible_iff hck (hx.stored.version_sound hv).1]
    rw [heq]

private theorem below_straddler (hchecked : rules.checked) (hck : ¬ rules.checkpoints) {ts' : Nat} {v' : MvccValue}
    (hact : x.active t = some b) (hv : x.version k ts = some v) (hcom : .committed v.txnId c ∈ h) (hbc : b < c)
    (hv' : x.version k ts' = some v') (hvis : x.Visible t b v'.txnId ts') : ts' < ts := by
  have hb := (hx.stored.version_sound hv).1
  have hb' := (hx.stored.version_sound hv').1
  obtain ⟨hbt,hna,hnc⟩ := hx.life.active_iff.mp hact
  rcases (hx.visible_iff hck hb').mp hvis with heq | ⟨c',hcom',hle⟩
  · -- the reader cannot have written the key
    have hwrote := hx.stored.version_written hv'
    rw [heq] at hwrote
    have hne : t ≠ v.txnId := fun heq => hnc c (heq ▸ hcom)
    rcases hx.wins hchecked hne hbt hwrote hna hcom (hx.stored.version_written hv) with hlt | ⟨c₁,_,hc₁,_⟩
    · omega
    · exact absurd hc₁ (hnc c₁)
  · by_contra hge
    have := hx.commit_order hchecked hb' hb hcom' hcom (hx.stored.version_written hv')
      (hx.stored.version_written hv) (not_lt.mp hge)
    omega

/-- After a collection nothing is left for a reader below a version that
committed after it began. -/
theorem supplies_straddled (hy : MvccInv rules y h) (hchecked : rules.checked) (hck : ¬ rules.checkpoints)
    (hky : ∀ k ts v, y.version k ts = some v ↔ x.version k ts = some v ∧ ¬ x.Reclaimed lwm k ts v)
    (hact : x.active t = some b) (hv : x.version k ts = some v) (hlt : ts < lwm) (hcom : .committed v.txnId c ∈ h)
    (hbc : b < c) : y.Supplies t b k none := by
  intro ts' v' hv' hvis'
  obtain ⟨hvx,hnr⟩ := (hky k ts' v').mp hv'
  have hvis : x.Visible t b v'.txnId ts' := by
    rw [hy.visible_iff hck (hy.stored.version_sound hv').1] at hvis'
    rwa [hx.visible_iff hck (hx.stored.version_sound hvx).1]
  have hbelow := below_straddler hx hchecked hck hact hv hcom hbc hvx hvis
  exact hnr ((hx.reclaimed_iff hck hvx).mpr ⟨by omega,.inr ⟨ts,v,c,hbelow,hlt,hv,hcom⟩⟩)

/-- The collection itself. A reader that would lose a value to a version it
does not see must not exist. -/
theorem init (hy : MvccInv rules y h) (hchecked : rules.checked) (hck : ¬ rules.checkpoints)
  (hle : lwm ≤ x.nextTs) (hold : ∀ t b, x.active t = some b → lwm ≤ b) (hactive : y.active = x.active)
    (hky : ∀ k ts v, y.version k ts = some v ↔ x.version k ts = some v ∧ ¬ x.Reclaimed lwm k ts v)
    (hno : ∀ {t b k ts v c r}, x.active t = some b → x.version k ts = some v → ts < lwm →
      .committed v.txnId c ∈ h → b < c → x.Supplies t b k r → r.bind (·.2.data) = none) :
    Collected lwm x.nextTs h x y := by
  have hlost : ∀ {k ts v}, x.version k ts = some v → y.version k ts = none →
      ts < lwm ∧ (.aborted v.txnId ∈ h ∨ Outlived y h lwm x.nextTs k ts) := by
    intro k ts v hv hlost
    have hr : x.Reclaimed lwm k ts v := by
      by_contra hnr
      rw [(hky k ts v).mpr ⟨hv,hnr⟩] at hlost
      cases hlost
    refine ⟨hr.1,?_⟩
    rcases hx.stored.reclaimed_cases hx.life (hx.wins hchecked) hold hv hr with
      ha | ⟨c,hcom,ts',v',c',hlt,hlt',hv',hnr,hcom'⟩
    · exact .inl ha
    · obtain ⟨_,b,hb,hbc⟩ := hx.life.committed_bounds hcom
      have := hx.life.began_unique hb (hx.stored.version_sound hv).1
      exact .inr ⟨ts',v',c',by omega,hlt',(hky k ts' v').mpr ⟨hv',hnr⟩,hcom',(hx.life.committed_bounds hcom').1⟩
  have hsub : ∀ {k ts v}, y.version k ts = some v → x.version k ts = some v := fun hv => ((hky _ _ _).mp hv).1
  refine ⟨hactive,hle,le_rfl,hold _ _,hsub,hlost,?_⟩
  intro t b k r r' ht _ hr hr'
  have hvis : ∀ {ts v}, y.version k ts = some v → (y.Visible t b v.txnId ts ↔ x.Visible t b v.txnId ts) := by
    intro ts v hv
    rw [hy.visible_iff hck (hy.stored.version_sound hv).1,hx.visible_iff hck (hx.stored.version_sound (hsub hv)).1]
  match r with
  | none =>
    have hnone : y.Supplies t b k none := fun ts v hv hsees => hr ts v (hsub hv) ((hvis hv).mp hsees)
    rw [MvccState.Supplies.unique hr' hnone]
  | some (ts,v) =>
    obtain ⟨hv,hsees,hmax⟩ := id hr
    cases hgone : y.version k ts with
    | some w =>
      obtain rfl : w = v := Option.some.inj ((hsub hgone).symm.trans hv)
      have hsame : y.Supplies t b k (some (ts,w)) :=
        ⟨hgone,(hvis hgone).mpr hsees,fun ts' v' hv' hs => hmax ts' v' (hsub hv') ((hvis hv').mp hs)⟩
      rw [MvccState.Supplies.unique hr' hsame]
    | none =>
      obtain ⟨hlt,ha | ⟨ts',v',c,hlt',hlow,hv',hcom,_⟩⟩ := hlost hv hgone
      · obtain ⟨_,hna,_⟩ := hx.life.active_iff.mp ht
        rcases (hx.visible_iff hck (hx.stored.version_sound hv).1).mp hsees with heq | ⟨c,hcom,_⟩
        · exact absurd (heq ▸ ha) hna
        · exact absurd hcom (hx.life.aborted_not_committed ha)
      · have hbc : b < c := by
          by_contra hcb
          refine absurd (hmax ts' v' (hsub hv') ?_) (not_le.mpr hlt')
          exact (hx.visible_iff hck (hx.stored.version_sound (hsub hv')).1).mpr (.inr ⟨c,hcom,not_lt.mp hcb⟩)
        rw [hno ht (hsub hv') hlow hcom hbc hr,
          MvccState.Supplies.unique hr' (supplies_straddled hx hy hchecked hck hky ht (hsub hv') hlow hcom hbc)]
        rfl

end

end Collected
end InterchangeDb
