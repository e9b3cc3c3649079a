import InterchangeDb.Txn.Stored

/-! What the readers of a reachable state see. -/
namespace InterchangeDb

namespace MvccState
variable {reader readTs : Nat}

theorem supplies_congr {s s' : MvccState} {reader' readTs' : Nat} {k : Bytes}
    (h : ∀ ts v, s.version k ts = some v ∧ s.Visible reader readTs v.txnId ts ↔
      s'.version k ts = some v ∧ s'.Visible reader' readTs' v.txnId ts) (r : Option (Nat × MvccValue)) :
    s.Supplies reader readTs k r ↔ s'.Supplies reader' readTs' k r := by
  match r with
  | none => simpa only [Supplies,not_and] using forall_congr' fun ts => forall_congr' fun v => not_congr (h ts v)
  | some (ts,v) =>
    have hall : (∀ ts' v', s.version k ts' = some v' ∧ s.Visible reader readTs v'.txnId ts' → ts' ≤ ts) ↔
        ∀ ts' v', s'.version k ts' = some v' ∧ s'.Visible reader' readTs' v'.txnId ts' → ts' ≤ ts :=
      forall_congr' fun ts' => forall_congr' fun v' => imp_congr_left (h ts' v')
    simp only [and_imp] at hall
    simp only [Supplies,← and_assoc]
    exact and_congr (h ts v) hall

theorem Supplies.unique {s : MvccState} {k : Bytes} {r r' : Option (Nat × MvccValue)}
    (h : s.Supplies reader readTs k r) (h' : s.Supplies reader readTs k r') : r = r' := by
  match r, r' with
  | none, none => rfl
  | none, some (ts,v) => exact absurd h'.2.1 (h ts v h'.1)
  | some (ts,v), none => exact absurd h.2.1 (h' ts v h.1)
  | some (ts,v), some (ts',v') =>
    obtain ⟨hv,hvis,hmax⟩ := h
    obtain ⟨hv',hvis',hmax'⟩ := h'
    obtain rfl : ts = ts' := le_antisymm (hmax' ts v hv hvis) (hmax ts' v' hv' hvis')
    obtain rfl : v = v' := Option.some.inj (hv.symm.trans hv')
    rfl

end MvccState

namespace MvccInv

variable {rules : Rules} {s : MvccState} {h : History}
variable {t c readTs w ts b r : Nat} {k : Bytes} {d : Option Bytes}

section

variable (hi : MvccInv rules s h)
include hi

theorem lastWrite_committed {ev : List Event} {s' : MvccState} (hst : MvccStep rules s ev s') (hc : .committed t c ∈ h)
    (k : Bytes) : lastWrite (ev ++ h) t k = lastWrite h t k := by
  cases hst with
  | write t' b k' v holds active =>
    rw [List.singleton_append,lastWrite_wrote,if_neg]
    rintro ⟨rfl,_⟩
    exact (hi.life.active_iff.mp active).2.2 c hc
  | quiet | begin | commit | abort | checkpoint | gc => rfl

theorem committed_eq (hno : ¬ rules.checkpoints) (hc : .committed t c ∈ h) : s.committed t = some c := by
  rcases hi.life.forgotten hc with hm | ⟨hle,_⟩
  · exact hm
  · obtain ⟨_,b,_,hlt⟩ := hi.life.committed_bounds hc
    rw [hi.uncheckpointed hno] at hle
    omega

/-- Without checkpoints, visible means written by the reader or committed by
the read timestamp. -/
theorem visible_iff (hno : ¬ rules.checkpoints) {reader : Nat} (hb : .began w ts ∈ h) :
    s.Visible reader readTs w ts ↔ w = reader ∨ ∃ c, .committed w c ∈ h ∧ c ≤ readTs := by
  refine or_congr_right ⟨?_,?_⟩
  · rintro (⟨c,hc,hle⟩ | ⟨_,hle,_⟩)
    · exact ⟨c,hi.life.remembered hc,hle⟩
    · rw [hi.uncheckpointed hno] at hle
      exact absurd (hi.life.began_bounds hb).2.1 (by omega)
  · rintro ⟨c,hc,hle⟩
    exact .inl ⟨c,hi.committed_eq hno hc,hle⟩

/-- Of two committed writers of a key, the one that began later committed later. -/
theorem commit_order (hchecked : rules.checked) {b' c' : Nat}
    (hb : .began t b ∈ h) (hb' : .began w b' ∈ h) (hc : .committed t c ∈ h) (hc' : .committed w c' ∈ h)
    (hw : lastWrite h t k ≠ none) (hw' : lastWrite h w k ≠ none) (hle : b' ≤ b) : c' ≤ c := by
  by_cases hne : t = w
  · subst hne
    exact (hi.life.committed_unique hc' hc).le
  · obtain ⟨_,b₁,hb₁,hlt₁⟩ := hi.life.committed_bounds hc
    have h1 := hi.life.began_unique hb hb₁
    have hna : .aborted t ∉ h := fun ha => hi.life.aborted_not_committed ha hc
    rcases hi.wins hchecked hne hb hw hna hc' hw' with hlt | ⟨c₂,b₂,hc₂,hb₂,hlt⟩
    · omega
    · have h2 := hi.life.committed_unique hc hc₂
      have h3 := hi.life.began_unique hb' hb₂
      omega

theorem active_version (hw : s.active w = some b) (hd : lastWrite h w k = some d) :
    ∃ v, s.version k b = some v ∧ v.txnId = w ∧ v.data = d := by
  obtain ⟨hb,hna,hnc⟩ := hi.life.active_iff.mp hw
  rcases hi.stored.written_kept (k := k) (by simp [hd]) hb with hv | ha | ⟨c,hc,_⟩
  · obtain ⟨v,hv⟩ := Option.ne_none_iff_exists'.mp hv
    have hwriter := hi.stored.writer_eq hi.life hv hb
    have hlast := (hi.stored.version_sound hv).2
    rw [hwriter,hd] at hlast
    exact ⟨v,hv,hwriter,(Option.some.inj hlast).symm⟩
  · exact absurd ha hna
  · exact absurd hc (hnc c)

/-- A transaction that sees nothing above its own version reads its last write. -/
theorem supplies_own (hact : s.active t = some b) (hown : lastWrite h t k = some d)
    (habove : ∀ {ts v}, s.version k ts = some v → s.Visible t readTs v.txnId ts → ts ≤ b)
    {r : Option (Nat × MvccValue)} (hr : s.Supplies t readTs k r) : r.bind (·.2.data) = d := by
  obtain ⟨v,hv,hwriter,hdata⟩ := hi.active_version hact hown
  match r with
  | none => exact absurd (.inl hwriter) (hr b v hv)
  | some (ts,v') =>
    obtain ⟨hv',hvis,hmax⟩ := hr
    obtain rfl : ts = b := le_antisymm (habove hv' hvis) (hmax b v hv (.inl hwriter))
    obtain rfl : v' = v := Option.some.inj (hv'.symm.trans hv)
    exact hdata

/-- At its begin timestamp a transaction reads its own last write: everything
else it sees was committed before it began. -/
theorem own_supplies (hck : ¬ rules.checkpoints) (hact : s.active t = some b) (hown : lastWrite h t k = some d)
    {r : Option (Nat × MvccValue)} (hr : s.Supplies t b k r) : r.bind (·.2.data) = d := by
  refine hi.supplies_own hact hown (fun {ts v} hv hvis => ?_) hr
  have hbv := (hi.stored.version_sound hv).1
  rcases (hi.visible_iff hck hbv).mp hvis with heq | ⟨c,hc,hcb⟩
  · rw [heq] at hbv
    exact (hi.life.began_unique hbv (hi.life.active_iff.mp hact).1).le
  · obtain ⟨_,b',hb',hlt⟩ := hi.life.committed_bounds hc
    have := hi.life.began_unique hb' hbv
    omega

/-- An active writer's version is visible to others exactly when it is old enough. -/
theorem visible_active_iff (hne : w ≠ r) (hw : s.active w = some b) :
    s.Visible r readTs w b ↔ b ≤ s.checkpointTs ∧ b ≤ readTs := by
  obtain ⟨_,hna,hnc⟩ := hi.life.active_iff.mp hw
  have hcom : s.committed w = none := by
    cases hc : s.committed w with
    | none => rfl
    | some c => exact absurd (hi.life.remembered hc) (hnc c)
  have hnot : w ∉ s.notCommitted := by
    rintro (hu | ha)
    · simp [hi.life.uncommitted] at hu
    · exact hna (hi.life.aborted_sound ha)
  constructor
  · rintro (heq | ⟨c,hc,_⟩ | ⟨_,hle,_,hle'⟩)
    · exact absurd heq hne
    · rw [hcom] at hc
      cases hc
    · exact ⟨hle,hle'⟩
  · rintro ⟨hle,hle'⟩
    exact .inr (.inr ⟨hcom,hle,hnot,hle'⟩)

/-- Nothing visible to another reader stands above an active writer's version. -/
theorem le_of_visible (hchecked : rules.checked)
    {v : MvccValue} (hr : ∀ b', .began r b' ∈ h → s.active r = some b') (hw : s.active w = some b)
    (hwrote : lastWrite h w k ≠ none) (hv : s.version k ts = some v) (hvis : s.Visible r readTs v.txnId ts) :
    ts ≤ b := by
  obtain ⟨hb,hna,hnc⟩ := hi.life.active_iff.mp hw
  have hbv := (hi.stored.version_sound hv).1
  have hother := hi.stored.version_written hv
  by_cases heq : v.txnId = w
  · rw [heq] at hbv
    exact (hi.life.began_unique hbv hb).le
  · rcases hi.life.fate hbv with hact | hab | ⟨c,hc,hlt⟩
    · -- two active writers of one key would share its lock
      exact absurd (hi.stored.unshared _ _ k (hi.stored.locked hact hother) (hi.stored.locked hw hwrote)) heq
    · have hknown := hi.stored.aborted_known hv hab
      rcases hvis with hown | ⟨c,hc,_⟩ | ⟨_,_,hnot,_⟩
      · rw [hown] at hbv hab
        exact absurd hab (hi.life.active_iff.mp (hr ts hbv)).2.1
      · exact absurd (hi.life.remembered hc) (hi.life.aborted_not_committed hab)
      · exact absurd (.inr hknown) hnot
    · rcases hi.wins hchecked (symm heq) hb hwrote hna hc hother with hlt' | ⟨c',_,hc',_⟩
      · omega
      · exact absurd hc' (hnc c')

/-- A version visible to another reader whose writer has not committed belongs
to an active transaction. -/
theorem active_of_visible {v : MvccValue} (hv : s.version k ts = some v) (hvis : s.Visible r readTs v.txnId ts)
    (hne : v.txnId ≠ r) (hnc : ∀ c, .committed v.txnId c ∉ h) : s.active v.txnId = some ts := by
  rcases hi.life.fate (hi.stored.version_sound hv).1 with hact | hab | ⟨c,hc,_⟩
  · exact hact
  · rcases hvis with hown | ⟨c,hc,_⟩ | ⟨_,_,hnot,_⟩
    · exact absurd hown hne
    · exact absurd (hi.life.remembered hc) (hnc c)
    · exact absurd (.inr (hi.stored.aborted_known hv hab)) hnot
  · exact absurd hc (hnc c)

end

end MvccInv
end InterchangeDb
