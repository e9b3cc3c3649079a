import InterchangeDb.Txn.Lifecycle

/-! What the store holds over whole runs: every version is its writer's last write. -/
namespace InterchangeDb
open List Option Function

/-- A committed write may be gone once a transaction that began after its
commit has a committed version of the key in the store. -/
def Superseded (s : MvccState) (h : History) (t : Nat) (k : Bytes) : Prop :=
  ∃ c, .committed t c ∈ h ∧ ∃ ts v c', c < ts ∧ s.version k ts = some v ∧ .committed v.txnId c' ∈ h

structure Stored (s : MvccState) (h : History) : Prop where
  version_sound : ∀ {k ts v}, s.version k ts = some v →
    .began v.txnId ts ∈ h ∧ lastWrite h v.txnId k = some v.data
  written_began : ∀ {t k}, lastWrite h t k ≠ none → ∃ b, .began t b ∈ h
  written_kept : ∀ {t k b}, lastWrite h t k ≠ none → .began t b ∈ h →
    s.version k b ≠ none ∨ .aborted t ∈ h ∨ Superseded s h t k
  aborted_known : ∀ {k ts v}, s.version k ts = some v → .aborted v.txnId ∈ h → v.txnId ∈ s.aborted
  locked : ∀ {t b k}, s.active t = some b → lastWrite h t k ≠ none → s.holds t k
  unshared : Unshared s.holds

/-- Writers of one key have disjoint lifetimes, as far as they have ended: a
committed writer ended before any other unaborted writer began, or began after
that one committed. -/
def FirstCommitterWins (h : History) : Prop :=
  ∀ {t w k b c}, t ≠ w → .began t b ∈ h → lastWrite h t k ≠ none → .aborted t ∉ h →
    .committed w c ∈ h → lastWrite h w k ≠ none →
    c < b ∨ ∃ c' b', .committed t c' ∈ h ∧ .began w b' ∈ h ∧ c' < b'

namespace Stored

variable {rules : Rules} {s s' : MvccState} {h : History}
variable {k : Bytes} {t b ts lwm : Nat} {v : MvccValue} {holds : Nat → Bytes → Prop}

theorem init {s : MvccState} (hv : ∀ k ts, s.version k ts = none) (hl : Unshared s.holds) : Stored s [] := by
  constructor
  case unshared => exact hl
  all_goals simp [hv,lastWrite]

section

variable (hs : Stored s h)
include hs

theorem writer_eq (hl : Lifecycle s h) (hv : s.version k b = some v) (hb : .began t b ∈ h) : v.txnId = t :=
  hl.began_inj (hs.version_sound hv).1 hb

theorem version_written (hv : s.version k ts = some v) : lastWrite h v.txnId k ≠ none := by
  rw [(hs.version_sound hv).2]
  simp

section

variable (hl : Lifecycle s h) (hold : ∀ t b, s.active t = some b → lwm ≤ b) (hlt : ts < lwm) (hv : s.version k ts = some v)
include hl hold hlt hv

theorem committed_of_counts (hc : s.CountsCommitted v.txnId ts) : ∃ c, .committed v.txnId c ∈ h ∧ ts < c := by
  rcases hl.fate (hs.version_sound hv).1 with hact | hab | hcom
  · exact absurd (hold _ _ hact) (not_le.mpr hlt)
  · exact absurd (.inr (hs.aborted_known hv hab)) hc.1
  · exact hcom

/-- A version below the watermark that does not count as committed was aborted. -/
theorem aborted_of_not_counts (hc : ¬ s.CountsCommitted v.txnId ts) : .aborted v.txnId ∈ h := by
  rcases hl.fate (hs.version_sound hv).1 with hact | hab | ⟨c,hcom,hbc⟩
  · exact absurd (hold _ _ hact) (not_le.mpr hlt)
  · exact hab
  · have hnot : v.txnId ∉ s.notCommitted := by
      rintro (hu | ha)
      · simp [hl.uncommitted] at hu
      · exact hl.aborted_not_committed (hl.aborted_sound ha) hcom
    refine absurd ⟨hnot,?_⟩ hc
    rcases hl.forgotten hcom with hm | ⟨hck,_⟩
    · exact .inl (by simp [hm])
    · exact .inr (le_trans hbc.le hck)

end

private theorem quiet (hu : Unshared holds) (hk : ∀ t k, s.holds t k → holds t k) : Stored { s with holds } h :=
  { hs with locked := fun ha hw => hk _ _ (hs.locked ha hw), unshared := hu }

omit hs in
private theorem kept_cons (hversion : s'.version = s.version) (e : Event)
    (hkept : s.version k b ≠ none ∨ .aborted t ∈ h ∨ Superseded s h t k) :
    s'.version k b ≠ none ∨ .aborted t ∈ e::h ∨ Superseded s' (e::h) t k := by
  refine hkept.imp (hversion ▸ id) (.imp (mem_cons_of_mem _) ?_)
  rintro ⟨c,hc,ts,v,c',hlt,hv,hc'⟩
  exact ⟨c,mem_cons_of_mem _ hc,ts,v,c',hlt,hversion ▸ hv,mem_cons_of_mem _ hc'⟩

private theorem begin (hl : Lifecycle s h) :
    Stored { s with
      nextTxnId := s.nextTxnId + 1
      nextTs := s.nextTs + 1
      active := update s.active s.nextTxnId (some s.nextTs) } (.began s.nextTxnId s.nextTs :: h) := by
  -- a new transaction has written nothing
  have hnew : ∀ k, lastWrite h s.nextTxnId k = none := by
    intro k
    by_contra hw
    obtain ⟨b,hb⟩ := hs.written_began hw
    exact lt_irrefl _ (hl.began_bounds hb).1.2
  refine { hs with
    version_sound := ?_, written_began := ?_, written_kept := ?_, aborted_known := ?_, locked := ?_ }
  · intro k ts v hv
    obtain ⟨h1,h2⟩ := hs.version_sound hv
    exact ⟨mem_cons_of_mem _ h1,h2⟩
  · intro t k hw
    obtain ⟨b,hb⟩ := hs.written_began hw
    exact ⟨b,mem_cons_of_mem _ hb⟩
  · intro t k b hw hb
    rw [lastWrite_began] at hw
    rcases mem_cons.mp hb with heq | hb
    · cases heq
      exact absurd (hnew k) hw
    · exact kept_cons rfl _ (hs.written_kept hw hb)
  · intro k ts v hv ha
    exact hs.aborted_known hv (by simpa using ha)
  · intro t b k ha hw
    simp only [update_apply] at ha
    rw [lastWrite_began] at hw
    split_ifs at ha with ht
    · subst ht
      exact absurd (hnew k) hw
    · exact hs.locked ha hw

private theorem write (hl : Lifecycle s h) (hact : s.active t = some b) (hown : v.txnId = t) (hlock : holds t k)
    (hu : Unshared holds) (hk : ∀ t k, s.holds t k → holds t k) :
    Stored { s with
      version := fun k' ts => if k' = k ∧ ts = b then some v else s.version k' ts
      holds } (.wrote t k v.data :: h) := by
  obtain ⟨hbegan,hna,hnc⟩ := hl.active_iff.mp hact
  have hb : ∀ t' b', Event.began t' b' ∈ Event.wrote t k v.data :: h ↔ Event.began t' b' ∈ h := by simp
  have hc : ∀ t' c, Event.committed t' c ∈ Event.wrote t k v.data :: h ↔ Event.committed t' c ∈ h := by simp
  have ha : ∀ t', Event.aborted t' ∈ Event.wrote t k v.data :: h ↔ Event.aborted t' ∈ h := by simp
  refine ⟨?_,?_,?_,?_,?_,hu⟩
  · intro k' ts v' hv'
    simp only [hb,lastWrite_wrote] at hv' ⊢
    split_ifs at hv' with hkt
    · cases hv'
      obtain ⟨rfl,rfl⟩ := hkt
      exact ⟨hown ▸ hbegan,if_pos ⟨hown.symm,rfl⟩⟩
    · obtain ⟨h1,h2⟩ := hs.version_sound hv'
      refine ⟨h1,?_⟩
      rw [if_neg]
      · exact h2
      · rintro ⟨rfl,rfl⟩
        exact hkt ⟨rfl,hl.began_unique h1 hbegan⟩
  · intro t' k' hw
    simp only [hb,lastWrite_wrote] at hw ⊢
    split_ifs at hw with hkt
    · obtain ⟨rfl,_⟩ := hkt
      exact ⟨b,hbegan⟩
    · exact hs.written_began hw
  · intro t' k' b' hw hb'
    simp only [hb,ha,lastWrite_wrote] at hw hb' ⊢
    by_cases hkt : k' = k ∧ b' = b
    · exact .inl (by simp [hkt])
    · have hw' : lastWrite h t' k' ≠ none := by
        rwa [if_neg] at hw
        rintro ⟨rfl,rfl⟩
        exact hkt ⟨rfl,hl.began_unique hb' hbegan⟩
      rcases hs.written_kept hw' hb' with hv | hab | ⟨c,hcom,ts,w,c',hlt,hv,hcom'⟩
      · exact .inl (by simpa [hkt] using hv)
      · exact .inr (.inl hab)
      · refine .inr (.inr ⟨c,(hc _ _).mpr hcom,ts,w,c',hlt,?_,(hc _ _).mpr hcom'⟩)
        -- the superseding version is committed, so it is not the one just written
        have hne : ¬ (k' = k ∧ ts = b) := by
          rintro ⟨rfl,rfl⟩
          rw [hs.writer_eq hl hv hbegan] at hcom'
          exact hnc c' hcom'
        simpa [hne] using hv
  · intro k' ts v' hv' hab
    simp only [ha] at hv' hab
    split_ifs at hv' with hkt
    · cases hv'
      exact absurd (hown ▸ hab) hna
    · exact hs.aborted_known hv' hab
  · intro t' b' k' hact' hw
    simp only [lastWrite_wrote] at hw
    split_ifs at hw with hkt
    · obtain ⟨rfl,rfl⟩ := hkt
      exact hlock
    · exact hk _ _ (hs.locked hact' hw)

section

variable (hu : Unshared holds) (hk : ∀ t' k, t' ≠ t → s.holds t' k → holds t' k)
include hu hk

private theorem commit :
    Stored { s with
      nextTs := s.nextTs + 1
      committed := update s.committed t (some s.nextTs)
      active := update s.active t none
      holds } (.committed t s.nextTs :: h) := by
  refine ⟨?_,?_,?_,?_,?_,hu⟩
  · intro k ts v hv
    simpa using hs.version_sound hv
  · intro t' k hw
    simpa using hs.written_began hw
  · intro t' k b hw hb
    exact kept_cons rfl _ (hs.written_kept hw (by simpa using hb))
  · intro k ts v hv ha
    exact hs.aborted_known hv (by simpa using ha)
  · intro t' b k ha hw
    simp only [update_apply] at ha
    split_ifs at ha with ht
    exact hk _ _ ht (hs.locked ha hw)

private theorem abort :
    Stored { s with
      aborted := insert t s.aborted
      active := update s.active t none
      holds } (.aborted t :: h) := by
  refine ⟨?_,?_,?_,?_,?_,hu⟩
  · intro k ts v hv
    simpa using hs.version_sound hv
  · intro t' k hw
    simpa using hs.written_began hw
  · intro t' k b hw hb
    exact kept_cons rfl _ (hs.written_kept hw (by simpa using hb))
  · intro k ts v hv ha
    rcases mem_cons.mp ha with heq | ha
    · cases heq
      exact Set.mem_insert _ _
    · exact Set.mem_insert_of_mem _ (hs.aborted_known hv ha)
  · intro t' b k ha hw
    simp only [update_apply] at ha
    split_ifs at ha with ht
    exact hk _ _ ht (hs.locked ha hw)

end

end

theorem newest_counting (s : MvccState) (hlt : ts < lwm)
    (hv : s.version k ts = some v) (hc : s.CountsCommitted v.txnId ts) :
    ∃ ts' v', ts ≤ ts' ∧ ts' < lwm ∧ s.version k ts' = some v' ∧ s.CountsCommitted v'.txnId ts' ∧
      ¬ s.Reclaimed lwm k ts' v' := by
  -- climb to the watermark, by induction on the distance to it
  obtain ⟨n,hn⟩ : ∃ n, n = lwm - ts := ⟨_,rfl⟩
  induction n using Nat.strong_induction_on generalizing ts v with
  | _ n ih =>
    by_cases hr : s.Reclaimed lwm k ts v
    · obtain ⟨_,hbad | ⟨ts',v',hgt,hlt',hv',hc'⟩⟩ := hr
      · exact absurd hc hbad
      · obtain ⟨ts'',v'',hle,hrest⟩ := ih (lwm - ts') (by omega) hlt' hv' hc' rfl
        exact ⟨ts'',v'',by omega,hrest⟩
    · exact ⟨ts,v,le_rfl,hlt,hv,hc,hr⟩

section

variable (hs : Stored s h) (hl : Lifecycle s h) (hf : FirstCommitterWins h) (hold : ∀ t b, s.active t = some b → lwm ≤ b)
include hs hl hf hold

/-- Collection takes a version of an aborted writer, or one that another
committed writer, begun after its commit, supersedes in what is left. -/
theorem reclaimed_cases (hv : s.version k ts = some v) (hr : s.Reclaimed lwm k ts v) :
    .aborted v.txnId ∈ h ∨ ∃ c, .committed v.txnId c ∈ h ∧ ∃ ts' v' c', c < ts' ∧ ts' < lwm ∧
      s.version k ts' = some v' ∧ ¬ s.Reclaimed lwm k ts' v' ∧ .committed v'.txnId c' ∈ h := by
  by_cases hcount : s.CountsCommitted v.txnId ts
  · obtain ⟨hlt,hbad | ⟨ts₁,v₁,hgt,hlt₁,hv₁,hc₁⟩⟩ := hr
    · exact absurd hcount hbad
    · obtain ⟨ts',v',hle,hlt',hv',hc',hnr⟩ := newest_counting s hlt₁ hv₁ hc₁
      obtain ⟨c,hcom,_⟩ := hs.committed_of_counts hl hold hlt hv hcount
      obtain ⟨c',hcom',hbc'⟩ := hs.committed_of_counts hl hold hlt' hv' hc'
      have hb := (hs.version_sound hv).1
      have hb' := (hs.version_sound hv').1
      have hne : v'.txnId ≠ v.txnId := by
        intro heq
        rw [heq] at hb'
        have := hl.began_unique hb hb'
        omega
      have hna' : .aborted v'.txnId ∉ h := fun ha => hl.aborted_not_committed ha hcom'
      refine .inr ⟨c,hcom,ts',v',c',?_,hlt',hv',hnr,hcom'⟩
      rcases hf hne hb' (hs.version_written hv') hna' hcom (hs.version_written hv) with hlt | ⟨c₂,b₂,hc₂,hb₂,hlt⟩
      · exact hlt
      · -- the newer version's writer cannot have ended before the older one began
        have h1 := hl.committed_unique hc₂ hcom'
        have h2 := hl.began_unique hb₂ hb
        omega
  · exact .inl (hs.aborted_of_not_counts hl hold hr.1 hv hcount)

private theorem gc {version : Bytes → Nat → Option MvccValue} {aborted : Set Nat}
    (hkept : ∀ k ts v, version k ts = some v ↔ s.version k ts = some v ∧ ¬ s.Reclaimed lwm k ts v)
    (hforgot : ∀ t, t ∈ aborted ↔ t ∈ s.aborted ∧ ∃ k ts v, version k ts = some v ∧ v.txnId = t) :
    Stored { s with version, aborted } h := by
  refine { hs with version_sound := ?_, written_kept := ?_, aborted_known := ?_ }
  · intro k ts v hv
    exact hs.version_sound ((hkept k ts v).mp hv).1
  · intro t k b hw hb
    rcases hs.written_kept hw hb with hv | ha | ⟨c,hc,ts,v,c',hlt,hv,hc'⟩
    · obtain ⟨v,hv⟩ := ne_none_iff_exists'.mp hv
      have hwriter := hs.writer_eq hl hv hb
      by_cases hr : s.Reclaimed lwm k b v
      · rcases hs.reclaimed_cases hl hf hold hv hr with ha | ⟨c,hc,ts',v',c',hlt,_,hv',hnr,hc'⟩
        · exact .inr (.inl (hwriter ▸ ha))
        · exact .inr (.inr ⟨c,hwriter ▸ hc,ts',v',c',hlt,(hkept _ _ _).mpr ⟨hv',hnr⟩,hc'⟩)
      · have hv' := (hkept k b v).mpr ⟨hv,hr⟩
        exact .inl (by simp [hv'])
    · exact .inr (.inl ha)
    · refine .inr (.inr ⟨c,hc,?_⟩)
      by_cases hr : s.Reclaimed lwm k ts v
      · rcases hs.reclaimed_cases hl hf hold hv hr with ha | ⟨c₁,hc₁,ts',v',c'',hlt',_,hv',hnr,hc''⟩
        · exact absurd hc' (hl.aborted_not_committed ha)
        · have hbc := (hl.committed_bounds hc₁).2
          obtain ⟨b₁,hb₁,hlt₁⟩ := hbc
          have h1 := hl.began_unique hb₁ (hs.version_sound hv).1
          exact ⟨ts',v',c'',by omega,(hkept _ _ _).mpr ⟨hv',hnr⟩,hc''⟩
      · exact ⟨ts,v,c',hlt,(hkept _ _ _).mpr ⟨hv,hr⟩,hc'⟩
  · intro k ts v hv ha
    exact (hforgot _).mpr ⟨hs.aborted_known ((hkept k ts v).mp hv).1 ha,k,ts,v,hv,rfl⟩

end

/-- Every step keeps the facts about the store; collection needs checked writes. -/
theorem step (hs : Stored s h) (hl : Lifecycle s h) (hf : rules.collects → FirstCommitterWins h)
    {ev : List Event} (hst : MvccStep rules s ev s') : Stored s' (ev ++ h) := by
  cases hst with
  | quiet holds hu hk => exact hs.quiet hu hk
  | begin => exact hs.begin hl
  | write t b k v holds hact hown hlock hu hk _ => exact hs.write hl hact hown hlock hu hk
  | commit t b holds _ hu hk => exact hs.commit hu hk
  | abort t b holds _ hu hk => exact hs.abort hu hk
  | checkpoint bound _ _ _ => exact { hs with }
  | gc lwm version aborted hallowed _ hold hkept hforgot => exact hs.gc hl (hf hallowed) hold hkept hforgot

end Stored

namespace FirstCommitterWins

variable {rules : Rules} {s s' : MvccState} {h : History}

theorem init : FirstCommitterWins [] := by
  intro t w k b c _ hb
  simp at hb

private theorem no_conflict (hl : Lifecycle s h) (hs : Stored s h) {t b : Nat} {k : Bytes} (hact : s.active t = some b)
    (hcheck : ∀ ts w c, s.version k ts = some w → s.committed w.txnId = some c → c ≤ b)
    {w c : Nat} (hc : .committed w c ∈ h) (hw : lastWrite h w k ≠ none) : c < b := by
  have hbegan := (hl.active_iff.mp hact).1
  -- a committed writer with a version in the store committed before the snapshot
  have key : ∀ ts v c₁, s.version k ts = some v → .committed v.txnId c₁ ∈ h → c₁ < b := by
    intro ts v c₁ hv hc₁
    rcases hl.forgotten hc₁ with hm | ⟨_,hold⟩
    · refine lt_of_le_of_ne (hcheck ts v c₁ hv hm) ?_
      rintro rfl
      exact hl.committed_ne_began hc₁ hbegan
    · exact hold t b hact
  obtain ⟨_,bw,hbw,hlt⟩ := hl.committed_bounds hc
  rcases hs.written_kept hw hbw with hv | ha | ⟨c₁,hc₁,ts,v,c',hlt',hv,hc'⟩
  · obtain ⟨v,hv⟩ := ne_none_iff_exists'.mp hv
    exact key bw v c hv (by rwa [hs.writer_eq hl hv hbw])
  · exact absurd hc (hl.aborted_not_committed ha)
  · obtain rfl := hl.committed_unique hc hc₁
    obtain ⟨_,b',hb',hlt''⟩ := hl.committed_bounds hc'
    have h1 := hl.began_unique hb' (hs.version_sound hv).1
    have h2 := key ts v c' hv hc'
    omega

/-- Checked steps keep the lifetimes of writers disjoint. -/
theorem step (hf : FirstCommitterWins h) (hl : Lifecycle s h) (hs : Stored s h) (hchecked : rules.checked)
    {ev : List Event} (hst : MvccStep rules s ev s') : FirstCommitterWins (ev ++ h) := by
  cases hst with
  | quiet | checkpoint | gc => exact hf
  | begin =>
    intro t w k b c hne hb hw hna hc hww
    simp only [cons_append,nil_append,lastWrite_began,mem_cons,reduceCtorEq,false_or,
      Event.began.injEq] at hb hw hna hc hww ⊢
    rcases hb with ⟨rfl,rfl⟩ | hb
    · obtain ⟨b',hb'⟩ := hs.written_began hw
      exact absurd (hl.began_bounds hb').1.2 (lt_irrefl _)
    · rcases hf hne hb hw hna hc hww with hlt | ⟨c',b',hc',hb',hlt⟩
      · exact .inl hlt
      · exact .inr ⟨c',b',hc',.inr hb',hlt⟩
  | write t₀ b₀ k₀ v holds hact hown hlock hu hk hcheck =>
    intro t w k b c hne hb hw hna hc hww
    obtain ⟨hbegan,_,hnc⟩ := hl.active_iff.mp hact
    simp only [cons_append,nil_append,lastWrite_wrote,mem_cons,reduceCtorEq,false_or]
      at hb hw hna hc hww ⊢
    -- the committed writer is not the one writing now
    have hw' : lastWrite h w k ≠ none := by
      rwa [if_neg] at hww
      rintro ⟨rfl,_⟩
      exact hnc c hc
    by_cases hkt : t₀ = t ∧ k₀ = k
    · obtain ⟨rfl,rfl⟩ := hkt
      rw [hl.began_unique hb hbegan]
      exact .inl (no_conflict hl hs hact (hcheck hchecked) hc hw')
    · rw [if_neg hkt] at hw
      exact hf hne hb hw hna hc hw'
  | commit t₀ b₀ holds hact hu hk =>
    intro t w k b c hne hb hw hna hc hww
    obtain ⟨hbegan,hna₀,hnc⟩ := hl.active_iff.mp hact
    simp only [cons_append,nil_append,lastWrite_committed,mem_cons,reduceCtorEq,false_or,
      Event.committed.injEq] at hb hw hna hc hww ⊢
    rcases hc with ⟨rfl,rfl⟩ | hc
    · rcases hl.fate hb with hact' | ha | ⟨c',hc',_⟩
      · -- two active writers of one key would share its lock
        exact absurd (hs.unshared _ _ _ (hs.locked hact' hw) (hs.locked hact hww)) hne
      · exact absurd ha hna
      · rcases hf hne.symm hbegan hww hna₀ hc' hw with hlt | ⟨c₂,_,hc₂,_⟩
        · exact .inr ⟨c',b₀,.inr hc',hbegan,hlt⟩
        · exact absurd hc₂ (hnc c₂)
    · rcases hf hne hb hw hna hc hww with hlt | ⟨c',b',hc',hb',hlt⟩
      · exact .inl hlt
      · exact .inr ⟨c',b',.inr hc',hb',hlt⟩
  | abort t₀ b₀ holds hact hu hk =>
    intro t w k b c hne hb hw hna hc hww
    simp only [cons_append,nil_append,lastWrite_aborted,mem_cons,reduceCtorEq,false_or,
      not_or] at hb hw hna hc hww ⊢
    exact hf hne hb hw hna.2 hc hww

end FirstCommitterWins

/-- Everything known of a state after a run under given rules. -/
structure MvccInv (rules : Rules) (s : MvccState) (h : History) : Prop where
  life : Lifecycle s h
  stored : Stored s h
  wins : rules.checked → FirstCommitterWins h
  uncheckpointed : ¬ rules.checkpoints → s.checkpointTs = 0
  uncollected : ¬ rules.collects → ∀ {t k b}, lastWrite h t k ≠ none → .began t b ∈ h → s.version k b ≠ none

namespace MvccInv

variable {rules : Rules} {s s' : MvccState} {h : History}

private theorem uncollected_step (hi : MvccInv rules s h) {ev : List Event} (hst : MvccStep rules s ev s')
    (hno : ¬ rules.collects) {t b : Nat} {k : Bytes} (hw : lastWrite (ev ++ h) t k ≠ none)
    (hb : .began t b ∈ ev ++ h) : s'.version k b ≠ none := by
  cases hst with
  | quiet | checkpoint => exact hi.uncollected hno hw hb
  | gc _ _ _ hallowed => exact absurd hallowed hno
  | begin =>
    rcases mem_cons.mp hb with heq | hb
    · cases heq
      obtain ⟨b',hb'⟩ := hi.stored.written_began hw
      exact absurd (hi.life.began_bounds hb').1.2 (lt_irrefl _)
    · exact hi.uncollected hno hw hb
  | commit | abort => exact hi.uncollected hno hw (by simpa using hb)
  | write t₀ b₀ k₀ v holds hact =>
    have hb : .began t b ∈ h := by simpa using hb
    simp only [cons_append,nil_append,lastWrite_wrote] at hw
    by_cases hkt : k = k₀ ∧ b = b₀
    · simp [hkt]
    · simp only [if_neg hkt]
      refine hi.uncollected hno ?_ hb
      rwa [if_neg] at hw
      rintro ⟨rfl,rfl⟩
      exact hkt ⟨rfl,hi.life.began_unique hb (hi.life.active_iff.mp hact).1⟩

/-- The invariant of every run; collection is understood for checked writes. -/
theorem step (hi : MvccInv rules s h) (hrules : rules.collects → rules.checked) {ev : List Event}
    (hst : MvccStep rules s ev s') : MvccInv rules s' (ev ++ h) where
  life := hi.life.step hst
  stored := hi.stored.step hi.life (fun hc => hi.wins (hrules hc)) hst
  wins hc := FirstCommitterWins.step (hi.wins hc) hi.life hi.stored hc hst
  uncheckpointed hno := by
    cases hst with
    | checkpoint _ hallowed => exact absurd hallowed hno
    | _ => exact hi.uncheckpointed hno
  uncollected hno := hi.uncollected_step hst hno

end MvccInv
end InterchangeDb
