import InterchangeDb.Txn.Machine

/-! Transactions over whole runs: nothing is reused, and a transaction ends once. -/
namespace InterchangeDb
open List Option Function Nat
variable {rules : Rules} {s s' : MvccState} {ev : List Event}

structure Lifecycle (s : MvccState) (h : History) : Prop where
  next_pos : 0 < s.nextTxnId ∧ 0 < s.nextTs
  began_bounds : ∀ {t b}, .began t b ∈ h → (0 < t ∧ t < s.nextTxnId) ∧ 0 < b ∧ b < s.nextTs
  began_unique : ∀ {t b b'}, .began t b ∈ h → .began t b' ∈ h → b = b'
  began_inj : ∀ {t t' b}, .began t b ∈ h → .began t' b ∈ h → t = t'
  committed_bounds : ∀ {t c}, .committed t c ∈ h → c < s.nextTs ∧ ∃ b, .began t b ∈ h ∧ b < c
  committed_unique : ∀ {t c c'}, .committed t c ∈ h → .committed t c' ∈ h → c = c'
  committed_inj : ∀ {t t' c}, .committed t c ∈ h → .committed t' c ∈ h → t = t'
  committed_ne_began : ∀ {t t' c}, .committed t c ∈ h → .began t' c ∉ h
  aborted_began : ∀ {t}, .aborted t ∈ h → ∃ b, .began t b ∈ h
  aborted_not_committed : ∀ {t c}, .aborted t ∈ h → .committed t c ∉ h
  active_iff : ∀ {t b}, s.active t = some b ↔ .began t b ∈ h ∧ .aborted t ∉ h ∧ ∀ c, .committed t c ∉ h
  remembered : ∀ {t c}, s.committed t = some c → .committed t c ∈ h
  forgotten : ∀ {t c}, .committed t c ∈ h →
    s.committed t = some c ∨ (c ≤ s.checkpointTs ∧ ∀ r b, s.active r = some b → c < b)
  checkpoint_le : s.checkpointTs ≤ s.nextTs
  aborted_sound : ∀ {t}, t ∈ s.aborted → .aborted t ∈ h
  uncommitted : s.uncommitted = ∅

namespace Lifecycle

variable {rules : Rules} {s s' : MvccState} {h : History}
variable {t b : Nat}

theorem init {s : MvccState} (hid : s.nextTxnId = 1) (hts : s.nextTs = 1) (hck : s.checkpointTs = 0)
    (ha : ∀ t, s.active t = none) (hc : ∀ t, s.committed t = none) (hu : s.uncommitted = ∅)
    (hab : s.aborted = ∅) : Lifecycle s [] := by
  constructor <;> simp [hid,hts,hck,ha,hc,hu,hab]

theorem not_active (hl : Lifecycle s h) (hn : .aborted t ∈ h ∨ ∃ c, .committed t c ∈ h) :
    s.active t = none := by
  cases ha : s.active t with
  | none => rfl
  | some b =>
    obtain ⟨_,hna,hnc⟩ := hl.active_iff.mp ha
    rcases hn with hn | ⟨c,hn⟩
    · exact absurd hn hna
    · exact absurd hn (hnc c)

/-- Every transaction that began is active, aborted or committed. -/
theorem fate (hl : Lifecycle s h) (hb : .began t b ∈ h) :
    s.active t = some b ∨ .aborted t ∈ h ∨ ∃ c, .committed t c ∈ h ∧ b < c := by
  by_cases ha : .aborted t ∈ h
  · exact .inr (.inl ha)
  by_cases hc : ∃ c, .committed t c ∈ h
  · obtain ⟨c,hc⟩ := hc
    obtain ⟨_,b',hb',hlt⟩ := hl.committed_bounds hc
    rw [hl.began_unique hb hb']
    exact .inr (.inr ⟨c,hc,hlt⟩)
  · exact .inl (hl.active_iff.mpr ⟨hb,ha,fun c hm => hc ⟨c,hm⟩⟩)

private theorem unique_cons {A B : Type} {e : A → B → Event} (hinj : ∀ {a b a' b'}, e a b = e a' b' → a = a' ∧ b = b')
    {a₀ : A} {b₀ : B} (hfresh : ∀ b, e a₀ b ∉ h) (hold : ∀ {a b b'}, e a b ∈ h → e a b' ∈ h → b = b') {a : A} {b b' : B}
    (hm : e a b ∈ e a₀ b₀ :: h) (hm' : e a b' ∈ e a₀ b₀ :: h) : b = b' := by
  rcases mem_cons.mp hm with heq | hm <;> rcases mem_cons.mp hm' with heq' | hm'
  · rw [(hinj heq).2,(hinj heq').2]
  · exact absurd hm' ((hinj heq).1 ▸ hfresh b')
  · exact absurd hm ((hinj heq').1 ▸ hfresh b)
  · exact hold hm hm'

section

variable (hl : Lifecycle s h)
include hl

private theorem wrote (t : Nat) (k : Bytes) (d : Option Bytes)
    (version : Bytes → Nat → Option MvccValue) (holds : Nat → Bytes → Prop) :
    Lifecycle { s with version, holds } (.wrote t k d :: h) := by
  have hb : ∀ t' b, Event.began t' b ∈ Event.wrote t k d :: h ↔ Event.began t' b ∈ h := by simp
  have hc : ∀ t' c, Event.committed t' c ∈ Event.wrote t k d :: h ↔ Event.committed t' c ∈ h := by simp
  have ha : ∀ t', Event.aborted t' ∈ Event.wrote t k d :: h ↔ Event.aborted t' ∈ h := by simp
  constructor <;> simp only [hb,hc,ha]
  exacts [hl.next_pos,hl.began_bounds,hl.began_unique,hl.began_inj,hl.committed_bounds,hl.committed_unique,
    hl.committed_inj,hl.committed_ne_began,hl.aborted_began,hl.aborted_not_committed,hl.active_iff,
    hl.remembered,hl.forgotten,hl.checkpoint_le,hl.aborted_sound,hl.uncommitted]

private theorem begin :
    Lifecycle { s with
      nextTxnId := s.nextTxnId + 1
      nextTs := s.nextTs + 1
      active := Function.update s.active s.nextTxnId (some s.nextTs) } (.began s.nextTxnId s.nextTs :: h) := by
  have hfresh : ∀ b, .began s.nextTxnId b ∉ h := fun b hb => lt_irrefl _ (hl.began_bounds hb).1.2
  have hfresh' : ∀ t, .began t s.nextTs ∉ h := fun t ht => lt_irrefl _ (hl.began_bounds ht).2.2
  have hnc : ∀ c, .committed s.nextTxnId c ∉ h := by
    intro c hc
    obtain ⟨_,b,hb,_⟩ := hl.committed_bounds hc
    exact hfresh b hb
  have hna : .aborted s.nextTxnId ∉ h := by
    intro ha
    obtain ⟨b,hb⟩ := hl.aborted_began ha
    exact hfresh b hb
  have hc : ∀ t c, Event.committed t c ∈ Event.began s.nextTxnId s.nextTs :: h ↔ Event.committed t c ∈ h := by simp
  have ha : ∀ t, Event.aborted t ∈ Event.began s.nextTxnId s.nextTs :: h ↔ Event.aborted t ∈ h := by simp
  constructor <;> try simp only [hc,ha]
  · exact ⟨succ_pos _,succ_pos _⟩
  · intro t b hm
    rcases mem_cons.mp hm with heq | hm
    · cases heq
      exact ⟨⟨hl.next_pos.1,lt_succ_self _⟩,hl.next_pos.2,lt_succ_self _⟩
    · obtain ⟨⟨h1,h2⟩,h3,h4⟩ := hl.began_bounds hm
      exact ⟨⟨h1,lt_succ_of_lt h2⟩,h3,lt_succ_of_lt h4⟩
  · exact unique_cons (e := .began) (fun h => by cases h; exact ⟨rfl,rfl⟩) hfresh hl.began_unique
  · exact unique_cons (e := fun b t => .began t b) (fun h => by cases h; exact ⟨rfl,rfl⟩) hfresh' hl.began_inj
  · intro t c hm
    obtain ⟨hlt,b,hb,hbc⟩ := hl.committed_bounds hm
    exact ⟨lt_succ_of_lt hlt,b,mem_cons_of_mem _ hb,hbc⟩
  · exact hl.committed_unique
  · exact hl.committed_inj
  · intro t t' c hm hm'
    rcases mem_cons.mp hm' with heq | hm'
    · cases heq
      exact lt_irrefl _ (hl.committed_bounds hm).1
    · exact hl.committed_ne_began hm hm'
  · exact fun hm => (hl.aborted_began hm).imp fun b hb => mem_cons_of_mem _ hb
  · exact hl.aborted_not_committed
  · intro t b
    simp only [update_apply,mem_cons,Event.began.injEq]
    split_ifs with ht
    · subst ht
      constructor
      · intro hb
        cases hb
        exact ⟨.inl ⟨rfl,rfl⟩,hna,hnc⟩
      · rintro ⟨⟨_,rfl⟩ | hb,_⟩
        · rfl
        · exact absurd hb (hfresh b)
    · simp only [ht,false_and,false_or]
      exact hl.active_iff
  · exact hl.remembered
  · intro t c hm
    refine (hl.forgotten hm).imp_right (.imp_right ?_)
    intro hact r b hr
    simp only [update_apply] at hr
    split_ifs at hr
    · cases hr
      exact (hl.committed_bounds hm).1
    · exact hact r b hr
  · exact le_succ_of_le hl.checkpoint_le
  · exact hl.aborted_sound
  · exact hl.uncommitted

private theorem commit (hact : s.active t = some b) (holds : Nat → Bytes → Prop) :
    Lifecycle { s with
      nextTs := s.nextTs + 1
      committed := update s.committed t (some s.nextTs)
      active := update s.active t none
      holds } (.committed t s.nextTs :: h) := by
  obtain ⟨hbegan,hna,hnc⟩ := hl.active_iff.mp hact
  have hlt := (hl.began_bounds hbegan).2.2
  have hfresh : ∀ t', .committed t' s.nextTs ∉ h := fun t' hm => lt_irrefl _ (hl.committed_bounds hm).1
  have hb : ∀ t' b', Event.began t' b' ∈ Event.committed t s.nextTs :: h ↔ Event.began t' b' ∈ h := by simp
  have ha : ∀ t', Event.aborted t' ∈ Event.committed t s.nextTs :: h ↔ Event.aborted t' ∈ h := by simp
  constructor <;> try simp only [hb,ha]
  · exact ⟨hl.next_pos.1,succ_pos _⟩
  · intro t' b' hm
    obtain ⟨h1,h2,h3⟩ := hl.began_bounds hm
    exact ⟨h1,h2,lt_succ_of_lt h3⟩
  · exact hl.began_unique
  · exact hl.began_inj
  · intro t' c hm
    rcases mem_cons.mp hm with heq | hm
    · cases heq
      exact ⟨lt_succ_self _,b,hbegan,hlt⟩
    · obtain ⟨h1,h2⟩ := hl.committed_bounds hm
      exact ⟨lt_succ_of_lt h1,h2⟩
  · exact unique_cons (e := .committed) (fun h => by cases h; exact ⟨rfl,rfl⟩) hnc hl.committed_unique
  · exact unique_cons (e := fun c t => .committed t c) (fun h => by cases h; exact ⟨rfl,rfl⟩) hfresh hl.committed_inj
  · intro t' t'' c hm hm'
    rcases mem_cons.mp hm with heq | hm
    · cases heq
      exact lt_irrefl _ (hl.began_bounds hm').2.2
    · exact hl.committed_ne_began hm hm'
  · exact hl.aborted_began
  · intro t' c hm hm'
    rcases mem_cons.mp hm' with heq | hm'
    · cases heq
      exact hna hm
    · exact hl.aborted_not_committed hm hm'
  · intro t' b'
    simp only [update_apply,mem_cons,Event.committed.injEq,not_or,not_and]
    split_ifs with ht
    · subst ht
      constructor
      · intro hm
        cases hm
      · rintro ⟨_,_,hm⟩
        exact absurd rfl ((hm s.nextTs).1 rfl)
    · simp only [ht,false_implies,true_and]
      exact hl.active_iff
  · intro t' c hm
    simp only [update_apply] at hm
    split_ifs at hm with ht
    · subst ht
      cases hm
      exact mem_cons_self
    · exact mem_cons_of_mem _ (hl.remembered hm)
  · intro t' c hm
    simp only [update_apply]
    rcases mem_cons.mp hm with heq | hm
    · cases heq
      exact .inl (if_pos rfl)
    · have ht : t' ≠ t := fun heq => hnc c (heq ▸ hm)
      rw [if_neg ht]
      refine (hl.forgotten hm).imp_right (.imp_right ?_)
      intro hact r b' hr
      split_ifs at hr
      exact hact r b' hr
  · exact le_succ_of_le hl.checkpoint_le
  · exact hl.aborted_sound
  · exact hl.uncommitted

private theorem abort (hact : s.active t = some b) (holds : Nat → Bytes → Prop) :
    Lifecycle { s with
      aborted := insert t s.aborted
      active := update s.active t none
      holds } (.aborted t :: h) := by
  obtain ⟨hbegan,hna,hnc⟩ := hl.active_iff.mp hact
  have hb : ∀ t' b', Event.began t' b' ∈ Event.aborted t :: h ↔ Event.began t' b' ∈ h := by simp
  have hc : ∀ t' c, Event.committed t' c ∈ Event.aborted t :: h ↔ Event.committed t' c ∈ h := by simp
  constructor <;> try simp only [hb,hc]
  · exact hl.next_pos
  · exact hl.began_bounds
  · exact hl.began_unique
  · exact hl.began_inj
  · exact hl.committed_bounds
  · exact hl.committed_unique
  · exact hl.committed_inj
  · exact hl.committed_ne_began
  · intro t' hm
    rcases mem_cons.mp hm with heq | hm
    · cases heq
      exact ⟨b,hbegan⟩
    · exact hl.aborted_began hm
  · intro t' c hm hm'
    rcases mem_cons.mp hm with heq | hm
    · cases heq
      exact hnc c hm'
    · exact hl.aborted_not_committed hm hm'
  · intro t' b'
    simp only [update_apply,mem_cons,Event.aborted.injEq,not_or]
    split_ifs with ht
    · simp [ht]
    · simp only [ht,not_false_eq_true,true_and]
      exact hl.active_iff
  · exact hl.remembered
  · intro t' c hm
    refine (hl.forgotten hm).imp_right (.imp_right ?_)
    intro hact r b' hr
    simp only [update_apply] at hr
    split_ifs at hr
    exact hact r b' hr
  · exact hl.checkpoint_le
  · intro t' hm
    rcases Set.mem_insert_iff.mp hm with rfl | hm
    · exact mem_cons_self
    · exact mem_cons_of_mem _ (hl.aborted_sound hm)
  · exact hl.uncommitted

private theorem checkpoint {bound : Nat} (hle : bound ≤ s.nextTs) (hold : ∀ t b, s.active t = some b → bound ≤ b) :
    Lifecycle { s with
      checkpointTs := s.nextTs
      committed := fun t => (s.committed t).filter (fun c => decide (bound < c)) } h := by
  refine { hl with remembered := ?_, forgotten := ?_, checkpoint_le := le_rfl }
  · intro t c hm
    exact hl.remembered (filter_eq_some_iff.mp hm).1
  · intro t c hm
    rcases hl.forgotten hm with hc | ⟨hc,hact⟩
    · by_cases hlt : bound < c
      · exact .inl (filter_eq_some_iff.mpr ⟨hc,decide_eq_true hlt⟩)
      · refine .inr ⟨le_trans (not_lt.mp hlt) hle,?_⟩
        intro r b hr
        refine lt_of_le_of_ne (le_trans (not_lt.mp hlt) (hold r b hr)) ?_
        rintro rfl
        exact hl.committed_ne_began hm (hl.active_iff.mp hr).1
    · exact .inr ⟨le_trans hc hl.checkpoint_le,hact⟩

theorem step {ev : List Event} (hs : MvccStep rules s ev s') : Lifecycle s' (ev ++ h) := by
  cases hs with
  | quiet holds _ _ => exact { hl with }
  | begin => exact hl.begin
  | write t b k v holds _ _ _ _ _ _ => exact hl.wrote t k v.data _ holds
  | commit t b holds hact _ _ => exact hl.commit hact holds
  | abort t b holds hact _ _ => exact hl.abort hact holds
  | checkpoint bound _ hle hold => exact hl.checkpoint hle hold
  | gc lwm version aborted _ _ _ _ hforgot =>
    exact { hl with aborted_sound := fun ht => hl.aborted_sound ((hforgot _).mp ht).1 }

end

end Lifecycle

def Event.txnId : Event → Nat
  | .began t _ | .wrote t _ _ | .committed t _ | .aborted t => t

theorem lastWrite_cons_ne {e : Event} {t : Nat} (hne : e.txnId ≠ t) (h : History) (k : Bytes) :
    lastWrite (e::h) t k = lastWrite h t k := by
  cases e with
  | wrote t' k' d => exact (lastWrite_wrote ..).trans (if_neg fun hc => hne hc.1)
  | began | committed | aborted => rfl

theorem MvccStep.event_active (h : MvccStep rules s ev s') :
    ∀ e ∈ ev, e.txnId = s.nextTxnId ∨ s.active e.txnId ≠ none := by
  cases h with
  | begin => simp [Event.txnId]
  | write _ _ _ _ _ hact | commit _ _ _ hact | abort _ _ _ hact => simp [Event.txnId,hact]
  | quiet | checkpoint | gc => simp

theorem Lifecycle.written_began {h : History} (hl : Lifecycle s h)
    (hw : ∀ {t k}, lastWrite h t k ≠ none → ∃ b, .began t b ∈ h) (hst : MvccStep rules s ev s') {t : Nat}
    {k : Bytes} (hsome : lastWrite (ev ++ h) t k ≠ none) : ∃ b, .began t b ∈ ev ++ h := by
  have hold : lastWrite h t k ≠ none → ∃ b, .began t b ∈ ev ++ h := fun hsome =>
    (hw hsome).imp fun b hb => mem_append_right _ hb
  cases hst with
  | write t' b k' v holds hact =>
    rw [singleton_append,lastWrite_wrote] at hsome
    split_ifs at hsome with hc
    · exact ⟨b,mem_append_right _ (hc.1 ▸ (hl.active_iff.mp hact).1)⟩
    · exact hold hsome
  | quiet | begin | commit | abort | checkpoint | gc => exact hold hsome

/-- Nothing happens to a transaction after its commit. -/
def CommitsLast (h : History) : Prop :=
  h.Pairwise (fun later e => ∀ t c, e = .committed t c → later.txnId ≠ t)

theorem CommitsLast.step {h : History} (hh : CommitsLast h)
    (hl : Lifecycle s h) (hst : MvccStep rules s ev s') : CommitsLast (ev ++ h) := by
  have hone : ev.Pairwise (fun later e => ∀ t c, e = .committed t c → later.txnId ≠ t) := by
    cases hst <;> simp
  refine pairwise_append.mpr ⟨hone,hh,?_⟩
  rintro x hx y hy t c rfl
  rcases hst.event_active x hx with heq | hact
  · obtain ⟨-,b,hb,-⟩ := hl.committed_bounds hy
    rw [heq]
    exact (hl.began_bounds hb).1.2.ne'
  · rintro rfl
    exact hact (hl.not_active (.inr ⟨c,hy⟩))

end InterchangeDb
