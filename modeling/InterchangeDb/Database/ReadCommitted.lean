import InterchangeDb.Database.SnapshotReads

/-! Reads under read committed, where the version order need not be the commit order. -/
namespace InterchangeDb
open List Option

/-- What a read must return: the own last write, or the write of the latest commit. -/
def readCommittedRead (h : History) (t : Nat) (k : Bytes) : Option Bytes :=
  match lastWrite h t k with
  | some d => d
  | none => latestWrite h k (committedWriters h k)

/-- Writers of a key commit in the order they began; one that is still active
began after every one that has committed. -/
def OrderedWriters (h : History) : Prop :=
  ∀ ⦃t w k b b' c⦄, .began t b ∈ h → lastWrite h t k ≠ none → .aborted t ∉ h → .began w b' ∈ h →
    .committed w c ∈ h → lastWrite h w k ≠ none → b < b' → ∃ c', .committed t c' ∈ h ∧ c' < c

/-- No transaction begun after `b` has committed a write of the key. -/
def NoLaterCommit (h : History) (b : Nat) (k : Bytes) : Prop :=
  ∀ w b' c, .began w b' ∈ h → .committed w c ∈ h → lastWrite h w k ≠ none → b' ≤ b

instance (h : History) (b : Nat) (k : Bytes) : Decidable (NoLaterCommit h b k) :=
  decidable_of_iff (∀ x ∈ committedWriters h k, ∀ e ∈ h, (match e with
      | .began w b' => if w = x.1 then decide (b' ≤ b) else true
      | _ => true) = true) (by
    constructor
    · intro hall w b' c hb hc hw
      simpa using hall (w,c) (mem_committedWriters.mpr ⟨hc,hw⟩) _ hb
    · intro hno x hx e he
      obtain ⟨hc,hw⟩ := mem_committedWriters.mp hx
      cases e with
      | began w b' =>
        simp only
        split_ifs with heq
        · subst heq
          exact decide_eq_true (hno x.1 b' x.2 he hc hw)
        · rfl
      | wrote | committed | aborted => rfl)

namespace OrderedWriters

variable {rules : Rules} {s s' : MvccState} {ev : List Event} {h : History}

theorem step (ho : OrderedWriters h) (hi : MvccInv rules s h) (hst : MvccStep rules s ev s')
    (hwrite : ∀ {t b k d}, ev = [.wrote t k d] → s.active t = some b → NoLaterCommit h b k) :
    OrderedWriters (ev ++ h) := by
  intro t w k b b' c hb hw hna hb' hc hw' hlt
  cases hst with
  | quiet | checkpoint | gc => exact ho hb hw hna hb' hc hw' hlt
  | begin =>
    -- the new transaction has written nothing
    have hnew : ∀ {t b}, .began t b ∈ [Event.began s.nextTxnId s.nextTs] ++ h →
        lastWrite h t k ≠ none → .began t b ∈ h := by
      intro t b hb hw
      rcases mem_cons.mp hb with heq | hb
      · cases heq
        obtain ⟨b',hb'⟩ := hi.stored.written_began hw
        exact absurd (hi.life.began_bounds hb').1.2 (lt_irrefl _)
      · exact hb
    obtain ⟨c',hc',hlt'⟩ := ho (hnew hb hw) hw (by simpa using hna) (hnew hb' hw') (by simpa using hc) hw' hlt
    exact ⟨c',mem_cons_of_mem _ hc',hlt'⟩
  | write t₀ b₀ k₀ v _ hact _ _ _ _ _ =>
    have hbegan := (hi.life.active_iff.mp hact).1
    simp only [singleton_append,mem_cons,reduceCtorEq,false_or] at hb hna hb' hc ⊢
    have hw₁ : lastWrite h w k ≠ none := by
      rw [singleton_append,lastWrite_wrote] at hw'
      split_ifs at hw' with heq
      · exact absurd (heq.1 ▸ hc) ((hi.life.active_iff.mp hact).2.2 c)
      · exact hw'
    rw [singleton_append,lastWrite_wrote] at hw
    split_ifs at hw with heq
    · obtain ⟨rfl,rfl⟩ := heq
      have := hwrite rfl hact w b' c hb' hc hw₁
      have := hi.life.began_unique hb hbegan
      omega
    · exact ho hb hw hna hb' hc hw₁ hlt
  | commit t₀ b₀ _ hact _ _ =>
    obtain ⟨hbegan,_,hnc⟩ := hi.life.active_iff.mp hact
    simp only [singleton_append,mem_cons,reduceCtorEq,false_or,Event.committed.injEq,
      lastWrite_committed] at hb hw hna hb' hc hw' ⊢
    rcases hc with ⟨rfl,rfl⟩ | hc
    · rcases hi.life.fate hb with hact' | hab | ⟨c',hc',_⟩
      · -- two active writers of one key would share its lock
        have heq := hi.stored.unshared _ _ k (hi.stored.locked hact' hw) (hi.stored.locked hact hw')
        rw [heq] at hb
        have := hi.life.began_unique hb hb'
        omega
      · exact absurd hab hna
      · exact ⟨c',.inr hc',(hi.life.committed_bounds hc').1⟩
    · obtain ⟨c',hc',hlt'⟩ := ho hb hw hna hb' hc hw' hlt
      exact ⟨c',.inr hc',hlt'⟩
  | abort t₀ b₀ _ hact _ _ =>
    simp only [singleton_append,mem_cons,reduceCtorEq,false_or,not_or,
      lastWrite_aborted] at hb hw hna hb' hc hw' ⊢
    exact ho hb hw hna.2 hb' hc hw' hlt

/-- Of two committed writers of a key, the one that began later committed later. -/
theorem commit_order (ho : OrderedWriters h) (hi : MvccInv rules s h) {t w b b' c c' : Nat} {k : Bytes}
    (hb : .began t b ∈ h) (hb' : .began w b' ∈ h) (hc : .committed t c ∈ h) (hc' : .committed w c' ∈ h)
    (hw : lastWrite h t k ≠ none) (hw' : lastWrite h w k ≠ none) (hle : b' ≤ b) : c' ≤ c := by
  rcases hle.lt_or_eq with hlt | rfl
  · have hna : .aborted w ∉ h := fun ha => hi.life.aborted_not_committed ha hc'
    obtain ⟨c₁,hc₁,hlt₁⟩ := ho hb' hw' hna hb hc hw hlt
    rw [hi.life.committed_unique hc' hc₁]
    exact hlt₁.le
  · rw [hi.life.began_inj hb' hb] at hc'
    exact (hi.life.committed_unique hc' hc).le

end OrderedWriters

namespace MvccInv

variable {rules : Rules} {s : MvccState} {h : History}

/-- With writers in order, a read at the current time is supplied by the
version the specification names. -/
theorem read_committed_supplies (hi : MvccInv rules s h) (ho : OrderedWriters h) (hck : ¬ rules.checkpoints)
    (hgc : ¬ rules.collects) {t readTs : Nat} {k : Bytes} (hnow : s.nextTs ≤ readTs)
    (hact : lastWrite h t k ≠ none → ∃ b, s.active t = some b) {r : Option (Nat × MvccValue)}
    (hr : s.Supplies t readTs k r) : r.bind (·.2.data) = readCommittedRead h t k := by
  unfold readCommittedRead
  cases hown : lastWrite h t k with
  | some d =>
    obtain ⟨b,hb⟩ := hact (by simp [hown])
    obtain ⟨hbegan,hna,hnc⟩ := hi.life.active_iff.mp hb
    refine hi.supplies_own hb hown (fun {ts v} hv hvis => ?_) hr
    have hbv := (hi.stored.version_sound hv).1
    rcases (hi.visible_iff hck hbv).mp hvis with heq | ⟨c,hc,_⟩
    · rw [heq] at hbv
      exact (hi.life.began_unique hbv hbegan).le
    · by_contra hlt
      obtain ⟨c',hc',_⟩ := ho hbegan (by simp [hown]) hna hbv hc (hi.stored.version_written hv) (not_le.mp hlt)
      exact hnc c' hc'
  | none =>
    have hall : (committedWriters h k).filter (fun x => decide (x.2 ≤ readTs)) = committedWriters h k := by
      apply filter_eq_self.mpr
      intro ⟨w,c⟩ hmem
      have := (hi.life.committed_bounds (mem_committedWriters.mp hmem).1).1
      exact decide_eq_true (by simp only; omega)
    have hread := hi.supplies_latest hck hgc (ho.commit_order hi) hown hr
    rwa [hall] at hread

end MvccInv

/-- A put or delete by an active transaction comes before the commits of those
that began after it and wrote the key. -/
def Session.WritesInOrder (s : Session) : Op → Prop
  | .put t k _ => ∀ b, s.db.mgr.beginTs t = .ok b → NoLaterCommit s.history b k
  | .delete t k => ∀ b, s.db.mgr.beginTs t = .ok b → NoLaterCommit s.history b k
  | _ => True

instance (s : Session) (op : Op) : Decidable (s.WritesInOrder op) :=
  have decBegin : ∀ t k, Decidable (∀ b, s.db.mgr.beginTs t = .ok b → NoLaterCommit s.history b k) := fun t k =>
    match s.db.mgr.beginTs t with
    | .error _ => .isTrue (fun _ h => nomatch h)
    | .ok b => decidable_of_iff (NoLaterCommit s.history b k)
        ⟨fun h _ heq => Except.ok.inj heq ▸ h,fun h => h b rfl⟩
  match op with
  | .put t k _ => decBegin t k
  | .delete t k => decBegin t k
  | .begin _ | .get _ _ | .commit _ | .abort _ | .checkpoint | .gc => .isTrue trivial

private theorem Session.wrote_of_events {s : Session} {op : Op} {out : Outcome} {t : Nat} {k : Bytes}
    {d : Option Bytes} (h : s.db.events op out = [.wrote t k d]) (hc : s.WritesInOrder op) {b : Nat}
    (hb : s.db.view.active t = some b) : NoLaterCommit s.history b k := by
  unfold Database.events at h
  split at h <;> cases h
  · exact hc b (beginTs_of_active hb)
  · exact hc b (beginTs_of_active hb)

/-- The invariant of a run whose writes come in order. -/
private structure Session.InOrder (s : Session) : Prop where
  inv : Session.Inv .readCommitted ⟨False,False,False⟩ s
  order : OrderedWriters s.history

private theorem Session.inOrder_of_run [Crc32] {ops : List Op} {s : Session} (hck : .checkpoint ∉ ops)
    (hgc : .gc ∉ ops) (h : run Session.step (.init .readCommitted) ops = some s)
    (hc : AllSteps Session.step Session.WritesInOrder (.init .readCommitted) ops) : s.InOrder := by
  have hops : AllSteps step (fun _ op => op ∈ ops) (.init .readCommitted) ops :=
    allSteps_of_forall (fun op hop _ => hop) _
  have hinit : (init .readCommitted).InOrder := ⟨inv_init _ _,nofun⟩
  refine run_invariant _ (fun s₀ op s₁ hinv hcond hstep => ?_) hinit (hops.and hc) h
  have hck' : op = .checkpoint → False := fun heq => hck (heq ▸ hcond.1)
  have hgc' : op = .gc → False := fun heq => hgc (heq ▸ hcond.1)
  refine ⟨hinv.inv.step (·.elim) (·.elim) hck' hgc' hstep,?_⟩
  obtain ⟨⟨db,out⟩,hcall,rfl⟩ := map_eq_some_iff.mp hstep
  have hm : MvccStep ⟨False,False,False⟩ _ _ _ :=
    (Database.step_refines hinv.inv.sound (fun hf => False.elim hf) hck' hgc' hcall).2.2
  exact OrderedWriters.step hinv.order hinv.inv.mvcc hm (fun hev hact => Session.wrote_of_events hev hcond.2 hact)

/-- In every run whose writes come in order, every read of an active
transaction, and of one that has not written the key, is the latest. -/
theorem read_committed_read [Crc32] {ops : List Op} {s : Session} (hck : .checkpoint ∉ ops) (hgc : .gc ∉ ops)
    (h : run Session.step (.init .readCommitted) ops = some s)
    (hc : AllSteps Session.step Session.WritesInOrder (.init .readCommitted) ops) {t : Nat} {k : Bytes}
    (ht : lastWrite s.history t k ≠ none → ∃ b, s.db.mgr.beginTs t = .ok b) (hk : k.length ≤ u32Max) :
    s.db.txnGet t k = some (.ok (readCommittedRead s.history t k)) := by
  obtain ⟨hi,ho⟩ := Session.inOrder_of_run hck hgc h hc
  have hview : s.db.mgr.readView t = .ok ⟨max s.db.mgr.nextTs s.db.mgr.checkpointTs⟩ := by
    rw [TransactionManager.readView,hi.policy]
  obtain ⟨r,hfind,hr⟩ := Database.txnFind_spec hi.sound hk hview
  have hread := hi.mvcc.read_committed_supplies ho (fun hf => hf) (fun hf => hf) (le_max_left _ _) (fun hw => by
    obtain ⟨b,hb⟩ := ht hw
    exact ⟨b,Session.active_of_beginTs hb⟩) hr
  simp [Database.txnGet_eq,hfind,map_some,Except.map,hread]

/-- The older transaction writes first, then the younger one after its commit. -/
theorem read_committed_read_in_order : ∃ s, run Session.step (.init .readCommitted)
      [.begin .readWrite,.begin .readWrite,.put 1 [1] [1],.commit 1,.put 2 [1] [2],.commit 2] = some s ∧
    s.db.txnGet 3 [1] = some (.ok (readCommittedRead s.history 3 [1])) ∧
    readCommittedRead s.history 3 [1] = some [2] := by
  refine exists_observed (fun s => (lastWrite s.history 3 [1],readCommittedRead s.history 3 [1])) (none,some [2])
    (by decide +kernel) (fun s hs hread => ?_)
  obtain ⟨hnone,hread⟩ := Prod.mk.inj hread
  exact ⟨read_committed_read (by decide) (by decide) hs (by decide +kernel) (fun hw => absurd hnone hw)
    (by decide),hread⟩

/-- The younger transaction commits the key before the older one writes it: the
older one does not read its own write, and others miss its commit. -/
theorem read_committed_stale_read :
    (∃ s, run Session.step (.init .readCommitted)
        [.begin .readWrite,.begin .readWrite,.put 2 [1] [2],.commit 2,.put 1 [1] [1]] = some s ∧
      s.db.txnGet 1 [1] = some (.ok (some [2])) ∧ lastWrite s.history 1 [1] = some (some [1])) ∧
    ∃ s, run Session.step (.init .readCommitted)
        [.begin .readWrite,.begin .readWrite,.put 2 [1] [2],.commit 2,.put 1 [1] [1],.commit 1,.begin .readOnly] =
          some s ∧
      s.db.txnGet 3 [1] = some (.ok (some [2])) ∧ readCommittedRead s.history 3 [1] = some [1] := by
  constructor
  · exact exists_observed (fun s => (s.db.txnGet 1 [1],lastWrite s.history 1 [1])) (some (.ok (some [2])),some (some [1]))
      (by decide +kernel) (fun s _ hh => Prod.mk.inj hh)
  · exact exists_observed (fun s => (s.db.txnGet 3 [1],readCommittedRead s.history 3 [1])) (some (.ok (some [2])),some [1])
      (by decide +kernel) (fun s _ hh => Prod.mk.inj hh)

end InterchangeDb
