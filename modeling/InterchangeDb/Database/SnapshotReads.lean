import InterchangeDb.Database.Reachable

/-! Reads under snapshot isolation. Disjoint lifetimes make begin order and commit order agree on a key. -/
namespace InterchangeDb
open List Option

/-- The committed transactions that wrote a key, with their commit timestamps. -/
def committedWriters (h : History) (k : Bytes) : List (Nat × Nat) :=
  h.filterMap (fun e =>
    match e with
    | .committed w c => if lastWrite h w k ≠ none then some (w,c) else none
    | _ => none)

theorem mem_committedWriters {h : History} {k : Bytes} {w c : Nat} :
    (w,c) ∈ committedWriters h k ↔ .committed w c ∈ h ∧ lastWrite h w k ≠ none := by
  unfold committedWriters
  rw [mem_filterMap]
  constructor
  · rintro ⟨e,he,heq⟩
    cases e with
    | committed w' c' =>
      simp only at heq
      split_ifs at heq with hw
      cases heq
      exact ⟨he,hw⟩
    | began | wrote | aborted => cases heq
  · rintro ⟨hc,hw⟩
    exact ⟨_,hc,by simp [hw]⟩

/-- What the transaction with the greatest commit timestamp among some writers
wrote to a key. -/
def latestWrite (h : History) (k : Bytes) (writers : List (Nat × Nat)) : Option Bytes :=
  (writers.argmax Prod.snd).bind (fun x => (lastWrite h x.1 k).join)

/-- What a snapshot read must return. -/
def snapshotRead (h : History) (t beginTs : Nat) (k : Bytes) : Option Bytes :=
  match lastWrite h t k with
  | some d => d
  | none => latestWrite h k ((committedWriters h k).filter (fun x => decide (x.2 ≤ beginTs)))

theorem latestWrite_nil (h : History) (k : Bytes) : latestWrite h k [] = none := rfl

/-- The write of a writer that no other one outranks is the latest. -/
theorem latestWrite_eq {h : History} {k : Bytes} {writers : List (Nat × Nat)} {w c : Nat} {d : Option Bytes}
    (hmem : (w,c) ∈ writers) (hmax : ∀ w' c', (w',c') ∈ writers → c' ≤ c)
    (huniq : ∀ w', (w',c) ∈ writers → w' = w) (hd : lastWrite h w k = some d) :
    latestWrite h k writers = d := by
  unfold latestWrite
  cases hm : writers.argmax Prod.snd with
  | none =>
    rw [argmax_eq_none.mp hm] at hmem
    simp at hmem
  | some x =>
    obtain ⟨w',c'⟩ := x
    have hx : (w',c') ∈ writers := argmax_mem hm
    have hle : c ≤ c' := le_of_mem_argmax hmem hm
    obtain rfl : c' = c := le_antisymm (hmax w' c' hx) hle
    obtain rfl := huniq w' hx
    simp [hd]

namespace MvccInv

variable {rules : Rules} {s : MvccState} {h : History}

/-- Where commit order follows begin order, a transaction that has not written
the key reads the latest commit up to its read timestamp. -/
theorem supplies_latest (hi : MvccInv rules s h) (hck : ¬ rules.checkpoints) (hgc : ¬ rules.collects)
    {t readTs : Nat} {k : Bytes}
    (horder : ∀ {t w b b' c c'}, .began t b ∈ h → .began w b' ∈ h → .committed t c ∈ h → .committed w c' ∈ h →
      lastWrite h t k ≠ none → lastWrite h w k ≠ none → b' ≤ b → c' ≤ c)
    (hown : lastWrite h t k = none) {r : Option (Nat × MvccValue)} (hr : s.Supplies t readTs k r) :
    r.bind (·.2.data) = latestWrite h k ((committedWriters h k).filter (fun x => decide (x.2 ≤ readTs))) := by
  have hshown : ∀ {w c}, (w,c) ∈ (committedWriters h k).filter (fun x => decide (x.2 ≤ readTs)) →
      .committed w c ∈ h ∧ lastWrite h w k ≠ none ∧
        ∃ b v, .began w b ∈ h ∧ s.version k b = some v ∧ s.Visible t readTs v.txnId b := by
    intro w c hmem
    obtain ⟨hmem,hle⟩ := mem_filter.mp hmem
    obtain ⟨hc,hw⟩ := mem_committedWriters.mp hmem
    obtain ⟨_,b,hb,_⟩ := hi.life.committed_bounds hc
    obtain ⟨v,hv⟩ := ne_none_iff_exists'.mp (hi.uncollected hgc hw hb)
    refine ⟨hc,hw,b,v,hb,hv,?_⟩
    rw [hi.stored.writer_eq hi.life hv hb]
    exact (hi.visible_iff hck hb).mpr (.inr ⟨c,hc,by simpa using hle⟩)
  match r with
  | none =>
    have hnone : (committedWriters h k).filter (fun x => decide (x.2 ≤ readTs)) = [] := by
      rw [eq_nil_iff_forall_not_mem]
      intro ⟨w,c⟩ hmem
      obtain ⟨_,_,b,v,_,hv,hvis⟩ := hshown hmem
      exact hr b v hv hvis
    rw [hnone,latestWrite_nil]
    rfl
  | some (ts,v) =>
    obtain ⟨hv,hvis,hmax⟩ := hr
    obtain ⟨hbv,hlast⟩ := hi.stored.version_sound hv
    rcases (hi.visible_iff hck hbv).mp hvis with heq | ⟨c,hc,hle⟩
    · rw [heq,hown] at hlast
      cases hlast
    · symm
      refine latestWrite_eq (w := v.txnId) (c := c) ?_ ?_ ?_ hlast
      · exact mem_filter.mpr ⟨mem_committedWriters.mpr ⟨hc,by simp [hlast]⟩,by simpa using hle⟩
      · intro w' c' hmem
        obtain ⟨hc',hw',b',v',hb',hv',hvis'⟩ := hshown hmem
        exact horder hbv hb' hc hc' (by simp [hlast]) hw' (hmax b' v' hv' hvis')
      · intro w' hmem
        exact hi.life.committed_inj (hshown hmem).1 hc

/-- A snapshot read is supplied by the version the specification names. -/
theorem snapshot_supplies (hi : MvccInv rules s h) (hchecked : rules.checked) (hck : ¬ rules.checkpoints)
    (hgc : ¬ rules.collects) {t b : Nat} {k : Bytes} (hact : s.active t = some b)
    {r : Option (Nat × MvccValue)} (hr : s.Supplies t b k r) : r.bind (·.2.data) = snapshotRead h t b k := by
  unfold snapshotRead
  cases hown : lastWrite h t k with
  | some d => exact hi.own_supplies hck hact hown hr
  | none => exact hi.supplies_latest hck hgc (hi.commit_order hchecked) hown hr

end MvccInv

/-- Every read of an active transaction, in every run without checkpoint and
collection. -/
theorem snapshot_read [Crc32] {ops : List Op} {s : Session} (hck : .checkpoint ∉ ops) (hgc : .gc ∉ ops)
    (h : run Session.step (.init .snapshotIsolation) ops = some s) {t b : Nat} {k : Bytes}
    (ht : s.db.mgr.beginTs t = .ok b) (hk : k.length ≤ u32Max) :
    s.db.txnGet t k = some (.ok (snapshotRead s.history t b k)) := by
  have hi := Session.reachable (fun _ => rfl) h
  have hact := Session.active_of_beginTs ht
  obtain ⟨r,hfind,hr⟩ := Database.txnFind_spec hi.sound hk (hi.readView hact)
  have hread := hi.mvcc.snapshot_supplies rfl hck hgc hact hr
  simp [Database.txnGet_eq,hfind,map_some,Except.map,hread]

/-- Two writers in turn, a third that overlaps, and a reader between them. -/
theorem snapshot_read_between_writers : ∃ s, run Session.step (.init .snapshotIsolation)
      [.begin .readWrite,.put 1 [7] [1],.commit 1,.begin .readWrite,.put 2 [7] [2],.begin .readOnly,.commit 2] =
        some s ∧ s.db.mgr.beginTs 3 = .ok 4 ∧
    s.db.txnGet 3 [7] = some (.ok (snapshotRead s.history 3 4 [7])) ∧ snapshotRead s.history 3 4 [7] = some [1] := by
  refine exists_observed (fun s => ((s.db.mgr.activeTxns.lookup 3).map (·.beginTs),snapshotRead s.history 3 4 [7]))
    (some 4,some [1]) (by decide +kernel) (fun s hs hh => ?_)
  obtain ⟨hb,hr⟩ := Prod.mk.inj hh
  obtain ⟨txn,htxn,hts⟩ := map_eq_some_iff.mp hb
  have ht : s.db.mgr.beginTs 3 = .ok 4 := by
    simp [TransactionManager.beginTs,TransactionManager.transaction,htxn,Except.map,hts]
  exact ⟨ht,snapshot_read (by decide) (by decide) hs ht (by decide),hr⟩

end InterchangeDb
