import InterchangeDb.Txn.Mvcc

/-! What transactions do to a versioned store, without its encodings, with the events each call adds. -/
namespace InterchangeDb

inductive Event where
  | began (txnId ts : Nat)
  | wrote (txnId : Nat) (key : Bytes) (data : Option Bytes)
  | committed (txnId ts : Nat)
  | aborted (txnId : Nat)
  deriving DecidableEq, Repr

/-- The events of a run, latest first. -/
abbrev History := List Event

/-- What a transaction last wrote to a key; a delete writes nothing. -/
def lastWrite (h : History) (txnId : Nat) (key : Bytes) : Option (Option Bytes) :=
  h.findSome? (fun e =>
    match e with
    | .wrote t k d => if t = txnId ∧ k = key then some d else none
    | _ => none)

@[ext] structure MvccState where
  nextTxnId : Nat
  nextTs : Nat
  checkpointTs : Nat
  /-- The begin timestamps of the active transactions. -/
  active : Nat → Option Nat
  /-- The commit timestamps still remembered. -/
  committed : Nat → Option Nat
  uncommitted : Set Nat
  aborted : Set Nat
  version : Bytes → Nat → Option MvccValue
  holds : Nat → Bytes → Prop

namespace MvccState

def notCommitted (s : MvccState) : Set Nat := s.uncommitted ∪ s.aborted

/-- A version counts as committed: its writer is remembered, or it is as old as
the last checkpoint and nothing speaks against it. -/
def CountsCommitted (s : MvccState) (writer ts : Nat) : Prop :=
  writer ∉ s.notCommitted ∧ (s.committed writer ≠ none ∨ ts ≤ s.checkpointTs)

/-- Garbage collection takes a version below the watermark that does not count
as committed, or is older than one that does. -/
def Reclaimed (s : MvccState) (lwm : Nat) (k : Bytes) (ts : Nat) (v : MvccValue) : Prop :=
  ts < lwm ∧ (¬ s.CountsCommitted v.txnId ts ∨
    ∃ ts' v', ts < ts' ∧ ts' < lwm ∧ s.version k ts' = some v' ∧ s.CountsCommitted v'.txnId ts')

/-- A version is visible to a reader with a read timestamp. -/
def Visible (s : MvccState) (reader readTs writer ts : Nat) : Prop :=
  writer = reader ∨ (∃ c, s.committed writer = some c ∧ c ≤ readTs) ∨
    (s.committed writer = none ∧ ts ≤ s.checkpointTs ∧ writer ∉ s.notCommitted ∧ ts ≤ readTs)

/-- The newest visible version of a key supplies a read. -/
def Supplies (s : MvccState) (reader readTs : Nat) (k : Bytes) : Option (Nat × MvccValue) → Prop
  | none => ∀ ts v, s.version k ts = some v → ¬ s.Visible reader readTs v.txnId ts
  | some (ts,v) => s.version k ts = some v ∧ s.Visible reader readTs v.txnId ts ∧
      ∀ ts' v', s.version k ts' = some v' → s.Visible reader readTs v'.txnId ts' → ts' ≤ ts

end MvccState

@[simp] theorem lastWrite_wrote (t : Nat) (k : Bytes) (d : Option Bytes) (h : History) (t' : Nat) (k' : Bytes) :
    lastWrite (.wrote t k d :: h) t' k' = if t = t' ∧ k = k' then some d else lastWrite h t' k' := by
  by_cases hc : t = t' ∧ k = k' <;> simp [lastWrite,hc]

@[simp] theorem lastWrite_began (t b : Nat) (h : History) (t' : Nat) (k' : Bytes) :
    lastWrite (.began t b :: h) t' k' = lastWrite h t' k' := rfl

@[simp] theorem lastWrite_committed (t c : Nat) (h : History) (t' : Nat) (k' : Bytes) :
    lastWrite (.committed t c :: h) t' k' = lastWrite h t' k' := rfl

@[simp] theorem lastWrite_aborted (t : Nat) (h : History) (t' : Nat) (k' : Bytes) :
    lastWrite (.aborted t :: h) t' k' = lastWrite h t' k' := rfl

theorem lastWrite_append (h h' : History) (t : Nat) (k : Bytes) :
    lastWrite (h ++ h') t k = (lastWrite h t k).or (lastWrite h' t k) := List.findSome?_append

theorem lastWrite_ne_none_iff {h : History} {t : Nat} {k : Bytes} :
    lastWrite h t k ≠ none ↔ ∃ d, .wrote t k d ∈ h := by
  induction h with
  | nil => simp [lastWrite]
  | cons e h ih =>
    cases e with
    | wrote t' k' d' =>
      rw [lastWrite_wrote]
      split_ifs with hc
      · obtain ⟨rfl,rfl⟩ := hc
        exact iff_of_true (by simp) ⟨d',List.mem_cons_self⟩
      · rw [ih]
        refine exists_congr fun d => ?_
        rw [List.mem_cons]
        refine (or_iff_right ?_).symm
        intro heq
        cases heq
        exact hc ⟨rfl,rfl⟩
    | began | committed | aborted => simpa using ih

theorem mem_of_lastWrite {h : History} {t : Nat} {k : Bytes} {d : Option Bytes} (hd : lastWrite h t k = some d) :
    .wrote t k d ∈ h := by
  obtain ⟨e,he,heq⟩ := List.exists_of_findSome?_eq_some hd
  cases e with
  | wrote t' k' d' =>
    simp only at heq
    split_ifs at heq with hc
    obtain ⟨rfl,rfl⟩ := hc
    cases heq
    exact he
  | began | committed | aborted => cases heq

/-- Nobody shares a key. -/
def Unshared (holds : Nat → Bytes → Prop) : Prop := ∀ t t' k, holds t k → holds t' k → t = t'

/-- What a run may do: whether a write is checked against commits after the
writer's snapshot, and whether checkpoints and collections occur. -/
structure Rules where
  checked : Prop
  checkpoints : Prop
  collects : Prop

inductive MvccStep (rules : Rules) (s : MvccState) : List Event → MvccState → Prop where
  /-- A read or a failed call. A failed write may have taken a lock. -/
  | quiet (holds : Nat → Bytes → Prop) (unshared : Unshared holds)
      (kept : ∀ t k, s.holds t k → holds t k) :
      MvccStep rules s [] { s with holds }
  | begin :
      MvccStep rules s [.began s.nextTxnId s.nextTs]
        { s with
          nextTxnId := s.nextTxnId + 1
          nextTs := s.nextTs + 1
          active := Function.update s.active s.nextTxnId (some s.nextTs) }
  | write (t b : Nat) (k : Bytes) (v : MvccValue) (holds : Nat → Bytes → Prop)
      (active : s.active t = some b) (own : v.txnId = t) (locked : holds t k)
      (unshared : Unshared holds) (kept : ∀ t k, s.holds t k → holds t k)
      (noConflict : rules.checked → ∀ ts w c, s.version k ts = some w → s.committed w.txnId = some c → c ≤ b) :
      MvccStep rules s [.wrote t k v.data]
        { s with
          version := fun k' ts => if k' = k ∧ ts = b then some v else s.version k' ts
          holds }
  | commit (t b : Nat) (holds : Nat → Bytes → Prop) (active : s.active t = some b)
      (unshared : Unshared holds) (kept : ∀ t' k, t' ≠ t → s.holds t' k → holds t' k) :
      MvccStep rules s [.committed t s.nextTs]
        { s with
          nextTs := s.nextTs + 1
          committed := Function.update s.committed t (some s.nextTs)
          active := Function.update s.active t none
          holds }
  | abort (t b : Nat) (holds : Nat → Bytes → Prop) (active : s.active t = some b)
      (unshared : Unshared holds) (kept : ∀ t' k, t' ≠ t → s.holds t' k → holds t' k) :
      MvccStep rules s [.aborted t]
        { s with
          aborted := insert t s.aborted
          active := Function.update s.active t none
          holds }
  | checkpoint (bound : Nat) (allowed : rules.checkpoints) (le : bound ≤ s.nextTs) (oldest : ∀ t b, s.active t = some b → bound ≤ b) :
      MvccStep rules s []
        { s with
          checkpointTs := s.nextTs
          committed := fun t => (s.committed t).filter (fun c => decide (bound < c)) }
  | gc (lwm : Nat) (version : Bytes → Nat → Option MvccValue) (aborted : Set Nat)
      (allowed : rules.collects) (le : lwm ≤ s.nextTs) (oldest : ∀ t b, s.active t = some b → lwm ≤ b)
      (kept : ∀ k ts v, version k ts = some v ↔ s.version k ts = some v ∧ ¬ s.Reclaimed lwm k ts v)
      (forgotten : ∀ t, t ∈ aborted ↔ t ∈ s.aborted ∧ ∃ k ts v, version k ts = some v ∧ v.txnId = t) :
      MvccStep rules s [] { s with version, aborted }

/-- The state with the locks of other keys. -/
def MvccState.relock (s : MvccState) (f : Bytes → Bytes) : MvccState := { s with holds := fun t k => s.holds t (f k) }

theorem MvccStep.relock {rules : Rules} {s s' : MvccState} {ev : List Event} (h : MvccStep rules s ev s')
    (hno : ∀ t k d, .wrote t k d ∉ ev) (f : Bytes → Bytes) : MvccStep rules (s.relock f) ev (s'.relock f) := by
  cases h with
  | quiet holds unshared kept =>
    exact .quiet (fun t k => holds t (f k)) (fun t t' k => unshared t t' (f k)) (fun t k => kept t (f k))
  | begin => exact .begin
  | write t b k v => exact absurd List.mem_cons_self (hno t k v.data)
  | commit t b holds active unshared kept =>
    exact .commit t b (fun t k => holds t (f k)) active (fun t t' k => unshared t t' (f k)) (fun t' k => kept t' (f k))
  | abort t b holds active unshared kept =>
    exact .abort t b (fun t k => holds t (f k)) active (fun t t' k => unshared t t' (f k)) (fun t' k => kept t' (f k))
  | checkpoint bound allowed le oldest => exact .checkpoint bound allowed le oldest
  | gc lwm version aborted allowed le oldest kept forgotten => exact .gc lwm version aborted allowed le oldest kept forgotten

theorem MvccStep.without_write {rules : Rules} {s s' : MvccState} {t : Nat} {k : Bytes} {d : Option Bytes}
    (h : MvccStep rules s [.wrote t k d] s') : MvccStep rules s [] { s' with version := s.version } := by
  cases h with
  | write _ _ _ _ holds _ _ _ unshared kept => exact .quiet holds unshared kept

end InterchangeDb
