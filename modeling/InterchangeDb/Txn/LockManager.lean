import InterchangeDb.Common
import InterchangeDb.Lib.AssocMap

/-! The lock table: holders, granted mode and waiters of each key. -/
namespace InterchangeDb
open List Option AList

inductive LockMode where
  | shared
  | exclusive
  deriving DecidableEq, Repr

def LockMode.isCompatible : LockMode → LockMode → Bool
  | .shared, .shared => true
  | _, _ => false

structure LockRequest where
  txnId : Nat
  mode : LockMode
  /-- The identity of the flag shared with the waiter. -/
  granted : Nat
  deriving DecidableEq, Repr

structure LockEntry where
  grantedMode : Option LockMode
  holders : Finset Nat
  waitQueue : List LockRequest
  deriving DecidableEq

namespace LockEntry

def new : LockEntry := ⟨none, ∅, []⟩

def isEmpty (e : LockEntry) : Bool := decide (e.holders = ∅) && e.waitQueue.isEmpty

end LockEntry

structure LockState where
  lockTable : AList (fun _ : Bytes => LockEntry)
  /-- The keys each transaction holds. -/
  txnLocks : AList (fun _ : Nat => List Bytes)

inductive GrantResult where
  | granted
  | alreadyHeld
  | mustWait
  deriving DecidableEq, Repr

def maxLockTableEntries : Nat := 1000000

namespace LockState
variable (s : LockState) {s₀ : LockState} {bound txnId : Nat}

def new : LockState := ⟨∅, ∅⟩

def setEntry (key : Bytes) (e : LockEntry) : LockState :=
  { s with lockTable := s.lockTable.insert key e }

def recordHold (txnId : Nat) (key : Bytes) : LockState :=
  let keys := (s.txnLocks.lookup txnId).getD []
  { s with txnLocks := s.txnLocks.insert txnId (if key ∈ keys then keys else key::keys) }

/-- Grant without blocking, on the entry of the key. -/
def tryGrantImmediate (entry : LockEntry) (key : Bytes) (txnId : Nat)
    (mode : LockMode) : LockState × GrantResult :=
  if entry.holders = ∅ then
    ((s.setEntry key { entry with holders := {txnId}, grantedMode := some mode }).recordHold txnId key,
      .granted)
  else if txnId ∈ entry.holders then
    match entry.grantedMode, mode with
    | some .shared, .exclusive =>
      -- upgrade, when the transaction is the sole holder
      if entry.holders.card = 1 then
        (s.setEntry key { entry with grantedMode := some .exclusive }, .granted)
      else (s, .mustWait)
    | _, _ => (s, .alreadyHeld)
  else if entry.waitQueue.isEmpty && (entry.grantedMode.elim false mode.isCompatible) then
    ((s.setEntry key { entry with holders := insert txnId entry.holders }).recordHold txnId key,
      .granted)
  else (s, .mustWait)

/-- One whole acquire call. A request that must wait leaves the queue again when
its deadline passes. -/
def acquire (txnId : Nat) (key : Bytes) (mode : LockMode) :
    LockState × Except Error Unit :=
  match s.lockTable.lookup key with
  | none =>
    if maxLockTableEntries ≤ s.lockTable.entries.length then
      (s, .error (.storageCorrupted "Lock table entry limit reached"))
    else
      let r := (s.setEntry key .new).tryGrantImmediate .new key txnId mode
      match r.2 with
      | .mustWait => (s, .error .lockTimeout)
      | _ => (r.1, .ok ())
  | some entry =>
    let r := s.tryGrantImmediate entry key txnId mode
    match r.2 with
    | .mustWait => (s, .error .lockTimeout)
    | _ => (r.1, .ok ())

/-- Walk the wait queue front to back, granting compatible requests. Returns the
entry, the new holders in grant order and whether any request was granted. -/
def grantWaiters (grantedMode : Option LockMode) (holders : Finset Nat) :
    List LockRequest → LockEntry × List Nat × Bool
  | [] => (⟨grantedMode, holders, []⟩, [], false)
  | front::rest =>
    let isUpgrade := decide (front.txnId ∈ holders)
    let canGrant :=
      if holders = ∅ then true
      else if isUpgrade then decide (holders.card = 1)
      else grantedMode.elim false front.mode.isCompatible
    if canGrant then
      let holders' := if isUpgrade then holders else insert front.txnId holders
      let mode' := some (if holders'.card = 1 then front.mode else .shared)
      let newHolder := if isUpgrade then [] else [front.txnId]
      if front.mode = .exclusive then (⟨mode', holders', rest⟩, newHolder, true)
      else
        let r := grantWaiters mode' holders' rest
        (r.1, newHolder ++ r.2.1, true)
    else (⟨grantedMode, holders, front::rest⟩, [], false)

/-- Remove the transaction from the holders of a key, then grant waiters. -/
def releaseKey (txnId : Nat) (key : Bytes) : LockState :=
  match s.lockTable.lookup key with
  | none => s
  | some entry =>
    if txnId ∈ entry.holders then
      let holders := entry.holders.erase txnId
      let mode := if holders = ∅ then none else entry.grantedMode
      let r := grantWaiters mode holders entry.waitQueue
      let s' := r.2.1.foldl (fun st t => st.recordHold t key) (s.setEntry key r.1)
      if r.1.isEmpty then { s' with lockTable := s'.lockTable.erase key } else s'
    else s

/-- Release every lock of a transaction, as commit and abort do. -/
def releaseAll (txnId : Nat) : LockState :=
  let keys := (s.txnLocks.lookup txnId).getD []
  keys.foldl (fun st key => st.releaseKey txnId key) { s with txnLocks := s.txnLocks.erase txnId }

def Holds (txnId : Nat) (key : Bytes) : Prop :=
  ∃ e, s.lockTable.lookup key = some e ∧ txnId ∈ e.holders

/-- The table between whole calls that only ask for exclusive locks: nobody
waits and every key has at most one holder. -/
def Exclusive : Prop :=
  ∀ key e, s.lockTable.lookup key = some e → e.waitQueue = [] ∧
    (∀ a ∈ e.holders, ∀ b ∈ e.holders, a = b) ∧
    (∀ a ∈ e.holders, e.grantedMode = some .exclusive)

theorem exclusive_new : Exclusive new := by
  intro key e h
  simp [new] at h

theorem lookup_setEntry (key q : Bytes) (e : LockEntry) :
    (s.setEntry key e).lockTable.lookup q = if q = key then some e else s.lockTable.lookup q := lookup_insert_eq ..

/-- A key without an entry goes to the caller. -/
def granted (txnId : Nat) (key : Bytes) : LockState :=
  (s.setEntry key ⟨some .exclusive,{txnId},[]⟩).recordHold txnId key

theorem lookup_granted (txnId : Nat) (key q : Bytes) :
    (s.granted txnId key).lockTable.lookup q =
      if q = key then some ⟨some .exclusive,{txnId},[]⟩ else s.lockTable.lookup q := lookup_setEntry s key q _

theorem txnLocks_granted (txnId : Nat) (key : Bytes) (a : Nat) :
    (s.granted txnId key).txnLocks.lookup a =
      if a = txnId then some (let keys := (s.txnLocks.lookup txnId).getD []; if key ∈ keys then keys else key::keys)
      else s.txnLocks.lookup a := lookup_insert_eq ..

variable {s}

theorem Exclusive.unique {a b : Nat} {key : Bytes} (hs : s.Exclusive) (ha : s.Holds a key) (hb : s.Holds b key) : a = b := by
  obtain ⟨e,he,ha⟩ := ha
  obtain ⟨e',he',hb⟩ := hb
  cases he.symm.trans he'
  exact (hs key e he).2.1 a ha b hb

section

variable (hs : s.Exclusive) (txnId : Nat)
include hs

/-- An exclusive lock is refused, was held before, or is new. -/
theorem acquire_cases (key : Bytes) :
    (∃ e, s.acquire txnId key .exclusive = (s,.error e)) ∨
    (s.Holds txnId key ∧ s.acquire txnId key .exclusive = (s,.ok ())) ∨
    (∀ t, ¬ s.Holds t key) ∧ ∃ s', s.acquire txnId key .exclusive = (s',.ok ()) ∧
      (∀ q, s'.lockTable.lookup q = (s.granted txnId key).lockTable.lookup q) ∧
      ∀ a, s'.txnLocks.lookup a = (s.granted txnId key).txnLocks.lookup a := by
  unfold acquire Holds
  cases hl : s.lockTable.lookup key with
  | none =>
    dsimp only
    split_ifs with hlimit
    · exact .inl ⟨_,rfl⟩
    · refine .inr (.inr ⟨nofun,_,rfl,fun q => ?_,fun a => rfl⟩)
      change ((s.setEntry key .new).granted txnId key).lockTable.lookup q = _
      rw [lookup_granted,lookup_granted,lookup_setEntry]
      split_ifs <;> rfl
  | some e =>
    obtain ⟨hq,-,hmode⟩ := hs key e hl
    unfold tryGrantImmediate
    dsimp only
    by_cases hempty : e.holders = ∅
    · refine .inr (.inr ⟨by simp [hempty],?_⟩)
      rw [if_pos hempty,hq]
      exact ⟨_,rfl,fun q => rfl,fun a => rfl⟩
    · obtain ⟨a,ha⟩ := Finset.nonempty_iff_ne_empty.mpr hempty
      rw [if_neg hempty,hmode a ha]
      by_cases hmem : txnId ∈ e.holders
      · rw [if_pos hmem]
        exact .inr (.inl ⟨⟨e,rfl,hmem⟩,rfl⟩)
      · rw [if_neg hmem]
        exact .inl ⟨.lockTimeout,by simp [LockMode.isCompatible]⟩

theorem acquire_exclusive (key : Bytes) :
    (s.acquire txnId key .exclusive).1.Exclusive ∧
    (∀ t q, s.Holds t q → (s.acquire txnId key .exclusive).1.Holds t q) ∧
    ((s.acquire txnId key .exclusive).2 = .ok () →
      (s.acquire txnId key .exclusive).1.Holds txnId key ∧
      ∀ t, (s.acquire txnId key .exclusive).1.Holds t key → t = txnId) := by
  rcases acquire_cases hs txnId key with ⟨e,heq⟩ | ⟨hheld,heq⟩ | ⟨hfree,s',heq,htable,-⟩ <;> rw [heq]
  · exact ⟨hs,fun _ _ h => h,nofun⟩
  · exact ⟨hs,fun _ _ h => h,fun _ => ⟨hheld,fun t ht => hs.unique ht hheld⟩⟩
  · have hhere : s'.lockTable.lookup key = some ⟨some .exclusive,{txnId},[]⟩ := by rw [htable,lookup_granted,if_pos rfl]
    have hother : ∀ q, q ≠ key → s'.lockTable.lookup q = s.lockTable.lookup q := fun q hq => by
      rw [htable,lookup_granted,if_neg hq]
    refine ⟨fun q e he => ?_,?_,fun _ => ⟨⟨_,hhere,mem_singleton_self _⟩,?_⟩⟩
    · by_cases hq : q = key
      · cases (hq ▸ he).symm.trans hhere
        simp
      · exact hs q e (hother q hq ▸ he)
    · rintro t q ⟨e,he,ht⟩
      by_cases hq : q = key
      · exact (hfree t (hq ▸ ⟨e,he,ht⟩)).elim
      · exact ⟨e,(hother q hq).trans he,ht⟩
    · rintro t ⟨e,he,ht⟩
      cases he.symm.trans hhere
      exact mem_singleton.mp ht

private theorem lookup_releaseKey (key q : Bytes) :
    (s.releaseKey txnId key).txnLocks = s.txnLocks ∧
      (q = key ∧ s.Holds txnId key ∧ (s.releaseKey txnId key).lockTable.lookup q = none ∨
        ¬(q = key ∧ s.Holds txnId key) ∧ (s.releaseKey txnId key).lockTable.lookup q = s.lockTable.lookup q) := by
  unfold releaseKey Holds
  cases hl : s.lockTable.lookup key with
  | none => simp
  | some e =>
    obtain ⟨hq,huniq,-⟩ := hs key e hl
    by_cases hmem : txnId ∈ e.holders
    · -- the caller was the only holder, so the entry goes away
      have herase : e.holders.erase txnId = ∅ := by
        ext a
        simp only [Finset.mem_erase,Finset.notMem_empty,iff_false,not_and]
        exact fun hne ha => hne (huniq a ha txnId hmem)
      simp only [if_pos hmem,herase,if_true,hq,grantWaiters,foldl_nil,
        LockEntry.isEmpty,decide_true,isEmpty_nil,Bool.and_self]
      refine ⟨rfl,?_⟩
      by_cases hqk : q = key
      · subst hqk
        exact .inl ⟨rfl,⟨e,rfl,hmem⟩,lookup_erase _ _⟩
      · exact .inr ⟨fun h => hqk h.1,by rw [lookup_erase_ne hqk,lookup_setEntry,if_neg hqk]⟩
    · simp [hmem]

private theorem lookup_releaseKeys (keys : List Bytes) (q : Bytes) :
    let s' := keys.foldl (fun st key => st.releaseKey txnId key) s
    s'.txnLocks = s.txnLocks ∧ (q ∈ keys ∧ s.Holds txnId q ∧ s'.lockTable.lookup q = none ∨
      ¬(q ∈ keys ∧ s.Holds txnId q) ∧ s'.lockTable.lookup q = s.lockTable.lookup q) := by
  induction keys generalizing s with
  | nil => simp
  | cons key keys ih =>
    have hkey := lookup_releaseKey hs txnId key
    have hs' : (s.releaseKey txnId key).Exclusive := by
      intro p e he
      rcases (hkey p).2 with ⟨-,-,hnone⟩ | ⟨-,hsame⟩
      · cases hnone.symm.trans he
      · exact hs p e (hsame ▸ he)
    obtain ⟨hlocks,hcases⟩ := ih hs'
    refine ⟨hlocks.trans (hkey q).1,?_⟩
    rw [foldl_cons]
    rcases (hkey q).2 with ⟨rfl,hheld,hnone⟩ | ⟨hnot,hsame⟩
    · refine .inl ⟨mem_cons_self,hheld,?_⟩
      rcases hcases with ⟨-,-,hgone⟩ | ⟨-,hkept⟩
      · exact hgone
      · exact hkept.trans hnone
    · have hiff : (s.releaseKey txnId key).Holds txnId q ↔ s.Holds txnId q := by rw [Holds,hsame,Holds]
      rw [hiff,hsame] at hcases
      rcases hcases with ⟨hmem,hheld,hgone⟩ | ⟨hother,hkept⟩
      · exact .inl ⟨mem_cons_of_mem _ hmem,hheld,hgone⟩
      · refine .inr ⟨?_,hkept⟩
        rintro ⟨hmem,hheld⟩
        rcases mem_cons.mp hmem with rfl | hmem
        · exact hnot ⟨rfl,hheld⟩
        · exact hother ⟨hmem,hheld⟩

private theorem lookup_releaseAll (q : Bytes) : (s.releaseAll txnId).txnLocks = s.txnLocks.erase txnId ∧
    (q ∈ (s.txnLocks.lookup txnId).getD [] ∧ s.Holds txnId q ∧ (s.releaseAll txnId).lockTable.lookup q = none ∨
      ¬(q ∈ (s.txnLocks.lookup txnId).getD [] ∧ s.Holds txnId q) ∧
        (s.releaseAll txnId).lockTable.lookup q = s.lockTable.lookup q) :=
  lookup_releaseKeys (s := { s with txnLocks := s.txnLocks.erase txnId }) hs txnId _ q

private theorem lookup_of_releaseAll {q : Bytes} {e : LockEntry} (h : (s.releaseAll txnId).lockTable.lookup q = some e) :
    s.lockTable.lookup q = some e := by
  rcases (lookup_releaseAll hs txnId q).2 with ⟨-,-,hnone⟩ | ⟨-,hsame⟩
  · cases hnone.symm.trans h
  · exact hsame ▸ h

/-- Releasing a transaction's locks keeps the locks of every other one. -/
theorem releaseAll_spec : (s.releaseAll txnId).Exclusive ∧
    ∀ t q, t ≠ txnId → s.Holds t q → (s.releaseAll txnId).Holds t q := by
  refine ⟨fun q e he => hs q e (lookup_of_releaseAll hs txnId he),fun t q hne ht => ?_⟩
  rcases (lookup_releaseAll hs txnId q).2 with ⟨-,hheld,-⟩ | ⟨-,hsame⟩
  · exact (hne (hs.unique ht hheld)).elim
  · rwa [Holds,hsame]

end

/-- The table between whole calls, in full: every entry is an exclusive lock of one known transaction. -/
structure Tidy (s : LockState) (bound : Nat) : Prop where
  held : ∀ {key e}, s.lockTable.lookup key = some e → ∃ a < bound, e = ⟨some .exclusive,{a},[]⟩
  known : ∀ {a keys}, s.txnLocks.lookup a = some keys → a < bound

theorem Tidy.mono {bound' : Nat} (h : s.Tidy bound) (hle : bound ≤ bound') : s.Tidy bound' := by
  refine ⟨fun hl => ?_,fun hl => (h.known hl).trans_le hle⟩
  obtain ⟨a,ha,he⟩ := h.held hl
  exact ⟨a,ha.trans_le hle,he⟩

theorem tidy_new (bound : Nat) : new.Tidy bound := ⟨fun h => by simp [new] at h,fun h => by simp [new] at h⟩

theorem Tidy.exclusive (hs : s.Tidy bound) : s.Exclusive := by
  intro key e he
  obtain ⟨a,-,rfl⟩ := hs.held he
  simp

section

variable (hs : s.Tidy bound)
include hs

theorem Tidy.free {key : Bytes} (hfree : ∀ t, ¬ s.Holds t key) : s.lockTable.lookup key = none := by
  cases hl : s.lockTable.lookup key with
  | none => rfl
  | some e =>
    obtain ⟨a,-,rfl⟩ := hs.held hl
    exact (hfree a ⟨_,hl,mem_singleton_self a⟩).elim

variable (txnId : Nat)

theorem Tidy.acquire (ht : txnId < bound) (key : Bytes) :
    (s.acquire txnId key .exclusive).1.Tidy bound := by
  rcases acquire_cases hs.exclusive txnId key with ⟨e,heq⟩ | ⟨-,heq⟩ | ⟨-,s',heq,htable,hlocks⟩ <;> rw [heq]
  · exact hs
  · exact hs
  · refine ⟨fun {q e} hl => ?_,fun {a keys} hl => ?_⟩
    · rw [htable,lookup_granted] at hl
      split_ifs at hl
      · cases hl
        exact ⟨txnId,ht,rfl⟩
      · exact hs.held hl
    · rw [hlocks,txnLocks_granted] at hl
      split_ifs at hl with ha
      · exact ha ▸ ht
      · exact hs.known hl

theorem Tidy.releaseAll : (s.releaseAll txnId).Tidy bound := by
  refine ⟨fun hl => hs.held (lookup_of_releaseAll hs.exclusive txnId hl),fun {a keys} hl => ?_⟩
  rw [(lookup_releaseAll hs.exclusive txnId []).1] at hl
  exact hs.known (lookup_erase_cases hl).2

end

/-- The table after a transaction has taken locks on keys that nobody had. -/
structure Grown (s₀ : LockState) (txnId : Nat) (s : LockState) : Prop where
  table : ∀ q, s.lockTable.lookup q = s₀.lockTable.lookup q ∨
    (s₀.lockTable.lookup q = none ∧ s.lockTable.lookup q = some ⟨some .exclusive,{txnId},[]⟩ ∧
      q ∈ (s.txnLocks.lookup txnId).getD [])
  others : ∀ a, a ≠ txnId → s.txnLocks.lookup a = s₀.txnLocks.lookup a

theorem Grown.refl (s : LockState) (txnId : Nat) : Grown s txnId s := ⟨fun _ => .inl rfl,fun _ _ => rfl⟩

theorem Grown.acquire (h : Grown s₀ txnId s) (hs : s.Tidy bound) (key : Bytes) :
    Grown s₀ txnId (s.acquire txnId key .exclusive).1 := by
  rcases acquire_cases hs.exclusive txnId key with ⟨e,heq⟩ | ⟨-,heq⟩ | ⟨hfree,s',heq,htable,hlocks⟩ <;> rw [heq]
  · exact h
  · exact h
  · refine ⟨fun q => ?_,fun a ha => ?_⟩
    · rw [htable,lookup_granted,hlocks,txnLocks_granted,if_pos rfl]
      by_cases hq : q = key
      · subst hq
        refine .inr ⟨?_,if_pos rfl,?_⟩
        · exact (h.table q).elim (fun hsame => hsame ▸ hs.free hfree) And.left
        · dsimp only [getD_some]
          split_ifs with hmem
          · exact hmem
          · exact mem_cons_self
      · rw [if_neg hq]
        refine (h.table q).imp id fun ⟨hfree,hheld,hmem⟩ => ⟨hfree,hheld,?_⟩
        dsimp only [getD_some]
        split_ifs
        · exact hmem
        · exact mem_cons_of_mem _ hmem
    · rw [hlocks,txnLocks_granted,if_neg ha]
      exact h.others a ha

/-- When such a transaction gives its locks back, the table is as it was. -/
theorem Grown.released (h : Grown s₀ txnId s) (hs₀ : s₀.Tidy txnId) (hs : s.Tidy bound) :
    (∀ q, (s.releaseAll txnId).lockTable.lookup q = s₀.lockTable.lookup q) ∧
      ∀ a, (s.releaseAll txnId).txnLocks.lookup a = s₀.txnLocks.lookup a := by
  constructor
  · intro q
    rcases (lookup_releaseAll hs.exclusive txnId q).2 with ⟨-,⟨e,he,hin⟩,hnone⟩ | ⟨hnot,hkept⟩
    · rw [hnone]
      rcases h.table q with hsame | ⟨hfree,-⟩
      · -- an older entry is of an older transaction
        obtain ⟨a,ha,rfl⟩ := hs₀.held (hsame ▸ he)
        exact absurd (mem_singleton.mp hin) ha.ne'
      · exact hfree.symm
    · rw [hkept]
      rcases h.table q with hsame | ⟨-,hheld,hmem⟩
      · exact hsame
      · exact (hnot ⟨hmem,_,hheld,mem_singleton_self _⟩).elim
  · intro a
    rw [(lookup_releaseAll hs.exclusive txnId []).1]
    rw [lookup_erase_eq]
    split_ifs with ha
    · cases hl : s₀.txnLocks.lookup a with
      | none => rfl
      | some keys => exact absurd (hs₀.known hl) ha.not_lt
    · exact h.others a ha

/-- A new transaction that asks for any keys and then gives all its locks back leaves the table as it was, whether it got
the keys or not. -/
theorem releaseAll_undoes {s : LockState} {txnId : Nat} (hs : s.Tidy txnId) (keys : List Bytes) :
    let asked := keys.foldl (fun s key => (s.acquire txnId key .exclusive).1) s
    (∀ q, (asked.releaseAll txnId).lockTable.lookup q = s.lockTable.lookup q) ∧
      ∀ a, (asked.releaseAll txnId).txnLocks.lookup a = s.txnLocks.lookup a := by
  have hrun (s' : LockState) (hgrown : Grown s txnId s') (htidy : s'.Tidy (txnId + 1)) :
      let asked := keys.foldl (fun s key => (s.acquire txnId key .exclusive).1) s'
      Grown s txnId asked ∧ asked.Tidy (txnId + 1) := by
    induction keys generalizing s' with
    | nil => exact ⟨hgrown,htidy⟩
    | cons key keys ih => exact ih _ (hgrown.acquire htidy key) (htidy.acquire txnId txnId.lt_succ_self key)
  obtain ⟨hgrown,htidy⟩ := hrun s (.refl s txnId) (hs.mono txnId.le_succ)
  exact hgrown.released hs htidy

private def heldByOlder : LockState := (new.acquire 1 [1] .exclusive).1

/-- The key of an older transaction is refused, a free key is taken twice, and what is left is the lock of the older one. -/
theorem releaseAll_undoes_refused :
    (heldByOlder.acquire 2 [1] .exclusive).2 ≠ .ok () ∧
      ((((heldByOlder.acquire 2 [2] .exclusive).1.acquire 2 [1] .exclusive).1.acquire 2 [2] .exclusive).1.releaseAll 2).lockTable.lookup
        [1] = heldByOlder.lockTable.lookup [1] ∧
      heldByOlder.lockTable.lookup [1] ≠ none :=
  ⟨by decide,(releaseAll_undoes ((tidy_new 2).acquire 1 (by decide) [1]) [[2],[1],[2]]).1 [1],by decide⟩

end LockState
end InterchangeDb
