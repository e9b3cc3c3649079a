import InterchangeDb.Lib.Run
import InterchangeDb.Txn.LockManager

/-! The lock table under concurrent calls. One step is one section under the mutex. -/
namespace InterchangeDb

abbrev WaitGraph := AList (fun _ : Nat => List Nat)

namespace WaitGraph

def addEdge (graph : WaitGraph) (waiter holder : Nat) : WaitGraph :=
  let holders := (graph.lookup waiter).getD []
  graph.insert waiter (if holder ∈ holders then holders else holders ++ [holder])

/-- Look at the neighbors of a node: an error carries the parents known when one of
them is the start. -/
def visit (start current : Nat) : List Nat → AList (fun _ : Nat => Nat) → List Nat →
    Except (AList (fun _ : Nat => Nat)) (AList (fun _ : Nat => Nat) × List Nat)
  | [], parent, queue => .ok (parent, queue)
  | neighbor::rest, parent, queue =>
    if neighbor = start then .error parent
    else if (parent.lookup neighbor).isSome then visit start current rest parent queue
    else visit start current rest (parent.insert neighbor current) (queue ++ [neighbor])

/-- Follow the parents back to the start. -/
def cycleFrom (parent : AList (fun _ : Nat => Nat)) (start : Nat) : Nat → Nat → Option (List Nat)
  | 0, _ => none
  | fuel+1, node =>
    if node = start then some [start]
    else (parent.lookup node).bind (fun p => (cycleFrom parent start fuel p).map (node :: ·))

def search (graph : WaitGraph) (start : Nat) : Nat → AList (fun _ : Nat => Nat) → List Nat →
    Option (Option (List Nat))
  | _, _, [] => some none
  -- the assertion on the number of iterations
  | 0, _, _::_ => none
  | fuel+1, parent, current::queue =>
    match graph.lookup current with
    | none => search graph start fuel parent queue
    | some neighbors =>
      match visit start current neighbors parent queue with
      | .error parent => (cycleFrom parent start (parent.keys.length+1) current).map some
      | .ok (parent,queue) => search graph start fuel parent queue

def maxBfsIterations : Nat := 65536

/-- Breadth-first search from the neighbors of the start back to it. -/
def detectCycle (graph : WaitGraph) (start : Nat) : Option (Option (List Nat)) :=
  match graph.lookup start with
  | none => some none
  | some neighbors =>
    graph.search start maxBfsIterations (neighbors.foldl (fun parent n => parent.insert n start) ∅) neighbors

end WaitGraph

/-- The members of a set in ascending order: the order in which a set is walked. -/
def ascending (s : Finset Nat) : List Nat :=
  Quot.liftOn s.val (List.insertionSort (· ≤ ·)) (fun a b h =>
    List.Perm.eq_of_pairwise (fun _ _ _ _ => Nat.le_antisymm) (List.pairwise_insertionSort _ a)
      (List.pairwise_insertionSort _ b)
      (((List.perm_insertionSort _ a).trans h).trans (List.perm_insertionSort _ b).symm))

namespace LockState

variable (s : LockState)

/-- Each waiter waits for each holder whose granted mode its request conflicts with. -/
def buildWaitForGraph : WaitGraph :=
  s.lockTable.entries.foldl (fun graph x =>
    match x.2.grantedMode with
    | none => graph
    | some grantedMode =>
      x.2.waitQueue.foldl (fun graph request =>
        if request.mode.isCompatible grantedMode then graph
        else (ascending x.2.holders).foldl (fun graph holderId =>
          if holderId = request.txnId then graph else graph.addEdge request.txnId holderId) graph) graph) ∅

/-- Take a waiter's own request off the queue again. -/
def removeRequest (key : Bytes) (flag : Nat) : LockState :=
  match s.lockTable.lookup key with
  | none => s
  | some entry =>
    let entry' := { entry with waitQueue := entry.waitQueue.filter (fun r => r.granted != flag) }
    if entry'.isEmpty then { s with lockTable := s.lockTable.erase key } else s.setEntry key entry'

def lockSet (txnId : Nat) : List Bytes := (s.txnLocks.lookup txnId).getD []

/-- Drop one key from the set of a transaction, and the set once it is empty. -/
def dropHold (txnId : Nat) (key : Bytes) : LockState :=
  match s.txnLocks.lookup txnId with
  | none => s
  | some keys =>
    let keys := keys.erase key
    { s with txnLocks := if keys = [] then s.txnLocks.erase txnId else s.txnLocks.insert txnId keys }

def release (txnId : Nat) (key : Bytes) : LockState :=
  (s.dropHold txnId key).releaseKey txnId key

/-- The requests that get the key when the transaction gives it up. -/
def handedOver (txnId : Nat) (key : Bytes) : List LockRequest :=
  match s.lockTable.lookup key with
  | none => []
  | some entry =>
    if txnId ∈ entry.holders then
      let holders := entry.holders.erase txnId
      let r := grantWaiters (if holders = ∅ then none else entry.grantedMode) holders entry.waitQueue
      entry.waitQueue.take (entry.waitQueue.length - r.1.waitQueue.length)
    else []

inductive AcquireResult where
  | granted
  | alreadyHeld
  | blocked
  | failed (e : Error)
  deriving DecidableEq

/-- Make sure that the key has an entry. -/
def openEntry (key : Bytes) : Option (LockState × LockEntry) :=
  match s.lockTable.lookup key with
  | some entry => some (s, entry)
  | none => if maxLockTableEntries ≤ s.lockTable.entries.length then none else some (s.setEntry key .new, .new)

/-- The section of acquire up to its first wait. -/
def startAcquire (flag txnId : Nat) (key : Bytes) (mode : LockMode) :
    Option (LockState × AcquireResult) :=
  match s.openEntry key with
  | none => some (s, .failed (.storageCorrupted "Lock table entry limit reached"))
  | some (s, entry) =>
    match s.tryGrantImmediate entry key txnId mode with
    | (s, .granted) => some (s, .granted)
    | (s, .alreadyHeld) => some (s, .alreadyHeld)
    | (s, .mustWait) =>
      let s := s.setEntry key { entry with waitQueue := entry.waitQueue ++ [⟨txnId, mode, flag⟩] }
      match s.buildWaitForGraph.detectCycle txnId with
      | none => none
      | some (some _) => some (s.removeRequest key flag, .failed (.deadlock txnId))
      | some none => some (s, .blocked)

end LockState

/-- The lock table, the threads blocked on it, and the strongest mode granted to each
holder since it got the key. -/
structure LockManager where
  state : LockState
  nextFlag : Nat
  /-- The flag and the key of every blocked call. -/
  waiting : List (Nat × Bytes)
  modes : Bytes → Nat → Option LockMode

inductive LockOp where
  | acquire (txnId : Nat) (key : Bytes) (mode : LockMode)
  /-- A blocked call looks at its flag before the deadline. -/
  | wake (flag : Nat)
  | timeout (flag : Nat)
  | release (txnId : Nat) (key : Bytes)
  | releaseAll (txnId : Nat)
  deriving DecidableEq

def LockMode.join : Option LockMode → LockMode → LockMode
  | some .exclusive, _ => .exclusive
  | _, mode => mode

namespace LockManager

def new : LockManager := ⟨.new, 0, [], fun _ _ => none⟩

def grant (modes : Nat → Option LockMode) (txnId : Nat) (mode : LockMode) : Nat → Option LockMode :=
  Function.update modes txnId (some (LockMode.join (modes txnId) mode))

/-- The modes on a key after the transaction gave it up to the requests in turn. -/
def handOver (modes : Nat → Option LockMode) (txnId : Nat) (requests : List LockRequest) : Nat → Option LockMode :=
  requests.foldl (fun modes r => grant modes r.txnId r.mode) (Function.update modes txnId none)

/-- One key given up, in the table and in the modes. -/
def giveUp (txnId : Nat) (x : LockState × (Bytes → Nat → Option LockMode)) (key : Bytes) :
    LockState × (Bytes → Nat → Option LockMode) :=
  (x.1.releaseKey txnId key,
    Function.update x.2 key (handOver (x.2 key) txnId (x.1.handedOver txnId key)))

/-- A blocked call's flag is set: only a granter takes its request off the queue. -/
def isGranted (m : LockManager) (flag : Nat) (key : Bytes) : Bool :=
  ((m.state.lockTable.lookup key).elim [] LockEntry.waitQueue).all (fun r => r.granted != flag)

def step (m : LockManager) : LockOp → Option LockManager
  | .acquire txnId key mode =>
    (m.state.startAcquire m.nextFlag txnId key mode).map (fun r =>
      match r.2 with
      | .granted =>
        { m with state := r.1, modes := Function.update m.modes key (grant (m.modes key) txnId mode) }
      | .blocked => { m with state := r.1, nextFlag := m.nextFlag + 1, waiting := (m.nextFlag, key)::m.waiting }
      | _ => { m with state := r.1 })
  | .wake flag =>
    (m.waiting.find? (fun w => w.1 == flag)).map (fun w =>
      if m.isGranted flag w.2 then { m with waiting := m.waiting.erase w } else m)
  | .timeout flag =>
    (m.waiting.find? (fun w => w.1 == flag)).map (fun w =>
      if m.isGranted flag w.2 then { m with waiting := m.waiting.erase w }
      else { m with state := m.state.removeRequest w.2 flag, waiting := m.waiting.erase w })
  | .release txnId key =>
    some { m with
      state := m.state.release txnId key
      modes := (giveUp txnId (m.state.dropHold txnId key, m.modes) key).2 }
  | .releaseAll txnId =>
    some { m with
      state := m.state.releaseAll txnId
      modes := ((m.state.lockSet txnId).foldl (giveUp txnId)
        ({ m.state with txnLocks := m.state.txnLocks.erase txnId }, m.modes)).2 }

end LockManager

open List AList Function

/-- A granted mode exactly with a holder, and one holder in exclusive mode. -/
structure LockEntry.Sound (e : LockEntry) : Prop where
  mode_none : e.grantedMode = none ↔ e.holders = ∅
  exclusive : e.grantedMode = some .exclusive → e.holders.card = 1

/-- The mode in which a transaction holds the key. -/
def LockEntry.modeOf (e : LockEntry) (txnId : Nat) : Option LockMode :=
  if txnId ∈ e.holders then e.grantedMode else none

namespace LockEntry
variable {e : LockEntry} {t : Nat} {modes : Nat → Option LockMode} {request : LockMode}

/-- What the table keeps of an entry. -/
def kept (e : LockEntry) : LockEntry := if e.isEmpty then .new else e

/-- A waiter has been granted the key. -/
def grantTo (e : LockEntry) (t : Nat) (mode : LockMode) : LockEntry :=
  ⟨some (if (insert t e.holders).card = 1 then mode else .shared), insert t e.holders, e.waitQueue⟩

/-- A holder has gone. -/
def leave (e : LockEntry) (t : Nat) : LockEntry :=
  ⟨if e.holders.erase t = ∅ then none else e.grantedMode, e.holders.erase t, e.waitQueue⟩

theorem Sound.kept (h : e.Sound) : e.kept.grantedMode = e.grantedMode ∧ e.kept.holders = e.holders := by
  unfold LockEntry.kept
  split_ifs with hempty
  · -- an entry that is dropped has no holder, so no mode
    simp only [isEmpty,Bool.and_eq_true,decide_eq_true_eq] at hempty
    exact ⟨(h.mode_none.mpr hempty.1).symm,hempty.1.symm⟩
  · exact ⟨rfl,rfl⟩

theorem Sound.leave (h : e.Sound) (ht : t ∈ e.holders) :
    (e.leave t).Sound ∧ (e.leave t).grantedMode ≠ some .exclusive := by
  have hleft : (e.leave t).grantedMode ≠ some .exclusive := by
    dsimp only [LockEntry.leave]
    split_ifs with hempty
    · simp
    · -- an exclusive key had no other holder
      intro hx
      obtain ⟨a,ha⟩ := Finset.card_eq_one.mp (h.exclusive hx)
      apply hempty
      rw [ha] at ht ⊢
      rw [Finset.mem_singleton.mp ht,Finset.erase_singleton]
  refine ⟨⟨?_,fun hx => (hleft hx).elim⟩,hleft⟩
  dsimp only [LockEntry.leave]
  split_ifs with hempty
  · simp [hempty]
  · simp only [hempty,iff_false]
    exact fun hnone => Finset.ne_empty_of_mem ht (h.mode_none.mp hnone)

theorem modeOf_leave (hmodes : ∀ u, modes u = e.modeOf u) (t u : Nat) :
    Function.update modes t none u = (e.leave t).modeOf u := by
  unfold modeOf leave
  by_cases hu : u = t
  · subst hu
    rw [update_self,if_neg (Finset.notMem_erase _ _)]
  · rw [update_of_ne hu,hmodes,modeOf]
    by_cases hmem : u ∈ e.holders
    · have hin : u ∈ e.holders.erase t := Finset.mem_erase.mpr ⟨hu,hmem⟩
      rw [if_pos hmem,if_pos hin,if_neg (Finset.ne_empty_of_mem hin)]
    · rw [if_neg hmem,if_neg (fun hin => hmem (Finset.mem_of_mem_erase hin))]

theorem Sound.grantTo (hmode : e.grantedMode ≠ some .exclusive) (hmodes : ∀ u, modes u = e.modeOf u)
    (hcan : e.holders = ∅ ∨ e.holders = {t} ∨ request = .shared ∧ e.grantedMode = some .shared) :
    (e.grantTo t request).Sound ∧ (∀ u, LockManager.grant modes t request u = (e.grantTo t request).modeOf u) ∧
    (request = .shared → (e.grantTo t request).grantedMode ≠ some .exclusive) := by
  -- the mode the transaction ends up with is the mode of the key
  have hjoin : LockMode.join (modes t) request = request := by
    rw [hmodes,modeOf]
    split_ifs with hmem
    · cases hm : e.grantedMode with
      | none => rfl
      | some m => cases m with
        | shared => rfl
        | exclusive => exact (hmode hm).elim
    · rfl
  have hkeep : (e.grantTo t request).grantedMode = some request ∧ ∀ u ∈ e.holders, u ≠ t → e.grantedMode = some request := by
    unfold LockEntry.grantTo
    rcases hcan with hfree | hsole | ⟨rfl,hshared⟩
    · simp [hfree]
    · refine ⟨by simp [hsole],fun u hu hne => ?_⟩
      rw [hsole] at hu
      exact (hne (mem_singleton.mp hu)).elim
    · exact ⟨by simp,fun _ _ _ => hshared⟩
  refine ⟨⟨by simp [LockEntry.grantTo],fun hx => ?_⟩,fun u => ?_,?_⟩
  · by_contra hcard
    simp only [LockEntry.grantTo] at hx hcard
    simp [hcard] at hx
  · rw [LockManager.grant,hjoin,modeOf,hkeep.1]
    by_cases hu : u = t
    · subst hu
      rw [update_self]
      exact (if_pos (Finset.mem_insert_self _ _)).symm
    · rw [update_of_ne hu,hmodes,modeOf]
      simp only [LockEntry.grantTo,Finset.mem_insert,hu,false_or]
      split_ifs with hmem
      · exact hkeep.2 u hmem hu
      · rfl
  · rintro rfl
    rw [hkeep.1]
    simp

end LockEntry

namespace LockState
variable {s s' : LockState} {key q : Bytes} {e : LockEntry} {txnId : Nat} {mode : Option LockMode}
  {holders : Finset Nat} {modes : Nat → Option LockMode} {leaving : Nat → Prop}

/-- The entry of a key; a key without one is free. -/
def entryOf (s : LockState) (key : Bytes) : LockEntry := (s.lockTable.lookup key).getD .new

theorem entryOf_eq (h : s.lockTable.lookup key = some e) : s.entryOf key = e := by
  rw [entryOf,h]
  rfl

theorem entryOf_setEntry (s : LockState) (key q : Bytes) (e : LockEntry) :
    (s.setEntry key e).entryOf q = if q = key then e else s.entryOf q := by
  unfold entryOf
  rw [lookup_setEntry]
  split_ifs <;> rfl

theorem entryOf_erase (s : LockState) (key q : Bytes) :
    ({ s with lockTable := s.lockTable.erase key } : LockState).entryOf q = if q = key then .new else s.entryOf q := by
  rw [entryOf,lookup_erase_eq]
  split_ifs <;> rfl

theorem holds_iff : s.Holds txnId key ↔ txnId ∈ (s.entryOf key).holders := by
  unfold Holds entryOf
  cases s.lockTable.lookup key with
  | none => simp [LockEntry.new]
  | some e => simp

private theorem lockSet_recordHold (s : LockState) (txnId u : Nat) (key : Bytes) :
    (s.recordHold txnId key).lockSet u =
      if u = txnId then (if key ∈ s.lockSet txnId then s.lockSet txnId else key::s.lockSet txnId) else s.lockSet u := by
  unfold lockSet recordHold
  rw [lookup_insert_eq]
  split_ifs <;> rfl

private theorem mem_lockSet_recordHold (s : LockState) (txnId u : Nat) (key q : Bytes) :
    q ∈ (s.recordHold txnId key).lockSet u ↔ q ∈ s.lockSet u ∨ u = txnId ∧ q = key := by
  rw [lockSet_recordHold]
  by_cases h : u = txnId
  · subst h
    by_cases hk : key ∈ s.lockSet u
    · simp only [if_true,if_pos hk,true_and]
      exact ⟨.inl,fun hq => hq.elim id (fun heq => heq ▸ hk)⟩
    · simp [if_neg hk,true_and,mem_cons,or_comm]
  · simp [h]

private theorem nodup_recordHold (h : ∀ t, (s.lockSet t).Nodup) (txnId : Nat) (key : Bytes) (t : Nat) :
    ((s.recordHold txnId key).lockSet t).Nodup := by
  rw [lockSet_recordHold]
  split_ifs with ht hmem
  · exact h txnId
  · exact nodup_cons.mpr ⟨hmem,h txnId⟩
  · exact h t

/-- What the table records for one key: a sound entry, the mode of every holder, and
the key in the lock set of exactly its holders, a transaction that is just giving it
up excepted. -/
structure KeyOk (s : LockState) (modes : Nat → Option LockMode) (key : Bytes) (leaving : Nat → Prop) : Prop where
  sound : (s.entryOf key).Sound
  modes : ∀ t, modes t = (s.entryOf key).modeOf t
  index : ∀ t, key ∈ s.lockSet t ↔ t ∈ (s.entryOf key).holders ∧ ¬ leaving t

theorem KeyOk.of_same (hsame : (s.entryOf key).grantedMode = e.grantedMode ∧ (s.entryOf key).holders = e.holders)
    (hs : e.Sound) (hm : ∀ t, modes t = e.modeOf t) (hi : ∀ t, key ∈ s.lockSet t ↔ t ∈ e.holders ∧ ¬leaving t) :
    s.KeyOk modes key leaving := by
  obtain ⟨hmode,hholders⟩ := hsame
  refine ⟨⟨?_,?_⟩,fun t => ?_,fun t => ?_⟩
  · rw [hmode,hholders]
    exact hs.mode_none
  · rw [hmode,hholders]
    exact hs.exclusive
  · rw [hm,LockEntry.modeOf,LockEntry.modeOf,hmode,hholders]
  · rw [hi,hholders]

theorem KeyOk.congr (h : s.KeyOk modes key leaving) (hset : ∀ t, key ∈ s'.lockSet t ↔ key ∈ s.lockSet t)
    (hsame : (s'.entryOf key).grantedMode = (s.entryOf key).grantedMode ∧ (s'.entryOf key).holders = (s.entryOf key).holders) :
    s'.KeyOk modes key leaving := .of_same hsame h.sound h.modes (fun t => (hset t).trans (h.index t))

theorem KeyOk.of_iff {leaving' : Nat → Prop}
    (h : s.KeyOk modes key leaving) (hl : ∀ t, leaving t ↔ leaving' t) : s.KeyOk modes key leaving' :=
  ⟨h.sound,h.modes,fun t => by rw [h.index,hl]⟩

/-- The test a waiter at the front of the queue has to pass. -/
def canGrant (mode : Option LockMode) (holders : Finset Nat) (front : LockRequest) : Bool :=
  if holders = ∅ then true
  else if decide (front.txnId ∈ holders) = true then decide (holders.card = 1)
  else mode.elim false front.mode.isCompatible

theorem canGrant_cases {front : LockRequest} (h : canGrant mode holders front = true) :
    holders = ∅ ∨ holders = {front.txnId} ∨ front.mode = .shared ∧ mode = some .shared := by
  unfold canGrant at h
  split_ifs at h with hempty hmem
  · exact .inl hempty
  · obtain ⟨a,ha⟩ := Finset.card_eq_one.mp (of_decide_eq_true h)
    have : front.txnId = a := by simpa [ha] using of_decide_eq_true hmem
    exact .inr (.inl (this ▸ ha))
  · cases mode with
    | none => cases h
    | some m =>
      have hcompat : front.mode.isCompatible m = true := h
      cases hf : front.mode <;> cases m <;> simp_all [LockMode.isCompatible]

/-- The walk over the waiters: it stops at a front it cannot grant, and behind an exclusive one. -/
theorem grantWaiters_rec {p : LockEntry → LockEntry × List Nat × Bool → Prop}
    (stop : ∀ e : LockEntry, (∀ r ∈ e.waitQueue.head?, canGrant e.grantedMode e.holders r = false) → p e (e,[],false))
    (last : ∀ (e : LockEntry) r, canGrant e.grantedMode e.holders r = true → r.mode = .exclusive →
      p { e with waitQueue := r::e.waitQueue } (e.grantTo r.txnId r.mode,if r.txnId ∈ e.holders then [] else [r.txnId],true))
    (more : ∀ (e : LockEntry) r x, canGrant e.grantedMode e.holders r = true → r.mode = .shared → p (e.grantTo r.txnId r.mode) x →
      p { e with waitQueue := r::e.waitQueue } (x.1,(if r.txnId ∈ e.holders then [] else [r.txnId]) ++ x.2.1,true))
    (mode : Option LockMode) (holders : Finset Nat) (queue : List LockRequest) :
    p ⟨mode,holders,queue⟩ (grantWaiters mode holders queue) := by
  induction queue generalizing mode holders with
  | nil => exact stop ⟨mode,holders,[]⟩ nofun
  | cons r rest ih =>
    have hset : (if r.txnId ∈ holders then holders else insert r.txnId holders) = insert r.txnId holders := by
      split_ifs with hmem
      · exact (Finset.insert_eq_of_mem hmem).symm
      · rfl
    change p _ (if canGrant mode holders r = true then _ else _)
    by_cases hgrant : canGrant mode holders r = true
    · simp only [if_pos hgrant,decide_eq_true_eq,hset]
      by_cases hx : r.mode = .exclusive
      · rw [if_pos hx]
        exact last ⟨mode,holders,rest⟩ r hgrant hx
      · rw [if_neg hx]
        have hshared : r.mode = .shared := by cases h : r.mode <;> simp_all
        exact more ⟨mode,holders,rest⟩ r _ hgrant hshared (ih _ _)
    · rw [if_neg hgrant]
      refine stop ⟨mode,holders,r::rest⟩ (fun x hx => ?_)
      cases hx
      exact eq_false_of_ne_true hgrant

private theorem mem_insert_new (holders : Finset Nat) (a t : Nat) :
    t ∈ insert a holders ↔ t ∈ holders ∨ t ∈ (if a ∈ holders then [] else [a]) := by
  split_ifs with hmem
  · rw [Finset.insert_eq_of_mem hmem]
    simp
  · simp [or_comm]

private theorem grantWaiters_spec (hs : e.Sound) (hmode : e.grantedMode ≠ some .exclusive)
    (hmodes : ∀ t, modes t = e.modeOf t) :
    let r := grantWaiters e.grantedMode e.holders e.waitQueue
    ∃ popped, e.waitQueue = popped ++ r.1.waitQueue ∧ r.1.Sound ∧
      (∀ t, popped.foldl (fun modes r => LockManager.grant modes r.txnId r.mode) modes t = r.1.modeOf t) ∧
      ∀ t, t ∈ r.1.holders ↔ t ∈ e.holders ∨ t ∈ r.2.1 := by
  refine grantWaiters_rec (p := fun e r => ∀ modes, e.Sound → e.grantedMode ≠ some .exclusive → (∀ t, modes t = e.modeOf t) →
    ∃ popped, e.waitQueue = popped ++ r.1.waitQueue ∧ r.1.Sound ∧
      (∀ t, popped.foldl (fun modes r => LockManager.grant modes r.txnId r.mode) modes t = r.1.modeOf t) ∧
      ∀ t, t ∈ r.1.holders ↔ t ∈ e.holders ∨ t ∈ r.2.1) ?_ ?_ ?_ _ _ _ modes hs hmode hmodes
  · exact fun e _ modes hs _ hmodes => ⟨[],rfl,hs,hmodes,by simp⟩
  · intro e r hcan _ modes _ hmode hmodes
    obtain ⟨hs',hmodes',-⟩ := LockEntry.Sound.grantTo (e := e) hmode hmodes (canGrant_cases hcan)
    exact ⟨[r],rfl,hs',hmodes',mem_insert_new _ _⟩
  · intro e r x hcan hshared ih modes _ hmode hmodes
    obtain ⟨hs',hmodes',hnext⟩ := LockEntry.Sound.grantTo (e := e) hmode hmodes (canGrant_cases hcan)
    obtain ⟨popped,hq,hs'',hm,hh⟩ := ih _ hs' (hnext hshared) hmodes'
    refine ⟨r::popped,congrArg _ hq,hs'',hm,fun t => ?_⟩
    rw [hh,LockEntry.grantTo,mem_insert_new,mem_append,or_assoc]

private theorem mem_grantWaiters (e : LockEntry) {t : Nat}
    (h : t ∈ (grantWaiters e.grantedMode e.holders e.waitQueue).1.holders) : t ∈ e.holders ∨ ∃ r ∈ e.waitQueue, r.txnId = t := by
  refine grantWaiters_rec (p := fun e x => t ∈ x.1.holders → t ∈ e.holders ∨ ∃ r ∈ e.waitQueue, r.txnId = t) ?_ ?_ ?_ _ _ _ h
  · exact fun e _ => .inl
  · intro e r _ _ ht
    rcases Finset.mem_insert.mp ht with rfl | ht
    · exact .inr ⟨r,mem_cons_self,rfl⟩
    · exact .inl ht
  · intro e r x _ _ ih ht
    rcases ih ht with ht | ⟨y,hy,hyt⟩
    · rcases Finset.mem_insert.mp ht with rfl | ht
      · exact .inr ⟨r,mem_cons_self,rfl⟩
      · exact .inl ht
    · exact .inr ⟨y,mem_cons_of_mem _ hy,hyt⟩

private theorem foldl_recordHold (key : Bytes) (ts : List Nat) (s : LockState) :
    (ts.foldl (fun st t => st.recordHold t key) s).lockTable = s.lockTable ∧
    (∀ u q, q ∈ (ts.foldl (fun st t => st.recordHold t key) s).lockSet u ↔ q ∈ s.lockSet u ∨ u ∈ ts ∧ q = key) ∧
    ((∀ u, (s.lockSet u).Nodup) → ∀ u, ((ts.foldl (fun st t => st.recordHold t key) s).lockSet u).Nodup) := by
  induction ts generalizing s with
  | nil => exact ⟨rfl,by simp,id⟩
  | cons t ts ih =>
    obtain ⟨htable,hmem,hnodup⟩ := ih (s.recordHold t key)
    refine ⟨htable,fun u q => ?_,fun h => hnodup (nodup_recordHold h t key)⟩
    rw [foldl_cons,hmem,mem_lockSet_recordHold,or_assoc,← or_and_right,mem_cons]

/-- The waiters served when a holder gives the key up. -/
def served (e : LockEntry) (txnId : Nat) : LockEntry × List Nat × Bool :=
  grantWaiters (e.leave txnId).grantedMode (e.leave txnId).holders (e.leave txnId).waitQueue

/-- What giving up a key does to its entry. -/
theorem releaseKey_cases (s : LockState) (txnId : Nat) (key : Bytes) :
    (txnId ∉ (s.entryOf key).holders ∧ s.releaseKey txnId key = s ∧ s.handedOver txnId key = []) ∨
    txnId ∈ (s.entryOf key).holders ∧
      s.handedOver txnId key = (s.entryOf key).waitQueue.take
        ((s.entryOf key).waitQueue.length - (served (s.entryOf key) txnId).1.waitQueue.length) ∧
      (∀ q, (s.releaseKey txnId key).entryOf q = if q = key then (served (s.entryOf key) txnId).1.kept else s.entryOf q) ∧
      (∀ u q, q ∈ (s.releaseKey txnId key).lockSet u ↔ q ∈ s.lockSet u ∨ u ∈ (served (s.entryOf key) txnId).2.1 ∧ q = key) ∧
      ((∀ u, (s.lockSet u).Nodup) → ∀ u, ((s.releaseKey txnId key).lockSet u).Nodup) := by
  cases hk : s.lockTable.lookup key with
  | none =>
    left
    simp [releaseKey,handedOver,entryOf,hk,LockEntry.new]
  | some e =>
    rw [entryOf_eq hk]
    by_cases hmem : txnId ∈ e.holders
    · refine .inr ⟨hmem,?_⟩
      simp only [releaseKey,handedOver,hk,if_pos hmem,served,LockEntry.leave]
      generalize grantWaiters _ _ e.waitQueue = r
      obtain ⟨htable,hset,hnodup⟩ := foldl_recordHold key r.2.1 (s.setEntry key r.1)
      generalize r.2.1.foldl (fun st t => st.recordHold t key) (s.setEntry key r.1) = s' at htable hset hnodup
      have hentry : ∀ q, s'.entryOf q = if q = key then r.1 else s.entryOf q := by
        intro q
        rw [← entryOf_setEntry,entryOf,htable,entryOf]
      refine ⟨trivial,fun q => ?_,?_⟩
      · rw [LockEntry.kept]
        split_ifs with hempty hq hq
        · rw [entryOf_erase,if_pos hq]
        · rw [entryOf_erase,if_neg hq,hentry,if_neg hq]
        · rw [hentry,if_pos hq]
        · rw [hentry,if_neg hq]
      · split_ifs with hempty
        · exact ⟨hset,hnodup⟩
        · exact ⟨hset,hnodup⟩
    · left
      simp [releaseKey,handedOver,hk,hmem]

theorem entryOf_giveUp_other (s : LockState) (txnId : Nat) (hq : q ≠ key) :
    (s.releaseKey txnId key).entryOf q = s.entryOf q := by
  rcases releaseKey_cases s txnId key with ⟨-,hsame,-⟩ | ⟨-,-,hentry,-,-⟩
  · rw [hsame]
  · rw [hentry,if_neg hq]

private theorem nodup_releaseKey (h : ∀ t, (s.lockSet t).Nodup) (txnId : Nat) (key : Bytes) :
    ∀ t, ((s.releaseKey txnId key).lockSet t).Nodup := by
  rcases releaseKey_cases s txnId key with ⟨-,hsame,-⟩ | ⟨-,-,-,-,hnodup⟩
  · rwa [hsame]
  · exact hnodup h

theorem KeyOk.giveUp (h : s.KeyOk modes key (· = txnId)) :
    (s.releaseKey txnId key).KeyOk (LockManager.handOver modes txnId (s.handedOver txnId key)) key (fun _ => False) := by
  rcases releaseKey_cases s txnId key with ⟨hnot,hsame,hover⟩ | ⟨hmem,hover,hentry,hset,-⟩
  · have hnone : update modes txnId none = modes := by
      rw [update_eq_self_iff,h.modes]
      exact (if_neg hnot).symm
    rw [hsame,hover,LockManager.handOver,foldl_nil,hnone]
    refine ⟨h.sound,h.modes,fun t => ?_⟩
    rw [h.index,not_false_eq_true,and_true,and_iff_left_iff_imp]
    exact fun hold heq => hnot (heq ▸ hold)
  · obtain ⟨hsound',hleft⟩ := h.sound.leave hmem
    obtain ⟨popped,hq,hs,hm,hh⟩ := grantWaiters_spec hsound' hleft (LockEntry.modeOf_leave h.modes txnId)
    change (s.entryOf key).waitQueue = _ at hq
    rw [← served] at hq hs hm hh
    have hpopped : s.handedOver txnId key = popped := by
      rw [hover,hq]
      simp
    refine .of_same (e := (served (s.entryOf key) txnId).1) ?_ hs (hpopped ▸ hm) (fun t => ?_)
    · rw [hentry,if_pos rfl]
      exact hs.kept
    · rw [hset,h.index,hh,LockEntry.leave,Finset.mem_erase]
      simp only [not_false_eq_true,and_true]
      tauto

theorem KeyOk.giveUp_other (h : s.KeyOk modes q leaving) (hne : q ≠ key) (txnId : Nat) :
    (s.releaseKey txnId key).KeyOk modes q leaving := by
  rcases releaseKey_cases s txnId key with ⟨-,hsame,-⟩ | ⟨-,-,hentry,hset,-⟩
  · rw [hsame]
    exact h
  · refine h.congr (fun t => by simp [hset,hne]) ?_
    rw [hentry,if_neg hne]
    exact ⟨rfl,rfl⟩

private theorem KeyOk.giveUp_all (keys : List Bytes) (hkeys : keys.Nodup)
    (x : LockState × (Bytes → Nat → Option LockMode))
    (h : ∀ q, x.1.KeyOk (x.2 q) q (fun u => u = txnId ∧ q ∈ keys)) (q : Bytes) :
    (keys.foldl (LockManager.giveUp txnId) x).1.KeyOk ((keys.foldl (LockManager.giveUp txnId) x).2 q) q
      (fun _ => False) := by
  induction keys generalizing x with
  | nil => simpa using h q
  | cons key keys ih =>
    obtain ⟨hkey,hkeys⟩ := nodup_cons.mp hkeys
    rw [foldl_cons]
    refine ih hkeys _ (fun p => ?_)
    by_cases hp : p = key
    · subst hp
      have hgive := ((h p).of_iff (fun u => and_iff_left mem_cons_self)).giveUp
      simp only [LockManager.giveUp,update_self]
      exact hgive.of_iff (fun u => by simp [hkey])
    · have hother := (h p).giveUp_other hp txnId
      simp only [LockManager.giveUp,update_of_ne hp]
      exact hother.of_iff (fun u => by simp [hp])

theorem fst_foldl_giveUp (txnId : Nat) (keys : List Bytes) (x : LockState × (Bytes → Nat → Option LockMode)) :
    (keys.foldl (LockManager.giveUp txnId) x).1 = keys.foldl (fun st key => st.releaseKey txnId key) x.1 := by
  induction keys generalizing x with
  | nil => rfl
  | cons key keys ih => exact ih _

theorem openEntry_eq_some (h : s.openEntry key = some (s',e)) :
    s'.entryOf key = e ∧ (∀ q, s'.entryOf q = s.entryOf q) ∧ s'.txnLocks = s.txnLocks := by
  unfold openEntry at h
  split at h
  · next hk =>
    cases h
    exact ⟨entryOf_eq hk,fun _ => rfl,rfl⟩
  · next hk =>
    split_ifs at h
    cases h
    refine ⟨by rw [entryOf_setEntry,if_pos rfl],fun q => ?_,rfl⟩
    rw [entryOf_setEntry]
    split_ifs with hq
    · rw [hq,entryOf,hk]
      rfl
    · rfl

/-- A request is granted at once like a waiter, or it changes nothing. -/
theorem tryGrantImmediate_cases (s : LockState) (e : LockEntry) (key : Bytes) (txnId : Nat) (mode : LockMode) :
    (e.holders = ∅ ∨ e.holders = {txnId} ∧ e.grantedMode = some .shared ∨ mode = .shared ∧ e.grantedMode = some .shared) ∧
      (∃ s', s.tryGrantImmediate e key txnId mode = (s',.granted) ∧
        (s' = (s.setEntry key (e.grantTo txnId mode)).recordHold txnId key ∨
          txnId ∈ e.holders ∧ s' = s.setEntry key (e.grantTo txnId mode))) ∨
    s.tryGrantImmediate e key txnId mode = (s,.alreadyHeld) ∨ s.tryGrantImmediate e key txnId mode = (s,.mustWait) := by
  unfold tryGrantImmediate LockEntry.grantTo
  by_cases hempty : e.holders = ∅
  · exact .inl ⟨.inl hempty,_,if_pos hempty,.inl (by simp [hempty])⟩
  · rw [if_neg hempty]
    by_cases hmem : txnId ∈ e.holders
    · rw [if_pos hmem]
      split
      · next hshared =>
        by_cases hcard : e.holders.card = 1
        · obtain ⟨a,ha⟩ := Finset.card_eq_one.mp hcard
          obtain rfl : txnId = a := by simpa [ha] using hmem
          exact .inl ⟨.inr (.inl ⟨ha,hshared⟩),_,if_pos hcard,.inr ⟨hmem,by simp [ha]⟩⟩
        · exact .inr (.inr (if_neg hcard))
      · exact .inr (.inl rfl)
    · rw [if_neg hmem]
      by_cases hfree : (e.waitQueue.isEmpty && e.grantedMode.elim false mode.isCompatible) = true
      · rw [if_pos hfree]
        obtain ⟨-,hcompat⟩ := Bool.and_eq_true_iff.mp hfree
        have hshared : mode = .shared ∧ e.grantedMode = some .shared := by
          cases hm : e.grantedMode with
          | none => simp [hm] at hcompat
          | some m => cases mode <;> cases m <;> simp_all [LockMode.isCompatible]
        exact .inl ⟨.inr (.inr hshared),_,rfl,.inl (by simp [hshared])⟩
      · exact .inr (.inr (if_neg hfree))

theorem tryGrantImmediate_entry {mode : LockMode} (h : s.tryGrantImmediate e key txnId mode = (s',.granted)) :
    (e.holders = ∅ ∨ e.holders = {txnId} ∧ e.grantedMode = some .shared ∨ mode = .shared ∧ e.grantedMode = some .shared) ∧
    ∀ q, s'.entryOf q = if q = key then e.grantTo txnId mode else s.entryOf q := by
  have hset := fun q => entryOf_setEntry s key q (e.grantTo txnId mode)
  rcases tryGrantImmediate_cases s e key txnId mode with ⟨hcan,s₁,heq,hs₁⟩ | heq | heq <;> cases heq.symm.trans h
  rcases hs₁ with rfl | ⟨-,rfl⟩
  · exact ⟨hcan,hset⟩
  · exact ⟨hcan,hset⟩

theorem tryGrantImmediate_lockSet {mode : LockMode} (hin : txnId ∈ e.holders → key ∈ s.lockSet txnId)
    (h : s.tryGrantImmediate e key txnId mode = (s',.granted)) :
    (∀ u q, q ∈ s'.lockSet u ↔ q ∈ s.lockSet u ∨ u = txnId ∧ q = key) ∧
    ((∀ u, (s.lockSet u).Nodup) → ∀ u, (s'.lockSet u).Nodup) := by
  rcases tryGrantImmediate_cases s e key txnId mode with ⟨-,s₁,heq,hs₁⟩ | heq | heq <;> cases heq.symm.trans h
  rcases hs₁ with rfl | ⟨hmem,rfl⟩
  · exact ⟨fun u q => mem_lockSet_recordHold _ _ _ _ _,fun hn => nodup_recordHold (s := s.setEntry key _) hn _ _⟩
  · -- an upgrade: the key is in the set already
    refine ⟨fun u q => ⟨.inl,fun hq => hq.elim id ?_⟩,id⟩
    rintro ⟨rfl,rfl⟩
    exact hin hmem

theorem entryOf_removeRequest (s : LockState) (key : Bytes) (flag : Nat) (q : Bytes) :
    (s.removeRequest key flag).entryOf q = if q = key then LockEntry.kept { s.entryOf key with
      waitQueue := (s.entryOf key).waitQueue.filter (fun r => r.granted != flag) } else s.entryOf q := by
  unfold removeRequest
  cases hk : s.lockTable.lookup key with
  | none =>
    split_ifs with hq
    · rw [hq,entryOf,hk]
      rfl
    · rfl
  | some e =>
    rw [entryOf_eq hk,LockEntry.kept]
    dsimp only
    split_ifs with hempty hq hq
    · rw [entryOf_erase,if_pos hq]
    · rw [entryOf_erase,if_neg hq]
    · rw [entryOf_setEntry,if_pos hq]
    · rw [entryOf_setEntry,if_neg hq]

private theorem txnLocks_removeRequest (s : LockState) (key : Bytes) (flag : Nat) :
    (s.removeRequest key flag).txnLocks = s.txnLocks := by
  unfold removeRequest
  split
  · rfl
  · dsimp only
    split_ifs <;> rfl

/-- The section of acquire up to its first wait. -/
theorem startAcquire_cases {flag : Nat} {mode : LockMode} {r : AcquireResult}
    (h : s.startAcquire flag txnId key mode = some (s',r)) : ∃ s₁, (∀ q, s₁.entryOf q = s.entryOf q) ∧ s₁.txnLocks = s.txnLocks ∧
      (s' = s₁ ∧ r ≠ .granted ∨
        s₁.tryGrantImmediate (s.entryOf key) key txnId mode = (s',.granted) ∧ r = .granted ∨
        s₁.tryGrantImmediate (s.entryOf key) key txnId mode = (s₁,.mustWait) ∧ r ≠ .granted ∧ ∃ s₂,
          s₁.setEntry key { s.entryOf key with waitQueue := (s.entryOf key).waitQueue ++ [⟨txnId,mode,flag⟩] } = s₂ ∧
          (s' = s₂.removeRequest key flag ∨ s' = s₂ ∧ r = .blocked ∧ s₂.buildWaitForGraph.detectCycle txnId = some none)) := by
  unfold startAcquire at h
  split at h
  · cases h
    exact ⟨s,fun _ => rfl,rfl,.inl ⟨rfl,nofun⟩⟩
  · next s₁ e hopen =>
    obtain ⟨he,hsame,hlocks⟩ := openEntry_eq_some hopen
    rw [hsame] at he
    subst he
    refine ⟨s₁,hsame,hlocks,?_⟩
    rcases tryGrantImmediate_cases s₁ (s.entryOf key) key txnId mode with ⟨-,s₂,heq,-⟩ | heq | heq <;> simp only [heq] at h ⊢
    · cases h
      exact .inr (.inl ⟨rfl,rfl⟩)
    · cases h
      exact .inl ⟨rfl,nofun⟩
    · split at h
      · cases h
      · cases h
        exact .inr (.inr ⟨trivial,nofun,_,rfl,.inl rfl⟩)
      · next hsearch =>
        cases h
        exact .inr (.inr ⟨trivial,nofun,_,rfl,.inr ⟨rfl,rfl,hsearch⟩⟩)

/-- A table in which every key is in order, and no lock set lists a key twice. -/
structure Ok (s : LockState) (modes : Bytes → Nat → Option LockMode) : Prop where
  key : ∀ key, s.KeyOk (modes key) key (fun _ => False)
  distinct : ∀ t, (s.lockSet t).Nodup

section
variable {modes : Bytes → Nat → Option LockMode}

theorem Ok.congr (h : s.Ok modes) (hlocks : s'.txnLocks = s.txnLocks) (hsame : ∀ q,
    (s'.entryOf q).grantedMode = (s.entryOf q).grantedMode ∧ (s'.entryOf q).holders = (s.entryOf q).holders) : s'.Ok modes := by
  have hset : ∀ t, s'.lockSet t = s.lockSet t := fun t => by rw [lockSet,hlocks,lockSet]
  exact ⟨fun q => (h.key q).congr (fun t => by rw [hset]) (hsame q),fun t => hset t ▸ h.distinct t⟩

theorem Ok.removeRequest (h : s.Ok modes) (key : Bytes) (flag : Nat) : (s.removeRequest key flag).Ok modes := by
  refine h.congr (txnLocks_removeRequest s key flag) (fun q => ?_)
  rw [entryOf_removeRequest]
  split_ifs with hq
  · subst hq
    exact LockEntry.Sound.kept ⟨(h.key q).sound.mode_none,(h.key q).sound.exclusive⟩
  · exact ⟨rfl,rfl⟩

theorem Ok.acquire (h : s.Ok modes) {flag : Nat} {mode : LockMode}
    {r : AcquireResult} (hstep : s.startAcquire flag txnId key mode = some (s',r)) :
    s'.Ok (if r = .granted then Function.update modes key (LockManager.grant (modes key) txnId mode) else modes) := by
  obtain ⟨s₁,hsame,hlocks,hcases⟩ := startAcquire_cases hstep
  have h₁ : s₁.Ok modes := h.congr hlocks (fun q => by rw [hsame]; exact ⟨rfl,rfl⟩)
  rcases hcases with ⟨rfl,hr⟩ | ⟨hgrant,rfl⟩ | ⟨-,hr,s₂,hs₂,hs'⟩
  · rwa [if_neg hr]
  · obtain ⟨hsound,hmodes,hindex⟩ := h₁.key key
    rw [hsame] at hsound hmodes hindex
    obtain ⟨hcan,hentry⟩ := tryGrantImmediate_entry hgrant
    obtain ⟨hset,hnodup⟩ := tryGrantImmediate_lockSet (fun hmem => (hindex txnId).mpr ⟨hmem,not_false⟩) hgrant
    refine ⟨fun q => ?_,hnodup h₁.distinct⟩
    by_cases hq : q = key
    · subst hq
      rw [if_pos rfl,update_self]
      have hx : (s.entryOf q).grantedMode ≠ some .exclusive := by
        rcases hcan with hfree | ⟨-,hshared⟩ | ⟨-,hshared⟩
        · rw [hsound.mode_none.mpr hfree]
          nofun
        · simp [hshared]
        · simp [hshared]
      obtain ⟨hs,hm,-⟩ := LockEntry.Sound.grantTo hx hmodes (hcan.imp_right (Or.imp_left And.left))
      refine .of_same (e := (s.entryOf q).grantTo txnId mode) ?_ hs hm (fun t => ?_)
      · rw [hentry,if_pos rfl]
        exact ⟨rfl,rfl⟩
      · rw [hset,hindex,LockEntry.grantTo]
        simp only [Finset.mem_insert,not_false_eq_true,and_true]
        tauto
    · rw [if_pos rfl,update_of_ne hq]
      refine (h₁.key q).congr (fun t => by simp [hset,hq]) ?_
      rw [hentry,if_neg hq]
      exact ⟨rfl,rfl⟩
  · have h₂ : s₂.Ok modes := by
      subst hs₂
      refine h₁.congr rfl (fun q => ?_)
      rw [entryOf_setEntry]
      split_ifs with hq
      · rw [hq,hsame]
        exact ⟨rfl,rfl⟩
      · exact ⟨rfl,rfl⟩
    rw [if_neg hr]
    rcases hs' with rfl | ⟨rfl,-⟩
    · exact h₂.removeRequest key flag
    · exact h₂

private theorem lockSet_dropHold (s : LockState) (txnId : Nat) (key : Bytes) (u : Nat) :
    (s.dropHold txnId key).lockSet u = if u = txnId then (s.lockSet txnId).erase key else s.lockSet u := by
  unfold dropHold
  cases hk : s.txnLocks.lookup txnId with
  | none =>
    split_ifs with hu
    · subst hu
      simp [lockSet,hk]
    · rfl
  | some keys =>
    have hkeys : s.lockSet txnId = keys := by simp [lockSet,hk]
    rw [hkeys]
    unfold lockSet
    dsimp only
    split_ifs with hnil hu hu
    · rw [lookup_erase_eq,if_pos hu,hnil]
      rfl
    · rw [lookup_erase_eq,if_neg hu]
    · rw [lookup_insert_eq,if_pos hu]
      rfl
    · rw [lookup_insert_eq,if_neg hu]

theorem entryOf_dropHold (s : LockState) (txnId : Nat) (key q : Bytes) :
    (s.dropHold txnId key).entryOf q = s.entryOf q := by
  unfold dropHold
  cases s.txnLocks.lookup txnId <;> rfl

theorem Ok.release (h : s.Ok modes) (txnId : Nat) (key : Bytes) :
    (s.release txnId key).Ok (LockManager.giveUp txnId (s.dropHold txnId key,modes) key).2 := by
  have hset := lockSet_dropHold s txnId key
  have hentry := entryOf_dropHold s txnId key
  refine ⟨fun q => ?_,fun t => ?_⟩
  · unfold LockState.release LockManager.giveUp
    by_cases hq : q = key
    · subst hq
      simp only [update_self]
      refine .giveUp ⟨hentry q ▸ (h.key q).sound,fun t => hentry q ▸ (h.key q).modes t,fun t => ?_⟩
      rw [hset,hentry]
      split_ifs with ht
      · simp [ht,(h.distinct txnId).mem_erase_iff]
      · simp [ht,(h.key q).index]
    · simp only [update_of_ne hq]
      refine .giveUp_other ((h.key q).congr (fun t => ?_) (by rw [hentry]; exact ⟨rfl,rfl⟩)) hq txnId
      rw [hset]
      split_ifs with ht
      · rw [ht,mem_erase_of_ne hq]
      · rfl
  · refine nodup_releaseKey (fun u => ?_) txnId key t
    rw [hset]
    split_ifs
    · exact (h.distinct txnId).erase key
    · exact h.distinct u

private theorem nodup_foldl_releaseKey (txnId : Nat) (keys : List Bytes) (h : ∀ t, (s.lockSet t).Nodup) (t : Nat) :
    ((keys.foldl (fun st key => st.releaseKey txnId key) s).lockSet t).Nodup := by
  induction keys generalizing s with
  | nil => exact h t
  | cons key keys ih => exact ih (nodup_releaseKey h txnId key)

private theorem lockSet_forget (s : LockState) (txnId u : Nat) :
    ({ s with txnLocks := s.txnLocks.erase txnId } : LockState).lockSet u = if u = txnId then [] else s.lockSet u := by
  rw [lockSet,lookup_erase_eq]
  split_ifs <;> rfl

theorem Ok.releaseAll (h : s.Ok modes) (txnId : Nat) :
    (s.releaseAll txnId).Ok ((s.lockSet txnId).foldl (LockManager.giveUp txnId)
      ({ s with txnLocks := s.txnLocks.erase txnId },modes)).2 := by
  have hset := lockSet_forget s txnId
  refine ⟨fun q => ?_,nodup_foldl_releaseKey txnId _ (fun t => ?_)⟩
  · rw [LockState.releaseAll,← lockSet,← fst_foldl_giveUp txnId (s.lockSet txnId) (_,modes)]
    refine .giveUp_all _ (h.distinct txnId) _ (fun p => ⟨(h.key p).sound,(h.key p).modes,fun t => ?_⟩) q
    rw [hset]
    have hindex := (h.key p).index
    simp only [not_false_eq_true,and_true] at hindex
    split_ifs with ht
    · rw [ht,hindex]
      simp [entryOf]
    · simp [ht,hindex,entryOf]
  · rw [hset]
    split_ifs
    · exact nodup_nil
    · exact h.distinct t

private theorem notMem_giveUp
    (hqueue : txnId ∈ (s.entryOf key).holders → ∀ r ∈ (s.entryOf key).waitQueue, r.txnId ≠ txnId) :
    txnId ∉ ((s.releaseKey txnId key).entryOf key).holders := by
  rcases releaseKey_cases s txnId key with ⟨hnot,hsame,-⟩ | ⟨hmem,-,hentry,-,-⟩
  · rw [hsame]
    exact hnot
  · rw [hentry,if_pos rfl,LockEntry.kept]
    split_ifs
    · exact Finset.notMem_empty _
    · intro hin
      rcases mem_grantWaiters _ hin with hin | ⟨r,hr,hrt⟩
      · exact Finset.notMem_erase _ _ hin
      · exact hqueue hmem r hr hrt

private theorem notMem_giveUp_all (keys : List Bytes)
    (hqueue : ∀ key, txnId ∈ (s.entryOf key).holders → ∀ r ∈ (s.entryOf key).waitQueue, r.txnId ≠ txnId)
    (hkeys : ∀ key, txnId ∈ (s.entryOf key).holders → key ∈ keys) (q : Bytes) :
    txnId ∉ ((keys.foldl (fun st key => st.releaseKey txnId key) s).entryOf q).holders := by
  induction keys generalizing s with
  | nil => exact fun h => not_mem_nil (hkeys q h)
  | cons key keys ih =>
    have hgone := notMem_giveUp (hqueue key)
    refine ih (fun p hp => ?_) (fun p hp => ?_)
    · by_cases hpk : p = key
      · exact (hgone (hpk ▸ hp)).elim
      · rw [entryOf_giveUp_other s txnId hpk] at hp ⊢
        exact hqueue p hp
    · by_cases hpk : p = key
      · exact (hgone (hpk ▸ hp)).elim
      · rw [entryOf_giveUp_other s txnId hpk] at hp
        exact (mem_cons.mp (hkeys p hp)).resolve_left hpk

theorem Ok.not_holds (h : s.Ok modes)
    (hqueue : ∀ key, s.Holds txnId key → ∀ r ∈ (s.entryOf key).waitQueue, r.txnId ≠ txnId) (key : Bytes) :
    ¬ (s.releaseAll txnId).Holds txnId key := by
  rw [holds_iff]
  refine notMem_giveUp_all _ (s := { s with txnLocks := s.txnLocks.erase txnId }) (fun p hp => hqueue p (holds_iff.mpr hp))
    (fun p hp => ?_) key
  exact ((h.key p).index txnId).mpr ⟨hp,not_false⟩

theorem acquire_eq (s : LockState) (t : Nat) (k : Bytes) (mode : LockMode) :
    s.acquire t k mode = match s.openEntry k with
      | none => (s,.error (.storageCorrupted "Lock table entry limit reached"))
      | some (s₁,e) => match s₁.tryGrantImmediate e k t mode with
        | (_,.mustWait) => (s,.error .lockTimeout)
        | (s₂,_) => (s₂,.ok ()) := by
  unfold acquire openEntry
  cases s.lockTable.lookup k with
  | none =>
    dsimp only
    split_ifs
    · rfl
    · dsimp only
      cases (s.setEntry k .new).tryGrantImmediate .new k t mode with
      | mk s₂ g => cases g <;> rfl
  | some e =>
    dsimp only
    cases s.tryGrantImmediate e k t mode with
    | mk s₂ g => cases g <;> rfl

/-- A whole acquire call keeps the table in order. -/
theorem Ok.acquire_call (h : s.Ok modes) (t : Nat) (k : Bytes)
    (mode : LockMode) : ∃ modes', (s.acquire t k mode).1.Ok modes' := by
  rw [acquire_eq]
  cases hopen : s.openEntry k with
  | none => exact ⟨modes,h⟩
  | some x =>
    obtain ⟨s₁,e⟩ := x
    dsimp only
    cases hgrant : s₁.tryGrantImmediate e k t mode with
    | mk s₂ g =>
      cases g with
      | mustWait => exact ⟨modes,h⟩
      | granted =>
        have hstart : s.startAcquire 0 t k mode = some (s₂,.granted) := by simp only [startAcquire,hopen,hgrant]
        exact ⟨_,h.acquire hstart⟩
      | alreadyHeld =>
        have hstart : s.startAcquire 0 t k mode = some (s₂,.alreadyHeld) := by simp only [startAcquire,hopen,hgrant]
        exact ⟨_,h.acquire hstart⟩

end

end LockState

namespace LockManager

theorem ok_step {m m' : LockManager} {op : LockOp} (h : m.state.Ok m.modes) (hstep : m.step op = some m') :
    m'.state.Ok m'.modes := by
  cases op with
  | acquire txnId key mode =>
    obtain ⟨⟨s',r⟩,hr,rfl⟩ := Option.map_eq_some_iff.mp hstep
    have := h.acquire hr
    cases r <;> simpa using this
  | wake flag =>
    obtain ⟨w,-,rfl⟩ := Option.map_eq_some_iff.mp hstep
    split_ifs <;> exact h
  | timeout flag =>
    obtain ⟨w,-,rfl⟩ := Option.map_eq_some_iff.mp hstep
    split_ifs
    · exact h
    · exact h.removeRequest w.2 flag
  | release txnId key =>
    obtain rfl := Option.some.inj hstep
    exact h.release txnId key
  | releaseAll txnId =>
    obtain rfl := Option.some.inj hstep
    exact h.releaseAll txnId

theorem ok_new : new.state.Ok new.modes := by
  refine ⟨fun key => ⟨?_,fun t => ?_,fun t => ?_⟩,fun t => ?_⟩
  · exact ⟨by simp [new,LockState.entryOf,LockState.new,LockEntry.new],by simp [new,LockState.entryOf,LockState.new,LockEntry.new]⟩
  · simp [new,LockState.entryOf,LockState.new,LockEntry.new,LockEntry.modeOf]
  · simp [new,LockState.entryOf,LockState.new,LockEntry.new,LockState.lockSet]
  · simp [new,LockState.new,LockState.lockSet]

theorem ok_run {ops : List LockOp} {m : LockManager} (h : run step new ops = some m) : m.state.Ok m.modes :=
  run_keeps (P := fun m => m.state.Ok m.modes) (fun _ _ _ _ => ok_step) ok_new h

/-- In every table reached by any interleaving: a key in exclusive mode has exactly one
holder, a key has a granted mode exactly when it has a holder, the holders of a shared
key were granted nothing stronger, and the lock sets invert the holder sets. A release
of all locks leaves none, unless a request of the transaction still waits on a key it holds. -/
theorem mutual_exclusion {ops : List LockOp} {m : LockManager} (h : run step new ops = some m) :
    (∀ key e, m.state.lockTable.lookup key = some e →
      (e.grantedMode = some .exclusive → ∃ t, e.holders = {t}) ∧
      (e.grantedMode ≠ none ↔ e.holders.Nonempty) ∧
      (e.grantedMode = some .shared → ∀ t ∈ e.holders, m.modes key t = some .shared)) ∧
    (∀ t key, key ∈ m.state.lockSet t ↔ m.state.Holds t key) ∧
    ∀ t m', (∀ key e, m.state.lockTable.lookup key = some e → t ∈ e.holders → ∀ r ∈ e.waitQueue, r.txnId ≠ t) →
      m.step (.releaseAll t) = some m' → m'.state.lockSet t = [] ∧ ∀ key, ¬ m'.state.Holds t key := by
  have hok := ok_run h
  refine ⟨fun key e he => ?_,fun t key => ?_,fun t m' hqueue hstep => ?_⟩
  · obtain ⟨hsound,hmodes,-⟩ := hok.key key
    rw [LockState.entryOf_eq he] at hsound hmodes
    refine ⟨fun hx => Finset.card_eq_one.mp (hsound.exclusive hx),?_,fun hshared t ht => ?_⟩
    · rw [Finset.nonempty_iff_ne_empty,ne_eq,ne_eq,hsound.mode_none]
    · rw [hmodes,LockEntry.modeOf,if_pos ht,hshared]
  · rw [LockState.holds_iff,(hok.key key).index]
    simp
  · obtain rfl := Option.some.inj hstep
    have hnone : ∀ key, ¬ (m.state.releaseAll t).Holds t key := hok.not_holds (fun key hold r hr => ?_)
    · refine ⟨eq_nil_iff_forall_not_mem.mpr (fun key hkey => hnone key ?_),hnone⟩
      have hindex := ((ok_step hok hstep).key key).index t
      exact LockState.holds_iff.mpr (hindex.mp hkey).1
    · obtain ⟨e,he,ht⟩ := hold
      rw [LockState.entryOf_eq he] at hr
      exact hqueue key e he ht r hr

theorem mutual_exclusion_handed_over : ∃ m m', run step new
      [.acquire 1 [7] .shared,.acquire 1 [7] .exclusive,.acquire 2 [7] .shared,.acquire 1 [8] .shared] = some m ∧
    m.step (.releaseAll 1) = some m' ∧ m'.state.lockSet 1 = [] ∧ m'.state.Holds 2 [7] ∧
    ∀ key, ¬ m'.state.Holds 1 key := by
  simp only [exists_and_left]
  refine exists_observed (fun m => (decide (∀ x ∈ m.state.lockTable.entries, 1 ∈ x.2.holders → ∀ r ∈ x.2.waitQueue, r.txnId ≠ 1),
    decide (2 ∈ ((m.state.releaseAll 1).entryOf [7]).holders))) (true,true) (by decide +kernel) (fun m hm hh => ?_)
  obtain ⟨hqueue,hover⟩ : _ ∧ _ := by simpa only [Prod.mk.injEq,decide_eq_true_eq] using hh
  have hlast := (mutual_exclusion hm).2.2 1 _ (fun key e he => hqueue ⟨key,e⟩ (mem_lookup_iff.mp he)) rfl
  exact ⟨_,rfl,hlast.1,LockState.holds_iff.mpr hover,hlast.2⟩

/-- A transaction holds a lock after all its locks were released. Its upgrade waits behind
a request that times out, which wakes nobody, and is granted by the release itself. -/
theorem lock_held_after_releaseAll : ∃ m m', run step new
      [.acquire 1 [7] .shared,.acquire 2 [7] .shared,.acquire 3 [7] .exclusive,.acquire 1 [7] .exclusive,
        .release 2 [7],.timeout 0] = some m ∧
    m.step (.releaseAll 1) = some m' ∧ m'.state.Holds 1 [7] := by
  simp only [exists_and_left]
  exact exists_observed (fun m => decide (1 ∈ ((m.state.releaseAll 1).entryOf [7]).holders)) true (by decide +kernel)
    (fun m _ hh => ⟨_,rfl,LockState.holds_iff.mpr (of_decide_eq_true hh)⟩)

end LockManager
end InterchangeDb
