import InterchangeDb.Common
import InterchangeDb.Lib.AssocMap

/-! Eviction policies: the contract the pool relies on, proved of the policy a pool starts with. -/
namespace InterchangeDb
open List Finset

abbrev FrameId := Nat
abbrev PageId := Nat

/-- Knowledge handed from one policy to the next, hotter pages with a higher score. -/
structure PolicyState where
  hotPages : List (PageId × Nat)
  deriving DecidableEq, Repr

/-- What a policy takes from its surroundings: the clock and the order in which its hash sets
are walked. -/
structure PolicyEnv where
  now : Nat
  order : FrameId → Nat

class EvictionPolicy (P : Type) where
  recordAccess : PolicyEnv → P → FrameId → PageId → P
  setEvictable : P → FrameId → Bool → P
  evictForPage : PolicyEnv → P → PageId → Option FrameId × P
  remove : P → FrameId → P
  exportState : PolicyEnv → P → PolicyState
  importState : P → PolicyState → P

/-- The contract of a policy for a pool of a given size, in terms of the frames it tracks and of
those it may evict. It is proved for FIFO below. The other policies are not modelled; by their code they meet every law: clock,
LRU-K, 2Q and ARC track the keys of one map (the entries, the histories, the locations), LRU the keys of its cache, which forgets
none while its capacity is not below the pool's; a frame that is not tracked is never made evictable, an eviction fails only when
no frame is evictable, and an import changes scores only. Not in the contract are the counters of LRU and 2Q: an import sets them
to the largest score and the next access adds one, which overflows at u64::MAX. -/
class LawfulEvictionPolicy (P : Type) [EvictionPolicy P] (poolSize : Nat) where
  Valid : P → Prop
  tracked : P → FrameId → Bool
  evictable : P → FrameId → Bool
  tracked_of_evictable {r : P} {f : FrameId} : Valid r → evictable r f = true → tracked r f = true
  recordAccess_spec {env : PolicyEnv} {r : P} {f : FrameId} {p : PageId} : Valid r → f < poolSize →
    Valid (EvictionPolicy.recordAccess env r f p) ∧ ∀ g,
      tracked (EvictionPolicy.recordAccess env r f p) g = (decide (g = f) || tracked r g) ∧
      evictable (EvictionPolicy.recordAccess env r f p) g = evictable r g
  /-- Setting a frame that is not tracked does nothing. -/
  setEvictable_spec {r : P} {f : FrameId} {b : Bool} : Valid r →
    Valid (EvictionPolicy.setEvictable r f b) ∧ ∀ g,
      tracked (EvictionPolicy.setEvictable r f b) g = tracked r g ∧
      evictable (EvictionPolicy.setEvictable r f b) g = if g = f then b && tracked r f else evictable r g
  evictForPage_none {env : PolicyEnv} {r : P} {p : PageId} : Valid r → (EvictionPolicy.evictForPage env r p).1 = none →
    Valid (EvictionPolicy.evictForPage env r p).2 ∧ ∀ g, evictable r g = false ∧
      tracked (EvictionPolicy.evictForPage env r p).2 g = tracked r g ∧
      evictable (EvictionPolicy.evictForPage env r p).2 g = false
  evictForPage_some {env : PolicyEnv} {r : P} {p : PageId} {f : FrameId} : Valid r →
    (EvictionPolicy.evictForPage env r p).1 = some f →
    evictable r f = true ∧ Valid (EvictionPolicy.evictForPage env r p).2 ∧ ∀ g,
      tracked (EvictionPolicy.evictForPage env r p).2 g = (decide (g ≠ f) && tracked r g) ∧
      evictable (EvictionPolicy.evictForPage env r p).2 g = (decide (g ≠ f) && evictable r g)
  remove_spec {r : P} {f : FrameId} : Valid r →
    Valid (EvictionPolicy.remove r f) ∧ ∀ g,
      tracked (EvictionPolicy.remove r f) g = (decide (g ≠ f) && tracked r g) ∧
      evictable (EvictionPolicy.remove r f) g = (decide (g ≠ f) && evictable r g)
  importState_spec {r : P} {st : PolicyState} : Valid r →
    Valid (EvictionPolicy.importState r st) ∧ ∀ g,
      tracked (EvictionPolicy.importState r st) g = tracked r g ∧
      evictable (EvictionPolicy.importState r st) g = evictable r g

/-- A policy that has seen nothing yet. -/
def LawfulEvictionPolicy.Fresh {P : Type} [EvictionPolicy P] (poolSize : Nat) [LawfulEvictionPolicy P poolSize] (r : P) : Prop :=
  Valid poolSize r ∧ ∀ f, tracked poolSize r f = false

structure FifoReplacer where
  /-- The front is evicted first. -/
  queue : List FrameId
  inQueue : Finset FrameId
  evictable : Finset FrameId
  frameToPage : AList (fun _ : FrameId => PageId)
  frameScores : AList (fun _ : FrameId => Nat)
  pendingPageScores : AList (fun _ : PageId => Nat)

namespace FifoReplacer
variable (r : FifoReplacer) {r' : FifoReplacer} {f : FrameId}

def new : FifoReplacer := ⟨[], ∅, ∅, ∅, ∅, ∅⟩

def score (f : FrameId) : Nat := (r.frameScores.lookup f).getD 0

def findInsertPosition (s : Nat) : Nat :=
  (r.queue.findIdx? (fun f => s < r.score f)).getD r.queue.length

/-- Scores wrap around in 64 bits. -/
def recordAccess (f : FrameId) (p : PageId) : FifoReplacer :=
  let r := { r with frameToPage := r.frameToPage.insert f p }
  if f ∈ r.inQueue then r
  else
    let r := match r.pendingPageScores.lookup p with
      | some s => { r with
          pendingPageScores := r.pendingPageScores.erase p
          queue := r.queue.insertIdx (r.findInsertPosition s) f
          frameScores := r.frameScores.insert f s }
      | none => { r with
          queue := r.queue ++ [f]
          frameScores := r.frameScores.insert f (((values r.frameScores).foldl max 0 + 1) % 2^64) }
    { r with inQueue := insert f r.inQueue }

def setEvictable (f : FrameId) (b : Bool) : FifoReplacer :=
  if b && !decide (f ∈ r.inQueue) then r
  else if b then { r with evictable := insert f r.evictable }
  else { r with evictable := r.evictable.erase f }

def evict : Option FrameId × FifoReplacer :=
  match r.queue.find? (fun f => decide (f ∈ r.evictable)) with
  | none => (none, r)
  | some f => (some f, { r with
      queue := r.queue.erase f
      inQueue := r.inQueue.erase f
      evictable := r.evictable.erase f
      frameToPage := r.frameToPage.erase f
      frameScores := r.frameScores.erase f })

def remove (f : FrameId) : FifoReplacer :=
  let r' := { r with
    evictable := r.evictable.erase f
    frameToPage := r.frameToPage.erase f
    frameScores := r.frameScores.erase f }
  if f ∈ r.inQueue then { r' with inQueue := r.inQueue.erase f, queue := r.queue.filter (fun g => g != f) } else r'

def exportState : PolicyState :=
  ⟨r.queue.filterMap (fun f => (r.frameToPage.lookup f).map (fun p => (p, r.score f)))⟩

def importState (st : PolicyState) : FifoReplacer :=
  { r with pendingPageScores := st.hotPages.foldl (fun m x => m.insert x.1 x.2) ∅ }

instance : EvictionPolicy FifoReplacer where
  recordAccess _ := recordAccess
  setEvictable := setEvictable
  evictForPage _ r _ := evict r
  remove := remove
  exportState _ := exportState
  importState := importState

/-- The queue lists the tracked frames once, and only tracked frames are evictable. -/
structure Valid (r : FifoReplacer) : Prop where
  mem_queue : ∀ f, f ∈ r.queue ↔ f ∈ r.inQueue
  nodup : r.queue.Nodup
  evictable_subset : r.evictable ⊆ r.inQueue

variable {r}

private theorem valid_insert (h : r.Valid) (hf : f ∉ r.inQueue) {i : Nat}
    (hi : i ≤ r.queue.length) (hqueue : r'.queue = r.queue.insertIdx i f) (hin : r'.inQueue = insert f r.inQueue)
    (hev : r'.evictable = r.evictable) : r'.Valid := by
  constructor
  · intro g
    rw [hqueue,hin,mem_insertIdx hi,mem_insert,h.mem_queue]
  · rw [hqueue]
    have hperm : (r.queue.insertIdx i f).Perm (f :: r.queue) := perm_insertIdx f r.queue hi
    exact hperm.nodup_iff.mpr (nodup_cons.mpr ⟨fun hmem => hf ((h.mem_queue f).mp hmem),h.nodup⟩)
  · rw [hev,hin]
    exact h.evictable_subset.trans (subset_insert _ _)

private theorem findInsertPosition_le (r : FifoReplacer) (s : Nat) : r.findInsertPosition s ≤ r.queue.length := by
  rw [findInsertPosition]
  cases h : r.queue.findIdx? (fun f => s < r.score f) with
  | none => exact le_rfl
  | some i => exact (findIdx?_eq_some_iff_getElem.mp h).1.le

theorem recordAccess_valid (h : r.Valid) (f : FrameId) (p : PageId) :
    (r.recordAccess f p).Valid ∧ (r.recordAccess f p).inQueue = insert f r.inQueue ∧
      (r.recordAccess f p).evictable = r.evictable := by
  by_cases hf : f ∈ r.inQueue
  · have heq : r.recordAccess f p = { r with frameToPage := r.frameToPage.insert f p } := by
      simp [recordAccess,if_pos hf]
    rw [heq]
    exact ⟨⟨h.mem_queue,h.nodup,h.evictable_subset⟩,(insert_eq_of_mem hf).symm,rfl⟩
  · cases hp : r.pendingPageScores.lookup p with
    | some s =>
      simp only [recordAccess,if_neg hf,hp,and_true]
      exact valid_insert h hf (r.findInsertPosition_le s) rfl rfl rfl
    | none =>
      simp only [recordAccess,if_neg hf,hp,and_true]
      exact valid_insert h hf le_rfl insertIdx_length_self.symm rfl rfl

theorem setEvictable_valid (h : r.Valid) (f : FrameId) (b : Bool) :
    (r.setEvictable f b).Valid ∧ (r.setEvictable f b).inQueue = r.inQueue ∧
      ∀ g, g ∈ (r.setEvictable f b).evictable ↔ if g = f then b = true ∧ f ∈ r.inQueue else g ∈ r.evictable := by
  have hnot : f ∉ r.inQueue → f ∉ r.evictable := fun hf hev => hf (h.evictable_subset hev)
  cases b with
  | false =>
    refine ⟨⟨h.mem_queue,h.nodup,(erase_subset _ _).trans h.evictable_subset⟩,rfl,fun g => ?_⟩
    change g ∈ r.evictable.erase f ↔ _
    split_ifs with hg <;> simp [hg]
  | true =>
    by_cases hf : f ∈ r.inQueue
    · have heq : r.setEvictable f true = { r with evictable := insert f r.evictable } := by simp [setEvictable,hf]
      rw [heq]
      refine ⟨⟨h.mem_queue,h.nodup,insert_subset hf h.evictable_subset⟩,rfl,fun g => ?_⟩
      change g ∈ insert f r.evictable ↔ _
      split_ifs with hg <;> simp [hg,hf]
    · have heq : r.setEvictable f true = r := by simp [setEvictable,hf]
      rw [heq]
      refine ⟨h,rfl,fun g => ?_⟩
      split_ifs with hg
      · subst hg
        simp [hf,hnot hf]
      · rfl

private theorem valid_erase (h : r.Valid) (hqueue : r'.queue = r.queue.erase f)
    (hin : r'.inQueue = r.inQueue.erase f) (hev : r'.evictable = r.evictable.erase f) : r'.Valid := by
  constructor
  · intro g
    rw [hqueue,hin,h.nodup.mem_erase_iff,mem_erase,h.mem_queue]
  · rw [hqueue]
    exact h.nodup.erase f
  · rw [hev,hin]
    exact erase_subset_erase f h.evictable_subset

theorem evict_none (h : r.Valid) (hnone : r.evict.1 = none) : r.evict.2 = r ∧ r.evictable = ∅ := by
  unfold evict at hnone ⊢
  split at hnone
  · next hfind =>
    refine ⟨rfl,eq_empty_of_forall_notMem (fun f hf => ?_)⟩
    have hq := (h.mem_queue f).mpr (h.evictable_subset hf)
    have := find?_eq_none.mp hfind f hq
    simp [hf] at this
  · cases hnone

theorem evict_some (h : r.Valid) (hsome : r.evict.1 = some f) :
    f ∈ r.evictable ∧ r.evict.2.Valid ∧ r.evict.2.inQueue = r.inQueue.erase f ∧
      r.evict.2.evictable = r.evictable.erase f := by
  unfold evict at hsome ⊢
  split at hsome
  · cases hsome
  · next g hfind =>
    cases hsome
    have hf := find?_some hfind
    exact ⟨of_decide_eq_true hf,valid_erase h rfl rfl rfl,rfl,rfl⟩

theorem remove_valid (h : r.Valid) (f : FrameId) :
    (r.remove f).Valid ∧ (r.remove f).inQueue = r.inQueue.erase f ∧ (r.remove f).evictable = r.evictable.erase f := by
  by_cases hf : f ∈ r.inQueue
  · simp only [remove,if_pos hf,and_true]
    exact valid_erase h (h.nodup.erase_eq_filter f).symm rfl rfl
  · simp only [remove,if_neg hf,and_true]
    exact ⟨⟨h.mem_queue,h.nodup,(erase_subset _ _).trans h.evictable_subset⟩,(erase_eq_of_notMem hf).symm⟩

/-- The first-in-first-out policy meets the contract, for pools of any size. -/
instance (poolSize : Nat) : LawfulEvictionPolicy FifoReplacer poolSize where
  Valid := Valid
  tracked r f := decide (f ∈ r.inQueue)
  evictable r f := decide (f ∈ r.evictable)
  tracked_of_evictable h hf := by
    simp only [decide_eq_true_eq] at hf ⊢
    exact h.evictable_subset hf
  recordAccess_spec h _ := by
    obtain ⟨hvalid,hin,hev⟩ := recordAccess_valid h _ _
    refine ⟨hvalid,fun g => ?_⟩
    simp only [EvictionPolicy.recordAccess,hin,hev,Finset.mem_insert,Bool.decide_or,and_self]
  setEvictable_spec h := by
    obtain ⟨hvalid,hin,hev⟩ := setEvictable_valid h _ _
    refine ⟨hvalid,fun g => ⟨?_,?_⟩⟩
    · simp only [EvictionPolicy.setEvictable,hin]
    · simp only [EvictionPolicy.setEvictable,hev]
      split_ifs <;> simp
  evictForPage_none h hnone := by
    obtain ⟨hsame,hempty⟩ := evict_none h hnone
    simp only [EvictionPolicy.evictForPage,hsame,hempty]
    exact ⟨h,fun g => by simp⟩
  evictForPage_some h hsome := by
    obtain ⟨hf,hvalid,hin,hev⟩ := evict_some h hsome
    refine ⟨decide_eq_true hf,hvalid,fun g => ?_⟩
    simp only [EvictionPolicy.evictForPage,hin,hev,Finset.mem_erase,Bool.decide_and,and_self]
  remove_spec h := by
    obtain ⟨hvalid,hin,hev⟩ := remove_valid h _
    refine ⟨hvalid,fun g => ?_⟩
    simp only [EvictionPolicy.remove,hin,hev,Finset.mem_erase,Bool.decide_and,and_self]
  importState_spec h := ⟨⟨h.mem_queue,h.nodup,h.evictable_subset⟩,fun _ => ⟨rfl,rfl⟩⟩

theorem new_fresh (poolSize : Nat) : LawfulEvictionPolicy.Fresh poolSize FifoReplacer.new :=
  ⟨⟨fun _ => by simp [new],nodup_nil,empty_subset _⟩,fun _ => rfl⟩

end FifoReplacer
end InterchangeDb
