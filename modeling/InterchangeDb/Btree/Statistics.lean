import InterchangeDb.Btree.Engine
import InterchangeDb.Lib.Run

/-! The counters of the B+tree engine live outside the pages; opening a tree that exists starts them at zero. -/
namespace InterchangeDb
open List Option

namespace BTreeEngine
variable {e e' : BTreeEngine} {t : OrdMap Bytes Bytes} {key value : Bytes}

def new : BTreeEngine := ⟨.empty,0,0⟩

/-- A whole put; no result where the assertion of the second insert fails. -/
def put (e : BTreeEngine) (key value : Bytes) : Option (Except Error BTreeEngine) :=
  match reject key value with
  | some error => some (.error error)
  | none =>
    match BTree.insert e.tree key value with
    | (tree,true) => some (.ok ⟨tree,wrapAdd e.keyCount 1,wrapAdd e.dataSize (key.length + value.length)⟩)
    | (tree,false) =>
      let oldValueSize := ((tree.get key).map List.length).getD 0
      match BTree.insert (BTree.delete tree key).1 key value with
      | (tree,true) => some (.ok ⟨tree,e.keyCount,wrapAdd (wrapSub e.dataSize oldValueSize) value.length⟩)
      | (_,false) => none

def delete (e : BTreeEngine) (key : Bytes) : BTreeEngine :=
  let entrySize := ((e.tree.get key).map (fun v => key.length + v.length)).getD 0
  match BTree.delete e.tree key with
  | (tree,true) => ⟨tree,wrapSub e.keyCount 1,wrapSub e.dataSize entrySize⟩
  | (tree,false) => { e with tree }

/-- The lengths of all keys and values. -/
def liveSize (t : OrdMap Bytes Bytes) : Nat := (t.entries.map (fun x => x.1.length + x.2.length)).sum

structure Matches (e : BTreeEngine) : Prop where
  keyCount : e.keyCount = e.tree.entries.length
  dataSize : e.dataSize = liveSize e.tree

/-- No counter update of a call leaves the range of the counter. -/
def Exact (e : BTreeEngine) : EngineOp → Prop
  | .get _ => True
  | .put key value =>
    reject key value = none →
      match e.tree.get key with
      | none => e.keyCount + 1 < 2^64 ∧ e.dataSize + (key.length + value.length) < 2^64
      | some old => old.length ≤ e.dataSize ∧ e.dataSize - old.length + value.length < 2^64
  | .delete key =>
    match e.tree.get key with
    | none => True
    | some v => 1 ≤ e.keyCount ∧ key.length + v.length ≤ e.dataSize

/-- The counters have room for one more entry. -/
def Room (e : BTreeEngine) : EngineOp → Prop
  | .put key value => e.tree.entries.length + liveSize e.tree + key.length + value.length + 1 < 2^64
  | .get _ | .delete _ => True

instance (e : BTreeEngine) : (op : EngineOp) → Decidable (e.Room op)
  | .put _ _ => inferInstanceAs (Decidable (_ < _))
  | .get _ | .delete _ => .isTrue trivial

private theorem size_insert (h : t.get key = none) (value : Bytes) :
    (t.insert key value).entries.length = t.entries.length + 1 ∧ liveSize (t.insert key value) = liveSize t + (key.length + value.length) := by
  have hperm := OrdMap.perm_insert h value
  refine ⟨hperm.length_eq,?_⟩
  rw [liveSize,(hperm.map _).sum_eq,map_cons,sum_cons,add_comm]
  rfl

private theorem size_erase (h : t.get key = some value) :
    t.entries.length = (t.erase key).entries.length + 1 ∧ liveSize t = liveSize (t.erase key) + (key.length + value.length) := by
  have hperm := OrdMap.perm_erase h
  refine ⟨hperm.length_eq,?_⟩
  rw [liveSize,(hperm.map _).sum_eq,map_cons,sum_cons,add_comm]
  rfl

private theorem wrapAdd_eq {a b : Nat} (h : a + b < 2^64) : wrapAdd a b = a + b := Nat.mod_eq_of_lt h

private theorem wrapSub_eq {a b : Nat} (ha : a < 2^64) (h : b ≤ a) : wrapSub a b = a - b := by
  rw [wrapSub,Nat.mod_eq_of_lt (h.trans_lt ha),show a + (2^64 - b) = a - b + 2^64 by omega,Nat.add_mod_right,
    Nat.mod_eq_of_lt (by omega)]

theorem Matches.exact (h : e.Matches) {op : EngineOp} (hroom : e.Room op) : e.Exact op := by
  have hcount := h.keyCount
  have hsize := h.dataSize
  cases op with
  | get key => trivial
  | put key value =>
    intro _
    simp only [Room] at hroom
    cases hget : e.tree.get key with
    | none => exact ⟨by omega,by omega⟩
    | some old =>
      obtain ⟨-,hold⟩ := size_erase hget
      exact ⟨by omega,by omega⟩
  | delete key =>
    simp only [Exact]
    cases hget : e.tree.get key with
    | none => trivial
    | some v =>
      obtain ⟨hlen,hold⟩ := size_erase hget
      exact ⟨by omega,by omega⟩

/-- The counters match, and the tree is small enough for them. -/
def Counted (e : BTreeEngine) : Prop := e.Matches ∧ e.tree.entries.length + liveSize e.tree < 2^64

theorem Counted.put (h : e.Counted) (hroom : e.Room (.put key value)) (hreject : reject key value = none) :
    ∃ e', e.put key value = some (.ok e') ∧ e'.Counted := by
  have hexact := h.1.exact hroom hreject
  obtain ⟨⟨hcount,hsize⟩,hlt⟩ := h
  simp only [Room] at hroom
  simp only [BTreeEngine.put,hreject,BTree.insert]
  cases hget : e.tree.get key with
  | none =>
    rw [hget] at hexact
    obtain ⟨hlen,hnew⟩ := size_insert hget value
    refine ⟨_,rfl,⟨?_,?_⟩,?_⟩ <;> dsimp only
    · rw [wrapAdd_eq hexact.1,hlen,hcount]
    · rw [wrapAdd_eq hexact.2,hnew,hsize]
    · omega
  | some old =>
    rw [hget] at hexact
    obtain ⟨hlen,hold⟩ := size_erase hget
    have hgone : (e.tree.erase key).get key = none := by rw [OrdMap.get_erase,if_pos rfl]
    obtain ⟨hlen',hnew⟩ := size_insert hgone value
    simp only [isSome_some,if_true,hget,map_some,getD_some,BTree.delete,hgone,isSome_none,
      Bool.false_eq_true,if_false]
    refine ⟨_,rfl,⟨?_,?_⟩,?_⟩ <;> dsimp only
    · omega
    · rw [wrapSub_eq (by omega) hexact.1,wrapAdd_eq hexact.2]
      omega
    · omega

theorem Counted.delete (h : e.Counted) (key : Bytes) : (e.delete key).Counted := by
  obtain ⟨⟨hcount,hsize⟩,hlt⟩ := h
  simp only [BTreeEngine.delete,BTree.delete]
  cases hget : e.tree.get key with
  | none =>
    have hsame : e.tree.erase key = e.tree := by
      ext1 q
      rw [OrdMap.get_erase]
      split_ifs with hq
      · rw [hq,hget]
      · rfl
    rw [hsame]
    exact ⟨⟨hcount,hsize⟩,hlt⟩
  | some v =>
    obtain ⟨hlen,hold⟩ := size_erase hget
    refine ⟨⟨?_,?_⟩,?_⟩ <;> dsimp only [isSome_some,map_some,getD_some]
    · rw [wrapSub_eq (by omega) (by omega)]
      omega
    · rw [wrapSub_eq (by omega) (by omega)]
      omega
    · omega

end BTreeEngine

/-- An engine on its pages, or the pages alone. -/
inductive BTreeFile where
  | opened (engine : BTreeEngine)
  | closed (tree : OrdMap Bytes Bytes)

inductive BTreeStep where
  | call (op : EngineOp)
  | close
  | openExisting
  deriving DecidableEq, Repr

namespace BTreeFile
open BTreeEngine
variable {s s' : BTreeFile} {a : BTreeStep}

/-- A rejected call leaves the engine as it is; closing writes the pages back; opening finds them and counts from zero. -/
def step : BTreeFile → BTreeStep → Option BTreeFile
  | .opened e, .call (.get _) => some (.opened e)
  | .opened e, .call (.put key value) =>
    match e.put key value with
    | none => none
    | some (.error _) => some (.opened e)
    | some (.ok e) => some (.opened e)
  | .opened e, .call (.delete key) => some (.opened (e.delete key))
  | .opened e, .close => some (.closed e.tree)
  | .closed tree, .openExisting => some (.opened ⟨tree,0,0⟩)
  | .opened _, .openExisting | .closed _, .call _ | .closed _, .close => none

/-- A put has room, and a tree is opened again only when it is empty. -/
def Allowed : BTreeFile → BTreeStep → Prop
  | .opened e, .call op => e.Room op
  | .closed tree, .openExisting => tree.entries = []
  | .opened _, .close | .opened _, .openExisting | .closed _, .call _ | .closed _, .close => True

instance : (s : BTreeFile) → (a : BTreeStep) → Decidable (s.Allowed a)
  | .opened e, .call op => inferInstanceAs (Decidable (e.Room op))
  | .closed tree, .openExisting => inferInstanceAs (Decidable (tree.entries = []))
  | .opened _, .close | .opened _, .openExisting | .closed _, .call _ | .closed _, .close => .isTrue trivial

private def Good : BTreeFile → Prop
  | .opened e => e.Counted
  | .closed _ => True

private theorem good_step (h : s.Good) (hc : s.Allowed a) (hs : s.step a = some s') : s'.Good := by
  cases s with
  | closed tree =>
    cases a with
    | openExisting =>
      cases hs
      have hempty : tree.entries = [] := hc
      refine ⟨⟨?_,?_⟩,?_⟩ <;> simp [liveSize,hempty]
    | call | close => cases hs
  | opened e =>
    match a with
    | .openExisting => cases hs
    | .close =>
      cases hs
      trivial
    | .call (.get _) =>
      cases hs
      exact h
    | .call (.delete key) =>
      cases hs
      exact .delete h key
    | .call (.put key value) =>
      simp only [step] at hs
      cases hreject : reject key value with
      | some error =>
        simp only [BTreeEngine.put,hreject,some.injEq] at hs
        exact hs ▸ h
      | none =>
        obtain ⟨e',hput,hgood⟩ := BTreeEngine.Counted.put h hc hreject
        simp only [hput,some.injEq] at hs
        exact hs ▸ hgood

/-- After any puts, deletes, closes and openings of an empty tree the counters are the number of live keys and their size, and
the next call takes no counter out of its range. -/
theorem statistics_match {steps : List BTreeStep} (hallowed : AllSteps step Allowed (.opened .new) steps) {e : BTreeEngine}
    (hrun : run step (.opened .new) steps = some (.opened e)) :
    e.keyCount = e.tree.entries.length ∧ e.dataSize = liveSize e.tree ∧ ∀ op, e.Room op → e.Exact op := by
  have hnew : Good (.opened .new) := ⟨⟨rfl,rfl⟩,by decide⟩
  have hgood : Good (.opened e) := run_invariant Allowed (fun _ _ _ => good_step) hnew hallowed hrun
  obtain ⟨h,-⟩ := hgood
  exact ⟨h.keyCount,h.dataSize,fun op => h.exact⟩

theorem statistics_match_emptied :
    ∃ e, run step (.opened .new) [.call (.put [1] [2,3]),.call (.put [1] [4]),.call (.delete [1]),.close,.openExisting,
      .call (.put [5] [6,7])] = some (.opened e) ∧ e.keyCount = 1 ∧ e.dataSize = 3 ∧ e.Exact (.delete [5]) := by
  have hallowed : AllSteps step Allowed (.opened .new) [.call (.put [1] [2,3]),.call (.put [1] [4]),.call (.delete [1]),.close,
      .openExisting,.call (.put [5] [6,7])] := by decide
  exact ⟨⟨⟨[([5],[6,7])],by decide⟩,1,3⟩,rfl,rfl,rfl,(statistics_match hallowed rfl).2.2 (.delete [5]) trivial⟩

/-- A tree with a live key is opened again: the counters say zero, and a delete wraps them. -/
theorem statistics_reset_by_open :
    (run step (.opened .new) [.call (.put [1] [2]),.close,.openExisting]).bind (fun s =>
      match s with
      | .opened e => some (e.keyCount,e.dataSize,e.tree.entries.length,(e.delete [1]).keyCount)
      | .closed _ => none) = some (0,0,1,2^64 - 1) := by
  decide

end BTreeFile
end InterchangeDb
