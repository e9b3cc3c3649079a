import InterchangeDb.Lsm.Refinement

/-! The LSM tree as a storage engine. It takes entries of any length; a block of a table holds 4094 bytes. -/
namespace InterchangeDb

structure LsmEngine where
  tree : LsmTree
  keyCount : Nat
  dataSize : Nat
  tombstoneCount : Nat

namespace LsmEngine
variable [Crc32] {e : LsmEngine} {cfg : LsmConfig}

def new : LsmEngine := ⟨.new,0,0,0⟩

def get (e : LsmEngine) (key : Bytes) : Option (Option Bytes) := e.tree.get key

/-- Look for the key first, for the counters. -/
def put (cfg : LsmConfig) (e : LsmEngine) (key value : Bytes) : Option LsmEngine :=
  match e.tree.get key with
  | none => none
  | some (some old) =>
    (e.tree.put cfg key value).map (fun tree =>
      { e with tree, dataSize := wrapAdd (wrapSub e.dataSize old.length) value.length })
  | some none =>
    (e.tree.put cfg key value).map (fun tree =>
      { e with tree, keyCount := wrapAdd e.keyCount 1, dataSize := wrapAdd e.dataSize (key.length + value.length) })

def delete (cfg : LsmConfig) (e : LsmEngine) (key : Bytes) : Option LsmEngine :=
  match e.tree.get key with
  | none => none
  | some (some old) =>
    (e.tree.delete cfg key).map (fun tree =>
      { tree
        keyCount := wrapSub e.keyCount 1
        dataSize := wrapSub e.dataSize (key.length + old.length)
        tombstoneCount := wrapAdd e.tombstoneCount 1 })
  | some none => (e.tree.delete cfg key).map (fun tree => { e with tree })

def step (cfg : LsmConfig) (e : LsmEngine) : LsmOp → Option LsmEngine
  | .put key value => e.put cfg key value
  | .delete key => e.delete cfg key
  | op => (e.tree.step cfg op).map (fun tree => { e with tree })

theorem tree_step (h : e.tree.store.Ok) (op : LsmOp) : (e.step cfg op).map tree = e.tree.step cfg op := by
  have hcounted : ∀ (t : Option LsmTree) (f : LsmTree → LsmEngine), (∀ x, (f x).tree = x) → (t.map f).map tree = t := by
    intro t f hf
    cases t with
    | none => rfl
    | some x => exact congrArg some (hf x)
  cases op with
  | put key value =>
    simp only [step,put,LsmTree.step,LsmTree.get_eq h]
    cases e.tree.value key <;> exact hcounted _ _ (fun _ => rfl)
  | delete key =>
    simp only [step,delete,LsmTree.step,LsmTree.get_eq h]
    cases e.tree.value key <;> exact hcounted _ _ (fun _ => rfl)
  | flushMemtable | compactL0 | compactLevel => exact hcounted _ _ (fun _ => rfl)

theorem tree_run {m : Engine} (h : e.tree.Refines m) (ops : List LsmOp) :
    (run (step cfg) e ops).map tree = run (LsmTree.step cfg) e.tree ops := by
  induction ops generalizing e m with
  | nil => rfl
  | cons op ops ih =>
    have hop : (e.step cfg op).map tree = _ := tree_step h.ok op
    rw [run,run,← hop]
    cases hstep : e.step cfg op with
    | none => rfl
    | some e' =>
      rw [hstep] at hop
      exact ih (h.step hop.symm)

/-- Fewer than 2^30 calls whose entries fit a block return, if no table file gets more entries than it can address blocks;
and every key then has the value put last, through all flushes and compactions on the way. -/
theorem accepted_writes_survive (cfg : LsmConfig) {ops : List LsmOp} (hfits : ∀ op ∈ ops, op.Fits)
    (hn : cfg.tableEntries ops.length < 2^20) (hlen : ops.length < 2^30) :
    ∃ e, run (step cfg) .new ops = some e ∧ ∀ k, e.get k = some ((ops.foldl LsmOp.apply .empty).get k) := by
  obtain ⟨t,ht⟩ := LsmTree.run_isSome cfg LsmTree.refines_new LsmTree.small_new (.inl rfl) hfits (by rwa [zero_add])
    (by omega) (by decide)
  obtain ⟨e,he,rfl⟩ := Option.map_eq_some_iff.mp ((tree_run (e := .new) LsmTree.refines_new ops).trans ht)
  exact ⟨e,he,(LsmTree.refines_new.run ht).get_eq⟩

end LsmEngine

/-- A value that leaves its block full to the last byte, overwritten after a flush. -/
theorem LsmEngine.accepted_writes_survive_full : ∃ e, run (LsmEngine.step (.default 4194304)) .new
      [.put [1] (List.replicate 4089 0),.flushMemtable,.put [1] [7],.flushMemtable] = some e ∧ e.get [1] = some (some [7]) := by
  have hfits : ∀ op ∈ [LsmOp.put [1] (.replicate 4089 0),.flushMemtable,.put [1] [7],.flushMemtable], op.Fits := by
    simp only [List.forall_mem_cons,LsmOp.Fits,SSTable.entrySize,Option.elim,List.length_replicate]
    simp [SSTable.blockDataCapacity,SSTable.blockSize]
  obtain ⟨e,he,hget⟩ := LsmEngine.accepted_writes_survive (.default 4194304) hfits (by decide) (by decide)
  exact ⟨e,he,hget [1]⟩

private theorem flush_oversized {v : Bytes} (hv : v.length = 4090) : ∃ e,
    run (LsmEngine.step (.default 4194304)) .new [.put [1] v] = some e ∧ e.get [1] = some (some v) ∧
      e.step (.default 4194304) .flushMemtable = none := by
  have hget : LsmTree.get .new [1] = some none := by decide +kernel
  have hput : LsmTree.put (.default 4194304) .new [1] v = some ⟨Memtable.new.put [1] v,[],.new⟩ := by
    rw [LsmTree.put,LsmTree.flushIfOver,if_neg]
    · rfl
    · simp [LsmConfig.default,LsmTree.new,Memtable.put,Memtable.new,hv,Memtable.entryOverheadBytes]
  have hstep : LsmEngine.put (.default 4194304) .new [1] v = some ⟨⟨Memtable.new.put [1] v,[],.new⟩,1,4091,0⟩ := by
    simp [LsmEngine.put,LsmEngine.new,hget,hput,wrapAdd,hv]
  have hwrite : SSTable.write 1 [([1],some v)] = none := by
    simp [SSTable.write,SSTable.splitBlocks,SSTable.blockLen,SSTable.entrySize,SSTable.blockDataCapacity,
      SSTable.blockSize,hv]
  refine ⟨⟨⟨Memtable.new.put [1] v,[],.new⟩,1,4091,0⟩,by simp only [run,LsmEngine.step,hstep],?_,?_⟩
  · simp [LsmEngine.get,LsmTree.get,LsmTree.findInMemory,Memtable.put,OrdMap.get_insert]
  · have hflush : LsmTree.flush (.default 4194304) true ⟨Memtable.new.put [1] v,[],.new⟩ = none := by
      simp [LsmTree.flush,LsmTree.freeze,LevelState.nextId,LsmTree.writeFrozen,Memtable.put,Memtable.new,OrdMap.insert,
        OrdMap.insertEntry,OrdMap.empty,SstStore.new,LevelState.new,hwrite,u64Max]
    simp [LsmEngine.step,LsmTree.step,hflush,Option.map_none]

/-- A value one byte longer is accepted, and the flush fails an assertion. -/
theorem LsmEngine.oversized_write_accepted : ∃ e,
    run (LsmEngine.step (.default 4194304)) .new [.put [1] (List.replicate 4090 0)] = some e ∧
      e.get [1] = some (some (List.replicate 4090 0)) ∧ e.step (.default 4194304) .flushMemtable = none :=
  flush_oversized List.length_replicate

end InterchangeDb
