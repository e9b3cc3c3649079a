import InterchangeDb.Database.Faults

/-! Puts and deletes outside a transaction that fail leave the transaction they began active. -/
namespace InterchangeDb
open Option AList
namespace Database
/-- Identifiers are drawn in order. -/
def Numbered (m : TransactionManager) : Prop := ∀ t ∈ m.activeTxns, t < m.nextTxnId

theorem Numbered.step {m m' : TransactionManager} (h : ManagerStep m m') (hm : Numbered m) : Numbered m' := by
  intro t ht
  obtain ⟨txn',ht'⟩ := isSome_iff_exists.mp (lookup_isSome.mpr ht)
  rcases h.lookup_active ht' with ⟨-,-,-,hlt,-⟩ | ⟨txn,hact,-⟩
  · exact hlt
  · exact lt_of_lt_of_le (hm t (lookup_isSome.mp (by rw [hact]; rfl))) h.counters.1

variable [Crc32] {db db' : Database} {out : Outcome}

/-- A begin is refused at the limit; else the transaction is active, whether or not its record was logged. -/
private theorem begin_limit {f : Faults} (h : db.step (.begin .readWrite) f = some (db',out)) :
    (maxActiveTransactions ≤ db.mgr.activeTxns.entries.length ∧ db' = db ∧ ∀ t, out ≠ .began t) ∨
    (¬maxActiveTransactions ≤ db.mgr.activeTxns.entries.length ∧ db.mgr.nextTxnId ∈ db'.mgr.activeTxns) := by
  obtain ⟨⟨d,r⟩,hr,heq⟩ := map_eq_some_iff.mp h
  unfold beginTxn at hr
  cases hb : db.mgr.begin .readWrite Lsn.invalid with
  | none => simp [hb] at hr
  | some x =>
    obtain ⟨m,rb⟩ := x
    simp only [hb] at hr
    rcases TransactionManager.begin_cases hb with ⟨rfl,rfl,hlimit⟩ | ⟨rfl,-,-,rfl,hlimit⟩
    · cases hr
      cases heq
      exact .inl ⟨hlimit,rfl,fun _ => nofun⟩
    · refine .inr ⟨hlimit,?_⟩
      dsimp only at hr
      split at hr
      · cases hr
        cases heq
        exact (mem_insert _).mpr (.inl rfl)
      · split at hr
        · cases hr
        · simp only [TransactionManager.started_logged] at hr
          cases hr
          cases heq
          exact (mem_insert _).mpr (.inl rfl)

private theorem write_active {f : Faults} {op : Op} {t u : Nat} {k : Bytes} {v : MvccValue} (hop : op.write? = some (t,k,v))
    (h : db.step op f = some (db',out)) (hu : u ∈ db.mgr.activeTxns) : u ∈ db'.mgr.activeTxns := by
  rcases step_failed h with h | ⟨e,m,-,hleft,hm⟩
  · cases step_called h with
    | same | locked | gc => exact hu
    | wrote _ _ hw =>
      rcases write_cases hw with ⟨e,-,rfl⟩ | ⟨txn,wal,lsn,-,-,-,-,-,-,rfl⟩
      · exact hu
      · exact (mem_insert _).mpr (.inr hu)
    | began | committed | aborted | checkpoint => cases hop
  · rw [hleft.mgr]
    cases hm with
    | same | locked => exact hu
    | logged => exact (mem_insert _).mpr (.inr hu)
    | began | stamped => cases hop

private theorem failed_commit_active {f : Faults} {t : Nat} {e : Error} (h : db.step (.commit t) f = some (db',.failed e))
    {u : Nat} (hu : u ∈ db.mgr.activeTxns) : u ∈ db'.mgr.activeTxns := by
  rcases step_failed h with h | ⟨e,m,-,hleft,hm⟩
  · cases step_called h with
    | same => exact hu
    | locked _ hop => cases hop
  · rw [hleft.mgr]
    cases hm with
    | same | stamped => exact hu
    | locked hop | logged hop => cases hop

/-- In every reachable state, a put or delete outside a transaction that fails, at whatever stage, leaves the
active transactions and the locks as they were exactly when no transaction could be begun for it. -/
theorem failed_call_restores_iff {policy : IsolationPolicy} {as : List Attempt} (hrun : run tryStep (fresh policy) as = some db)
    {call : Call} (hcall : ∀ op, call ≠ .op op) (f : Nat → Faults) {e : Error}
    (h : db.attempt ⟨call,f⟩ = some (db',.failed e)) :
    db'.mgr.activeTxns = db.mgr.activeTxns ∧ db'.mgr.lockManager = db.mgr.lockManager ↔
      maxActiveTransactions ≤ db.mgr.activeTxns.entries.length := by
  have hnumbered : Numbered db.mgr := by
    refine manager_invariant (fun _ _ => .step) hrun (fun t ht => ?_)
    exact (notMem_empty t ht).elim
  obtain ⟨body,hbody,hcalled⟩ : ∃ body : Nat → Op, (∀ t, ∃ k v, (body t).write? = some (t,k,v)) ∧
      db.implicitly f body = some (db',.failed e) := by
    cases call with
    | op op => exact (hcall op rfl).elim
    | put | delete => exact ⟨_,fun t => ⟨_,_,rfl⟩,h⟩
  obtain ⟨db₁,out₁,hbegin,hrest⟩ := implicitly_cases hcalled
  rcases begin_limit hbegin with ⟨hlimit,rfl,hno⟩ | ⟨hlimit,hactive⟩
  · rcases hrest with ⟨-,rfl,-⟩ | ⟨t,-,-,hbegan,-⟩
    · exact iff_of_true ⟨rfl,rfl⟩ hlimit
    · exact (hno t hbegan).elim
  · refine iff_of_false (fun hsame => ?_) hlimit
    have hleaked : db.mgr.nextTxnId ∈ db'.mgr.activeTxns := by
      rcases hrest with ⟨-,rfl,-⟩ | ⟨t,db₂,out₂,rfl,hwrite,hend⟩
      · exact hactive
      · obtain ⟨k,v,hop⟩ := hbody t
        have hactive' := write_active hop hwrite hactive
        rcases hend with ⟨-,rfl,-⟩ | ⟨-,hcommit⟩
        · exact hactive'
        · exact failed_commit_active hcommit hactive'
    rw [hsame.1] at hleaked
    exact lt_irrefl _ (hnumbered _ hleaked)

private def beginReader : Attempt := ⟨.op (.begin .readOnly), fun _ => .none⟩

private theorem beginReader_step {n : Nat} (hlen : db.mgr.activeTxns.entries.length = n) (hid : db.mgr.nextTxnId = n + 1)
    (hts : db.mgr.nextTs = n + 1) (hn : n < maxActiveTransactions) :
    db.tryStep beginReader = some { db with mgr := db.mgr.started .readOnly Lsn.invalid } := by
  have hlimit : ¬maxActiveTransactions ≤ n := not_le.mpr hn
  have hu64 : n + 1 < u64Max := by
    simp only [maxActiveTransactions,u64Max] at hn ⊢
    omega
  simp only [tryStep,attempt,step,beginReader,beginTxn,TransactionManager.begin,TransactionManager.nextTimestamp,hlen,hid,
    hts,if_neg hlimit,if_pos hu64]
  simp [TransactionManager.started,hid,hts]

private theorem beginReaders (db : Database) {n : Nat} (hid : db.mgr.nextTxnId = n + 1) (hts : db.mgr.nextTs = n + 1)
    (hlen : db.mgr.activeTxns.entries.length = n) (hnum : Numbered db.mgr) (k : Nat) (hk : n + k ≤ maxActiveTransactions) :
    ∃ db', run tryStep db (List.replicate k beginReader) = some db' ∧ db'.mgr.activeTxns.entries.length = n + k := by
  induction k generalizing db n with
  | zero => exact ⟨db,rfl,hlen⟩
  | succ k ih =>
    have hstep := beginReader_step hlen hid hts (by omega)
    have hnew : db.mgr.nextTxnId ∉ db.mgr.activeTxns := fun hmem => lt_irrefl _ (hnum _ hmem)
    obtain ⟨db',hdb',hlen'⟩ := ih { db with mgr := db.mgr.started .readOnly Lsn.invalid } (n := n + 1)
      (by simp [TransactionManager.started,hid]) (by simp [TransactionManager.started,hts])
      (by simp [TransactionManager.started,insert_of_notMem hnew,hlen]) (hnum.step (.begin _ _)) (by omega)
    refine ⟨db',?_,by omega⟩
    rw [List.replicate_succ,run,hstep]
    exact hdb'

end Database

/-- At the limit nothing is begun, and nothing is left behind. -/
theorem Database.failed_call_restores_at_limit : ∃ db db' e,
    run Database.tryStep (.fresh .snapshotIsolation) (List.replicate maxActiveTransactions Database.beginReader) = some db ∧
    db.attempt ⟨.put [7] [1],fun _ => .none⟩ = some (db',.failed e) ∧
    db'.mgr.activeTxns = db.mgr.activeTxns ∧ db'.mgr.lockManager = db.mgr.lockManager := by
  obtain ⟨db,hdb,hlen⟩ := beginReaders (.fresh .snapshotIsolation) (n := 0) rfl rfl rfl
    (fun t ht => (notMem_empty t ht).elim) maxActiveTransactions (by omega)
  have hlimit : maxActiveTransactions ≤ db.mgr.activeTxns.entries.length := by omega
  have hput : db.attempt ⟨.put [7] [1],fun _ => .none⟩ = some (db,.failed (.txnLimit maxActiveTransactions)) := by
    simp [Database.attempt,Database.implicitly,Database.step,Database.beginTxn,TransactionManager.begin,hlimit]
  exact ⟨db,db,_,hdb,hput,(failed_call_restores_iff hdb (by simp) _ hput).mpr hlimit⟩

/-- A put that the engine fails stays an active transaction with its lock: the next put of the key times out,
and stays active too. -/
theorem Database.failed_put_stays_active : ∃ db₁ db₂,
    (Database.fresh .snapshotIsolation).attempt
      ⟨.put [7] [1],fun _ => { Faults.none with write := some ⟨.io "write failed",id⟩ }⟩ = some (db₁,.failed (.io "write failed")) ∧
    db₁.attempt ⟨.put [7] [2],fun _ => .none⟩ = some (db₂,.failed .lockTimeout) ∧ db₂.mgr.activeTxnIds = [2,1] ∧
    db₂.mgr.lockManager.Holds 1 [7] := by
  obtain ⟨⟨⟨db₁,out₁⟩,db₂,out₂⟩,hrun,heq⟩ := map_eq_some_iff.mp (show (((fresh .snapshotIsolation).attempt
      ⟨.put [7] [1],fun _ => { Faults.none with write := some ⟨.io "write failed",id⟩ }⟩).bind (fun x =>
        (x.1.attempt ⟨.put [7] [2],fun _ => .none⟩).map (fun y => (x,y)))).map (fun z =>
          (z.1.2,z.2.2,z.2.1.mgr.activeTxnIds,(z.2.1.mgr.lockManager.lockTable.lookup [7]).map (fun e => decide (1 ∈ e.holders)))) =
      some (.failed (.io "write failed"),.failed .lockTimeout,[2,1],some true) by decide +kernel)
  obtain ⟨x,hx,hy⟩ := bind_eq_some_iff.mp hrun
  obtain ⟨y,hy,hxy⟩ := map_eq_some_iff.mp hy
  cases hxy
  simp only [Prod.mk.injEq,map_eq_some_iff,decide_eq_true_eq] at heq
  obtain ⟨rfl,rfl,hids,e,he,hmem⟩ := heq
  exact ⟨db₁,db₂,hx,hy,hids,e,he,hmem⟩

end InterchangeDb
