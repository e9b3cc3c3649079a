import InterchangeDb.Sql.Push
import InterchangeDb.Sql.RowTypes
import InterchangeDb.Sql.Worth

/-! Push against pull execution: groups come out in one order, whatever their map does, and sinks simulate operators. -/
namespace InterchangeDb
open List InterchangeDb.Action Prod
open KeyEnc (Fits)

section Ranks
variable {a b : Value} {ty : ColumnType} {types : List ColumnType}

/-- Where a value stands among those of its type; NULL is below all. -/
def Value.rank : Value → WithBot (ℚ ×ₗ Bytes)
  | .null => ⊥
  | v => v.worth

private theorem rank_of_ne_null (h : a ≠ .null) : a.rank = a.worth := by
  cases a <;> first | rfl | exact absurd rfl h

private theorem kind_of_matches (ha : a.matchesType ty = true) (hb : b.matchesType ty = true)
    (hna : a ≠ .null) (hnb : b ≠ .null) : a.kind = b.kind := by
  cases ty <;> cases a <;> first | exact absurd rfl hna | (cases ha; done) | skip
  all_goals cases b <;> first | exact absurd rfl hnb | (cases hb; done) | rfl

theorem Value.compareSql_rank (ha : a.matchesType ty = true) (hb : b.matchesType ty = true)
    (hna : a ≠ .null) (hnb : b ≠ .null) : a.compareSql b = some (cmp a.rank b.rank) := by
  rw [compareSql_eq,if_pos ⟨fun h => hna (kind_eq_none_iff.mp h),kind_of_matches ha hb hna hnb⟩,
    rank_of_ne_null hna,rank_of_ne_null hnb]
  exact congrArg some (WithBot.coe_strictMono.cmp_map_eq _ _).symm

private theorem rank_null_lt (h : a ≠ .null) : Value.null.rank < a.rank := by
  rw [rank_of_ne_null h]
  exact WithBot.bot_lt_coe _

theorem compareGroupKey_rank (ha : a.matchesType ty = true) (hb : b.matchesType ty = true) :
    compareGroupKey a b = some (rankOrder a.rank b.rank) := by
  by_cases hna : a = .null
  · subst hna
    by_cases hnb : b = .null
    · subst hnb
      rw [rankOrder,cmp_self_eq_eq]
      rfl
    · rw [rankOrder,(cmp_eq_lt_iff _ _).mpr (rank_null_lt hnb)]
      cases b <;> first | rfl | exact absurd rfl hnb
  · by_cases hnb : b = .null
    · subst hnb
      rw [rankOrder,(cmp_eq_gt_iff _ _).mpr (rank_null_lt hna)]
      cases a <;> first | rfl | exact absurd rfl hna
    · rw [rankOrder,← Value.compareSql_rank ha hb hna hnb]
      cases a <;> cases b <;> first | rfl | exact absurd rfl hna | exact absurd rfl hnb

theorem compareKeys_rank {a b : List Value} (ha : Fits a types) (hb : Fits b types) :
    compareKeys a b = some (rankOrder (a.map Value.rank) (b.map Value.rank)) := by
  induction ha generalizing b with
  | nil =>
    cases hb
    rw [map_nil,rankOrder,cmp_self_eq_eq]
    rfl
  | cons hv _ ih =>
    cases hb with
    | @cons w _ _ _ hw hb =>
      rw [map_cons,map_cons,rankOrder_cons,compareKeys,compareGroupKey_rank hv hw]
      split
      · next heq => rw [if_pos (Option.some.inj heq),ih hb]
      · next hne => rw [if_neg (fun heq => hne (congrArg some heq))]

theorem Value.rank_inj (ha : a.matchesType ty = true) (hb : b.matchesType ty = true) (h : a.rank = b.rank) : a = b := by
  by_cases hna : a = .null
  · subst hna
    by_contra hnb
    exact absurd h (rank_null_lt (symm hnb)).ne
  by_cases hnb : b = .null
  · subst hnb
    exact absurd h.symm (rank_null_lt hna).ne
  rw [rank_of_ne_null hna,rank_of_ne_null hnb] at h
  exact eq_of_worth ha hb (kind_of_matches ha hb hna hnb) (WithBot.coe_injective h)

theorem map_rank_inj {a b : List Value} (ha : Fits a types) (hb : Fits b types)
    (h : a.map Value.rank = b.map Value.rank) : a = b := by
  induction ha generalizing b with
  | nil =>
    cases hb
    rfl
  | cons hv _ ih =>
    cases hb with
    | cons hw hb =>
      rw [map_cons,map_cons] at h
      obtain ⟨hhead,htail⟩ := cons.inj h
      rw [Value.rank_inj hv hw hhead,ih hb htail]

/-- Groups come out in one order, whatever the order of the map. -/
theorem HashOrder.sorted_eq {keyTypes : List ColumnType} {aggregates : List AggregateSpec} {groups : List Group}
    (h : GroupsTyped types keyTypes aggregates groups) (order order' : HashOrder) :
    order'.sorted groups = order.sorted groups := by
  have hmem : ∀ g ∈ order.drain groups, g ∈ groups := fun g hg => (order.perm groups).mem_iff.mp hg
  refine sortBy_eq_of_perm (fun g : Group => g.1.map Value.rank) (fun a ha b hb => ?_) (fun a ha b hb hab => ?_)
    ((order.perm groups).trans (order'.perm groups).symm)
  · exact compareKeys_rank (h.keys a (hmem a ha)) (h.keys b (hmem b hb))
  · have hkey := map_rank_inj (h.keys a (hmem a ha)) (h.keys b (hmem b hb)) hab
    exact inj_on_of_nodup_map h.nodup (hmem a ha) (hmem b hb) hkey

end Ranks

section Orders
variable {S : Type}

private theorem groupsTyped_nil (types keyTypes : List ColumnType) (aggregates : List AggregateSpec) :
    GroupsTyped types keyTypes aggregates [] :=
  ⟨fun _ h => (not_mem_nil h).elim,fun _ h => (not_mem_nil h).elim,nodup_nil⟩

theorem grouped_eq {types keyTypes : List ColumnType} {groupBy : List Nat} {aggregates : List AggregateSpec}
    {input : Stream S Error Row} (hinput : input.All (Fits · types))
    (hkeys : List.Forall₂ (fun c ty => types[c]? = some ty) groupBy keyTypes) (order order' : HashOrder) :
    grouped order types groupBy aggregates input = grouped order' types groupBy aggregates input := by
  refine hinput.gather_congr (I := GroupsTyped types keyTypes aggregates)
    (fun groups row s groups' s' hg hrow h => groupRow_typed hkeys hg hrow h) (fun groups hg => ?_)
    (groupsTyped_nil types keyTypes aggregates)
  rw [emitGroups,emitGroups,HashOrder.sorted_eq hg order' order]

/-- What a plan is built into does not depend on the orders of its hash maps. -/
theorem Volcano.build_orders {x : ExecContext S} {plan : PhysOp} (hplan : plan.Honest x) (orders orders' : HashOrders)
    (s : S) : Volcano.build x plan orders s = Volcano.build x plan orders' s := by
  induction plan generalizing orders orders' s with
  | seqScan | indexScan | pkLookup | insert => rfl
  | derivedScan _ _ _ ih => exact bind_congr (ih hplan.1 _ _ s) (fun _ _ _ => rfl)
  | filter _ _ ih | projection _ _ ih | compute _ _ ih | sort _ _ ih | limit _ _ ih | indexNestedLoopJoin _ _ _ _ ih =>
    exact bind_congr (ih hplan _ _ s) (fun _ _ _ => rfl)
  | nestedLoopJoin _ _ _ _ ihOuter ihInner | hashJoin _ _ _ _ _ _ ihOuter ihInner | mergeJoin _ _ _ _ ihOuter ihInner =>
    exact bind_congr (ihOuter hplan.1 _ _ s) (fun _ s₁ _ => bind_congr (ihInner hplan.2 _ _ s₁) (fun _ _ _ => rfl))
  | update _ _ _ ih | delete _ _ ih => exact bind_congr rfl (fun _ s₁ _ => bind_congr (ih hplan _ _ s₁) (fun _ _ _ => rfl))
  | hashAggregate input groupBy aggregates ih =>
    refine bind_congr (ih hplan _ _ s) (fun child s₁ hchild => ?_)
    split
    · rfl
    refine bind_congr rfl (fun _ s₂ _ => bind_congr rfl (fun columns s₃ hcolumns =>
      bind_congr rfl (fun _ s₄ _ => ?_)))
    obtain ⟨keyTypes,outs,hkeys,-,-⟩ := aggregateOutputColumns_types (ran_lift.mp hcolumns).1
    have hinput : input.Honest x := hplan
    rw [grouped_eq (build_typed hinput hchild) hkeys (orders []) (orders' [])]

end Orders

section Pipelines
variable {S : Type}
variable {x : ExecContext S} {orders orders' : HashOrders} {s s₁ s₂ t : S} {pipeline : Pipeline S}
  {rows : Stream S Error Row} {out : Sink}

/-- A run of the pipeline is a run of its sink over rows that go on where those of the operator may fail. Below a limit of
no rows the state may be another one, but then nothing comes. -/
structure Agrees (x : ExecContext S) (op : Operator S) (s : S) (pipeline : Pipeline S) (s' : S) : Prop where
  schema : pipeline.schema = op.schema
  run : ∀ out r t, pipeline.run out s' = some (.ok (r,t)) → ∃ rows s₂, op.rows.Le rows ∧ (s₂ = s ∨ rows = .done) ∧
    out.drive x rows s₂ = some (.ok (r,t))

theorem Push.delegate_agrees {plan : PhysOp} (hplan : plan.Honest x) {op : Operator S}
    (hpull : Volcano.build x plan orders s = some (.ok (op,s₁)))
    (hpush : Push.delegate x plan orders' s = some (.ok (pipeline,s₂))) : Agrees x op s₁ pipeline s₂ := by
  obtain ⟨op',s₃,hop,hpush⟩ := ran_bind.mp hpush
  obtain ⟨rfl,rfl⟩ := ran_pure.mp hpush
  rw [Volcano.build_orders hplan orders' orders,hpull] at hop
  cases hop
  exact ⟨rfl,fun out r t hrun => ⟨op.rows,s₁,.refl _,.inl rfl,hrun⟩⟩

private theorem decodeRows_eq {t : Table} {entries : List (Bytes × Bytes)} {rows : List Row}
    (h : t.decodeRows entries = .ok rows) :
    (Stream.ofExcepts (entries.map (fun entry => Tuple.decode t.schema.columnTypes entry.2)) : Stream S Error Row) =
      .ofList rows := by
  induction entries generalizing rows with
  | nil =>
    cases h
    rfl
  | cons entry entries ih =>
    obtain ⟨values,hvalues,h⟩ := bind_eq_ok h
    obtain ⟨rest,hrest,h⟩ := bind_eq_ok h
    cases h
    rw [map_cons,hvalues,Stream.ofExcepts,ih hrest]
    rfl

private theorem scan_agrees {t : Table} {rows : List Row} (h : t.scan.exec x.handle s = some (.ok (rows,s₁))) (out : Sink) :
    out.drive x (Push.scanRows x t) s = out.drive x (.ofList rows) s₁ := by
  unfold Table.scan at h
  cases hnext : TableId.next t.schema.tableId with
  | error e =>
    rw [hnext] at h
    cases h
  | ok nextTid =>
    rw [hnext] at h
    obtain ⟨entries,s₂,hentries,h⟩ := ran_bind.mp h
    obtain ⟨hrows,rfl⟩ := ran_ofExcept.mp h
    unfold Sink.drive Push.scanRows
    rw [hnext,Stream.feed_ofAction,bind_of_some (a := nextTid) rfl,Stream.feed_ofAction,bind_of_some hentries,
      decodeRows_eq hrows]

private theorem feed_pushThrough {K : Type} (push : K → Row → Action S Error (Stream.Flow × K)) (finish : K → Action S Error K)
    (f : Row → Action S Error (Option Row)) (rows : Stream S Error Row) (st : K) :
    Stream.feed (Sink.pushThrough push f) finish rows st = Stream.feed push finish (rows.filterMap f) st := by
  have h : Stream.feed (Sink.pushThrough push f) finish rows (id st) =
      id <$> Stream.feed push finish (rows.filterMap f) st := by
    refine Stream.feed_filterMap (fun k row => ?_) (fun k => (id_map _).symm) rows st
    simp only [Sink.pushThrough,id]
    congr 1
    funext r
    cases r with
    | none => rfl
    | some row => exact (id_map _).symm
  rwa [id_map] at h

private theorem emitGroups_le (order : HashOrder) (aggregates : List AggregateSpec) (groups : List Group) :
    (emitGroups order aggregates groups : Stream S Error Row).Le (Sink.emitLazily order aggregates groups) := by
  rw [emitGroups,Sink.emitLazily]
  cases order.sorted groups with
  | none => exact .crash _
  | some sorted => exact .ofOutcome sorted

private theorem emitLazily_nil (order : HashOrder) (aggregates : List AggregateSpec) :
    (Sink.emitLazily order aggregates [] : Stream S Error Row) = .done := by
  have hsorted : order.sorted [] = some [] := by
    rw [HashOrder.sorted,perm_nil.mp (order.perm [])]
    rfl
  rw [Sink.emitLazily,hsorted]
  rfl

private abbrev With (A : Type) (out : Sink) : Type := A × out.State

private theorem drive_limit {n : Nat} {r : With Nat out} (h : (Sink.limit (n+1) out).drive x rows s = some (.ok (r,t))) :
    out.drive x (rows.take (n+1)) s = some (.ok (r.2,t)) := by
  let push : With Nat out → Row → Action S Error (Stream.Flow × With Nat out) := (Sink.limit (n+1) out).push x
  let finish : With Nat out → Action S Error (With Nat out) := (Sink.limit (n+1) out).finish x
  have hpush : ∀ m (k : out.State) row, push (.mk (m+1) k) row =
      (fun r => (if m = 0 then .stop else r.1,mk m r.2)) <$> out.push x k row := fun m k row => rfl
  have hfinish : ∀ m (k : out.State), finish (.mk m k) = mk m <$> out.finish x k :=
    fun m k => rfl
  have h : Stream.feed push finish rows (.mk (n+1) out.init) s = some (.ok (r,t)) := h
  obtain ⟨m,k,rfl,hfeed⟩ := Stream.feed_take hpush hfinish rows h
  exact hfeed

private theorem drive_limit_zero {r : With Nat out} (h : (Sink.limit 0 out).drive x rows s = some (.ok (r,t))) :
    ∃ s', out.drive x .done s' = some (.ok (r.2,t)) := by
  let push : With Nat out → Row → Action S Error (Stream.Flow × With Nat out) := (Sink.limit 0 out).push x
  let finish : With Nat out → Action S Error (With Nat out) := (Sink.limit 0 out).finish x
  have hpush : ∀ (k : out.State) row, push (mk 0 k) row = pure (.stop,mk 0 k) := fun k row => rfl
  have hfinish : ∀ k : out.State, finish (.mk 0 k) = mk 0 <$> out.finish x k :=
    fun k => rfl
  have h : Stream.feed push finish rows (.mk 0 out.init) s = some (.ok (r,t)) := h
  obtain ⟨s',k,rfl,hdone⟩ := Stream.feed_take_zero hpush hfinish rows h
  exact ⟨s',hdone⟩

private theorem drive_grouped {order : HashOrder} {types : List ColumnType} {groupBy : List Nat}
    {aggregates : List AggregateSpec} {r : With (List Group) out}
    (h : (Sink.groupedAggregate order types groupBy aggregates out).drive x rows s = some (.ok (r,t))) :
    out.drive x (rows.gather (groupRow types groupBy aggregates) (Sink.emitLazily order aggregates) []) s =
      some (.ok (r.2,t)) := by
  let push : With (List Group) out → Row → Action S Error (Stream.Flow × With (List Group) out) :=
    (Sink.groupedAggregate order types groupBy aggregates out).push x
  let finish : With (List Group) out → Action S Error (With (List Group) out) :=
    (Sink.groupedAggregate order types groupBy aggregates out).finish x
  have hpush : ∀ g (k : out.State) row, push (.mk g k) row =
      (fun g => (.continue,.mk g k)) <$> groupRow types groupBy aggregates g row :=
    fun g k row => rfl
  have hfinish : ∀ g (k : out.State), finish (.mk g k) =
      mk [] <$> Stream.feed (out.push x) (out.finish x) (Sink.emitLazily order aggregates g) k :=
    fun g k => rfl
  have h : Stream.feed push finish rows (.mk [] out.init) s = some (.ok (r,t)) := h
  rw [Stream.feed_gather hpush hfinish] at h
  obtain ⟨k,hk,rfl⟩ := map_eq_some h
  exact hk

private theorem Agrees.through {child : Operator S} {f : Row → Action S Error (Option Row)} {schema : RowSchema}
    (hschema : pipeline.schema = schema) (hrun : ∀ (out : Sink) r t, pipeline.run out s₂ = some (.ok (r,t)) → ∃ rows s₃,
      child.rows.Le rows ∧ (s₃ = s₁ ∨ rows = .done) ∧
        Stream.feed (Sink.pushThrough (out.push x) f) (out.finish x) rows out.init s₃ = some (.ok (r,t))) :
    Agrees x ⟨schema,child.rows.filterMap f⟩ s₁ pipeline s₂ := by
  refine ⟨hschema,fun out r t h => ?_⟩
  obtain ⟨rows,s₃,hle,hstate,hdrive⟩ := hrun out r t h
  rw [feed_pushThrough] at hdrive
  exact ⟨rows.filterMap f,s₃,hle.filterMap,hstate.imp_right (fun hdone => by rw [hdone]; rfl),hdrive⟩

theorem Push.build_agrees {plan : PhysOp} (hplan : plan.Honest x) {op : Operator S}
    (hpull : Volcano.build x plan orders s = some (.ok (op,s₁)))
    (hpush : Push.build x plan orders' s = some (.ok (pipeline,s₂))) : Agrees x op s₁ pipeline s₂ := by
  induction plan generalizing orders orders' s s₁ s₂ op pipeline with
  | indexScan | pkLookup | derivedScan | nestedLoopJoin | indexNestedLoopJoin | hashJoin | mergeJoin | sort
  | insert | update | delete =>
    exact Push.delegate_agrees hplan hpull hpush
  | seqScan table =>
    simp only [Volcano.build,Push.build,ran_bind,ran_pure] at hpull hpush
    obtain ⟨t,s₃,ht,rows,s₄,hrows,rfl,rfl⟩ := hpull
    obtain ⟨t',s₅,ht',rfl,rfl⟩ := hpush
    cases ht.symm.trans ht'
    exact ⟨rfl,fun out r u hrun => ⟨.ofList rows,s₄,.refl _,.inl rfl,scan_agrees hrows out ▸ hrun⟩⟩
  | filter input predicate ih =>
    simp only [Volcano.build,Push.build,ran_bind,ran_check,ran_pure] at hpull hpush
    obtain ⟨child,s₃,hchild,-,s₄,⟨-,rfl⟩,rfl,rfl⟩ := hpull
    obtain ⟨-,s₅,⟨-,rfl⟩,child',s₆,hchild',rfl,rfl⟩ := hpush
    have hagree := ih hplan hchild hchild'
    exact .through hagree.schema (fun out r t hrun => hagree.run (.filter predicate out) r t hrun)
  | projection input cols ih =>
    simp only [Volcano.build,Push.build,ran_bind,ran_ofExcept,ran_pure] at hpull hpush
    obtain ⟨child,s₃,hchild,columns,s₄,⟨hfound,rfl⟩,rfl,rfl⟩ := hpull
    obtain ⟨child',s₅,hchild',columns',s₆,⟨hfound',rfl⟩,rfl,rfl⟩ := hpush
    have hagree := ih hplan hchild hchild'
    rw [hagree.schema,hfound] at hfound'
    cases hfound'
    exact .through (congrArg (RowSchema.withColumns · columns) hagree.schema)
      (fun out r t hrun => hagree.run (.projection cols out) r t hrun)
  | compute input exprs ih =>
    simp only [Volcano.build,Push.build,ran_bind,ran_lift,ran_check,ran_pure] at hpull hpush
    obtain ⟨child,s₃,hchild,columns,s₄,⟨hfound,rfl⟩,-,s₅,⟨-,rfl⟩,rfl,rfl⟩ := hpull
    obtain ⟨-,s₆,⟨-,rfl⟩,child',s₇,hchild',columns',s₈,⟨hfound',rfl⟩,rfl,rfl⟩ := hpush
    have hagree := ih hplan hchild hchild'
    rw [hagree.schema,hfound] at hfound'
    cases hfound'
    exact .through (congrArg (RowSchema.withColumns · columns) hagree.schema)
      (fun out r t hrun => hagree.run (.compute exprs out) r t hrun)
  | hashAggregate input groupBy aggregates ih =>
    rw [Push.build] at hpush
    by_cases hempty : groupBy.isEmpty = true
    · rw [if_pos hempty] at hpush
      exact Push.delegate_agrees hplan hpull hpush
    rw [if_neg hempty] at hpush
    obtain ⟨child,s₃,hchild,hpull⟩ := ran_bind.mp hpull
    split at hpull
    · cases hpull
    simp only [ran_bind,ran_lift,ran_check,ran_pure] at hpull hpush
    obtain ⟨-,s₄,⟨-,rfl⟩,columns,s₅,⟨hfound,rfl⟩,-,s₆,⟨-,rfl⟩,rfl,rfl⟩ := hpull
    obtain ⟨-,s₇,⟨-,rfl⟩,child',s₈,hchild',columns',s₉,⟨hfound',rfl⟩,rfl,rfl⟩ := hpush
    have hinput : input.Honest x := hplan
    have hagree := ih hinput hchild hchild'
    rw [hagree.schema,hfound] at hfound'
    cases hfound'
    obtain ⟨keyTypes,outs,hkeys,-,-⟩ := aggregateOutputColumns_types hfound
    refine ⟨rfl,fun out r t hrun => ?_⟩
    obtain ⟨r',hgrouped,rfl⟩ := map_eq_some hrun
    obtain ⟨rows,s₁₀,hle,hstate,hdrive⟩ := hagree.run (.groupedAggregate (orders' []) child'.schema.types groupBy aggregates out) r' t hgrouped
    have hdrive := drive_grouped hdrive
    rw [hagree.schema] at hdrive
    refine ⟨_,s₁₀,?_,?_,hdrive⟩
    · rw [grouped_eq (Volcano.build_typed hinput hchild) hkeys (orders []) (orders' [])]
      exact hle.gather (emitGroups_le (orders' []) aggregates) []
    · refine hstate.imp_right (fun hdone => ?_)
      rw [hdone]
      exact emitLazily_nil (orders' []) aggregates
  | limit input maxRows ih =>
    simp only [Volcano.build,Push.build,ran_bind,ran_pure] at hpull hpush
    obtain ⟨child,s₃,hchild,rfl,rfl⟩ := hpull
    obtain ⟨child',s₅,hchild',rfl,rfl⟩ := hpush
    have hagree := ih hplan hchild hchild'
    refine ⟨hagree.schema,fun out r t hrun => ?_⟩
    obtain ⟨r',hlimit,rfl⟩ := map_eq_some hrun
    obtain ⟨rows,s₇,hle,hstate,hdrive⟩ := hagree.run (.limit maxRows out) r' t hlimit
    cases maxRows with
    | zero =>
      obtain ⟨s₈,hdone⟩ := drive_limit_zero hdrive
      refine ⟨.done,s₈,?_,.inr rfl,hdone⟩
      rw [Stream.take_zero]
      exact .done
    | succ n =>
      exact ⟨rows.take (n+1),s₇,hle.take (n+1),hstate.imp_right (fun hdone => by rw [hdone]; rfl),drive_limit hdrive⟩

private theorem collector_collects {r : List Row}
    (h : Sink.collector.drive x rows s = some (.ok (r,t))) : rows.collect s = some (.ok (r,t)) := by
  let push : List Row → Row → Action S Error (Stream.Flow × List Row) := Sink.collector.push x
  let finish : List Row → Action S Error (List Row) := Sink.collector.finish x
  have hpush : ∀ (l : List Row) row, push (id l) row = pure (.continue,id (l ++ [row])) := fun _ _ => rfl
  have hfinish : ∀ l : List Row, finish (id l) = pure (id l) := fun _ => rfl
  have hfeed := congrFun (Stream.feed_collect hpush hfinish rows []) s
  obtain ⟨l,hl,rfl⟩ := map_eq_some (hfeed.symm.trans h)
  exact hl

end Pipelines

section Results

/-- Both ways of running a plan in which derived tables declare the types of their subplans give one schema and the same
rows in one order, if neither fails. -/
theorem Push.execute_eq_pull {S : Type} {x : ExecContext S} {plan : PhysOp} (hplan : plan.Honest x)
    {orders orders' : HashOrders} {s s₁ s₂ : S} {pulled pushed : RowSchema × List Row}
    (hpull : Volcano.execute x plan orders s = some (.ok (pulled,s₁)))
    (hpush : Push.execute x plan orders' s = some (.ok (pushed,s₂))) : pushed = pulled := by
  simp only [Volcano.execute,Push.execute,ran_bind,ran_pure] at hpull hpush
  obtain ⟨op,t₁,hop,rows,t₂,hrows,rfl,rfl⟩ := hpull
  obtain ⟨pipeline,u₁,hpipeline,collected,u₂,hcollected,rfl,rfl⟩ := hpush
  have hagree := Push.build_agrees hplan hop hpipeline
  obtain ⟨given,t₃,hle,hstate,hdrive⟩ := hagree.run .collector collected u₂ hcollected
  have hcollect := collector_collects hdrive
  have hgiven := hle.collect hrows
  rw [hagree.schema]
  rcases hstate with rfl | rfl
  · cases hgiven.symm.trans hcollect
    rfl
  · cases hgiven
    cases hcollect
    rfl

private def mislabelled : PhysOp :=
  .hashAggregate (.compute (.derivedScan "d" (.seqScan "t") [⟨"a",.int32,false,none⟩,⟨"b",.int32,true,none⟩])
    [.case (.when (.compare .eq (.column 0) (.literal (.int32 1))) (.column 0) (.orElse (.column 1)))]) [0] [.countStar]

private def reversed : HashOrders := fun _ => ⟨List.reverse,reverse_perm⟩

/-- Two groups of one row each, of which a limit takes the first. -/
theorem Push.execute_eq_pull_counted : ∃ pulled pushed,
    Volcano.execute numbersContext counted asHashed twoNumbers = some (.ok (pulled,twoNumbers)) ∧
    Push.execute numbersContext counted reversed twoNumbers = some (.ok (pushed,twoNumbers)) ∧ pushed = pulled := by
  have hplan : counted.Honest numbersContext := trivial
  have hpull : Volcano.execute numbersContext counted asHashed twoNumbers = some (.ok (firstCount,twoNumbers)) := rfl
  have hpush : Push.execute numbersContext counted reversed twoNumbers = some (.ok (firstCount,twoNumbers)) := rfl
  exact ⟨firstCount,firstCount,hpull,hpush,Push.execute_eq_pull hplan hpull hpush⟩

/-- The keys INT 1 and BIGINT 1 are two groups, and neither comes first. -/
theorem Push.execute_ne_pull_mislabelled : ∃ schema a b,
    Volcano.execute numbersContext mislabelled asHashed twoNumbers = some (.ok ((schema,[a,b]),twoNumbers)) ∧
    Push.execute numbersContext mislabelled reversed twoNumbers = some (.ok ((schema,[b,a]),twoNumbers)) ∧ a ≠ b :=
  ⟨_,[.int32 1,.int64 1],[.int64 1,.int64 1],rfl,rfl,by decide⟩

end Results

end InterchangeDb
