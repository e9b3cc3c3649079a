import InterchangeDb.Sql.Lookups
import InterchangeDb.Sql.StoreWrites

/-! UPDATE assigns to the rows it has read, as long as each of them stands under the key its values name. Other rows, and
other indexes, may be in any state. -/
namespace InterchangeDb
open List Option InterchangeDb.Action
open KeyEnc

section Planning

/-- The plan that reaches the rows; none for a panic. -/
def planAccess (t : Table) (filter : Option Predicate) : Option PhysOp :=
  match filter with
  | none => some (.seqScan t.schema.name)
  | some pred =>
    match tryLowerPkLookup pred t.schema with
    | some pk => some (.pkLookup t.schema.name pk)
    | none => do
      match ← tryLowerIndexPredicate pred t.indexes with
      | .matched handle lead recheck => some (.filter (.indexScan t.schema.name handle.definition.name lead) recheck)
      | .unmatched pred => some (.filter (.seqScan t.schema.name) pred)

def planUpdate (t : Table) (setClauses : List (Nat × Expression)) (filter : Option Predicate) : Option PhysOp := do
  let child ← planAccess t filter
  return .update t.schema.name child setClauses

end Planning

section Meaning

/-- The WHERE condition is TRUE for the row. -/
def selects (x : ExecContext Store) (σ : Store) (filter : Option Predicate) (row : Row) : Bool :=
  match filter with
  | none => true
  | some p => decide (p.eval .empty x.sets (x.rowEvaluators σ) row = some ⟨some true,none⟩)

/-- The value of a column after the assignments, whose right sides are all evaluated on the old row. The last assignment to
the column counts. -/
def assigned (set : List (Nat × Expression)) (row : Row) (i : Nat) : Option Value :=
  set.foldl (fun v clause => if clause.1 = i then clause.2.eval .empty row else v) row[i]?

def Assigned (set : List (Nat × Expression)) (row row' : Row) : Prop :=
  row'.length = row.length ∧ ∀ i < row.length, row'[i]? = assigned set row i

/-- A simultaneous assignment to the rows of a table that the condition selects, with their number as the result. -/
structure Assigns (x : ExecContext Store) (t : Table) (set : List (Nat × Expression)) (filter : Option Predicate)
    (σ σ' : Store) (result : List Row) : Prop where
  updated : ∀ key row, σ.HoldsAt t key row → selects x σ filter row = true →
    ∃ row', σ'.HoldsAt t key row' ∧ Assigned set row row'
  kept : ∀ key, (∀ row, σ.HoldsAt t key row → selects x σ filter row = false) →
    OrdMap.get σ'.rows key = OrdMap.get σ.rows key
  counted : ∃ keys : List Bytes, keys.Nodup
    ∧ (∀ key, key ∈ keys ↔ ∃ row, σ.HoldsAt t key row ∧ selects x σ filter row = true)
    ∧ result = Table.affected keys.length

/-- A row stands under the key that its own primary key encodes to. -/
def Table.Owns (t : Table) (key : Bytes) (row : Row) : Prop :=
  ∃ pk, t.encodePkComponents (t.schema.pkValues row) = .ok pk ∧ key = makeRowKey t.schema.tableId pk

/-- The rows that the condition selects stand under their own keys; what stands under a key that is looked up is one of them;
and of the entries that are read from an index, exactly one leads to each of them. -/
structure Reaches (x : ExecContext Store) (t : Table) (filter : Option Predicate) (σ : Store) : Prop where
  keyed : σ.Keyed
  own : ∀ {key row}, σ.HoldsAt t key row → selects x σ filter row = true → t.Owns key row
  looked : ∀ {p values pk row}, filter = some p → tryLowerPkLookup p t.schema = some values →
    t.encodePkComponents values = .ok pk → σ.HoldsAt t (makeRowKey t.schema.tableId pk) row →
    selects x σ filter row = true
  entered : ∀ {p ix lead recheck encoded key row}, filter = some p → tryLowerPkLookup p t.schema = none →
    tryLowerIndexPredicate p t.indexes = some (.matched ix lead recheck) →
    encodeKeyComponents lead (ix.keyTypes.take lead.length) = .ok encoded → σ.HoldsAt t key row →
    selects x σ filter row = true →
    ∃! entry, (encoded <+: entry ∧ OrdMap.get (σ.entries ix.id) entry ≠ none) ∧ t.Leads ix entry key

end Meaning

section Reading
variable {tables : List Table} {x : ExecContext Store} {σ : Store} {t : Table}

private theorem keepRow_observes (p : Predicate) (row : Row) :
    (keepRow x p row).Observes σ (· = Option.guard (selects x σ (some p) ·) row) := by
  refine .query (fun r hr => ?_)
  obtain ⟨⟨truth,fault⟩,heval,h⟩ := bind_eq_some_iff.mp hr
  cases fault with
  | some e => cases h
  | none =>
    cases h
    simp [Option.guard,selects,heval]

section
variable {A : Type} {Q : A → Prop} {f : A → List Row} {a : Action Store Error A} {plan : PhysOp} {orders : HashOrders}

private theorem leaf_observes (hbuild : Volcano.build x plan orders = tableLeaf t f a) (h : a.Observes σ Q) :
    (Volcano.build x plan orders).Observes σ (fun op => ∃ y, op.rows = .ofList (f y) ∧ Q y) := by
  rw [hbuild]
  exact h.bind (fun y hy => .pure ⟨y,rfl,hy⟩)

private theorem filter_observes {p : Predicate} (hbuild : Volcano.build x plan (orders.child false) = tableLeaf t f a)
    (h : a.Observes σ Q) : (Volcano.build x (.filter plan p) orders).Observes σ
      (fun op => ∃ y, Q y ∧ op.rows.Follows σ ((f y).filter (selects x σ (some p)))) := by
  rw [Volcano.build]
  refine (leaf_observes hbuild h).bind ?_
  rintro op ⟨y,heq,hy⟩
  refine (Observes.check (R := fun _ => True) (fun _ => trivial)).bind (fun _ _ => .pure ⟨y,hy,?_⟩)
  rw [heq,← filterMap_eq_filter]
  exact (Stream.Follows.ofList (f y)).filterMap (fun row _ => keepRow_observes p row)

end

private theorem selects_pinned {p : Predicate} {c : Nat} {v : Value} (hp : pinned p = some (c,v)) {row : Row}
    (hrow : row[c]? = some (keyOf c row)) :
    selects x σ (some p) row = true ↔ (keyOf c row).compareSql v = some .eq := by
  obtain ⟨truth,heval,htruth⟩ := eval_pinned hp hrow x.sets (x.rowEvaluators σ)
  rw [selects,decide_eq_true_eq,heval,← htruth]
  simp

private theorem unmatched_eq {p p' : Predicate} {indexes : List IndexHandle}
    (h : tryLowerIndexPredicate p indexes = some (.unmatched p')) : p' = p := by
  unfold tryLowerIndexPredicate at h
  split at h
  · cases h
    rfl
  · split at h
    · cases h
      rfl
    · obtain ⟨ty,-,h⟩ := bind_eq_some_iff.mp h
      split at h
      · cases h
      · cases h
        rfl

/-- The rows of an operator are those that the condition selects, each once. -/
def Gives (x : ExecContext Store) (t : Table) (filter : Option Predicate) (σ : Store) (op : Operator Store) : Prop :=
  ∃ found : List (Bytes × Row), (found.map Prod.fst).Nodup
    ∧ (∀ key row, (key,row) ∈ found ↔ σ.HoldsAt t key row ∧ selects x σ filter row = true)
    ∧ op.rows.Follows σ (found.map Prod.snd)

section
variable (hx : x.OnStore tables) (hc : Catalogued tables) (ht : t ∈ tables) (orders : HashOrders) {p : Predicate}
include hx hc ht

private theorem pkLookup_gives (hr : Reaches x t (some p) σ) {values : List Value}
    (hlookup : tryLowerPkLookup p t.schema = some values) :
    (Volcano.build x (.pkLookup t.schema.name values) orders).Observes σ (Gives x t (some p) σ) := by
  obtain ⟨c,v,w,hpk,hp,hw,rfl⟩ := tryLowerPkLookup_eq_some hlookup
  refine (leaf_observes (build_pkLookup hx hc ht _) (t.getByPk_observes [w] σ)).imp ?_
  rintro op ⟨r,hop,pk,hencode,hfound⟩
  refine ⟨r.toList.map (makeRowKey t.schema.tableId pk,·),by cases r <;> simp,fun key row => ⟨fun h => ?_,?_⟩,?_⟩
  · obtain ⟨row',hrow',heq⟩ := mem_map.mp h
    obtain ⟨rfl,rfl⟩ := Prod.mk.inj heq
    have hheld := (hfound row').mp (mem_toList.mp hrow')
    exact ⟨hheld,hr.looked rfl hlookup hencode hheld⟩
  · rintro ⟨hheld,hsel⟩
    obtain ⟨pk',hpk',rfl⟩ := hr.own hheld hsel
    obtain ⟨hrow,hmatches⟩ := key_of_holds c hheld.holds
    have hvalue := ((compareSql_coerced hw hmatches).mp ((selects_pinned hp hrow).mp hsel)).1
    have hvalues : t.schema.pkValues row = [w] := by
      rw [← hvalue,Schema.pkValues,hpk,map_singleton,keyOf,getD_eq_getElem?_getD]
    rw [hvalues,hencode] at hpk'
    cases hpk'
    exact mem_map.mpr ⟨row,mem_toList.mpr ((hfound row).mpr hheld),rfl⟩
  · rw [hop,List.map_map]
    exact (map_id r.toList).symm ▸ .ofList r.toList

private theorem indexScan_gives (hr : Reaches x t (some p) σ) (hlookup : tryLowerPkLookup p t.schema = none)
    {ix : IndexHandle} {lead : List Value} {recheck : Predicate}
    (hlower : tryLowerIndexPredicate p t.indexes = some (.matched ix lead recheck)) :
    (Volcano.build x (.filter (.indexScan t.schema.name ix.definition.name lead) recheck) orders).Observes σ
      (Gives x t (some p) σ) := by
  obtain ⟨-,-,-,hix,-,-,-,-,rfl⟩ := tryLowerIndexPredicate_matched hc ht hlower
  refine (filter_observes (build_indexScan hx hc ht hix _) (t.indexScan_observes ix lead σ)).imp ?_
  rintro op ⟨_,⟨encoded,found,hencoded,rfl,hnodup,hmem⟩,hop⟩
  have hselected : ∀ {f}, f ∈ found.filter (fun f => selects x σ (some recheck) f.2.2) →
      ((encoded <+: f.1 ∧ OrdMap.get (σ.entries ix.id) f.1 ≠ none) ∧ t.Leads ix f.1 f.2.1)
        ∧ σ.HoldsAt t f.2.1 f.2.2 ∧ selects x σ (some recheck) f.2.2 = true := by
    intro f hf
    obtain ⟨hf,hsel⟩ := mem_filter.mp hf
    obtain ⟨hread,hleads,hheld⟩ := (hmem _ _ _).mp hf
    exact ⟨⟨hread,hleads⟩,hheld,hsel⟩
  refine ⟨(found.filter (fun f => selects x σ (some recheck) f.2.2)).map Prod.snd,?_,fun key row => ⟨fun h => ?_,?_⟩,?_⟩
  · rw [List.map_map]
    refine pairwise_map.mpr (((pairwise_map.mp hnodup).filter _).imp_of_mem fun {f f'} hf hf' hne heq => ?_)
    -- two entries do not lead to one selected row
    obtain ⟨hread,hheld,hsel⟩ := hselected hf
    obtain ⟨hread',-⟩ := hselected hf'
    refine hne ((hr.entered rfl hlookup hlower hencoded hheld hsel).unique hread ?_)
    have hkey : f.2.1 = f'.2.1 := heq
    rwa [hkey]
  · obtain ⟨⟨entry,key',row'⟩,hf,heq⟩ := mem_map.mp h
    cases heq
    exact (hselected hf).2
  · rintro ⟨hheld,hsel⟩
    obtain ⟨entry,⟨hread,hleads⟩,-⟩ := hr.entered rfl hlookup hlower hencoded hheld hsel
    exact mem_map.mpr ⟨(entry,key,row),mem_filter.mpr ⟨(hmem _ _ _).mpr ⟨hread,hleads,hheld⟩,hsel⟩,rfl⟩
  · rw [id_eq,List.filter_map] at hop
    rw [List.map_map]
    exact hop

theorem access_gives {filter : Option Predicate} (hr : Reaches x t filter σ) {plan : PhysOp}
    (hplan : planAccess t filter = some plan) : (Volcano.build x plan orders).Observes σ (Gives x t filter σ) := by
  have hscan := Table.scan_observes (hc.bounded t ht) hr.keyed
  unfold planAccess at hplan
  split at hplan
  · cases hplan
    refine (leaf_observes (build_seqScan hx hc ht) hscan).imp ?_
    rintro op ⟨_,hop,found,rfl,hnodup,hmem⟩
    exact ⟨found,hnodup,fun key row => by simp [hmem,selects],hop ▸ .ofList _⟩
  · split at hplan
    · next values hlookup =>
      cases hplan
      exact pkLookup_gives hx hc ht orders hr hlookup
    · next hlookup =>
      obtain ⟨lowering,hlower,hplan⟩ := bind_eq_some_iff.mp hplan
      cases lowering with
      | matched ix lead recheck =>
        cases hplan
        exact indexScan_gives hx hc ht orders hr hlookup hlower
      | unmatched p' =>
        cases hplan
        obtain rfl := unmatched_eq hlower
        refine (filter_observes (build_seqScan hx hc ht) hscan).imp ?_
        rintro op ⟨_,⟨found,rfl,hnodup,hmem⟩,hop⟩
        refine ⟨found.filter (fun f => selects x σ (some p') f.2),hnodup.sublist (filter_sublist.map _),fun key row => ?_,?_⟩
        · rw [mem_filter,hmem]
        · rw [id_eq,List.filter_map] at hop
          exact hop

end

end Reading

section Staging
variable {x : ExecContext Store} {σ : Store} {t : Table} {set : List (Nat × Expression)}

/-- A row that is to be written: its key and its changes, evaluated on the row. -/
def Staged (t : Table) (set : List (Nat × Expression)) (row : Row) (staged : StagedUpdate) : Prop :=
  staged.1 = t.schema.pkValues row
    ∧ List.Forall₂ (fun clause change => change.1 = clause.1 ∧ clause.2.eval .empty row = some change.2) set staged.2

private theorem changes_iff {row : Row} {changes : List (Nat × Value)} :
    set.mapM (fun clause => (clause.2.eval .empty row).map (fun v => (clause.1,v))) = some changes ↔
      List.Forall₂ (fun clause change => change.1 = clause.1 ∧ clause.2.eval .empty row = some change.2) set changes := by
  rw [mapM_eq_some_iff]
  refine iff_of_eq (congrArg (List.Forall₂ · set changes) (funext₂ fun clause change => propext ?_))
  rw [map_eq_some_iff]
  constructor
  · rintro ⟨v,hv,rfl⟩
    exact ⟨rfl,hv⟩
  · rintro ⟨heq,hv⟩
    exact ⟨_,hv,Prod.ext heq.symm rfl⟩

theorem stageUpdate_observes (seen : List Row) (staged : List StagedUpdate) (row : Row)
    (h : List.Forall₂ (Staged t set) seen staged) :
    (stageUpdate t set staged row).Observes σ (List.Forall₂ (Staged t set) (seen ++ [row])) := by
  refine (Action.Observes.check (R := fun _ => True) (fun _ => trivial)).bind (fun _ _ => ?_)
  refine (Action.Observes.ofOption (fun changes hchanges => changes_iff.mp hchanges)).bind (fun changes hchanges => ?_)
  exact .pure (rel_append h (.cons ⟨rfl,hchanges⟩ .nil))

private theorem checkedChanges_observes (changes : List (Nat × Value)) :
    (checkedChanges t changes).Observes σ (fun r => r.map (fun change => (change.1.val,change.2)) = changes) := by
  induction changes with
  | nil => exact .pure rfl
  | cons change changes ih =>
    unfold checkedChanges
    split_ifs with hlt
    · refine (Action.Observes.ofExcept (P := fun _ => True) (fun _ _ => trivial)).bind (fun _ _ => ih.bind (fun r hr => ?_))
      exact Action.Observes.pure (by rw [map_cons,hr])
    · exact .crash

theorem assigned_mergeChanges {row : Row} {staged : StagedUpdate} (h : Staged t set row staged) :
    Assigned set row (Table.mergeChanges row staged.2) := by
  refine ⟨Table.length_mergeChanges row staged.2,fun i hi => ?_⟩
  rw [Table.mergeChanges_getElem? hi,assigned]
  obtain ⟨-,hchanges⟩ := h
  generalize row[i]? = v
  generalize staged.2 = changes at hchanges
  induction hchanges generalizing v with
  | nil => rfl
  | cons hchange hrest ih =>
    rw [foldl_cons,foldl_cons,hchange.1,hchange.2]
    exact ih _

end Staging

section TableWrites
variable {S : Type} {x : ExecContext S} {t : Table} {s s' : S} {rows : List Row}

private theorem checkedChanges_eq (changes : List (Fin t.schema.columns.length × Value)) :
    (checkedChanges t (changes.map (fun change => (change.1.val,change.2))) : Action S Error _) = (do
      .ofExcept (Table.checkChanges t.schema changes)
      return changes) := by
  induction changes with
  | nil => rfl
  | cons change changes ih =>
    have hcons : Table.checkChanges t.schema (change::changes) = (do
        Table.checkChanges t.schema [change]
        Table.checkChanges t.schema changes) := by
      simp [Table.checkChanges,List.forM]
    rw [map_cons,checkedChanges,dif_pos change.1.isLt,ih,hcons]
    cases Table.checkChanges t.schema [change] with
    | error => rfl
    | ok => cases Table.checkChanges t.schema changes <;> rfl

/-- The checks before a write are those it makes itself, so they change neither its result nor its error. -/
theorem applyUpdates_eq (staged : List (List Value × List (Fin t.schema.columns.length × Value))) :
    applyUpdates x t (staged.map (fun target => (target.1,target.2.map (fun change => (change.1.val,change.2)))))
      = (Table.each (fun target => t.updateColumns target.1 target.2) staged).exec x.handle := by
  induction staged with
  | nil => rfl
  | cons target staged ih =>
    rw [map_cons,applyUpdates,Table.each,Statement.exec_bind,checkedChanges_eq,ih]
    cases h : Table.checkChanges t.schema target.2 with
    | ok => rfl
    | error =>
      rw [Table.updateColumns,h]
      rfl

private theorem fold_staged {A : Type} {step : List A → Row → Action S Error (List A)} {f : Row → A}
    (h : ∀ row ∈ rows, ∀ staged, step staged row s = some (.ok (staged ++ [f row],s))) :
    (Stream.ofList rows).fold step [] s = some (.ok (rows.map f,s)) := by
  rw [Stream.fold_ofList h,foldl_append_eq_append,← flatMap_def,← map_eq_flatMap]
  rfl

/-- The executor's UPDATE of the rows that an access path reads is the table's: the same writes, with the same result or error. -/
theorem updating_eq_updateRows {a : AccessPath} {filter : Row → Bool} {set : List (Nat × Expression)}
    {setExprs : List (Fin t.schema.columns.length × (Row → Value))}
    (hread : (a.rows t filter).exec x.handle s = some (.ok (rows,s')))
    (hwidth : ∀ row ∈ rows, row.length = t.schema.columns.length)
    (hset : ∀ row ∈ rows, Staged t set row (t.schema.pkValues row,setExprs.map (fun e => (e.1.val,e.2 row)))) :
    (updating x t set (.ofList rows)).collect s' = (t.updateRows a filter setExprs).exec x.handle s := by
  have hfold : (Stream.ofList rows).fold (stageUpdate t set) [] s' = _ := fold_staged (fun row hrow staged => by
    rw [stageUpdate,decide_eq_true (hwidth row hrow),changes_iff.mpr (hset row hrow).2]
    rfl)
  rw [updating,Stream.collect_gather,bind_of_some hfold,Stream.collect_ofAction,Table.updateRows,Statement.exec_bind,
    bind_of_some hread,Statement.exec_bind,← applyUpdates_eq]
  refine bind_congr (by simp only [List.map_map,Function.comp_def]) (fun _ s₁ _ => ?_)
  rw [Stream.collect_ofList,length_map,length_map]
  rfl

theorem deleting_eq_deleteRows {a : AccessPath} {filter : Row → Bool}
    (hread : (a.rows t filter).exec x.handle s = some (.ok (rows,s')))
    (hwidth : ∀ row ∈ rows, row.length = t.schema.columns.length) :
    (deleting x t (.ofList rows)).collect s' = (t.deleteRows a filter).exec x.handle s := by
  have hfold : (Stream.ofList rows).fold (stageDelete t) [] s' = _ := fold_staged (fun row hrow staged => by
    rw [stageDelete,decide_eq_true (hwidth row hrow)]
    rfl)
  rw [deleting,Stream.collect_gather,bind_of_some hfold,Stream.collect_ofAction,Table.deleteRows,Statement.exec_bind,
    bind_of_some hread,Statement.exec_bind]
  exact bind_congr rfl (fun _ s₁ _ => Stream.collect_ofList _ s₁)

end TableWrites

section Writing
variable {tables : List Table} {x : ExecContext Store} {t : Table} {set : List (Nat × Expression)}

section

variable (hx : x.OnStore tables) (hc : Catalogued tables) (ht : t ∈ tables)
  (hset : ∀ clause ∈ set, ∀ i ∈ t.schema.primaryKey, clause.1 ≠ i.val)
include hx hset

theorem updateColumns_staged {τ τ₁ : Store} {key : Bytes} {row : Row} (hrow : τ.HoldsAt t key row) (hown : t.Owns key row)
    {staged : StagedUpdate} (hstaged : Staged t set row staged) {changes : List (Fin t.schema.columns.length × Value)}
    (hchanges : changes.map (fun change => (change.1.val,change.2)) = staged.2) {u : Unit}
    (h : (t.updateColumns staged.1 changes).exec x.handle τ = some (.ok (u,τ₁))) :
    t.Replaces τ τ₁ key row (Table.mergeChanges row staged.2)
      ∧ Fits (Table.mergeChanges row staged.2) t.schema.columnTypes
      ∧ t.schema.pkValues (Table.mergeChanges row staged.2) = t.schema.pkValues row := by
  rw [hx.handle] at h
  obtain ⟨hchecked,pk,row',hpk,hreplaces⟩ := Table.updateColumns_exec h
  obtain ⟨pk',hpk',rfl⟩ := hown
  rw [hstaged.1,hpk'] at hpk
  cases hpk
  obtain rfl := hrow.unique hreplaces.held
  rw [hchanges] at hreplaces
  obtain ⟨_,_,-,-,hdecode⟩ := hrow
  refine ⟨hreplaces,hchanges ▸ Table.mergeChanges_fits hchecked (Tuple.decode_fits hdecode),
    Table.mergeChanges_pkValues (fun change hmem => ?_)⟩
  obtain ⟨clause,hclause,hcol,-⟩ := exists_left_of_forall₂ hstaged.2 hmem
  exact hcol ▸ hset clause hclause

include hc ht

/-- The staged rows are replaced one after the other. A write of one row leaves the others as they were read. -/
theorem applyUpdates_staged {found : List (Bytes × Row)} {staged : List StagedUpdate}
    (hstaged : List.Forall₂ (fun f s => Staged t set f.2 s) found staged) (hnodup : (found.map Prod.fst).Nodup)
    {τ τ' : Store} (hheld : ∀ f ∈ found, τ.HoldsAt t f.1 f.2 ∧ t.Owns f.1 f.2) {u : Unit}
    (h : applyUpdates x t staged τ = some (.ok (u,τ'))) :
    (τ.Quiescent tables → τ'.Quiescent tables)
      ∧ (∀ f ∈ found, ∃ row', τ'.HoldsAt t f.1 row' ∧ Assigned set f.2 row')
      ∧ ∀ key, key ∉ found.map Prod.fst → OrdMap.get τ'.rows key = OrdMap.get τ.rows key := by
  induction hstaged generalizing τ with
  | nil =>
    cases h
    exact ⟨id,nofun,fun _ _ => rfl⟩
  | @cons f first found staged hfirst hrest ih =>
    obtain ⟨hnew,hnodup⟩ := nodup_cons.mp hnodup
    obtain ⟨⟨hrow,hown⟩,hheld⟩ := forall_mem_cons.mp hheld
    obtain ⟨changes,τ₀,hchecked,hwrite⟩ := ran_bind.mp h
    obtain ⟨rfl,hchanges⟩ := checkedChanges_observes _ _ _ hchecked
    obtain ⟨_,τ₁,hupdate,hwrites⟩ := ran_bind.mp hwrite
    obtain ⟨hreplaces,hfits,hpk⟩ := updateColumns_staged hx hset hrow hown hfirst hchanges hupdate
    have hat : ∀ {key row}, τ₁.HoldsAt t key row ↔ _ := hreplaces.holdsAt_iff hfits hc ht ht
    obtain ⟨hq,hupdated,hkept⟩ := ih hnodup (fun g hg => by
      refine ⟨hat.mpr (.inr ⟨fun heq => hnew (heq ▸ mem_map.mpr ⟨g,hg,rfl⟩),(hheld g hg).1⟩),(hheld g hg).2⟩) hwrites
    refine ⟨fun hq₀ => hq (hreplaces.quiescent hfits hpk hc hq₀ ht),forall_mem_cons.mpr ⟨?_,hupdated⟩,fun key hkey => ?_⟩
    · -- the key of the row that was just written is none of the others'
      obtain ⟨pk,blob,hk,hget,hdecode⟩ := hat.mpr (.inl ⟨rfl,rfl,rfl⟩)
      exact ⟨_,⟨pk,blob,hk,(hkept _ hnew).trans hget,hdecode⟩,assigned_mergeChanges hfirst⟩
    · obtain ⟨hne,hkey⟩ := not_or.mp (mt mem_cons.mpr hkey)
      obtain ⟨blob,-,hput⟩ := hreplaces.rows
      rw [hkept key hkey,hput,Engine.put,OrdMap.get_insert,if_neg hne]

end

end Writing

section Statement
variable {tables : List Table} {x : ExecContext Store} {t : Table} {set : List (Nat × Expression)} {σ σ' : Store}

/-- The selected rows are all staged before the first is written. -/
theorem update_staged (hx : x.OnStore tables) (hc : Catalogued tables) (ht : t ∈ tables) {filter : Option Predicate}
    (hr : Reaches x t filter σ) {plan : PhysOp} (hplan : planUpdate t set filter = some plan) {orders : HashOrders}
    {result : RowSchema × List Row} (hrun : Volcano.execute x plan orders σ = some (.ok (result,σ'))) :
    ∃ (found : List (Bytes × Row)) (staged : List StagedUpdate), (found.map Prod.fst).Nodup
      ∧ (∀ key row, (key,row) ∈ found ↔ σ.HoldsAt t key row ∧ selects x σ filter row = true)
      ∧ List.Forall₂ (fun f s => Staged t set f.2 s) found staged ∧ applyUpdates x t staged σ = some (.ok ((),σ'))
      ∧ result.2 = Table.affected staged.length := by
  obtain ⟨child,hchild,hupdate⟩ := bind_eq_some_iff.mp hplan
  cases hupdate
  obtain ⟨root,σ₁,hroot,hrows⟩ := ran_bind.mp hrun
  rw [Volcano.build,hx.resolve hc ht] at hroot
  obtain ⟨op,σ₂,hop,hrest⟩ := (ran_bind (t := Volcano.build x child (orders.child false))).mp hroot
  obtain ⟨rfl,found,hnodup,hmem,hfollows⟩ := access_gives hx hc ht _ hr hchild _ _ hop
  obtain ⟨_,σ₃,hcheck,hpure⟩ := ran_bind.mp hrest
  obtain ⟨-,rfl⟩ := ran_check.mp hcheck
  obtain ⟨rfl,rfl⟩ := ran_pure.mp hpure
  obtain ⟨counted,σ₄,hcollect,hresult⟩ := ran_bind.mp hrows
  obtain ⟨rfl,rfl⟩ := ran_pure.mp hresult
  change (updating x t set op.rows).collect _ = _ at hcollect
  rw [updating,Stream.collect_gather] at hcollect
  obtain ⟨staged,σ₅,hfold,hemit⟩ := ran_bind.mp hcollect
  have hstage := hfollows.fold (I := List.Forall₂ (Staged t set)) stageUpdate_observes .nil
  obtain ⟨rfl,hstaged⟩ := hstage _ _ hfold
  rw [Stream.collect_ofAction] at hemit
  obtain ⟨_,σ₆,happly,hlist⟩ := ran_bind.mp hemit
  rw [Stream.collect_ofList] at hlist
  cases hlist
  exact ⟨found,staged,hnodup,hmem,forall₂_map_left_iff.mp hstaged,happly,rfl⟩

/-- An UPDATE of columns that are not of the key is a simultaneous assignment to the rows that the condition selects, in every
store where its access path reaches them. It keeps a quiescent store quiescent. -/
theorem update_assigns (hx : x.OnStore tables) (hc : Catalogued tables) (ht : t ∈ tables) {filter : Option Predicate}
    (hr : Reaches x t filter σ) (hset : ∀ clause ∈ set, ∀ i ∈ t.schema.primaryKey, clause.1 ≠ i.val) {plan : PhysOp}
    (hplan : planUpdate t set filter = some plan) {orders : HashOrders} {result : RowSchema × List Row}
    (hrun : Volcano.execute x plan orders σ = some (.ok (result,σ'))) :
    Assigns x t set filter σ σ' result.2 ∧ (σ.Quiescent tables → σ'.Quiescent tables) := by
  obtain ⟨found,staged,hnodup,hmem,hstaged,happly,hresult⟩ := update_staged hx hc ht hr hplan hrun
  have hheld : ∀ f ∈ found, σ.HoldsAt t f.1 f.2 ∧ t.Owns f.1 f.2 := fun f hf => by
    obtain ⟨hheld,hsel⟩ := (hmem f.1 f.2).mp hf
    exact ⟨hheld,hr.own hheld hsel⟩
  have hkeys : ∀ key, key ∈ found.map Prod.fst ↔ ∃ row, σ.HoldsAt t key row ∧ selects x σ filter row = true := by
    simp [← hmem]
  obtain ⟨hq,hupdated,hkept⟩ := applyUpdates_staged hx hc ht hset hstaged hnodup hheld happly
  refine ⟨⟨fun key row hrow hsel => hupdated (key,row) ((hmem key row).mpr ⟨hrow,hsel⟩),fun key hnone => hkept key fun h => ?_,
    found.map Prod.fst,hnodup,hkeys,?_⟩,hq⟩
  · obtain ⟨row,hrow,hsel⟩ := (hkeys key).mp h
    exact Bool.false_ne_true ((hnone row hrow).symm.trans hsel)
  · rw [hresult,length_map,hstaged.length_eq]

end Statement

section Pairs

private def pairsSchema : Schema where
  name := "pairs"
  tableId := 1
  columns := [⟨"id",.int32,false,none⟩,⟨"a",.int32,true,none⟩,⟨"b",.int32,true,none⟩]
  primaryKey := [0]
  keyed := by decide
  keyNotNull := by decide

private def pairs : Table := ⟨pairsSchema,[]⟩

private def onPairs : ExecContext Store := ⟨.ofStore,[pairs],[],[]⟩

private def pairKey (id : Byte) : Bytes := [0,0,0,1,1,128,0,0,id]

private def pairBlob (id a b : Byte) : Bytes := [0,id,0,0,0,a,0,0,0,b,0,0,0]

private def storing (rows : List (Bytes × Bytes)) : Store :=
  ⟨rows.foldl (fun e row => e.put row.1 row.2) OrdMap.empty,fun _ => OrdMap.empty⟩

private def columnIs (c : Nat) (v : Value) : Predicate := .compare .eq (.column c) (.literal v)

private def setWhere (set : List (Nat × Expression)) (a : Value) : PhysOp :=
  .update "pairs" (.filter (.seqScan "pairs") (columnIs 1 a)) set

private def inserting (id a b : BitVec 32) : PhysOp := .insert "pairs" [[.int32 id,.int32 a,.int32 b]]

private theorem pairs_catalogued : Catalogued [pairs] := by
  constructor <;> simp [pairs,pairsSchema,u32Max]

/-- The first row has had its key column set to 5. -/
private def misplaced : Store := storing [(pairKey 1,pairBlob 5 10 0),(pairKey 2,pairBlob 2 20 7)]

private theorem misplaced_reaches : Reaches onPairs pairs (some (columnIs 1 (.int32 20))) misplaced := by
  have hstored : ∀ {key blob}, OrdMap.get misplaced.rows key = some blob →
      (key,blob) = (pairKey 1,pairBlob 5 10 0) ∨ (key,blob) = (pairKey 2,pairBlob 2 20 7) := fun h =>
    mem_pair.mp ((OrdMap.get_eq_some_iff _ _ _).mp h)
  refine ⟨fun key blob h => ?_,?_,?_,?_⟩
  · rcases hstored h with hrow | hrow <;> cases hrow
    · exact ⟨1,[1,128,0,0,1],nofun,rfl⟩
    · exact ⟨1,[1,128,0,0,2],nofun,rfl⟩
  · rintro key row ⟨-,blob,-,hget,hdecode⟩ hsel
    rcases hstored hget with hrow | hrow <;> cases hrow <;> cases hdecode
    · cases hsel
    · exact ⟨[1,128,0,0,2],rfl,rfl⟩
  · rintro p values pk row ⟨⟩ hlookup
    cases hlookup
  · rintro p ix lead recheck encoded key row ⟨⟩ - hlower
    cases hlower

/-- Two columns change places in the selected row, although another row stands under a key that is not its own. -/
theorem update_assigns_swap :
    Assigns onPairs pairs [(1,.column 2),(2,.column 1)] (some (columnIs 1 (.int32 20))) misplaced
      (storing [(pairKey 1,pairBlob 5 10 0),(pairKey 2,pairBlob 2 7 20)]) [[.int64 1]] :=
  (@update_assigns _ _ _ _ _ _ ⟨rfl,rfl⟩ pairs_catalogued mem_cons_self _ misplaced_reaches (by decide) _ rfl asHashed
    (.countResult "rows_updated",[[.int64 1]]) rfl).1

/-- A row whose key column was set stands under its old key. When a row with the new key is inserted, the next UPDATE of the
first row writes the second. -/
theorem update_other_row :
    Volcano.execute onPairs (inserting 1 10 0) asHashed (storing [])
        = some (.ok ((.countResult "rows_inserted",[[.int64 1]]),storing [(pairKey 1,pairBlob 1 10 0)]))
      ∧ planUpdate pairs [(0,.literal (.int32 2))] (some (columnIs 1 (.int32 10)))
        = some (setWhere [(0,.literal (.int32 2))] (.int32 10))
      ∧ Volcano.execute onPairs (setWhere [(0,.literal (.int32 2))] (.int32 10)) asHashed
          (storing [(pairKey 1,pairBlob 1 10 0)])
        = some (.ok ((.countResult "rows_updated",[[.int64 1]]),storing [(pairKey 1,pairBlob 2 10 0)]))
      ∧ Volcano.execute onPairs (inserting 2 20 0) asHashed (storing [(pairKey 1,pairBlob 2 10 0)])
        = some (.ok ((.countResult "rows_inserted",[[.int64 1]]),
          storing [(pairKey 1,pairBlob 2 10 0),(pairKey 2,pairBlob 2 20 0)]))
      ∧ planUpdate pairs [(1,.literal (.int32 99))] (some (columnIs 1 (.int32 10)))
        = some (setWhere [(1,.literal (.int32 99))] (.int32 10))
      ∧ Volcano.execute onPairs (setWhere [(1,.literal (.int32 99))] (.int32 10)) asHashed
          (storing [(pairKey 1,pairBlob 2 10 0),(pairKey 2,pairBlob 2 20 0)])
        = some (.ok ((.countResult "rows_updated",[[.int64 1]]),
          storing [(pairKey 1,pairBlob 2 10 0),(pairKey 2,pairBlob 2 99 0)]))
      ∧ ¬Assigns onPairs pairs [(1,.literal (.int32 99))] (some (columnIs 1 (.int32 10)))
          (storing [(pairKey 1,pairBlob 2 10 0),(pairKey 2,pairBlob 2 20 0)])
          (storing [(pairKey 1,pairBlob 2 10 0),(pairKey 2,pairBlob 2 99 0)]) [[.int64 1]] := by
  refine ⟨rfl,rfl,rfl,rfl,rfl,rfl,fun h => ?_⟩
  -- the row that the condition selects still has its old value
  obtain ⟨row',⟨-,blob,-,hget,hrow⟩,-,hassigned⟩ := h.updated (pairKey 1) [.int32 2,.int32 10,.int32 0]
    ⟨[1,128,0,0,1],pairBlob 2 10 0,rfl,rfl,rfl⟩ rfl
  cases hget
  cases hrow
  cases hassigned 1 (by decide)

end Pairs
end InterchangeDb
