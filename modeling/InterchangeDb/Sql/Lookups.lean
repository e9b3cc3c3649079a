import InterchangeDb.Sql.HashJoin
import InterchangeDb.Sql.Store

/-! Point lookups in a quiescent store give the rows of a scan and a filter, unless a CHAR key cannot hold the text. -/
namespace InterchangeDb
open KeyEnc List

section Lowering

/-- A column and the value it is compared with. -/
def pinned : Predicate → Option (Nat × Value)
  | .compare .eq (.column i) (.literal v) => some (i,v)
  | .compare .eq (.literal v) (.column i) => some (i,v)
  | _ => none

/-- The key of a lookup, for a primary key of one column. -/
def tryLowerPkLookup (p : Predicate) (s : Schema) : Option (List Value) :=
  match s.primaryKey with
  | [pkCol] =>
    match pinned p with
    | some (i,v) => if i = pkCol.val then (v.coerceExact (s.columns.get pkCol).ty).map ([·]) else none
    | none => none
  | _ => none

inductive IndexLowering where
  | matched (handle : IndexHandle) (lead : List Value) (recheck : Predicate)
  | unmatched (p : Predicate)

/-- The first index on the pinned column alone. The predicate is checked again on the rows it finds; none for a panic. -/
def tryLowerIndexPredicate (p : Predicate) (indexes : List IndexHandle) : Option IndexLowering :=
  match pinned p with
  | none => some (.unmatched p)
  | some (i,v) =>
    match indexes.find? (fun ix => decide (ix.definition.columns = [i])) with
    | none => some (.unmatched p)
    | some ix => do
      match v.coerceExact (← ix.keyTypes[0]?) with
      | some w => some (.matched ix [w] p)
      | none => some (.unmatched p)

end Lowering

/-- A text that fits a CHAR key; other columns take every value. -/
def Value.Keyable (v : Value) (ty : ColumnType) : Prop :=
  match v, ty with
  | .varchar s, .char n | .char s, .char n => s.val.length ≤ n.val ∧ (0 : Byte) ∉ s.val
  | _, _ => True

instance (v : Value) (ty : ColumnType) : Decidable (v.Keyable ty) := by
  unfold Value.Keyable
  split <;> infer_instance

section Values
variable {v w : Value} {ty : ColumnType}

private theorem encodeChar_ok_iff {s : Bytes} {n : Nat} :
    (∃ bs, encodeChar s n = .ok bs) ↔ s.length ≤ n ∧ (0 : Byte) ∉ s := by
  unfold encodeChar
  split_ifs with hzero hlong
  · exact ⟨nofun,fun h => absurd hzero h.2⟩
  · exact ⟨nofun,fun h => absurd h.1 (not_le.mpr hlong)⟩
  · exact ⟨fun _ => ⟨not_lt.mp hlong,hzero⟩,fun _ => ⟨_,rfl⟩⟩

/-- The value of the column's type that is worth the same can be encoded exactly if the text fits. -/
theorem encode_coerced (h : v.coerceExact ty = some w) :
    (∃ bs, encodeKeyComponents [w] [ty] = .ok bs) ↔ v.Keyable ty := by
  obtain ⟨hmatches,hkind,hworth⟩ := Value.coerceExact_eq_some_iff.mp h
  rw [encodeKeyComponents,if_neg (by simp)]
  cases ty with
  | char n =>
    cases w <;> try (cases hmatches; done)
    case null =>
      cases v <;> try (cases hkind; done)
      exact ⟨fun _ => trivial,fun _ => ⟨_,rfl⟩⟩
    case char s =>
      have hbytes : v.Keyable (.char n) ↔ s.val.length ≤ n.val ∧ (0 : Byte) ∉ s.val := by
        cases v <;> try (cases hkind; done)
        case varchar s' | char s' =>
          have hs : s.val = s'.val := congrArg Prod.snd (toLex_inj.mp hworth)
          rw [hs]
          rfl
      rw [hbytes,← encodeChar_ok_iff]
      constructor
      · rintro ⟨bs,hbs⟩
        obtain ⟨b,-,hb,-⟩ := encodeAll_cons hbs
        obtain ⟨raw,hraw,-⟩ := map_eq_ok hb
        exact ⟨raw,hraw⟩
      · rintro ⟨raw,hraw⟩
        exact ⟨presentSentinel :: raw ++ [],by simp [encodeAll,encodeOne,hraw,Except.map,bind,Except.bind,pure,Except.pure]⟩
  | _ =>
    refine ⟨fun _ => ?_,fun _ => ?_⟩
    · cases v <;> trivial
    · cases w <;> first | (cases hmatches; done) | exact ⟨_,rfl⟩

/-- The values of a column that compare as equal to a value are the one it is turned into. -/
theorem compareSql_coerced (h : v.coerceExact ty = some w) {u : Value} (hu : u.matchesType ty = true) :
    u.compareSql v = some .eq ↔ u = w ∧ w ≠ .null := by
  obtain ⟨hw,hkind,hworth⟩ := Value.coerceExact_eq_some_iff.mp h
  rw [Value.compareSql_eq_iff]
  constructor
  · rintro ⟨hne,hk,hwth⟩
    have heq := Value.eq_of_worth hu hw (hk.trans hkind.symm) (hwth.trans hworth.symm)
    refine ⟨heq,fun hnull => hne ?_⟩
    rw [heq,hnull]
    rfl
  · rintro ⟨rfl,hnull⟩
    exact ⟨fun hk => hnull (Value.kind_eq_none_iff.mp hk),hkind,hworth⟩

/-- No value of a column compares as equal to one that cannot be turned into its type. -/
theorem compareSql_uncoerced (h : v.coerceExact ty = none) {u : Value} (hu : u.matchesType ty = true) :
    u.compareSql v ≠ some .eq := by
  intro hcmp
  obtain ⟨-,hkind,hworth⟩ := Value.compareSql_eq_iff.mp hcmp
  rw [Value.coerceExact_eq_some_iff.mpr ⟨hu,hkind,hworth⟩] at h
  cases h

theorem keyable_uncoerced (h : v.coerceExact ty = none) : v.Keyable ty := by
  cases ty <;> cases v <;> trivial

end Values

section Execution
variable {tables : List Table} {x : ExecContext Store} {σ : Store} {t : Table}
variable {p : Predicate} {c : Nat} {v : Value} {rows : List Row}

/-- A context whose calls are on a store. -/
structure ExecContext.OnStore (x : ExecContext Store) (tables : List Table) : Prop where
  handle : x.handle = .ofStore
  tables : x.tables = tables

theorem find?_by_key {A K : Type} [DecidableEq K] {key : A → K} {l : List A} {a : A} (ha : a ∈ l)
    (hinj : ∀ b ∈ l, key b = key a → b = a) : l.find? (fun b => decide (key b = key a)) = some a := by
  cases hfind : l.find? (fun b => decide (key b = key a)) with
  | none => exact absurd (find?_eq_none.mp hfind a ha) (by simp)
  | some b =>
    have hkey := find?_some hfind
    simp only [decide_eq_true_eq] at hkey
    rw [hinj b (mem_of_find?_eq_some hfind) hkey]

theorem ExecContext.OnStore.resolve (hx : x.OnStore tables) (hc : Catalogued tables) (ht : t ∈ tables) :
    x.resolveTable t.schema.name = .ok t := by
  unfold resolveTable
  rw [hx.tables,find?_by_key ht (fun t' ht' => hc.names t' ht' t ht)]

theorem Catalogued.findIndex (hc : Catalogued tables) (ht : t ∈ tables) {ix : IndexHandle} (hix : ix ∈ t.indexes) :
    t.findIndex ix.definition.name = .ok ix := by
  unfold Table.findIndex
  rw [find?_by_key hix (fun ix' hix' => hc.indexNames t ht ix' hix' ix hix)]

def equalRows (c : Nat) (v : Value) (rows : List Row) : List Row :=
  rows.filter (fun row => decide ((keyOf c row).compareSql v = some .eq))

theorem pinned_eq_some (h : pinned p = some (c,v)) :
    p = .compare .eq (.column c) (.literal v) ∨ p = .compare .eq (.literal v) (.column c) := by
  unfold pinned at h
  split at h
  · cases h
    exact .inl rfl
  · cases h
    exact .inr rfl
  · cases h

theorem eval_pinned (hp : pinned p = some (c,v)) {row : Row}
    (hrow : row[c]? = some (keyOf c row)) (sets : List InSubquerySet) (evaluators : List RowEvaluator) :
    ∃ truth, p.eval .empty sets evaluators row = some ⟨truth,none⟩
      ∧ (truth = some true ↔ (keyOf c row).compareSql v = some .eq) := by
  have hholds : ∀ a b : Value, evalCompare .eq a b = some true ↔ a.compareSql b = some .eq := by
    intro a b
    unfold evalCompare
    cases a.compareSql b with
    | none => simp
    | some ord => cases ord <;> simp [CompareOp.holds]
  rcases pinned_eq_some hp with rfl | rfl
  · refine ⟨evalCompare .eq (keyOf c row) v,?_,hholds _ _⟩
    rw [Predicate.eval_compare]
    simp only [Expression.operand,Expression.eval,hrow]
    rfl
  · refine ⟨evalCompare .eq v (keyOf c row),?_,(hholds _ _).trans Value.compareSql_eq_comm⟩
    rw [Predicate.eval_compare]
    simp only [Expression.operand,Expression.eval,hrow]
    rfl

theorem compiles_pinned (hp : pinned p = some (c,v)) (sets evaluators : Nat) :
    p.compiles .empty sets evaluators = true := by
  rcases pinned_eq_some hp with rfl | rfl <;> rfl

theorem collect_keepRow {q : Row → Bool} (h : ∀ row ∈ rows, ∃ truth,
    p.eval .empty x.sets (x.rowEvaluators σ) row = some ⟨truth,none⟩ ∧ (truth = some true ↔ q row = true)) :
    ((Stream.ofList rows).filterMap (keepRow x p)).collect σ = some (.ok (rows.filter q,σ)) := by
  have hkeep : ∀ row ∈ rows, keepRow x p row σ = some (.ok (.guard (q ·) row,σ)) := by
    intro row hrow
    obtain ⟨truth,heval,htruth⟩ := h row hrow
    simp only [keepRow,Action.query,heval,Option.bind_eq_bind,Option.bind_some,htruth]
    rfl
  rw [Stream.collect_filterMap_ofList hkeep,filterMap_eq_filter]

theorem collect_pinned (hp : pinned p = some (c,v)) (hrows : ∀ row ∈ rows, row[c]? = some (keyOf c row)) :
    ((Stream.ofList rows).filterMap (keepRow x p)).collect σ = some (.ok (equalRows c v rows,σ)) := by
  refine collect_keepRow (fun row hrow => ?_)
  obtain ⟨truth,heval,htruth⟩ := eval_pinned hp (hrows row hrow) x.sets (x.rowEvaluators σ)
  exact ⟨truth,heval,by rw [htruth,decide_eq_true_eq]⟩

end Execution

section Agreement
variable {tables : List Table} {x : ExecContext Store} {σ : Store} {t : Table}
variable {c : Fin t.schema.columns.length} {v w : Value} {lookup scanned : Action Store Error (List Row)}
  {ix : IndexHandle} {p recheck : Predicate} {key lead : List Value} {outer : Row}

def planRows (x : ExecContext Store) (plan : PhysOp) (orders : HashOrders) : Action Store Error (List Row) :=
  Prod.snd <$> Volcano.execute x plan orders

/-- The rows of a table that are matched with an outer row. -/
def scanMatching (x : ExecContext Store) (t : Table) (on : Predicate) (outer : Row) : Action Store Error (List Row) := do
  let rows ← t.scan.exec x.handle
  return rows.filter (fun row => decide (joinPredicate (some on) outer row = some true))

/-- A lookup returns the rows that the scan returns, and fails only if it fails. -/
def SameRows (lookup scanned : Action Store Error (List Row)) (σ : Store) : Prop :=
  (∀ rows σ', scanned σ = some (.ok (rows,σ')) → ∃ found, lookup σ = some (.ok (found,σ')) ∧ found.Perm rows)
    ∧ ((∃ e, lookup σ = some (.error e)) → ∃ e, scanned σ = some (.error e))

/-- The rows of the table with a value at a column, each once. -/
def Selects (σ : Store) (t : Table) (c : Nat) (v : Value) (r : Action Store Error (List Row)) : Prop :=
  ∃ rows, r σ = some (.ok (rows,σ)) ∧ rows.Nodup
    ∧ ∀ row, row ∈ rows ↔ σ.Holds t row ∧ (keyOf c row).compareSql v = some .eq

theorem Selects.agrees {c : Nat}
    (hlookup : Selects σ t c v lookup) (hscanned : Selects σ t c v scanned) : SameRows lookup scanned σ := by
  obtain ⟨found,hfound,hnodup,hmem⟩ := hlookup
  obtain ⟨rows,hrows,hnodup',hmem'⟩ := hscanned
  refine ⟨fun rows' σ' h => ?_,fun ⟨e,he⟩ => ?_⟩
  · cases hrows.symm.trans h
    exact ⟨found,hfound,(perm_ext_iff_of_nodup hnodup hnodup').mpr (fun row => (hmem row).trans (hmem' row).symm)⟩
  · cases hfound.symm.trans he

theorem Selects.not_agrees {c : Nat} {e : Error}
    (hlookup : lookup σ = some (.error e)) (hscanned : Selects σ t c v scanned) : ¬SameRows lookup scanned σ := by
  obtain ⟨rows,hrows,-⟩ := hscanned
  rintro ⟨hagree,-⟩
  obtain ⟨found,hfound,-⟩ := hagree rows σ hrows
  cases hlookup.symm.trans hfound

section Plans
variable {orders : HashOrders} {rows : List Row}
variable {plan : PhysOp} {schema : RowSchema} {p : Predicate}

/-- An operator over the rows that a call of the table returns. -/
def tableLeaf {A : Type} (t : Table) (f : A → List Row) (a : Action Store Error A) : Action Store Error (Operator Store) := do
  return ⟨.ofTable t.schema,.ofList (f (← a))⟩

section
variable {A : Type} {f : A → List Row} {a : Action Store Error A} {r : Except Error A}

private theorem planRows_leaf (hbuild : Volcano.build x plan orders = tableLeaf t f a) (hr : a σ = some (r.map (·,σ))) :
    planRows x plan orders σ = some (r.map (fun y => (f y,σ))) := by
  rw [planRows,map_eq_pure_bind,Volcano.execute,hbuild,tableLeaf,bind_assoc,bind_assoc]
  cases r with
  | error e =>
    rw [Action.bind_run,hr]
    rfl
  | ok y =>
    rw [Action.bind_of_some hr,pure_bind,bind_assoc,Action.bind_of_some (Stream.collect_ofList _ σ)]
    rfl

private theorem planRows_filter {c : Nat} {v : Value} (hbuild : Volcano.build x plan (orders.child false) = tableLeaf t f a)
    (hr : a σ = some (r.map (·,σ))) (hp : pinned p = some (c,v))
    (hrows : ∀ y, r = .ok y → ∀ row ∈ f y, row[c]? = some (keyOf c row)) :
    planRows x (.filter plan p) orders σ = some (r.map (fun y => (equalRows c v (f y),σ))) := by
  rw [planRows,map_eq_pure_bind,Volcano.execute,Volcano.build,hbuild,tableLeaf,compiles_pinned hp,bind_assoc,bind_assoc,bind_assoc]
  cases r with
  | error e =>
    rw [Action.bind_run,hr]
    rfl
  | ok y =>
    rw [Action.bind_of_some hr,pure_bind]
    change ((Stream.collect _ >>= fun rows => pure (_,rows)) >>= _) σ = _
    rw [bind_assoc,Action.bind_of_some (collect_pinned hp (hrows y rfl))]
    rfl

end

section

variable (hx : x.OnStore tables) (hc : Catalogued tables)
include hx hc

theorem build_seqScan (ht : t ∈ tables) :
    Volcano.build x (.seqScan t.schema.name) orders = tableLeaf t id (t.scan.exec .ofStore) := by
  rw [Volcano.build,hx.resolve hc ht,hx.handle]
  rfl

theorem build_pkLookup (ht : t ∈ tables) (key : List Value) :
    Volcano.build x (.pkLookup t.schema.name key) orders = tableLeaf t Option.toList ((t.getByPk key).exec .ofStore) := by
  rw [Volcano.build,hx.resolve hc ht,hx.handle]
  rfl

theorem build_indexScan (ht : t ∈ tables) {ix : IndexHandle} (hix : ix ∈ t.indexes) (lead : List Value) :
    Volcano.build x (.indexScan t.schema.name ix.definition.name lead) orders
      = tableLeaf t id ((t.indexScan ix lead).exec .ofStore) := by
  rw [Volcano.build,hx.resolve hc ht,hx.handle]
  change (Action.ofExcept (t.findIndex ix.definition.name) >>= _) = _
  rw [hc.findIndex ht hix]
  rfl

end

end Plans

private theorem recheckRows_one {c : Nat} {rows : List Row} (hrows : ∀ row ∈ rows, row[c]? = some (keyOf c row)) :
    recheckRows [c] [w] rows = some (equalRows c w rows) := by
  induction rows with
  | nil => rfl
  | cons row rows ih =>
    have hprobe : matchesProbe row [c] [w] = some (decide ((keyOf c row).compareSql w = some .eq)) := by
      rw [matchesProbe,hrows row mem_cons_self]
      by_cases h : (keyOf c row).compareSql w = some .eq <;> simp [h,matchesProbe]
    rw [recheckRows,hprobe,ih (fun r hr => hrows r (mem_cons_of_mem _ hr)),equalRows,equalRows,filter_cons]
    rfl

private theorem probeKey_one {types : List ColumnType} {k c : Nat} {ty : ColumnType}
    (hv : outer[k]? = some v) (hty : types[c]? = some ty) : probeKey types outer [k] [c]
      = some (if v = .null then none else (v.coerceExact ty).map ([·])) := by
  unfold probeKey
  rw [hv,hty]
  by_cases hnull : v = .null
  · simp [hnull]
  · cases hw : v.coerceExact ty <;> simp [hnull,hw,probeKey]

private theorem lead_types (hc : Catalogued tables) (ht : t ∈ tables) (hix : ix ∈ t.indexes)
    (hcols : ix.definition.columns = [c.val]) :
    ix.keyTypes = (t.schema.columns.get c).ty :: t.schema.pkTypes := by
  have htypes : ix.keyTypes
      = ix.definition.columns.map (fun i => t.schema.columnTypes.getD i .int32) ++ t.schema.pkTypes :=
    congrArg IndexHandle.keyTypes (hc.handles t ht ix hix)
  have hty : t.schema.columnTypes.getD c.val .int32 = (t.schema.columns.get c).ty := by
    rw [getD_eq_getElem?_getD,Schema.columnTypes,getElem?_map,getElem?_eq_getElem c.isLt]
    rfl
  rw [htypes,hcols,map_singleton,hty,singleton_append]

theorem tryLowerPkLookup_eq_some {s : Schema} (h : tryLowerPkLookup p s = some key) :
    ∃ c v w, s.primaryKey = [c] ∧ pinned p = some (c.val,v) ∧ v.coerceExact (s.columns.get c).ty = some w ∧ key = [w] := by
  unfold tryLowerPkLookup at h
  split at h
  · next c hpk =>
    split at h
    · next i v hp =>
      split_ifs at h with hcol
      obtain ⟨w,hw,rfl⟩ := Option.map_eq_some_iff.mp h
      exact ⟨c,v,w,hpk,hcol ▸ hp,hw,rfl⟩
    · cases h
  · cases h

theorem tryLowerIndexPredicate_matched (hc : Catalogued tables) (ht : t ∈ tables)
    (h : tryLowerIndexPredicate p t.indexes = some (.matched ix lead recheck)) :
    ∃ (c : Fin t.schema.columns.length) (v w : Value), ix ∈ t.indexes ∧ ix.definition.columns = [c.val] ∧
      pinned p = some (c.val,v) ∧ v.coerceExact (t.schema.columns.get c).ty = some w ∧ lead = [w] ∧ recheck = p := by
  unfold tryLowerIndexPredicate at h
  split at h
  · cases h
  · next i v hp =>
    split at h
    · cases h
    · next ix' hfind =>
      have hix := mem_of_find?_eq_some hfind
      have hcols : ix'.definition.columns = [i] := by simpa using find?_some hfind
      have hi : i < t.schema.columns.length := hc.columns t ht ix' hix i (by rw [hcols]; exact mem_cons_self)
      rw [lead_types (c := ⟨i,hi⟩) hc ht hix hcols] at h
      simp only [getElem?_cons_zero,Option.bind_eq_bind,Option.bind_some] at h
      split at h
      · next w hw =>
        cases h
        exact ⟨⟨i,hi⟩,v,w,hix,hcols,hp,hw,rfl,rfl⟩
      · cases h

theorem key_of_holds (c : Fin t.schema.columns.length) {row : Row} (hrow : σ.Holds t row) :
    row[c.val]? = some (keyOf c.val row) ∧ (keyOf c.val row).matchesType (t.schema.columns.get c).ty = true := by
  obtain ⟨_,_,-,hdecode⟩ := hrow
  have hfits := Tuple.decode_fits hdecode
  have hlt' : c.val < t.schema.columnTypes.length := by
    rw [Schema.columnTypes,length_map]
    exact c.isLt
  have hlt : c.val < row.length := hfits.length_eq ▸ hlt'
  have hget : row[c.val]? = some row[c.val] := getElem?_eq_getElem hlt
  have hkey : keyOf c.val row = row[c.val] := by rw [keyOf,hget,Option.getD_some]
  refine ⟨hget.trans (congrArg some hkey.symm),?_⟩
  have hmatch := hfits.get hlt hlt'
  rw [hkey]
  simpa [Schema.columnTypes] using hmatch

section

variable (hc : Catalogued tables) (hq : σ.Quiescent tables) (ht : t ∈ tables)
include hc hq ht

/-- A lookup by the primary key fails, or it finds the row with the value. -/
theorem getByPk_pinned (hpk : t.schema.primaryKey = [c]) (hw : v.coerceExact (t.schema.columns.get c).ty = some w) :
    (¬v.Keyable (t.schema.columns.get c).ty ∧ ∃ e, (t.getByPk [w]).exec .ofStore σ = some (.error e))
    ∨ (v.Keyable (t.schema.columns.get c).ty ∧ ∃ r, (t.getByPk [w]).exec .ofStore σ = some (.ok (r,σ))
      ∧ ∀ row, r = some row ↔ σ.Holds t row ∧ (keyOf c.val row).compareSql v = some .eq) := by
  have htypes : t.schema.pkTypes = [(t.schema.columns.get c).ty] := by rw [Schema.pkTypes,hpk,map_singleton]
  have hvalues : ∀ row, t.schema.pkValues row = [keyOf c.val row] := by
    intro row
    rw [Schema.pkValues,hpk,map_singleton,keyOf,getD_eq_getElem?_getD]
  have hfits : Fits [w] t.schema.pkTypes := by
    rw [htypes]
    exact .cons (Value.coerceExact_eq_some_iff.mp hw).1 .nil
  rw [← encode_coerced hw,← htypes]
  cases hencode : encodeKeyComponents [w] t.schema.pkTypes with
  | error e => exact .inl ⟨fun h => (by obtain ⟨_,h⟩ := h; cases h),e,Table.getByPk_error hfits hencode⟩
  | ok pk =>
    obtain ⟨r,hr,hiff⟩ := Table.getByPk_exec hc hq ht hfits hencode
    refine .inr ⟨⟨pk,rfl⟩,r,hr,fun row => ?_⟩
    rw [hiff row,and_congr_right_iff]
    intro hrow
    obtain ⟨-,hmatches⟩ := key_of_holds c hrow
    have hnull : keyOf c.val row ≠ .null := (hrow.own hc hq ht).2.1 _ (by rw [hvalues]; exact mem_cons_self)
    rw [hvalues,compareSql_coerced hw hmatches]
    constructor
    · intro h
      have heq := (cons.inj h).1
      exact ⟨heq,heq ▸ hnull⟩
    · rintro ⟨h,-⟩
      rw [h]

private theorem indexScan_one (hix : ix ∈ t.indexes)
    (hcols : ix.definition.columns = [c.val]) (hw : w.matchesType (t.schema.columns.get c).ty = true) :
    (∀ e, encodeKeyComponents [w] [(t.schema.columns.get c).ty] = .error e →
      (t.indexScan ix [w]).exec .ofStore σ = some (.error e))
    ∧ (∀ bs, encodeKeyComponents [w] [(t.schema.columns.get c).ty] = .ok bs →
      ∃ rows, (t.indexScan ix [w]).exec .ofStore σ = some (.ok (rows,σ)) ∧ rows.Nodup
        ∧ ∀ row, row ∈ rows ↔ σ.Holds t row ∧ keyOf c.val row = w) := by
  have htake : ix.keyTypes.take [w].length = [(t.schema.columns.get c).ty] := by
    rw [lead_types hc ht hix hcols]
    rfl
  have hlength : [w].length ≤ ix.definition.columns.length := by
    rw [hcols]
    exact le_rfl
  constructor
  · intro e he
    unfold Table.indexScan
    rw [if_neg (not_lt.mpr hlength),htake,he]
    rfl
  · intro bs hbs
    obtain ⟨rows,hrows,hnodup,hmem⟩ := Table.indexScan_exec hc hq ht hix hlength
      (by rw [htake]; exact .cons hw .nil) (by rw [htake]; exact hbs)
    refine ⟨rows,hrows,hnodup,fun row => ?_⟩
    have hvalues : Table.indexedValues ix row = [keyOf c.val row] := by
      rw [Table.indexedValues,hcols,map_singleton,keyOf,getD_eq_getElem?_getD]
    rw [hmem,hvalues]
    exact and_congr_right (fun _ => by simp)

/-- An index on one column fails, or it finds the rows with the value; for a null also those without one. -/
theorem indexScan_pinned (hix : ix ∈ t.indexes)
    (hcols : ix.definition.columns = [c.val]) (hw : v.coerceExact (t.schema.columns.get c).ty = some w) :
    (¬v.Keyable (t.schema.columns.get c).ty ∧ ∃ e, (t.indexScan ix [w]).exec .ofStore σ = some (.error e))
    ∨ (v.Keyable (t.schema.columns.get c).ty ∧ ∃ rows, (t.indexScan ix [w]).exec .ofStore σ = some (.ok (rows,σ))
      ∧ rows.Nodup ∧ (∀ row ∈ rows, σ.Holds t row)
      ∧ ∀ row, σ.Holds t row → (keyOf c.val row).compareSql v = some .eq → row ∈ rows) := by
  obtain ⟨hmatches,-⟩ := Value.coerceExact_eq_some_iff.mp hw
  obtain ⟨herror,hok⟩ := indexScan_one hc hq ht hix hcols hmatches
  rw [← encode_coerced hw]
  cases hencode : encodeKeyComponents [w] [(t.schema.columns.get c).ty] with
  | error e => exact .inl ⟨nofun,e,herror e hencode⟩
  | ok bs =>
    obtain ⟨rows,hrows,hnodup,hmem⟩ := hok bs hencode
    refine .inr ⟨⟨bs,rfl⟩,rows,hrows,hnodup,fun row hrow => ((hmem row).mp hrow).1,fun row hrow hcmp => ?_⟩
    exact (hmem row).mpr ⟨hrow,((compareSql_coerced hw (key_of_holds c hrow).2).mp hcmp).1⟩

variable (hx : x.OnStore tables)
include hx

theorem selects_filteredScan (c : Fin t.schema.columns.length) (hp : pinned p = some (c.val,v)) (orders : HashOrders) :
    Selects σ t c.val v (planRows x (.filter (.seqScan t.schema.name) p) orders) := by
  obtain ⟨rows,hscan,hnodup,hmem⟩ := Table.scan_exec hc hq ht
  refine ⟨equalRows c.val v rows,?_,hnodup.filter _,fun row => ?_⟩
  · exact planRows_filter (r := .ok rows) (build_seqScan hx hc ht) hscan hp
      (by rintro _ ⟨⟩ row hrow; exact (key_of_holds c ((hmem row).mp hrow)).1)
  · rw [equalRows,mem_filter,hmem,decide_eq_true_eq]

theorem pkLookup_agrees_iff (hp : pinned p = some (c.val,v)) (orders : HashOrders) (hkey : tryLowerPkLookup p t.schema = some key) :
    SameRows (planRows x (.pkLookup t.schema.name key) orders) (planRows x (.filter (.seqScan t.schema.name) p) orders) σ ↔
      v.Keyable (t.schema.columns.get c).ty := by
  have hscanned := selects_filteredScan hc hq ht hx c hp orders
  obtain ⟨c',v',w,hpk,hp',hw,rfl⟩ := tryLowerPkLookup_eq_some hkey
  obtain ⟨hcol,rfl⟩ := Prod.mk.inj (Option.some.inj (hp.symm.trans hp'))
  obtain rfl := Fin.ext hcol
  rcases getByPk_pinned hc hq ht hpk hw with ⟨hkeyable,e,he⟩ | ⟨hkeyable,r,hr,hmem⟩
  · exact iff_of_false (hscanned.not_agrees (planRows_leaf (r := .error e) (build_pkLookup hx hc ht _) he)) hkeyable
  · refine iff_of_true (Selects.agrees ⟨r.toList,?_,?_,fun row => ?_⟩ hscanned) hkeyable
    · exact planRows_leaf (r := .ok r) (build_pkLookup hx hc ht _) hr
    · cases r <;> simp
    · rw [Option.mem_toList,hmem row]

theorem indexScan_agrees_iff (hp : pinned p = some (c.val,v)) (orders : HashOrders)
    (hindex : tryLowerIndexPredicate p t.indexes = some (.matched ix lead recheck)) :
    SameRows (planRows x (.filter (.indexScan t.schema.name ix.definition.name lead) recheck) orders)
      (planRows x (.filter (.seqScan t.schema.name) p) orders) σ ↔ v.Keyable (t.schema.columns.get c).ty := by
  have hscanned := selects_filteredScan hc hq ht hx c hp orders
  obtain ⟨c',v',w,hix,hcols,hp',hw,rfl,rfl⟩ := tryLowerIndexPredicate_matched hc ht hindex
  obtain ⟨hcol,rfl⟩ := Prod.mk.inj (Option.some.inj (hp.symm.trans hp'))
  obtain rfl := Fin.ext hcol
  rcases indexScan_pinned hc hq ht hix hcols hw with ⟨hkeyable,e,he⟩ | ⟨hkeyable,rows,hrows,hnodup,hholds,hmem⟩
  · exact iff_of_false
      (hscanned.not_agrees (planRows_filter (r := .error e) (build_indexScan hx hc ht hix _) he hp nofun)) hkeyable
  · refine iff_of_true (Selects.agrees ⟨equalRows c.val v rows,?_,hnodup.filter _,fun row => ?_⟩ hscanned) hkeyable
    · exact planRows_filter (r := .ok rows) (build_indexScan hx hc ht hix _) hrows hp
        (by rintro _ ⟨⟩ row hrow; exact (key_of_holds c (hholds row hrow)).1)
    · rw [equalRows,mem_filter,decide_eq_true_eq]
      exact ⟨fun h => ⟨hholds row h.1,h.2⟩,fun h => ⟨hmem row h.1 h.2,h.2⟩⟩

private theorem selects_scanMatching (c : Fin t.schema.columns.length) {k : Nat} (hv : outer[k]? = some v) :
    Selects σ t c.val v (scanMatching x t (keyedCondition k (outer.length + c.val) none) outer) := by
  obtain ⟨rows,hscan,hnodup,hmem⟩ := Table.scan_exec hc hq ht
  have hkey : keyOf k outer = v := by rw [keyOf,hv,Option.getD_some]
  refine ⟨_,?_,hnodup.filter (fun row => decide (joinPredicate (some (keyedCondition k (outer.length + c.val) none)) outer row
    = some true)),fun row => ?_⟩
  · unfold scanMatching
    rw [hx.handle,Action.bind_of_some hscan]
    rfl
  · rw [mem_filter,hmem,decide_eq_true_eq,and_congr_right_iff]
    intro hrow
    have hr := (key_of_holds c hrow).1
    have ho : outer[k]? = some (keyOf k outer) := by rw [hv,hkey]
    have hequal : keysEqual k c.val outer row = true ↔ (keyOf c.val row).compareSql v = some .eq := by
      rw [keysEqual,decide_eq_true_eq,hkey,Value.compareSql_eq_comm]
    rw [← hequal]
    constructor
    · intro h
      by_contra hne
      cases joinPredicate_unequal ho hr (Bool.not_eq_true _ ▸ hne) h
    · intro h
      rw [joinPredicate_equal ho hr h]
      rfl

/-- The probe of an index join finds the rows that a scan matches with the outer row. -/
theorem probe_agrees_iff (hix : ix ∈ t.indexes) (hcols : ix.definition.columns = [c.val]) {k : Nat}
    (hv : outer[k]? = some v) :
    SameRows (probeIndex x t ix [k] outer) (scanMatching x t (keyedCondition k (outer.length + c.val) none) outer) σ ↔
      v.Keyable (t.schema.columns.get c).ty := by
  have hscanned := selects_scanMatching hc hq ht hx c hv
  have hty : t.schema.columnTypes[c.val]? = some (t.schema.columns.get c).ty := by
    rw [Schema.columnTypes,getElem?_map,getElem?_eq_getElem c.isLt]
    rfl
  have hkey := probeKey_one hv hty
  -- a null, and a value that the column cannot have, match nothing
  have hnothing : (v = .null ∨ v.coerceExact (t.schema.columns.get c).ty = none) → v.Keyable (t.schema.columns.get c).ty →
      probeIndex x t ix [k] outer σ = some (.ok ([],σ)) →
      (SameRows (probeIndex x t ix [k] outer) (scanMatching x t (keyedCondition k (outer.length + c.val) none) outer) σ ↔
        v.Keyable (t.schema.columns.get c).ty) := by
    intro hnone hkeyable hprobe
    refine iff_of_true (Selects.agrees ⟨[],hprobe,nodup_nil,fun row => ⟨fun h => (by cases h),?_⟩⟩ hscanned) hkeyable
    rintro ⟨hrow,hcmp⟩
    obtain ⟨-,hmatches⟩ := key_of_holds c hrow
    rcases hnone with rfl | hnone
    · exact absurd rfl (Value.compareSql_eq_iff.mp (Value.compareSql_eq_comm.mp hcmp)).1
    · exact absurd hcmp (compareSql_uncoerced hnone hmatches)
  by_cases hnull : v = .null
  · refine hnothing (.inl hnull) (by rw [hnull]; trivial) ?_
    rw [probeIndex,hcols,hkey,if_pos hnull]
    rfl
  cases hw : v.coerceExact (t.schema.columns.get c).ty with
  | none =>
    refine hnothing (.inr hw) (keyable_uncoerced hw) ?_
    rw [probeIndex,hcols,hkey,if_neg hnull,hw]
    rfl
  | some w =>
    have hprobe' : probeIndex x t ix [k] outer = (do
        let rows ← (t.indexScan ix [w]).exec .ofStore
        .ofOption (recheckRows [c.val] [w] rows)) := by
      rw [probeIndex,hcols,hkey,if_neg hnull,hw,hx.handle]
      rfl
    obtain ⟨-,hkind,hworth⟩ := Value.coerceExact_eq_some_iff.mp hw
    rcases indexScan_pinned hc hq ht hix hcols hw with ⟨hkeyable,e,he⟩ | ⟨hkeyable,rows,hrows,hnodup,hholds,hmem⟩
    · have hfail : probeIndex x t ix [k] outer σ = some (.error e) := by rw [hprobe',Action.bind_run,he]
      exact iff_of_false (hscanned.not_agrees hfail) hkeyable
    · refine iff_of_true (Selects.agrees ⟨equalRows c.val w rows,?_,hnodup.filter _,fun row => ?_⟩ hscanned) hkeyable
      · rw [hprobe',Action.bind_of_some hrows,recheckRows_one (fun row hrow =>
          (key_of_holds c (hholds row hrow)).1)]
        rfl
      · -- a value and what it is turned into compare as equal to the same values
        have hequal : (keyOf c.val row).compareSql w = some .eq ↔ (keyOf c.val row).compareSql v = some .eq := by
          rw [Value.compareSql_eq_iff,Value.compareSql_eq_iff,hkind,hworth]
        rw [equalRows,mem_filter,decide_eq_true_eq,hequal]
        exact ⟨fun h => ⟨hholds row h.1,h.2⟩,fun h => ⟨hmem row h.1 h.2,h.2⟩⟩

end

/-- In a quiescent store, comparing a key column with a value by a lookup of the primary key, by an index or by the probe of an
index join gives the rows that a scan with the comparison gives, exactly if a text fits a CHAR column. -/
theorem lookups_agree_iff (hx : x.OnStore tables) (hc : Catalogued tables) (hq : σ.Quiescent tables) (ht : t ∈ tables)
    (c : Fin t.schema.columns.length) (v : Value) (orders : HashOrders) :
    (∀ p key, pinned p = some (c.val,v) → tryLowerPkLookup p t.schema = some key →
      (SameRows (planRows x (.pkLookup t.schema.name key) orders) (planRows x (.filter (.seqScan t.schema.name) p) orders) σ ↔
        v.Keyable (t.schema.columns.get c).ty))
    ∧ (∀ p ix lead recheck, pinned p = some (c.val,v) →
      tryLowerIndexPredicate p t.indexes = some (.matched ix lead recheck) →
      (SameRows (planRows x (.filter (.indexScan t.schema.name ix.definition.name lead) recheck) orders)
        (planRows x (.filter (.seqScan t.schema.name) p) orders) σ ↔ v.Keyable (t.schema.columns.get c).ty))
    ∧ (∀ ix ∈ t.indexes, ix.definition.columns = [c.val] → ∀ (outer : Row) k, outer[k]? = some v →
      (SameRows (probeIndex x t ix [k] outer) (scanMatching x t (keyedCondition k (outer.length + c.val) none) outer) σ ↔
        v.Keyable (t.schema.columns.get c).ty)) :=
  ⟨fun _ _ hp hkey => pkLookup_agrees_iff hc hq ht hx hp orders hkey,
    fun _ _ _ _ hp hindex => indexScan_agrees_iff hc hq ht hx hp orders hindex,
    fun _ hix hcols _ _ hv => probe_agrees_iff hc hq ht hx hix hcols hv⟩

end Agreement

section Codes

private def codesSchema : Schema where
  name := "codes"
  tableId := 1
  columns := [⟨"code",.char 2,false,none⟩]
  primaryKey := [0]
  keyed := by decide
  keyNotNull := by decide

private def byCode : IndexHandle := codesSchema.handle 7 ⟨"by_code",1,[0],false⟩

private def codes : Table := ⟨codesSchema,[byCode]⟩

private def noCodes : Store := ⟨OrdMap.empty,fun _ => OrdMap.empty⟩

private def onCodes : ExecContext Store := ⟨.ofStore,[codes],[],[]⟩

private def twoBytes : Value := .varchar ⟨[0x61,0x62],by decide⟩
private def threeBytes : Value := .varchar ⟨[0x61,0x62,0x63],by decide⟩

private def codeIs (v : Value) : Predicate := .compare .eq (.column 0) (.literal v)

private theorem codes_catalogued : Catalogued [codes] := by
  constructor <;> simp [codes,codesSchema,byCode,Schema.handle,u32Max]

/-- The codes ab and c, and their entries. -/
private def someCodes : Store where
  rows := (Engine.put OrdMap.empty [0,0,0,1,1,0x61,0x62] [0,0x61,0x62]).put [0,0,0,1,1,0x63,0] [0,0x63,0]
  entries index := if index = 7 then
      (Engine.put OrdMap.empty [1,0x61,0x62,1,0x61,0x62] []).put [1,0x63,0,1,0x63,0] []
    else OrdMap.empty

private theorem someCodes_row {key blob : Bytes} (h : OrdMap.get someCodes.rows key = some blob) :
    (key,blob) = ([0,0,0,1,1,0x61,0x62],[0,0x61,0x62]) ∨ (key,blob) = ([0,0,0,1,1,0x63,0],[0,0x63,0]) :=
  mem_pair.mp ((OrdMap.get_eq_some_iff _ _ _).mp h)

private theorem someCodes_quiescent : someCodes.Quiescent [codes] := by
  refine ⟨fun key blob h => ⟨codes,mem_cons_self,?_⟩,fun index key v => ⟨fun h => ?_,?_⟩,?_⟩
  · rcases someCodes_row h with hrow | hrow <;> cases hrow
    · exact ⟨_,[1,0x61,0x62],rfl,by decide,rfl,rfl⟩
    · exact ⟨_,[1,0x63,0],rfl,by decide,rfl,rfl⟩
  · by_cases hindex : index = 7
    · subst hindex
      rcases mem_pair.mp ((OrdMap.get_eq_some_iff _ _ _).mp h) with hrow | hrow <;> cases hrow
      · exact ⟨rfl,codes,mem_cons_self,byCode,mem_cons_self,rfl,[1,0x61,0x62],_,_,rfl,rfl,rfl⟩
      · exact ⟨rfl,codes,mem_cons_self,byCode,mem_cons_self,rfl,[1,0x63,0],_,_,rfl,rfl,rfl⟩
    · simp only [someCodes,if_neg hindex] at h
      cases h
  · rintro ⟨rfl,t,ht,ix,hix,rfl,pk,blob,row,hget,hrow,hkey⟩
    obtain rfl := mem_singleton.mp ht
    obtain rfl := mem_singleton.mp hix
    rcases someCodes_row hget with heq | heq <;> cases (Prod.mk.inj heq).2 <;> cases hrow <;> cases hkey <;> rfl
  · rintro t ht ix hix row ⟨pk,blob,hget,hrow⟩
    obtain rfl := mem_singleton.mp ht
    obtain rfl := mem_singleton.mp hix
    rcases someCodes_row hget with heq | heq <;> cases (Prod.mk.inj heq).2 <;> cases hrow <;> exact ⟨_,rfl⟩

/-- A text of two bytes in a column of CHAR(2). The scan finds its row and not the other. -/
theorem lookups_agree_iff_twoBytes :
    planRows onCodes (.filter (.seqScan "codes") (codeIs twoBytes)) asHashed someCodes
        = some (.ok ([[.char ⟨[0x61,0x62],by decide⟩]],someCodes))
      ∧ SameRows (planRows onCodes (.pkLookup "codes" [.char ⟨[0x61,0x62],by decide⟩]) asHashed)
        (planRows onCodes (.filter (.seqScan "codes") (codeIs twoBytes)) asHashed) someCodes
      ∧ SameRows (planRows onCodes (.filter (.indexScan "codes" "by_code" [.char ⟨[0x61,0x62],by decide⟩]) (codeIs twoBytes))
        asHashed) (planRows onCodes (.filter (.seqScan "codes") (codeIs twoBytes)) asHashed) someCodes
      ∧ SameRows (probeIndex onCodes codes byCode [0] [twoBytes]) (scanMatching onCodes codes (keyedCondition 0 1 none) [twoBytes])
        someCodes := by
  obtain ⟨hpk,hindex,hprobe⟩ := lookups_agree_iff (x := onCodes) ⟨rfl,rfl⟩ codes_catalogued someCodes_quiescent
    mem_cons_self ⟨0,by decide⟩ twoBytes asHashed
  have hfits : twoBytes.Keyable (.char 2) := by decide
  exact ⟨rfl,(hpk (codeIs twoBytes) _ rfl rfl).mpr hfits,(hindex (codeIs twoBytes) byCode _ _ rfl rfl).mpr hfits,
    (hprobe byCode mem_cons_self rfl [twoBytes] 0 rfl).mpr hfits⟩

/-- A text of three bytes cannot be in a column of CHAR(2): the scan finds no row, but the lookup by the key, the index and the
probe all fail. -/
theorem lookups_fail_threeBytes :
    planRows onCodes (.filter (.seqScan "codes") (codeIs threeBytes)) asHashed noCodes = some (.ok ([],noCodes))
      ∧ tryLowerPkLookup (codeIs threeBytes) codesSchema = some [.char ⟨[0x61,0x62,0x63],by decide⟩]
      ∧ planRows onCodes (.pkLookup "codes" [.char ⟨[0x61,0x62,0x63],by decide⟩]) asHashed noCodes
        = some (.error (.storageCorrupted "encode_char: value length 3 exceeds Char(2)"))
      ∧ planRows onCodes (.filter (.indexScan "codes" "by_code" [.char ⟨[0x61,0x62,0x63],by decide⟩]) (codeIs threeBytes))
        asHashed noCodes = some (.error (.storageCorrupted "encode_char: value length 3 exceeds Char(2)"))
      ∧ probeIndex onCodes codes byCode [0] [threeBytes] noCodes
        = some (.error (.storageCorrupted "encode_char: value length 3 exceeds Char(2)")) :=
  ⟨rfl,rfl,rfl,rfl,rfl⟩

end Codes

end InterchangeDb
