import InterchangeDb.Lib.Follows
import InterchangeDb.Sql.OneState
import InterchangeDb.Sql.StoredRows
import InterchangeDb.Sql.Volcano

/-! A quiescent store: each row stands under its own key, and each index has the entries of the rows. -/
namespace InterchangeDb
open List InterchangeDb.Action Except
open KeyEnc

/-- The rows, and the entries of each index by its id. -/
structure Store where
  rows : Engine
  entries : Nat → Engine

namespace Store

/-- The rows of a range in the order of a transaction's scan. -/
def scan (σ : Store) (lo hi : Bound Bytes) : List (Bytes × Bytes) :=
  (σ.rows.range (.included (scanStart lo)) (.included (scanEnd hi))).insertionSort
    (fun a b => a.1.length < b.1.length ∨ a.1.length = b.1.length ∧ a.1 ≤ b.1)

def indexPut (σ : Store) (index : Nat) (key : Bytes) : Store :=
  { σ with entries := Function.update σ.entries index ((σ.entries index).put key []) }

def indexDelete (σ : Store) (index : Nat) (key : Bytes) : Store :=
  { σ with entries := Function.update σ.entries index ((σ.entries index).delete key) }

end Store

/-- The calls on a store. No plan creates an index. -/
def Handle.ofStore : Handle Store where
  lockForWrite _ := pure ()
  get key := fun σ => some (.ok (OrdMap.get σ.rows key,σ))
  put key value := fun σ => some (.ok ((),{ σ with rows := σ.rows.put key value }))
  delete key := fun σ => some (.ok ((),{ σ with rows := σ.rows.delete key }))
  scan lo hi := fun σ => some (.ok (σ.scan lo hi,σ))
  indexScan index lo hi := fun σ => some (.ok ((σ.entries index).scan lo hi,σ))
  indexPut index key := fun σ => some (.ok ((),σ.indexPut index key))
  indexDelete index key := fun σ => some (.ok ((),σ.indexDelete index key))
  createIndex _ := .crash

/-- Tables as the catalog has them. Ids at the end of the range are not given to tables; an index is on columns of its
table and has its own id. -/
structure Catalogued (tables : List Table) : Prop where
  names : ∀ t ∈ tables, ∀ t' ∈ tables, t.schema.name = t'.schema.name → t = t'
  ids : ∀ t ∈ tables, ∀ t' ∈ tables, t.schema.tableId = t'.schema.tableId → t = t'
  bounded : ∀ t ∈ tables, t.schema.tableId.val < u32Max
  handles : ∀ t ∈ tables, ∀ ix ∈ t.indexes, ix = t.schema.handle ix.id ix.definition
  columns : ∀ t ∈ tables, ∀ ix ∈ t.indexes, ∀ c ∈ ix.definition.columns, c < t.schema.columns.length
  indexNames : ∀ t ∈ tables, ∀ ix ∈ t.indexes, ∀ ix' ∈ t.indexes, ix.definition.name = ix'.definition.name → ix = ix'
  indexIds : ∀ t ∈ tables, ∀ t' ∈ tables, ∀ ix ∈ t.indexes, ∀ ix' ∈ t'.indexes, ix.id = ix'.id → t = t' ∧ ix = ix'

/-- The blob of a row under the key of its own primary key. -/
def Schema.Lays (s : Schema) (key blob : Bytes) : Prop :=
  ∃ row pk, Tuple.decode s.columnTypes blob = .ok row ∧ (∀ v ∈ s.pkValues row, v ≠ .null) ∧
    encodeKeyComponents (s.pkValues row) s.pkTypes = .ok pk ∧ key = makeRowKey s.tableId pk

namespace Store

def Holds (σ : Store) (t : Table) (row : Row) : Prop :=
  ∃ pk blob, OrdMap.get σ.rows (makeRowKey t.schema.tableId pk) = some blob ∧
    Tuple.decode t.schema.columnTypes blob = .ok row

section Holding
variable {σ : Store} {t : Table} {row row' : Row} {key : Bytes}

/-- A row of a table and the key it stands under. -/
def HoldsAt (σ : Store) (t : Table) (key : Bytes) (row : Row) : Prop :=
  ∃ pk blob, key = makeRowKey t.schema.tableId pk ∧ OrdMap.get σ.rows key = some blob ∧
    Tuple.decode t.schema.columnTypes blob = .ok row

theorem holds_iff : σ.Holds t row ↔ ∃ key, σ.HoldsAt t key row := by
  constructor
  · rintro ⟨pk,blob,hget,hrow⟩
    exact ⟨_,pk,blob,rfl,hget,hrow⟩
  · rintro ⟨key,pk,blob,rfl,hget,hrow⟩
    exact ⟨pk,blob,hget,hrow⟩

theorem HoldsAt.holds (h : σ.HoldsAt t key row) : σ.Holds t row :=
  holds_iff.mpr ⟨key,h⟩

theorem HoldsAt.unique (h : σ.HoldsAt t key row) (h' : σ.HoldsAt t key row') : row = row' := by
  obtain ⟨-,blob,-,hget,hrow⟩ := h
  obtain ⟨-,blob',-,hget',hrow'⟩ := h'
  cases hget.symm.trans hget'
  exact Except.ok.inj (hrow.symm.trans hrow')

end Holding

/-- A row is never stored under the number of its table alone. -/
def Keyed (σ : Store) : Prop :=
  ∀ key blob, OrdMap.get σ.rows key = some blob → ∃ tableId pk, pk ≠ [] ∧ key = makeRowKey tableId pk

/-- Each row stands under its own key, and each index has the entries of the rows. -/
structure Quiescent (tables : List Table) (σ : Store) : Prop where
  laid : ∀ key blob, OrdMap.get σ.rows key = some blob → ∃ t ∈ tables, t.schema.Lays key blob
  entries : ∀ index key v, OrdMap.get (σ.entries index) key = some v ↔
    v = [] ∧ EntryOf tables (OrdMap.get σ.rows) index key
  indexed : ∀ t ∈ tables, ∀ ix ∈ t.indexes, ∀ row, σ.Holds t row → ∃ key, t.buildIndexKey ix row = .ok key

section Reads

theorem scanOf_scan (σ : Store) (lo hi : Bound Bytes) : ScanOf (OrdMap.get σ.rows) lo hi (σ.scan lo hi) := by
  have hperm : (σ.scan lo hi).Perm (σ.rows.range (.included (scanStart lo)) (.included (scanEnd hi))) :=
    perm_insertionSort _ _
  refine ⟨?_,fun k d => ?_⟩
  · have htotal : Std.Total (fun a b : Bytes × Bytes => a.1.length < b.1.length ∨ a.1.length = b.1.length ∧ a.1 ≤ b.1) := by
      refine ⟨fun a b => ?_⟩
      rcases lt_trichotomy a.1.length b.1.length with h | h | h
      · exact .inl (.inl h)
      · exact (le_total a.1 b.1).imp (fun h' => .inr ⟨h,h'⟩) (fun h' => .inr ⟨h.symm,h'⟩)
      · exact .inr (.inl h)
    have htrans : IsTrans (Bytes × Bytes) (fun a b => a.1.length < b.1.length ∨ a.1.length = b.1.length ∧ a.1 ≤ b.1) := by
      refine ⟨fun a b c hab hbc => ?_⟩
      rcases hab with hab | ⟨hab,hle⟩
      · exact .inl (hbc.elim (fun h => hab.trans h) (fun h => h.1 ▸ hab))
      · exact hbc.imp (fun h => hab ▸ h) (fun h => ⟨hab.trans h.1,hle.trans h.2⟩)
    have hkeys : ((σ.scan lo hi).map Prod.fst).Nodup := by
      refine (hperm.map Prod.fst).nodup_iff.mpr (pairwise_map.mpr ?_)
      exact (OrdMap.range_sorted _ _ _).imp (·.ne)
    have hsorted := pairwise_insertionSort
      (fun a b : Bytes × Bytes => a.1.length < b.1.length ∨ a.1.length = b.1.length ∧ a.1 ≤ b.1)
      (σ.rows.range (.included (scanStart lo)) (.included (scanEnd hi)))
    refine (hsorted.and (pairwise_map.mp hkeys)).imp (fun h => keyBefore_iff.mpr ?_)
    exact h.1.imp id (fun h' => ⟨h'.1,lt_of_le_of_ne h'.2 h.2⟩)
  · rw [hperm.mem_iff,OrdMap.mem_range,Bound.above,Bound.below,decide_eq_true_eq,decide_eq_true_eq]
    constructor
    · exact fun h => ⟨h.2.1,h.2.2,h.1⟩
    · exact fun h => ⟨h.2.2,h.1,h.2.1⟩

variable {tables : List Table} {σ : Store} {t : Table} {row : Row}

theorem laid_key (hc : Catalogued tables) (hq : σ.Quiescent tables) (ht : t ∈ tables) {pk blob : Bytes}
    (h : OrdMap.get σ.rows (makeRowKey t.schema.tableId pk) = some blob) :
    ∃ row, Tuple.decode t.schema.columnTypes blob = .ok row ∧ (∀ v ∈ t.schema.pkValues row, v ≠ .null) ∧
      encodeKeyComponents (t.schema.pkValues row) t.schema.pkTypes = .ok pk := by
  obtain ⟨t',ht',row,pk',hrow,hnull,hpk,hkey⟩ := hq.laid _ _ h
  obtain ⟨hid,rfl⟩ := makeRowKey_inj hkey
  obtain rfl := hc.ids t ht t' ht' hid
  exact ⟨row,hrow,hnull,hpk⟩

theorem Quiescent.keyed (hq : σ.Quiescent tables) : σ.Keyed := by
  intro key blob h
  obtain ⟨t,-,row,pk,-,-,hpk,rfl⟩ := hq.laid key blob h
  exact ⟨_,pk,t.schema.encodePk_ne_nil hpk,rfl⟩

theorem Holds.own (h : σ.Holds t row) (hc : Catalogued tables) (hq : σ.Quiescent tables) (ht : t ∈ tables) :
    Fits row t.schema.columnTypes ∧ (∀ v ∈ t.schema.pkValues row, v ≠ .null) ∧
      ∃ pk blob, encodeKeyComponents (t.schema.pkValues row) t.schema.pkTypes = .ok pk ∧
        OrdMap.get σ.rows (makeRowKey t.schema.tableId pk) = some blob ∧ Tuple.decode t.schema.columnTypes blob = .ok row := by
  obtain ⟨pk,blob,hget,hrow⟩ := h
  obtain ⟨row',hrow',hnull,hpk⟩ := laid_key hc hq ht hget
  obtain rfl : row' = row := ok.inj (hrow'.symm.trans hrow)
  exact ⟨Tuple.decode_fits hrow,hnull,pk,blob,hpk,hget,hrow⟩

theorem Holds.unique {row row' : Row} (h : σ.Holds t row) (h' : σ.Holds t row') (hc : Catalogued tables)
    (hq : σ.Quiescent tables) (ht : t ∈ tables) (heq : t.schema.pkValues row = t.schema.pkValues row') : row = row' := by
  obtain ⟨-,-,pk,blob,hpk,hget,hrow⟩ := h.own hc hq ht
  obtain ⟨-,-,pk',blob',hpk',hget',hrow'⟩ := h'.own hc hq ht
  rw [heq,hpk'] at hpk
  cases hpk
  cases hget.symm.trans hget'
  exact ok.inj (hrow.symm.trans hrow')

end Reads

end Store

section Lists
variable {A B : Type} {R : A → B → Prop} {as : List A} {bs : List B}

theorem exists_left_of_forall₂ (h : List.Forall₂ R as bs) {b : B} (hb : b ∈ bs) : ∃ a ∈ as, R a b := by
  obtain ⟨i,hi,rfl⟩ := getElem_of_mem hb
  have hlt : i < as.length := h.length_eq ▸ hi
  exact ⟨as[i],getElem_mem hlt,h.get hlt hi⟩

theorem exists_right_of_forall₂ (h : List.Forall₂ R as bs) {a : A} (ha : a ∈ as) : ∃ b ∈ bs, R a b := by
  obtain ⟨i,hi,rfl⟩ := getElem_of_mem ha
  have hlt : i < bs.length := h.length_eq ▸ hi
  exact ⟨bs[i],getElem_mem hlt,h.get hi hlt⟩

/-- What holds between the elements of one list holds between those that go with them. -/
theorem pairwise_of_forall₂ {P : A → A → Prop} {Q : B → B → Prop} (h : List.Forall₂ R as bs) (has : as.Pairwise P)
    (hstep : ∀ a a' b b', R a b → R a' b' → P a a' → Q b b') : bs.Pairwise Q := by
  induction h with
  | nil => exact .nil
  | @cons a b as bs hab hrest ih =>
    obtain ⟨hfirst,has⟩ := pairwise_cons.mp has
    refine pairwise_cons.mpr ⟨fun b' hb' => ?_,ih has⟩
    obtain ⟨a',ha',hab'⟩ := exists_left_of_forall₂ hrest hb'
    exact hstep a a' b b' hab hab' (hfirst a' ha')

end Lists

namespace Table
variable {tables : List Table} {σ : Store} {t : Table} {row : Row}
variable {vs pkValues : List Value} {types : List ColumnType} {bs pk : Bytes} {row : Row}
  {entries : List (Bytes × Bytes)} {ix : IndexHandle}

theorem encodeKeyComponents_inj {ws : List Value} (hv : Fits vs types) (hw : Fits ws types)
    (h : encodeKeyComponents vs types = .ok bs) (h' : encodeKeyComponents ws types = .ok bs) : vs = ws :=
  ok.inj ((decodeKeyComponents_encodeKeyComponents hv h).symm.trans (decodeKeyComponents_encodeKeyComponents hw h'))

private theorem encodeAll_of_components (h : encodeKeyComponents vs types = .ok bs) : encodeAll vs types = .ok bs := by
  unfold encodeKeyComponents at h
  split_ifs at h
  exact h

private theorem fits_getD (h : Fits row types) {c : Nat} (hc : c < types.length)
    (d : ColumnType) : (row.getD c .null).matchesType (types.getD c d) = true := by
  have hlt : c < row.length := h.length_eq ▸ hc
  rw [getD_eq_getElem?_getD,getD_eq_getElem?_getD,getElem?_eq_getElem hlt,getElem?_eq_getElem hc]
  exact h.get hlt hc

theorem fits_columns (h : Fits row types) {cols : List Nat} (hcols : ∀ c ∈ cols, c < types.length) :
    Fits (cols.map (fun c => row.getD c .null)) (cols.map (fun c => types.getD c .int32)) := by
  rw [Fits,forall₂_map_left_iff,forall₂_map_right_iff]
  exact forall₂_same.mpr (fun c hc => fits_getD h (hcols c hc) _)

theorem fits_pkValues (h : Fits row t.schema.columnTypes) : Fits (t.schema.pkValues row) t.schema.pkTypes := by
  rw [Fits,Schema.pkValues,Schema.pkTypes,List.forall₂_map_left_iff,List.forall₂_map_right_iff]
  refine forall₂_same.mpr (fun i _ => ?_)
  have hlt : i.val < t.schema.columnTypes.length := by
    rw [Schema.columnTypes,length_map]
    exact i.isLt
  have hty : t.schema.columnTypes.getD i.val .int32 = (t.schema.columns.get i).ty := by
    rw [getD_eq_getElem?_getD,Schema.columnTypes,List.getElem?_map,List.getElem?_eq_getElem i.isLt]
    rfl
  exact hty ▸ fits_getD h hlt .int32

private theorem decodeRows_ok (h : ∀ e ∈ entries, ∃ row, Tuple.decode t.schema.columnTypes e.2 = .ok row) :
    ∃ rows, t.decodeRows entries = .ok rows := by
  induction entries with
  | nil => exact ⟨[],rfl⟩
  | cons e entries ih =>
    obtain ⟨row,hrow⟩ := h e mem_cons_self
    obtain ⟨rows,hrows⟩ := ih (fun e' he' => h e' (mem_cons_of_mem _ he'))
    refine ⟨row::rows,?_⟩
    rw [decodeRows,hrow,hrows]
    rfl

private theorem decodeRows_found {rows : List Row} (h : t.decodeRows entries = .ok rows) :
    ∃ found : List (Bytes × Row), found.map Prod.snd = rows
      ∧ List.Forall₂ (fun e f => f.1 = e.1 ∧ Tuple.decode t.schema.columnTypes e.2 = .ok f.2) entries found := by
  induction entries generalizing rows with
  | nil =>
    cases h
    exact ⟨[],rfl,.nil⟩
  | cons e entries ih =>
    obtain ⟨row,hrow,h⟩ := bind_eq_ok h
    obtain ⟨rest,hrest,h⟩ := bind_eq_ok h
    cases h
    obtain ⟨found,rfl,hall⟩ := ih hrest
    exact ⟨(e.1,row)::found,rfl,.cons ⟨rfl,hrow⟩ hall⟩

private theorem key_of_range {next : Fin 4294967296} (hkeyed : σ.Keyed)
    (hnext : TableId.next t.schema.tableId = .ok next) {key blob : Bytes} (hget : OrdMap.get σ.rows key = some blob)
    (hlo : makeRowKey t.schema.tableId [] ≤ key) (hhi : key ≤ makeRowKey next []) :
    ∃ pk, key = makeRowKey t.schema.tableId pk := by
  obtain ⟨tableId,pk,hpk,rfl⟩ := hkeyed key blob hget
  exact ⟨pk,by rw [tableId_of_range hnext hpk hlo hhi]⟩

private theorem range_of_key (h : t.schema.tableId.val < u32Max) (pk : Bytes) :
    makeRowKey t.schema.tableId [] ≤ makeRowKey t.schema.tableId pk ∧
      makeRowKey t.schema.tableId pk ≤ makeRowKey (t.schema.tableId + 1) [] := by
  unfold makeRowKey
  constructor
  · refine not_lt.mp (fun hlt => ?_)
    rw [append_lt_append_iff rfl] at hlt
    rcases hlt with hlt | ⟨-,hlt⟩
    · exact lt_irrefl _ hlt
    · exact absurd hlt (not_lt_nil _)
  · refine le_of_lt ((append_lt_append_iff (by simp)).mpr (.inl ?_))
    have hval : (t.schema.tableId + 1).val = t.schema.tableId.val + 1 := by
      rw [Fin.val_add]
      unfold u32Max at h
      exact Nat.mod_eq_of_lt (by simp; omega)
    rw [toBeBytes_lt_iff t.schema.tableId.isLt (t.schema.tableId + 1).isLt,hval]
    exact Nat.lt_succ_self _

private theorem exec_scan (hbound : t.schema.tableId.val < u32Max) (σ : Store) :
    t.scan.exec .ofStore σ = (ofExcept (t.decodeRows (σ.scan (.included (makeRowKey t.schema.tableId []))
      (.excluded (makeRowKey (t.schema.tableId + 1) [])))) : Action Store Error _) σ := by
  have hnext : TableId.next t.schema.tableId = .ok (t.schema.tableId + 1) := if_neg hbound.ne
  unfold scan
  rw [hnext]
  rfl

private theorem mem_scan (hbound : t.schema.tableId.val < u32Max) (hkeyed : σ.Keyed) (key blob : Bytes) :
    (key,blob) ∈ σ.scan (.included (makeRowKey t.schema.tableId [])) (.excluded (makeRowKey (t.schema.tableId + 1) [])) ↔
      OrdMap.get σ.rows key = some blob ∧ ∃ pk, key = makeRowKey t.schema.tableId pk := by
  rw [(σ.scanOf_scan _ _).2]
  constructor
  · rintro ⟨hlo,hhi,hget⟩
    exact ⟨hget,key_of_range hkeyed (if_neg hbound.ne) hget hlo hhi⟩
  · rintro ⟨hget,pk,rfl⟩
    obtain ⟨hlo,hhi⟩ := range_of_key hbound pk
    exact ⟨hlo,hhi,hget⟩

/-- A scan that returns has found the rows of the table, each under its key. -/
theorem scan_observes (hbound : t.schema.tableId.val < u32Max) (hkeyed : σ.Keyed) :
    (t.scan.exec .ofStore).Observes σ (fun rows => ∃ found : List (Bytes × Row), found.map Prod.snd = rows
      ∧ (found.map Prod.fst).Nodup ∧ ∀ key row, (key,row) ∈ found ↔ σ.HoldsAt t key row) := by
  intro rows σ' h
  rw [exec_scan hbound] at h
  obtain ⟨hrows,rfl⟩ := ran_ofExcept.mp h
  obtain ⟨found,rfl,hall⟩ := decodeRows_found hrows
  refine ⟨rfl,found,rfl,?_,fun key row => ⟨fun hfound => ?_,?_⟩⟩
  · refine pairwise_map.mpr (pairwise_of_forall₂ hall (Store.scanOf_scan _ _ _).1 ?_)
    rintro e e' f f' ⟨hf,-⟩ ⟨hf',-⟩ hbefore heq
    exact hbefore.ne (hf.symm.trans (heq.trans hf'))
  · obtain ⟨e,he,rfl,hdecode⟩ := exists_left_of_forall₂ hall hfound
    obtain ⟨hget,pk,hpk⟩ := (mem_scan hbound hkeyed e.1 e.2).mp he
    exact ⟨pk,e.2,hpk,hget,hdecode⟩
  · rintro ⟨pk,blob,rfl,hget,hdecode⟩
    obtain ⟨⟨key,row'⟩,hfound,rfl,hdecode'⟩ :=
      exists_right_of_forall₂ hall ((mem_scan hbound hkeyed _ _).mpr ⟨hget,pk,rfl⟩)
    cases hdecode.symm.trans hdecode'
    exact hfound

theorem scan_exec (hc : Catalogued tables) (hq : σ.Quiescent tables) (ht : t ∈ tables) :
    ∃ rows, t.scan.exec .ofStore σ = some (.ok (rows,σ)) ∧ rows.Nodup ∧ ∀ row, row ∈ rows ↔ σ.Holds t row := by
  obtain ⟨rows,hrows⟩ := decodeRows_ok (t := t) (fun e he => by
    obtain ⟨hget,pk,hpk⟩ := (mem_scan (hc.bounded t ht) hq.keyed e.1 e.2).mp he
    obtain ⟨row,hrow,-⟩ := Store.laid_key hc hq ht (hpk ▸ hget)
    exact ⟨row,hrow⟩)
  have hscan : t.scan.exec .ofStore σ = some (.ok (rows,σ)) := by
    rw [exec_scan (hc.bounded t ht),hrows]
    rfl
  obtain ⟨-,found,rfl,hnodup,hmem⟩ := scan_observes (hc.bounded t ht) hq.keyed _ _ hscan
  refine ⟨_,hscan,pairwise_map.mpr ((pairwise_map.mp hnodup).imp_of_mem ?_),fun row => ?_⟩
  · rintro ⟨key,row⟩ ⟨key',row'⟩ hfound hfound' hne rfl
    -- one row has one key
    obtain ⟨pk,blob,hpk,hget,hrow⟩ := (hmem key row).mp hfound
    obtain ⟨pk',blob',hpk',hget',hrow'⟩ := (hmem key' row).mp hfound'
    obtain ⟨r,hr,-,henc⟩ := Store.laid_key hc hq ht (hpk ▸ hget)
    obtain ⟨r',hr',-,henc'⟩ := Store.laid_key hc hq ht (hpk' ▸ hget')
    cases hr.symm.trans hrow
    cases hr'.symm.trans hrow'
    cases henc.symm.trans henc'
    exact hne (hpk.trans hpk'.symm)
  · simp [Store.holds_iff,← hmem]

theorem getRow_exec (t : Table) (pk : Bytes) (σ : Store) : (t.getRow pk).exec .ofStore σ =
    match OrdMap.get σ.rows (makeRowKey t.schema.tableId pk) with
    | none => some (.ok (none,σ))
    | some blob =>
      match Tuple.decode t.schema.columnTypes blob with
      | .ok row => some (.ok (some row,σ))
      | .error e => some (.error e) := by
  unfold getRow Statement.exec
  rw [bind_of_some (rfl : Handle.ofStore.get _ σ = some (.ok (_,σ)))]
  cases OrdMap.get σ.rows (makeRowKey t.schema.tableId pk) with
  | none => rfl
  | some blob =>
    cases hdecode : Tuple.decode t.schema.columnTypes blob with
    | error | ok =>
      simp only [hdecode]
      rfl

/-- A lookup that returns has found what stands under the key. -/
theorem getRow_observes (t : Table) (pk : Bytes) (σ : Store) :
    ((t.getRow pk).exec .ofStore).Observes σ
      (fun r => ∀ row, r = some row ↔ σ.HoldsAt t (makeRowKey t.schema.tableId pk) row) := by
  intro r σ' h
  rw [getRow_exec] at h
  split at h
  · next hget =>
    cases h
    refine ⟨rfl,fun row => ⟨nofun,?_⟩⟩
    rintro ⟨-,blob,-,hblob,-⟩
    cases hget.symm.trans hblob
  · next blob hget =>
    split at h
    · next row hrow =>
      cases h
      have hheld : σ.HoldsAt t (makeRowKey t.schema.tableId pk) row := ⟨pk,blob,rfl,hget,hrow⟩
      refine ⟨rfl,fun row' => ⟨?_,fun hheld' => by rw [hheld.unique hheld']⟩⟩
      rintro ⟨⟩
      exact hheld
    · cases h

theorem encodePkComponents_eq (hfits : Fits pkValues t.schema.pkTypes) :
    t.encodePkComponents pkValues = encodeKeyComponents pkValues t.schema.pkTypes := by
  refine if_neg (not_not.mpr ?_)
  rw [hfits.length_eq]
  exact length_map _

/-- A lookup that returns has found what stands under the key that the values encode to. -/
theorem getByPk_observes (t : Table) (pkValues : List Value) (σ : Store) :
    ((t.getByPk pkValues).exec .ofStore).Observes σ (fun r => ∃ pk, t.encodePkComponents pkValues = .ok pk
      ∧ ∀ row, r = some row ↔ σ.HoldsAt t (makeRowKey t.schema.tableId pk) row) := by
  rw [getByPk,Statement.exec_bind]
  refine Observes.bind (.ofExcept (fun pk hpk => hpk)) (fun pk hpk => ?_)
  exact (t.getRow_observes pk σ).imp (fun r hr => ⟨pk,hpk,hr⟩)

/-- The key under which an entry of an index looks for its row. -/
def Leads (t : Table) (ix : IndexHandle) (entry key : Bytes) : Prop :=
  ∃ values pk, decodeKeyComponents entry ix.keyTypes = .ok values
    ∧ t.encodePkComponents (values.drop ix.definition.columns.length) = .ok pk ∧ key = makeRowKey t.schema.tableId pk

private theorem dereference_observes (t : Table) (ix : IndexHandle) (entries : List (Bytes × Bytes)) (σ : Store) :
    ((t.dereference ix entries).exec .ofStore).Observes σ (fun rows => ∃ found : List (Bytes × Bytes × Row),
      found.map (·.2.2) = rows ∧ (found.map Prod.fst).Sublist (entries.map Prod.fst)
      ∧ ∀ entry key row, (entry,key,row) ∈ found ↔
        entry ∈ entries.map Prod.fst ∧ t.Leads ix entry key ∧ σ.HoldsAt t key row) := by
  induction entries with
  | nil => exact .pure ⟨[],rfl,.slnil,by simp⟩
  | cons e entries ih =>
    rw [dereference,Statement.exec_bind]
    refine Observes.bind (.ofExcept (fun values hvalues => hvalues)) (fun values hvalues => ?_)
    rw [Statement.exec_bind]
    refine (t.getByPk_observes _ σ).bind ?_
    rintro r ⟨pk,hpk,hr⟩
    rw [Statement.exec_bind]
    refine ih.bind ?_
    rintro _ ⟨found,rfl,hsub,hmem⟩
    have hleads : ∀ key, t.Leads ix e.1 key ↔ key = makeRowKey t.schema.tableId pk := by
      refine fun key => ⟨?_,fun hkey => ⟨values,pk,hvalues,hpk,hkey⟩⟩
      rintro ⟨values',pk',hvalues',hpk',rfl⟩
      cases hvalues.symm.trans hvalues'
      cases hpk.symm.trans hpk'
      rfl
    refine .pure ⟨r.toList.map (fun row => (e.1,makeRowKey t.schema.tableId pk,row)) ++ found,?_,?_,fun entry key row => ?_⟩
    · simp [Function.comp_def]
    · cases r with
      | none => exact hsub.cons _
      | some row => exact hsub.cons_cons _
    · have hhead : (∃ row', r = some row' ∧ e.1 = entry ∧ makeRowKey t.schema.tableId pk = key ∧ row' = row) ↔
          entry = e.1 ∧ t.Leads ix entry key ∧ σ.HoldsAt t key row := by
        constructor
        · rintro ⟨row',hrow,rfl,rfl,rfl⟩
          exact ⟨rfl,(hleads _).mpr rfl,(hr row').mp hrow⟩
        · rintro ⟨rfl,hkey,hheld⟩
          obtain rfl := (hleads key).mp hkey
          exact ⟨row,(hr row).mpr hheld,rfl,rfl,rfl⟩
      rw [mem_append,hmem,map_cons,mem_cons,or_and_right,← hhead]
      simp

/-- An index scan that returns has found the rows its entries lead to. -/
theorem indexScan_observes (t : Table) (ix : IndexHandle) (lead : List Value) (σ : Store) :
    ((t.indexScan ix lead).exec .ofStore).Observes σ (fun rows => ∃ encoded, ∃ found : List (Bytes × Bytes × Row),
      encodeKeyComponents lead (ix.keyTypes.take lead.length) = .ok encoded ∧ found.map (·.2.2) = rows
      ∧ (found.map Prod.fst).Nodup ∧ ∀ entry key row, (entry,key,row) ∈ found ↔
        (encoded <+: entry ∧ OrdMap.get (σ.entries ix.id) entry ≠ none) ∧ t.Leads ix entry key ∧ σ.HoldsAt t key row) := by
  unfold indexScan
  split_ifs
  · exact .throw _
  rw [Statement.exec_bind]
  refine Observes.bind (.ofExcept (fun encoded hencoded => hencoded)) (fun encoded hencoded => ?_)
  refine (t.dereference_observes ix ((σ.entries ix.id).scan (.included encoded) (prefixEnd encoded)) σ).imp ?_
  rintro _ ⟨found,rfl,hsub,hmem⟩
  refine ⟨encoded,found,hencoded,rfl,?_,fun entry key row => ?_⟩
  · exact hsub.nodup (pairwise_map.mpr ((OrdMap.range_sorted _ _ _).imp (·.ne)))
  · rw [hmem,and_congr_left_iff]
    refine fun _ => ⟨fun h => ?_,fun h => ?_⟩
    · obtain ⟨e,he,rfl⟩ := mem_map.mp h
      obtain ⟨hget,hbound⟩ := (OrdMap.mem_range ..).mp he
      exact ⟨(prefixEnd_iff ..).mp hbound,by rw [hget]; simp⟩
    · obtain ⟨v,hv⟩ := Option.ne_none_iff_exists'.mp h.2
      exact mem_map.mpr ⟨(entry,v),(OrdMap.mem_range ..).mpr ⟨hv,(prefixEnd_iff ..).mpr h.1⟩,rfl⟩

theorem getByPk_exec (hc : Catalogued tables) (hq : σ.Quiescent tables) (ht : t ∈ tables)
    (hfits : Fits pkValues t.schema.pkTypes) (hpk : encodeKeyComponents pkValues t.schema.pkTypes = .ok pk) :
    ∃ r, (t.getByPk pkValues).exec .ofStore σ = some (.ok (r,σ))
      ∧ ∀ row, r = some row ↔ σ.Holds t row ∧ t.schema.pkValues row = pkValues := by
  have hget : t.getByPk pkValues = t.getRow pk := by
    unfold getByPk
    rw [encodePkComponents_eq hfits,hpk]
    rfl
  obtain ⟨r,hr⟩ : ∃ r, (t.getRow pk).exec .ofStore σ = some (.ok (r,σ)) := by
    rw [getRow_exec]
    split
    · exact ⟨none,rfl⟩
    · next blob hblob =>
      obtain ⟨row,hrow,-⟩ := Store.laid_key hc hq ht hblob
      rw [hrow]
      exact ⟨some row,rfl⟩
  refine ⟨r,hget ▸ hr,fun row => ((t.getRow_observes pk σ r σ hr).2 row).trans ⟨fun hheld => ?_,?_⟩⟩
  · obtain ⟨pk',blob,hkey,hblob,hrow⟩ := id hheld
    obtain ⟨row',hrow',-,henc⟩ := Store.laid_key hc hq ht hblob
    cases hrow'.symm.trans hrow
    exact ⟨hheld.holds,encodeKeyComponents_inj (fits_pkValues (Tuple.decode_fits hrow)) hfits henc hpk⟩
  · rintro ⟨hrow,rfl⟩
    obtain ⟨-,-,pk',blob,hpk',hblob,hdecode⟩ := hrow.own hc hq ht
    cases hpk.symm.trans hpk'
    exact ⟨pk,blob,rfl,hblob,hdecode⟩

theorem getByPk_error (hfits : Fits pkValues t.schema.pkTypes) {e : Error}
    (hpk : encodeKeyComponents pkValues t.schema.pkTypes = .error e) :
    (t.getByPk pkValues).exec .ofStore σ = some (.error e) := by
  unfold getByPk
  rw [encodePkComponents_eq hfits,hpk]
  rfl

theorem fits_indexKey (hc : Catalogued tables) (ht : t ∈ tables) (hix : ix ∈ t.indexes)
    (h : Fits row t.schema.columnTypes) :
    Fits (indexedValues ix row) (ix.keyTypes.take ix.definition.columns.length)
      ∧ Fits (indexedValues ix row ++ t.schema.pkValues row) ix.keyTypes
      ∧ ix.keyTypes.drop ix.definition.columns.length = t.schema.pkTypes := by
  have htypes : ix.keyTypes
      = ix.definition.columns.map (fun i => t.schema.columnTypes.getD i .int32) ++ t.schema.pkTypes :=
    congrArg IndexHandle.keyTypes (hc.handles t ht ix hix)
  have hindexed : Fits (indexedValues ix row) (ix.definition.columns.map (fun i => t.schema.columnTypes.getD i .int32)) := by
    refine fits_columns h (fun c hcol => ?_)
    rw [Schema.columnTypes,length_map]
    exact hc.columns t ht ix hix c hcol
  refine ⟨?_,?_,?_⟩
  · rwa [htypes,take_left' (length_map _)]
  · rw [htypes]
    exact rel_append hindexed (fits_pkValues h)
  · rw [htypes,drop_left' (length_map _)]

section

variable (hc : Catalogued tables) (hq : σ.Quiescent tables) (ht : t ∈ tables) (hix : ix ∈ t.indexes)
include hc hq ht hix

private theorem dereference_exec (h : ∀ e ∈ entries, ∃ row, σ.Holds t row ∧ t.buildIndexKey ix row = .ok e.1) :
    ∃ rows, (t.dereference ix entries).exec .ofStore σ = some (.ok (rows,σ))
      ∧ List.Forall₂ (fun e row => σ.Holds t row ∧ t.buildIndexKey ix row = .ok e.1) entries rows := by
  induction entries with
  | nil => exact ⟨[],rfl,.nil⟩
  | cons e entries ih =>
    obtain ⟨row,hrow,hkey⟩ := h e mem_cons_self
    obtain ⟨rows,hrows,hall⟩ := ih (fun e' he' => h e' (mem_cons_of_mem _ he'))
    obtain ⟨hfits,-,pk,blob,hpk,hget,hdecode⟩ := hrow.own hc hq ht
    obtain ⟨-,hfits',-⟩ := fits_indexKey hc ht hix hfits
    have hvalues := decodeKeyComponents_encodeKeyComponents hfits' hkey
    obtain ⟨r,hr,hiff⟩ := getByPk_exec hc hq ht (fits_pkValues hfits) hpk
    obtain rfl : r = some row := (hiff row).mpr ⟨hrow,rfl⟩
    refine ⟨row::rows,?_,.cons ⟨hrow,hkey⟩ hall⟩
    have hdrop : (indexedValues ix row ++ t.schema.pkValues row).drop ix.definition.columns.length
        = t.schema.pkValues row := drop_left' (length_map _)
    rw [dereference,hvalues]
    change (Statement.exec .ofStore (t.getByPk ((indexedValues ix row ++ t.schema.pkValues row).drop
      ix.definition.columns.length) >>= _)) σ = _
    rw [hdrop,Statement.exec_bind,bind_of_some hr,Statement.exec_bind,bind_of_some hrows]
    rfl

theorem indexScan_exec {lead : List Value} (hlead : lead.length ≤ ix.definition.columns.length)
    (hfits : Fits lead (ix.keyTypes.take lead.length)) {encoded : Bytes}
    (hencoded : encodeKeyComponents lead (ix.keyTypes.take lead.length) = .ok encoded) :
    ∃ rows, (t.indexScan ix lead).exec .ofStore σ = some (.ok (rows,σ)) ∧ rows.Nodup
      ∧ ∀ row, row ∈ rows ↔ σ.Holds t row ∧ (indexedValues ix row).take lead.length = lead := by
  generalize hentries : (σ.entries ix.id).scan (.included encoded) (prefixEnd encoded) = entries
  have hmem : ∀ key v, (key,v) ∈ entries ↔ v = [] ∧ encoded <+: key ∧ ∃ row, σ.Holds t row
      ∧ t.buildIndexKey ix row = .ok key := by
    intro key v
    rw [← hentries,Engine.scan,OrdMap.mem_range,prefixEnd_iff,hq.entries,and_assoc,and_congr_right_iff]
    intro _
    rw [and_comm,and_congr_right_iff]
    intro _
    constructor
    · rintro ⟨t',ht',ix',hix',hid,pk,blob,row,hget,hdecode,hkey⟩
      obtain ⟨rfl,rfl⟩ := hc.indexIds t' ht' t ht ix' hix' ix hix hid
      exact ⟨row,⟨pk,blob,hget,hdecode⟩,hkey⟩
    · rintro ⟨row,⟨pk,blob,hget,hdecode⟩,hkey⟩
      exact ⟨t,ht,ix,hix,rfl,pk,blob,row,hget,hdecode,hkey⟩
  obtain ⟨rows,hrows,hall⟩ := dereference_exec hc hq ht hix (fun e he => ((hmem e.1 e.2).mp he).2.2)
  -- the entry of a row is in the range exactly if its leading components are those looked for
  have hiff : ∀ {row key}, σ.Holds t row → t.buildIndexKey ix row = .ok key →
      (encoded <+: key ↔ (indexedValues ix row).take lead.length = lead) := by
    intro row key hrow hkey
    obtain ⟨-,hkeyFits,-⟩ := fits_indexKey hc ht hix (hrow.own hc hq ht).1
    have hlength : lead.length ≤ (indexedValues ix row).length := hlead.trans_eq (length_map _).symm
    have htake : (indexedValues ix row ++ t.schema.pkValues row).take lead.length
        = (indexedValues ix row).take lead.length := take_append_of_le_length hlength
    have hleadFits : Fits ((indexedValues ix row).take lead.length) (ix.keyTypes.take lead.length) :=
      htake ▸ forall₂_take _ hkeyFits
    have hall : encodeAll ((indexedValues ix row).take lead.length ++ ((indexedValues ix row).drop lead.length
        ++ t.schema.pkValues row)) (ix.keyTypes.take lead.length ++ ix.keyTypes.drop lead.length) = .ok key := by
      rw [← append_assoc,take_append_drop,take_append_drop]
      exact encodeAll_of_components hkey
    rw [isPrefixOf_iff hleadFits hfits hall (encodeAll_of_components hencoded),eq_comm]
  refine ⟨rows,?_,?_,fun row => ⟨fun hrow => ?_,fun hrow => ?_⟩⟩
  · unfold indexScan
    rw [if_neg (not_lt.mpr hlead),hencoded]
    change (Statement.exec .ofStore (t.dereference ix ((σ.entries ix.id).scan (.included encoded) (prefixEnd encoded)))) σ = _
    rw [hentries,hrows]
  · have hsorted : entries.Pairwise (fun a b => a.1 < b.1) := hentries ▸ OrdMap.range_sorted _ _ _
    refine pairwise_of_forall₂ hall hsorted ?_
    rintro e e' row row' ⟨-,hkey⟩ ⟨-,hkey'⟩ hlt rfl
    exact hlt.ne (ok.inj (hkey.symm.trans hkey'))
  · obtain ⟨e,he,hholds,hkey⟩ := exists_left_of_forall₂ hall hrow
    exact ⟨hholds,(hiff hholds hkey).mp ((hmem e.1 e.2).mp he).2.1⟩
  · obtain ⟨hholds,htake⟩ := hrow
    obtain ⟨key,hkey⟩ := hq.indexed t ht ix hix row hholds
    obtain ⟨row',hrow',hholds',hkey'⟩ :=
      exists_right_of_forall₂ hall ((hmem key []).mpr ⟨rfl,(hiff hholds hkey).mpr htake,row,hholds,hkey⟩)
    -- an index key names one row
    obtain ⟨-,hfits,-⟩ := fits_indexKey hc ht hix (hholds.own hc hq ht).1
    obtain ⟨-,hfits',-⟩ := fits_indexKey hc ht hix (hholds'.own hc hq ht).1
    have hvalues := encodeKeyComponents_inj hfits hfits' hkey hkey'
    have hpk := (append_inj hvalues (by simp [indexedValues])).2
    rwa [hholds.unique hholds' hc hq ht hpk]

end

end Table

end InterchangeDb
