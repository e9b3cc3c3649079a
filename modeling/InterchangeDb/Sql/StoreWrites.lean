import InterchangeDb.Sql.Store

/-! Writes that replace a row under its own key, and its index entries, leave a quiescent store. -/
namespace InterchangeDb
open List InterchangeDb.Action Function
open KeyEnc

namespace Store
variable {σ : Store} {t : Table} {row row' : Row} {key : Bytes}

theorem HoldsAt.table {tables : List Table} (hc : Catalogued tables) {σ' : Store} {t' : Table} (ht : t ∈ tables)
    (ht' : t' ∈ tables) (h : σ.HoldsAt t key row) (h' : σ'.HoldsAt t' key row') : t = t' := by
  obtain ⟨pk,-,rfl,-⟩ := h
  obtain ⟨pk',-,hkey,-⟩ := h'
  exact hc.ids t ht t' ht' (makeRowKey_inj hkey).1

end Store

/-- An entry of a row in one of some indexes. -/
def Table.Enters (t : Table) (indexes : List IndexHandle) (row : Row) (index : Nat) (key : Bytes) : Prop :=
  ∃ ix ∈ indexes, ix.id = index ∧ t.buildIndexKey ix row = .ok key

theorem entryOf_iff {tables : List Table} {σ : Store} {index : Nat} {key : Bytes} :
    EntryOf tables (OrdMap.get σ.rows) index key ↔
      ∃ t ∈ tables, ∃ at' row, σ.HoldsAt t at' row ∧ t.Enters t.indexes row index key := by
  constructor
  · rintro ⟨t,ht,ix,hix,hid,pk,blob,row,hget,hrow,hkey⟩
    exact ⟨t,ht,_,row,⟨pk,blob,rfl,hget,hrow⟩,ix,hix,hid,hkey⟩
  · rintro ⟨t,ht,_,row,⟨pk,blob,rfl,hget,hrow⟩,ix,hix,hid,hkey⟩
    exact ⟨t,ht,ix,hix,hid,pk,blob,row,hget,hrow,hkey⟩

namespace Table
variable {t : Table} {row : Row} {σ σ' : Store} {indexes : List IndexHandle}
variable {u : Unit} {changes : List (Nat × Value)} {row : Row}

theorem enters_cons {ix : IndexHandle} {key' : Bytes} (hkey : t.buildIndexKey ix row = .ok key') (index : Nat) (key : Bytes) :
    t.Enters (ix::indexes) row index key ↔ (index = ix.id ∧ key = key') ∨ t.Enters indexes row index key := by
  constructor
  · rintro ⟨ix',hix',hid,hkey'⟩
    rcases mem_cons.mp hix' with rfl | hix'
    · exact .inl ⟨hid.symm,Except.ok.inj (hkey'.symm.trans hkey)⟩
    · exact .inr ⟨ix',hix',hid,hkey'⟩
  · rintro (⟨rfl,rfl⟩ | ⟨ix',hix',hid,hkey'⟩)
    · exact ⟨ix,mem_cons_self,rfl,hkey⟩
    · exact ⟨ix',mem_cons_of_mem _ hix',hid,hkey'⟩

private theorem get_indexDelete (σ : Store) (i : Nat) (k : Bytes) (index : Nat) (key : Bytes) :
    OrdMap.get ((σ.indexDelete i k).entries index) key =
      if index = i ∧ key = k then none else OrdMap.get (σ.entries index) key := by
  change OrdMap.get (Function.update σ.entries i ((σ.entries i).delete k) index) key = _
  by_cases hi : index = i
  · subst hi
    rw [update_self,Engine.delete,OrdMap.get_erase]
    simp
  · rw [update_of_ne hi,if_neg (fun h => hi h.1)]

private theorem get_indexPut (σ : Store) (i : Nat) (k : Bytes) (index : Nat) (key : Bytes) :
    OrdMap.get ((σ.indexPut i k).entries index) key =
      if index = i ∧ key = k then some [] else OrdMap.get (σ.entries index) key := by
  change OrdMap.get (Function.update σ.entries i ((σ.entries i).put k []) index) key = _
  by_cases hi : index = i
  · subst hi
    rw [update_self,Engine.put,OrdMap.get_insert]
    simp
  · rw [update_of_ne hi,if_neg (fun h => hi h.1)]

theorem deleteIndexEntries_exec (h : (t.deleteIndexEntries row indexes).exec .ofStore σ = some (.ok (u,σ'))) :
    σ'.rows = σ.rows ∧ ∀ index key v, OrdMap.get (σ'.entries index) key = some v ↔
      OrdMap.get (σ.entries index) key = some v ∧ ¬t.Enters indexes row index key := by
  induction indexes generalizing σ with
  | nil =>
    cases h
    exact ⟨rfl,fun _ _ _ => ⟨fun h => ⟨h,nofun⟩,fun h => h.1⟩⟩
  | cons ix indexes ih =>
    rw [deleteIndexEntries,Statement.exec_bind] at h
    obtain ⟨key',σ₁,hbuild,h⟩ := ran_bind.mp h
    obtain ⟨hkey,rfl⟩ := ran_ofExcept.mp hbuild
    obtain ⟨hrows,hentries⟩ := ih (σ := σ.indexDelete ix.id key') h
    refine ⟨hrows,fun index key v => ?_⟩
    rw [hentries,get_indexDelete,enters_cons hkey,not_or]
    split_ifs with hsame
    · simp [hsame]
    · simp [hsame]

theorem putIndexEntries_exec (h : (t.putIndexEntries row indexes).exec .ofStore σ = some (.ok (u,σ'))) :
    σ'.rows = σ.rows ∧ (∀ ix ∈ indexes, ∃ key, t.buildIndexKey ix row = .ok key)
      ∧ ∀ index key v, OrdMap.get (σ'.entries index) key = some v ↔
        (t.Enters indexes row index key ∧ v = []) ∨ (OrdMap.get (σ.entries index) key = some v ∧ ¬t.Enters indexes row index key) := by
  induction indexes generalizing σ with
  | nil =>
    cases h
    refine ⟨rfl,nofun,fun index key v => ?_⟩
    have hnone : ¬t.Enters [] row index key := nofun
    simp [hnone]
  | cons ix indexes ih =>
    rw [putIndexEntries,Statement.exec_bind] at h
    obtain ⟨key',σ₁,hbuild,h⟩ := ran_bind.mp h
    obtain ⟨hkey,rfl⟩ := ran_ofExcept.mp hbuild
    obtain ⟨hrows,hall,hentries⟩ := ih (σ := σ.indexPut ix.id key') h
    refine ⟨hrows,forall_mem_cons.mpr ⟨⟨key',hkey⟩,hall⟩,fun index key v => ?_⟩
    rw [hentries,get_indexPut,enters_cons hkey]
    by_cases hrest : t.Enters indexes row index key
    · simp [hrest]
    · split_ifs with hsame
      · have hv : some ([] : Bytes) = some v ↔ v = [] := by rw [Option.some.injEq,eq_comm]
        rw [hv]
        tauto
      · simp [hrest,hsame]

theorem checkUniqueIndexes_exec (h : (t.checkUniqueIndexes row indexes).exec .ofStore σ = some (.ok (u,σ'))) :
    σ' = σ := by
  induction indexes with
  | nil =>
    cases h
    rfl
  | cons ix indexes ih =>
    unfold checkUniqueIndexes at h
    split_ifs at h with hskip
    · exact ih h
    · rw [Statement.exec_bind] at h
      obtain ⟨encoded,σ₁,hencoded,h⟩ := ran_bind.mp h
      obtain ⟨-,rfl⟩ := ran_ofExcept.mp hencoded
      rw [Statement.exec_bind] at h
      obtain ⟨selfKey,σ₁,hself,h⟩ := ran_bind.mp h
      obtain ⟨-,rfl⟩ := ran_ofExcept.mp hself
      obtain ⟨entries,σ₁,hscan,h⟩ := ran_bind.mp h
      cases hscan
      change (Statement.exec .ofStore (if _ then _ else _)) σ = _ at h
      split_ifs at h with htaken
      · cases h
      · exact ih h

/-- Only the changed columns differ, and a column that is changed several times has its last value. -/
theorem mergeChanges_getElem? {i : Nat} (hi : i < row.length) :
    (mergeChanges row changes)[i]? = changes.foldl (fun v change => if change.1 = i then some change.2 else v) row[i]? := by
  induction changes generalizing row with
  | nil => rfl
  | cons change changes ih =>
    rw [mergeChanges,foldl_cons,foldl_cons]
    refine (ih (by rwa [length_set])).trans ?_
    congr 1
    rw [getElem?_set]
    split_ifs with heq hlt
    · rfl
    · exact absurd (heq ▸ hi) hlt
    · rfl

@[simp] theorem length_mergeChanges (row : Row) (changes : List (Nat × Value)) :
    (mergeChanges row changes).length = row.length := by
  induction changes generalizing row with
  | nil => rfl
  | cons change changes ih =>
    rw [mergeChanges,foldl_cons]
    exact (ih _).trans (length_set ..)

theorem mergeChanges_fits {s : Schema} {changes : List (Fin s.columns.length × Value)}
    (hchecked : checkChanges s changes = .ok ()) (hfits : Fits row s.columnTypes) :
    Fits (mergeChanges row (changes.map (fun change => (change.1.val,change.2)))) s.columnTypes := by
  induction changes generalizing row with
  | nil => exact hfits
  | cons c changes ih =>
    obtain ⟨_,hc,hchecked⟩ := bind_eq_ok hchecked
    obtain ⟨_,htype,-⟩ := bind_eq_ok hc
    refine ih hchecked (forall₂_set hfits fun ty hty => ?_)
    obtain rfl : (s.columns.get c.1).ty = ty := by
      rw [Schema.columnTypes,List.getElem?_map,List.getElem?_eq_getElem c.1.isLt] at hty
      exact Option.some.inj hty
    unfold checkTypeCompatOne at htype
    split_ifs at htype with hmatches
    · exact hmatches
    · cases htype

theorem mergeChanges_pkValues {s : Schema} (hkey : ∀ change ∈ changes, ∀ i ∈ s.primaryKey, change.1 ≠ i.val) :
    s.pkValues (mergeChanges row changes) = s.pkValues row := by
  induction changes generalizing row with
  | nil => rfl
  | cons change changes ih =>
    obtain ⟨hchange,hkey⟩ := forall_mem_cons.mp hkey
    refine (@ih (row.set change.1 change.2) hkey).trans (map_congr_left fun i hi => ?_)
    rw [getD_eq_getElem?_getD,getD_eq_getElem?_getD,getElem?_set_ne (hchange i hi)]

private theorem updateRowColumns_exec {pk : Bytes}
    (h : (t.updateRowColumns pk changes).exec .ofStore σ = some (.ok (u,σ'))) :
    ∃ row blob, σ.HoldsAt t (makeRowKey t.schema.tableId pk) row ∧
      Tuple.encode t.schema.columnTypes (mergeChanges row changes) = .ok blob ∧
      σ' = { σ with rows := σ.rows.put (makeRowKey t.schema.tableId pk) blob } := by
  unfold updateRowColumns at h
  rw [Statement.exec_bind] at h
  obtain ⟨r,σ₁,hr,h⟩ := ran_bind.mp h
  obtain ⟨rfl,hr⟩ := t.getRow_observes pk σ _ _ hr
  cases r with
  | none => cases h
  | some row =>
    rw [Statement.exec_bind] at h
    obtain ⟨_,σ₁,hcheck,h⟩ := ran_bind.mp h
    obtain ⟨-,rfl⟩ := ran_ofExcept.mp hcheck
    unfold putRow at h
    rw [Statement.exec_bind] at h
    obtain ⟨blob,σ₁,hblob,h⟩ := ran_bind.mp h
    obtain ⟨hencode,rfl⟩ := ran_ofExcept.mp hblob
    cases h
    exact ⟨row,blob,(hr row).mp rfl,hencode,rfl⟩

/-- The row under a key is replaced by the one with the changes, and its entries by the entries of that. -/
structure Replaces (t : Table) (σ σ' : Store) (key : Bytes) (row newRow : Row) : Prop where
  held : σ.HoldsAt t key row
  rows : ∃ blob, Tuple.encode t.schema.columnTypes newRow = .ok blob ∧ σ'.rows = σ.rows.put key blob
  built : ∀ ix ∈ t.indexes, ∃ key, t.buildIndexKey ix newRow = .ok key
  entries : ∀ index k v, OrdMap.get (σ'.entries index) k = some v ↔ (t.Enters t.indexes newRow index k ∧ v = [])
    ∨ (OrdMap.get (σ.entries index) k = some v ∧ ¬t.Enters t.indexes row index k ∧ ¬t.Enters t.indexes newRow index k)

theorem updateColumns_exec {pkValues : List Value} {changes : List (Fin t.schema.columns.length × Value)}
    (h : (t.updateColumns pkValues changes).exec .ofStore σ = some (.ok (u,σ'))) :
    checkChanges t.schema changes = .ok () ∧ ∃ pk row, t.encodePkComponents pkValues = .ok pk ∧
      t.Replaces σ σ' (makeRowKey t.schema.tableId pk) row
        (mergeChanges row (changes.map (fun change => (change.1.val,change.2)))) := by
  unfold updateColumns at h
  rw [Statement.exec_bind] at h
  obtain ⟨_,σ₁,hcheck,h⟩ := ran_bind.mp h
  obtain ⟨hchecked,rfl⟩ := ran_ofExcept.mp hcheck
  rw [Statement.exec_bind] at h
  obtain ⟨pk,σ₁,hencoded,h⟩ := ran_bind.mp h
  obtain ⟨hpk,rfl⟩ := ran_ofExcept.mp hencoded
  refine ⟨hchecked,pk,?_⟩
  change ((Statement.exec .ofStore (t.previous pk >>= _)) σ) = _ at h
  rw [Statement.exec_bind] at h
  obtain ⟨prev,σ₁,hprev,h⟩ := ran_bind.mp h
  unfold previous at hprev
  split_ifs at hprev with hempty
  · -- without indexes there are no entries
    cases hprev
    obtain ⟨row,blob,hheld,hencode,rfl⟩ := updateRowColumns_exec h
    have hnil : t.indexes = [] := isEmpty_iff.mp hempty
    have hnone : ∀ r index k, ¬t.Enters t.indexes r index k := by
      rintro r index k ⟨ix,hix,-⟩
      rw [hnil] at hix
      cases hix
    refine ⟨row,hpk,hheld,⟨blob,hencode,rfl⟩,fun ix hix => ?_,fun index k v => ?_⟩
    · rw [hnil] at hix
      cases hix
    · simp [hnone]
  · obtain ⟨rfl,hprev⟩ := t.getRow_observes pk σ _ _ hprev
    cases prev with
    | none =>
      obtain ⟨row,-,hheld,-⟩ := updateRowColumns_exec h
      cases (hprev row).mpr hheld
    | some row =>
      have hheld := (hprev row).mp rfl
      rw [Statement.exec_bind] at h
      obtain ⟨_,σ₁,hunique,hwrites⟩ := ran_bind.mp h
      rw [checkUniqueIndexes_exec hunique,Statement.exec_bind] at hwrites
      obtain ⟨_,σ₂,hupdate,hindexes⟩ := ran_bind.mp hwrites
      obtain ⟨row',blob,hheld',hencode,rfl⟩ := updateRowColumns_exec hupdate
      obtain rfl := hheld.unique hheld'
      rw [Statement.exec_bind] at hindexes
      obtain ⟨_,σ₃,hdelete,hput⟩ := ran_bind.mp hindexes
      obtain ⟨hrows,hdeleted⟩ := deleteIndexEntries_exec hdelete
      obtain ⟨hrows',hbuilt,hentered⟩ := putIndexEntries_exec hput
      refine ⟨row,hpk,hheld,⟨blob,hencode,hrows'.trans hrows⟩,hbuilt,fun index k v => ?_⟩
      rw [hentered,hdeleted,and_assoc]

section Quiescence
variable {tables : List Table} {key : Bytes} {newRow : Row}

/-- Under the key stands the new row, and under the others what stood there. -/
theorem Replaces.holdsAt_iff (h : t.Replaces σ σ' key row newRow) (hfits : Fits newRow t.schema.columnTypes)
    (hc : Catalogued tables) (ht : t ∈ tables) {t' : Table} (ht' : t' ∈ tables) {key' : Bytes} {row' : Row} :
    σ'.HoldsAt t' key' row' ↔ (key' = key ∧ t' = t ∧ row' = newRow) ∨ (key' ≠ key ∧ σ.HoldsAt t' key' row') := by
  obtain ⟨blob,hencode,hrows⟩ := h.rows
  have hdecode := Tuple.decode_encode hfits hencode
  have hself : OrdMap.get σ'.rows key = some blob := by rw [hrows,Engine.put,OrdMap.get_insert,if_pos rfl]
  have hother : ∀ k, k ≠ key → OrdMap.get σ'.rows k = OrdMap.get σ.rows k := by
    intro k hk
    rw [hrows,Engine.put,OrdMap.get_insert,if_neg hk]
  by_cases hkey : key' = key
  · subst hkey
    obtain ⟨pk,-,hpk,-⟩ := h.held
    have hnew : σ'.HoldsAt t key' newRow := ⟨pk,blob,hpk,hself,hdecode⟩
    constructor
    · intro h'
      obtain rfl := hnew.table hc ht ht' h'
      exact .inl ⟨rfl,rfl,h'.unique hnew⟩
    · rintro (⟨-,rfl,rfl⟩ | ⟨hne,-⟩)
      · exact hnew
      · exact absurd rfl hne
  · unfold Store.HoldsAt
    rw [hother key' hkey]
    simp [hkey]

theorem enters_unique (hc : Catalogued tables) (hq : σ.Quiescent tables) {t' : Table} (ht : t ∈ tables) (ht' : t' ∈ tables)
    {key key' : Bytes} {row row' : Row} (h : σ.HoldsAt t key row) (h' : σ.HoldsAt t' key' row') {index : Nat} {k : Bytes}
    (hk : t.Enters t.indexes row index k) (hk' : t'.Enters t'.indexes row' index k) : key = key' := by
  obtain ⟨ix,hix,hid,hbuild⟩ := hk
  obtain ⟨ix',hix',hid',hbuild'⟩ := hk'
  obtain ⟨rfl,rfl⟩ := hc.indexIds t ht t' ht' ix hix ix' hix' (hid.trans hid'.symm)
  obtain ⟨pk,blob,rfl,hget,hrow⟩ := h
  obtain ⟨pk',blob',rfl,hget',hrow'⟩ := h'
  obtain ⟨-,hfits,-⟩ := fits_indexKey hc ht hix (Tuple.decode_fits hrow)
  obtain ⟨-,hfits',-⟩ := fits_indexKey hc ht hix (Tuple.decode_fits hrow')
  have hvalues := encodeKeyComponents_inj hfits hfits' hbuild hbuild'
  have hpk := (append_inj hvalues (by simp [indexedValues])).2
  obtain ⟨r,hr,-,henc⟩ := Store.laid_key hc hq ht hget
  obtain ⟨r',hr',-,henc'⟩ := Store.laid_key hc hq ht hget'
  cases hr.symm.trans hrow
  cases hr'.symm.trans hrow'
  rw [hpk,henc'] at henc
  cases henc
  rfl

/-- A row that is replaced by one with the same key leaves a quiescent store. -/
theorem Replaces.quiescent (h : t.Replaces σ σ' key row newRow) (hfits : Fits newRow t.schema.columnTypes)
    (hpk : t.schema.pkValues newRow = t.schema.pkValues row) (hc : Catalogued tables) (hq : σ.Quiescent tables)
    (ht : t ∈ tables) : σ'.Quiescent tables := by
  obtain ⟨blob,hencode,hrows⟩ := h.rows
  have hdecode := Tuple.decode_encode hfits hencode
  refine ⟨fun key' blob' hget => ?_,fun index k v => ?_,fun t' ht' ix hix row' hrow' => ?_⟩
  · rw [hrows,Engine.put,OrdMap.get_insert] at hget
    split_ifs at hget with hkey
    · cases hget
      obtain ⟨pk,old,rfl,hold,hrow⟩ := h.held
      obtain ⟨r,hr,hnull,henc⟩ := Store.laid_key hc hq ht hold
      cases hr.symm.trans hrow
      exact ⟨t,ht,newRow,pk,hdecode,hpk ▸ hnull,hpk ▸ henc,hkey⟩
    · exact hq.laid key' blob' hget
  · rw [h.entries,hq.entries,entryOf_iff,entryOf_iff]
    constructor
    · rintro (⟨hnew,rfl⟩ | ⟨⟨rfl,t',ht',key',row',hheld,henters⟩,hold,-⟩)
      · exact ⟨rfl,t,ht,key,newRow,(h.holdsAt_iff hfits hc ht ht).mpr (.inl ⟨rfl,rfl,rfl⟩),hnew⟩
      · refine ⟨rfl,t',ht',key',row',(h.holdsAt_iff hfits hc ht ht').mpr (.inr ⟨?_,hheld⟩),henters⟩
        rintro rfl
        obtain rfl := hheld.table hc ht' ht h.held
        obtain rfl := hheld.unique h.held
        exact hold henters
    · rintro ⟨rfl,t',ht',key',row',hheld,henters⟩
      by_cases hnew : t.Enters t.indexes newRow index k
      · exact .inl ⟨hnew,rfl⟩
      · rcases (h.holdsAt_iff hfits hc ht ht').mp hheld with ⟨rfl,rfl,rfl⟩ | ⟨hne,hheld⟩
        · exact absurd henters hnew
        · exact .inr ⟨⟨rfl,t',ht',key',row',hheld,henters⟩,
            fun hold => hne (enters_unique hc hq ht' ht hheld h.held henters hold),hnew⟩
  · obtain ⟨key',hheld⟩ := Store.holds_iff.mp hrow'
    rcases (h.holdsAt_iff hfits hc ht ht').mp hheld with ⟨rfl,rfl,rfl⟩ | ⟨-,hheld⟩
    · exact h.built ix hix
    · exact hq.indexed t' ht' ix hix row' hheld.holds

end Quiescence

end Table
end InterchangeDb
