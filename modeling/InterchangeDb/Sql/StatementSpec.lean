import InterchangeDb.Sql.Table

/-! What a statement may read, write and return. The calls are answered by anything its terms allow. -/
namespace InterchangeDb
open List Option

/-- What a writer of a row locks. -/
def rowLock (k : Bytes) : Bytes := k.drop 4

theorem rowLock_makeRowKey (tableId : Fin 4294967296) (pk : Bytes) : rowLock (makeRowKey tableId pk) = pk := by
  rw [rowLock,makeRowKey,drop_left' (length_toBeBytes _ _)]

/-- What a lookup and a scan may find under a key, and what may be written there. -/
structure Terms where
  reads : Bytes → Bytes → Prop
  scans : Bound Bytes → Bound Bytes → Bytes → Bytes → Prop
  good : Bytes → Bytes → Prop

def Terms.any : Terms := ⟨fun _ _ => True,fun _ _ _ _ => True,fun _ _ => True⟩

namespace Statement
variable {R S : Type} {p : Statement R} {T : Terms} {held held' : Bytes → Prop} {post post' : R → Prop}

/-- If a statement reads what its terms allow, it writes what they allow, each row under a lock it has, and its result is as
said. -/
def Keeps (T : Terms) (post : R → Prop) (held : Bytes → Prop) : Statement R → Prop
  | .done (.ok r) => post r
  | .done (.error _) => True
  | .lockForWrite key next => next.Keeps T post (fun q => q = key ∨ held q)
  | .get key next => ∀ v, (∀ b, v = some b → T.reads key b) → (next v).Keeps T post held
  | .put key value next => (held (rowLock key) ∧ T.good key value) ∧ next.Keeps T post held
  | .delete key next => held (rowLock key) ∧ next.Keeps T post held
  | .scan lo hi next => ∀ rows, (∀ k b, (k,b) ∈ rows → T.scans lo hi k b) → (next rows).Keeps T post held
  | .indexScan _ _ _ next => ∀ entries, (next entries).Keeps T post held
  | .indexPut _ _ next => next.Keeps T post held
  | .indexDelete _ _ next => next.Keeps T post held
  | .createIndex _ next => ∀ id, (next id).Keeps T post held

theorem Keeps.mono (h : p.Keeps T post held) (hpost : ∀ r, post r → post' r) (hle : ∀ q, held q → held' q) :
    p.Keeps T post' held' := by
  induction p generalizing held held' with
  | done result =>
    cases result with
    | error e => trivial
    | ok r => exact hpost r h
  | lockForWrite key next ih =>
    have hnext : next.Keeps T post (fun q => q = key ∨ held q) := h
    exact ih hnext (fun q => .imp id (hle q))
  | get _ _ ih | scan _ _ _ ih => exact fun v hv => ih v (h v hv) hle
  | put _ _ _ ih => exact ⟨⟨hle _ h.1.1,h.1.2⟩,ih h.2 hle⟩
  | delete _ _ ih => exact ⟨hle _ h.1,ih h.2 hle⟩
  | indexScan _ _ _ _ ih | createIndex _ _ ih => exact fun v => ih v (h v) hle
  | indexPut _ _ next ih | indexDelete _ _ next ih =>
    have hnext : next.Keeps T post held := h
    exact ih hnext hle

theorem Keeps.imp (h : p.Keeps T post held) (hpost : ∀ r, post r → post' r) : p.Keeps T post' held :=
  h.mono hpost (fun _ => id)

theorem Keeps.bind {f : R → Statement S} {post' : S → Prop} (hp : p.Keeps T post held)
    (hf : ∀ r, post r → (f r).Keeps T post' held) : (p >>= f).Keeps T post' held := by
  change (p.bind f).Keeps T post' held
  induction p generalizing held with
  | done result =>
    cases result with
    | error e => trivial
    | ok r => exact hf r hp
  | lockForWrite key next ih =>
    have hnext : next.Keeps T post (fun q => q = key ∨ held q) := hp
    exact ih hnext (fun r hr => (hf r hr).mono (fun _ => id) (fun _ => .inr))
  | get _ _ ih | scan _ _ _ ih => exact fun v hv => ih v (hp v hv) hf
  | put _ _ _ ih | delete _ _ ih => exact ⟨hp.1,ih hp.2 hf⟩
  | indexScan _ _ _ _ ih | createIndex _ _ ih => exact fun v => ih v (hp v) hf
  | indexPut _ _ next ih | indexDelete _ _ next ih =>
    have hnext : next.Keeps T post held := hp
    exact ih hnext hf

theorem Keeps.ofExcept {r : Except Error R} (h : ∀ a, r = .ok a → post a) : (Statement.ofExcept r).Keeps T post held := by
  cases r with
  | error e => trivial
  | ok a => exact h a rfl

/-- A check, or a step that cannot fail the rest. -/
theorem Keeps.after {A : Type} {r : Except Error A} {f : A → Statement R} (hf : ∀ a, r = .ok a → (f a).Keeps T post held) :
    (Statement.ofExcept r >>= f).Keeps T post held :=
  .bind (.ofExcept (fun _ ha => ha)) hf

theorem ReadOnly.keeps (h : p.ReadOnly) : p.Keeps T (fun _ => True) held := by
  induction p with
  | done result => cases result <;> trivial
  | get _ _ ih | scan _ _ _ ih => exact fun v _ => ih v (h v)
  | indexScan index lo hi next ih => exact fun entries => ih entries (h entries)
  | lockForWrite | put | delete | indexPut | indexDelete | createIndex => exact h.elim

end Statement

namespace Schema
variable (s : Schema) (T : Terms)

/-- A row that a lookup or a scan of the table may find. -/
def Found (row : Row) : Prop :=
  ∃ blob, Tuple.decode s.columnTypes blob = .ok row ∧ ((∃ pk, T.reads (makeRowKey s.tableId pk) blob) ∨
    ∃ next key, TableId.next s.tableId = .ok next ∧
      T.scans (.included (makeRowKey s.tableId [])) (.excluded (makeRowKey next [])) key blob)

/-- The rows that may be inserted. -/
def Inserts : Prop :=
  ∀ values row pk blob, validateAndDefault s values = .ok row →
    KeyEnc.encodeKeyComponents (s.pkValues row) s.pkTypes = .ok pk → Tuple.encode s.columnTypes row = .ok blob →
    T.good (makeRowKey s.tableId pk) blob

/-- The changes that may be made to a row that is read. -/
def Updates (changes : List (Fin s.columns.length × Value)) : Prop :=
  ∀ pk old row blob, Table.checkChanges s changes = .ok () → T.reads (makeRowKey s.tableId pk) old →
    Tuple.decode s.columnTypes old = .ok row →
    Tuple.encode s.columnTypes (Table.mergeChanges row (changes.map (fun c => (c.1.val,c.2)))) = .ok blob →
    T.good (makeRowKey s.tableId pk) blob

end Schema

namespace Table
open Statement
variable (t : Table) {T : Terms} {held : Bytes → Prop} {pk : Bytes} {row : Row}

section Reads

theorem getRow_keeps (pk : Bytes) : (t.getRow pk).Keeps T (fun r => ∀ row ∈ r.toList, ∃ blob,
    T.reads (makeRowKey t.schema.tableId pk) blob ∧ Tuple.decode t.schema.columnTypes blob = .ok row) held := by
  intro v hv
  cases v with
  | none => exact forall_mem_nil _
  | some blob => exact .after fun row hrow => forall_mem_singleton.mpr ⟨blob,hv blob rfl,hrow⟩

theorem getByPk_keeps (pkValues : List Value) :
    (t.getByPk pkValues).Keeps T (fun r => ∀ row ∈ r.toList, t.schema.Found T row) held := by
  refine .after fun pk _ => (t.getRow_keeps pk).imp fun r hr row hrow => ?_
  obtain ⟨blob,hread,hdecode⟩ := hr row hrow
  exact ⟨blob,hdecode,.inl ⟨pk,hread⟩⟩

theorem scan_keeps : t.scan.Keeps T (fun rows => ∀ row ∈ rows, t.schema.Found T row) held := by
  refine .after fun next hnext entries hentries => .ofExcept ?_
  induction entries with
  | nil =>
    rintro rows ⟨⟩
    exact forall_mem_nil _
  | cons entry entries ih =>
    intro rows hrows
    obtain ⟨row,hrow,hrows⟩ := bind_eq_ok hrows
    obtain ⟨rest,hrest,hrows⟩ := bind_eq_ok hrows
    cases hrows
    refine forall_mem_cons.mpr ⟨⟨entry.2,hrow,.inr ⟨next,entry.1,hnext,hentries _ _ mem_cons_self⟩⟩,?_⟩
    exact ih (fun k b hmem => hentries k b (mem_cons_of_mem _ hmem)) rest hrest

theorem dereference_keeps (ix : IndexHandle) (entries : List (Bytes × Bytes)) :
    (t.dereference ix entries).Keeps T (fun rows => ∀ row ∈ rows, t.schema.Found T row) held := by
  induction entries with
  | nil => exact forall_mem_nil _
  | cons entry entries ih =>
    refine .after fun values _ => (t.getByPk_keeps _).bind fun r hr => ih.bind fun rows hrows => ?_
    exact forall_mem_append.mpr ⟨hr,hrows⟩

theorem indexScan_keeps (ix : IndexHandle) (lead : List Value) :
    (t.indexScan ix lead).Keeps T (fun rows => ∀ row ∈ rows, t.schema.Found T row) held := by
  unfold indexScan
  split_ifs
  · trivial
  · exact .after fun encoded _ entries => t.dereference_keeps ix entries

theorem rows_keeps (a : AccessPath) (filter : Row → Bool) :
    (a.rows t filter).Keeps T (fun rows => ∀ row ∈ rows, t.schema.Found T row ∧ filter row = true) held := by
  have hcandidates : (a.candidates t).Keeps T (fun rows => ∀ row ∈ rows, t.schema.Found T row) held := by
    cases a with
    | seqScan => exact t.scan_keeps
    | pkLookup pk => exact (t.getByPk_keeps pk).bind fun r hr => hr
    | indexScan index lead =>
      simp only [AccessPath.candidates]
      split
      · trivial
      · exact t.indexScan_keeps _ lead
  refine hcandidates.bind fun rows hrows row hrow => ?_
  obtain ⟨hmem,hfilter⟩ := mem_filter.mp hrow
  exact ⟨hrows row hmem,hfilter⟩

theorem checkUniqueIndexes_keeps (row : Row) (indexes : List IndexHandle) :
    (t.checkUniqueIndexes row indexes).Keeps T (fun _ => True) held := by
  induction indexes with
  | nil => trivial
  | cons ix indexes ih =>
    rw [checkUniqueIndexes]
    split_ifs
    · exact ih
    · refine .after fun _ _ => .after fun _ _ entries => ?_
      dsimp only
      split_ifs
      · trivial
      · exact ih

theorem previous_keeps (pk : Bytes) : (t.previous pk).Keeps T (fun _ => True) held := by
  unfold previous
  split_ifs
  · trivial
  · exact (t.getRow_keeps pk).imp fun _ _ => trivial

end Reads

section Writes

theorem putRow_keeps (hpk : held pk)
    (hgood : ∀ blob, Tuple.encode t.schema.columnTypes row = .ok blob → T.good (makeRowKey t.schema.tableId pk) blob) :
    (t.putRow pk row).Keeps T (fun _ => True) held :=
  .after fun blob hblob => ⟨⟨by rwa [rowLock_makeRowKey],hgood blob hblob⟩,trivial⟩

theorem putIndexEntries_keeps (row : Row) (indexes : List IndexHandle) :
    (t.putIndexEntries row indexes).Keeps T (fun _ => True) held := by
  induction indexes with
  | nil => trivial
  | cons ix indexes ih => exact .after fun _ _ => ih

theorem deleteIndexEntries_keeps (row : Row) (indexes : List IndexHandle) :
    (t.deleteIndexEntries row indexes).Keeps T (fun _ => True) held := by
  induction indexes with
  | nil => trivial
  | cons ix indexes ih => exact .after fun _ _ => ih

theorem insert_keeps (hgood : t.schema.Inserts T) (values : Row) : (t.insert values).Keeps T (fun _ => True) held := by
  refine .after fun row hrow => .after fun pk hpk => (t.getRow_keeps pk).bind fun old _ => ?_
  split_ifs
  · trivial
  · refine (t.checkUniqueIndexes_keeps row t.indexes).bind fun _ _ => ?_
    refine (t.putRow_keeps (.inl rfl) (hgood values row pk · hrow hpk)).bind fun _ _ => ?_
    exact t.putIndexEntries_keeps row t.indexes

theorem updateColumns_keeps {changes : List (Fin t.schema.columns.length × Value)} (hgood : t.schema.Updates T changes)
    (pkValues : List Value) : (t.updateColumns pkValues changes).Keeps T (fun _ => True) held := by
  refine .after fun _ hchecked => .after fun pk _ => (t.previous_keeps pk).bind fun prev _ => ?_
  have hwrite : (t.updateRowColumns pk (changes.map (fun c => (c.1.val,c.2)))).Keeps T (fun _ => True)
      (fun q => q = pk ∨ held q) := by
    refine (t.getRow_keeps pk).bind fun row hrow => ?_
    cases row with
    | none => trivial
    | some row =>
      obtain ⟨old,hread,hdecode⟩ := hrow row mem_cons_self
      exact .after fun _ _ => t.putRow_keeps (.inl rfl) (hgood pk old row · hchecked hread hdecode)
  cases prev with
  | none => exact hwrite
  | some prev =>
    refine (t.checkUniqueIndexes_keeps _ t.indexes).bind fun _ _ => hwrite.bind fun _ _ => ?_
    exact (t.deleteIndexEntries_keeps prev t.indexes).bind fun _ _ => t.putIndexEntries_keeps _ t.indexes

theorem deleteByPk_keeps (pkValues : List Value) : (t.deleteByPk pkValues).Keeps T (fun _ => True) held := by
  refine .after fun pk _ => (t.previous_keeps pk).bind fun prev _ => ?_
  refine ⟨.inl (rowLock_makeRowKey ..),?_⟩
  cases prev with
  | none => trivial
  | some prev => exact t.deleteIndexEntries_keeps prev t.indexes

theorem each_keeps {A : Type} {action : A → Statement Unit} {as : List A}
    (h : ∀ a ∈ as, (action a).Keeps T (fun _ => True) held) : (each action as).Keeps T (fun _ => True) held := by
  induction as with
  | nil => trivial
  | cons a as ih =>
    obtain ⟨ha,has⟩ := forall_mem_cons.mp h
    exact ha.bind fun _ _ => ih has

theorem backfillIndexes_keeps : t.backfillIndexes.Keeps T (fun _ => True) held := by
  refine t.scan_keeps.bind fun rows hrows => ?_
  clear hrows
  induction rows with
  | nil => trivial
  | cons row rows ih => exact (t.putIndexEntries_keeps row t.indexes).bind fun _ _ => ih

end Writes

end Table
end InterchangeDb
