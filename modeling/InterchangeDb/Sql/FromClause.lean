import InterchangeDb.Sql.Planner

/-! The FROM clause: the binder resolves its items, and the planner finds them again by the names of their tables. -/
namespace InterchangeDb
open List Option InterchangeDb.Action

section Syntax

structure TableAlias where
  name : String
  columns : List String

/-- An item of the FROM clause, with its queries as they were parsed. -/
inductive TableFactor (Q : Type) where
  | table (name : String) (renamed : Option String)
  | derived (lateral : Bool) (subquery : Q) (named : Option TableAlias)
  | other (debug : String)

inductive JoinOperator (X : Type) where
  | inner (on : Option X)
  | crossJoin
  | leftOuter (on : Option X)
  | rightOuter
  | fullOuter
  | other (debug : String)

structure TableWithJoins (Q X : Type) where
  relation : TableFactor Q
  joins : List (TableFactor Q × JoinOperator X)

end Syntax

section Binding
variable {Q X : Type}

structure ScopedTable where
  tableName : String
  renamed : Option String
  columns : List ColumnDef
  columnOffset : Nat

/-- The name other clauses use. -/
def ScopedTable.exposed (s : ScopedTable) : String := s.renamed.getD s.tableName

def pushScope (scope : List ScopedTable) (tableName : String) (renamed : Option String) (columns : List ColumnDef) :
    Except Error (List ScopedTable) :=
  let exposed := renamed.getD tableName
  if scope.any (fun s => decide (s.exposed = exposed)) then
    .error (.sqlParse s!"binder: relation name '{exposed}' specified more than once in FROM")
  else .ok (scope ++ [⟨tableName,renamed,columns,(scope.map (fun s => s.columns.length)).sum⟩])

def maxDerivedDepth : Nat := 4

/-- A list of column names renames all columns or is an error. -/
def renameColumns (named : TableAlias) (columns : List ColumnDef) : Except Error (List ColumnDef) :=
  if named.columns.isEmpty then .ok columns
  else if named.columns.length ≠ columns.length then
    .error (.sqlParse (s!"binder: derived table '{named.name}' column list has {named.columns.length} names but the " ++
      s!"subquery produces {columns.length} columns"))
  else .ok (List.zipWith (fun column name => { column with name := name }) columns named.columns)

abbrev BoundSelect := LogicalPlan × List ColumnDef

variable (bindInner : Q → Nat → Except Error BoundSelect) (tables : List Table) (depth : Nat)

/-- The name, the new name and the columns of an item, and the query if it is one. A query has its alias as its name. -/
def resolveFromFactor : TableFactor Q → Except Error ((String × Option String × List ColumnDef) × Option DerivedTable)
  | .table name renamed => do
    let t ← getTable tables name
    return ((name,renamed,t.schema.columns),none)
  | .derived lateral subquery named =>
    if lateral then .error (.sqlParse "binder: LATERAL derived tables not supported")
    else match named with
      | none => .error (.sqlParse "binder: derived table (FROM-subquery) requires an alias")
      | some named =>
        if depth + 1 > maxDerivedDepth then
          .error (.sqlParse s!"binder: derived tables nested deeper than {maxDerivedDepth} levels not supported")
        else do
          let (inner,columns) ← bindInner subquery (depth + 1)
          let columns ← renameColumns named columns
          return ((named.name,none,columns),some (.mk named.name inner columns))
  | .other debug => .error (.sqlParse s!"binder: FROM/JOIN must be a named table or derived table, got {debug}")

/-- The FROM clause as far as it is bound. Every item after the first is joined. -/
structure FromClause (X : Type) where
  scope : List ScopedTable
  derived : List DerivedTable
  joined : List (String × Option String × Option X × JoinKind)

def bindFactor (f : FromClause X) (factor : TableFactor Q) : Except Error (FromClause X × String × Option String) := do
  let ((name,renamed,columns),d) ← resolveFromFactor bindInner tables depth factor
  let scope ← pushScope f.scope name renamed columns
  return ({ f with scope := scope, derived := f.derived ++ d.toList },name,renamed)

def joinKindOf : JoinOperator X → Except Error (JoinKind × Option X)
  | .inner on => .ok (.inner,on)
  | .crossJoin => .ok (.inner,none)
  | .leftOuter (some on) => .ok (.leftOuter,some on)
  | .leftOuter none => .error (.sqlParse "binder: LEFT OUTER JOIN requires an ON clause")
  | .rightOuter => .error (.sqlParse "binder: RIGHT OUTER JOIN not supported")
  | .fullOuter => .error (.sqlParse "binder: FULL OUTER JOIN not supported")
  | .other debug => .error (.sqlParse s!"binder: only INNER, CROSS, and LEFT OUTER JOIN supported, got {debug}")

def bindJoined : FromClause X → List (TableFactor Q × JoinOperator X) → Except Error (FromClause X)
  | f, [] => .ok f
  | f, (factor,operator)::joins => do
    let (f,name,renamed) ← bindFactor bindInner tables depth f factor
    let (kind,on) ← joinKindOf operator
    bindJoined { f with joined := f.joined ++ [(name,renamed,on,kind)] } joins

/-- Items after a comma are joined without a condition. -/
def bindRest : FromClause X → List (TableWithJoins Q X) → Except Error (FromClause X)
  | f, [] => .ok f
  | f, twj::rest => do
    let (f,name,renamed) ← bindFactor bindInner tables depth f twj.relation
    let f ← bindJoined bindInner tables depth { f with joined := f.joined ++ [(name,renamed,none,.inner)] } twj.joins
    bindRest f rest

def bindFrom : List (TableWithJoins Q X) → Except Error (FromClause X)
  | [] => .error (.sqlParse "binder: SELECT needs a FROM clause")
  | twj::rest => do
    let (f,_) ← bindFactor bindInner tables depth ⟨[],[],[]⟩ twj.relation
    let f ← bindJoined bindInner tables depth f twj.joins
    bindRest bindInner tables depth f rest

def fromFactors (items : List (TableWithJoins Q X)) : List (TableFactor Q) :=
  items.flatMap (fun twj => twj.relation::twj.joins.map Prod.fst)

/-- A SELECT with this FROM clause; its other clauses, and the bound ON conditions, are free. -/
def FromClause.Binds (f : FromClause X) (block : QueryBlock) : Prop :=
  f.scope.head?.map ScopedTable.tableName = some block.table ∧
    List.Forall₂ (fun item join => join.rightTable = item.1 ∧ join.rightAlias = item.2.1 ∧
      join.on.isSome = item.2.2.1.isSome ∧ join.kind = item.2.2.2) f.joined block.joins

end Binding

section Leaves

/-- What a leaf of a plan reads. -/
inductive Leaf where
  | scan (table : String)
  | query (name : String) (subplan : PhysOp) (schema : List ColumnDef)

/-- The leaves from left to right. The plan inside a leaf is part of it. -/
def PhysOp.leaves : PhysOp → List Leaf
  | .seqScan table | .indexScan table _ _ | .pkLookup table _ => [.scan table]
  | .derivedScan name subplan schema => [.query name subplan schema]
  | .filter input _ | .projection input _ | .compute input _ | .hashAggregate input _ _ | .sort input _ | .limit input _ =>
    input.leaves
  | .nestedLoopJoin outer inner _ _ | .hashJoin outer inner _ _ _ _ | .mergeJoin outer inner _ _ => outer.leaves ++ inner.leaves
  | .indexNestedLoopJoin outer innerTable _ _ => outer.leaves ++ [.scan innerTable]
  | .insert _ _ => []
  | .update _ input _ | .delete _ input => input.leaves

variable {F : Type} [Arith F]

/-- A leaf reads what its item was bound to: the table, or the plan of the query. -/
inductive OwnLeaf {Q : Type} (bindInner : Q → Nat → Except Error BoundSelect) (depth : Nat) (selection : JoinSelection F)
    (tables : List Table) : TableFactor Q → Leaf → Prop where
  | table (name : String) (renamed : Option String) : OwnLeaf bindInner depth selection tables (.table name renamed) (.scan name)
  | query {subquery : Q} {named : TableAlias} {inner : LogicalPlan} {columns schema : List ColumnDef} {subplan : PhysOp}
      (bound : bindInner subquery (depth + 1) = .ok (inner,columns)) (renamed : renameColumns named columns = .ok schema)
      (planned : planInner selection tables inner () = some (.ok (.query subplan,()))) :
      OwnLeaf bindInner depth selection tables (.derived false subquery (some named)) (.query named.name subplan schema)

end Leaves

section Planned
variable {F : Type} [Arith F]
variable {relation right : Relation} {name : String} {preds residual : List Predicate}
  {leaves : List (String × PhysOp)} {op : PhysOp} {src : PlanSources} {selection : JoinSelection F}
  {st st' : Planning F} {range : TableRange} {on : Option Predicate} {u : Unit} {ranges : List TableRange}
  {joins : List JoinClause} {block : QueryBlock}

def leavesFor (leaves : List (String × PhysOp)) (name : String) : List Leaf :=
  match leafOf leaves name with
  | some op => op.leaves
  | none => [.scan name]

@[simp] theorem leaves_filtered (op : PhysOp) (preds : List Predicate) : (filtered op preds).leaves = op.leaves := by
  unfold filtered
  cases andAll preds <;> rfl

private theorem lowerAccess_leaves {leftover : List Predicate}
    {access : Option PhysOp} (h : lowerAccess relation name preds = some (access,leftover)) :
    (access.getD (.seqScan name)).leaves = [.scan name] := by
  induction preds generalizing access leftover with
  | nil =>
    cases h
    rfl
  | cons p preds ih =>
    unfold lowerAccess at h
    split at h
    · cases h
      rfl
    · obtain ⟨lowering,-,h⟩ := bind_eq_some_iff.mp h
      cases lowering with
      | matched handle lead recheck =>
        cases h
        rfl
      | unmatched p' =>
        obtain ⟨⟨access',leftover'⟩,hrest,h⟩ := bind_eq_some_iff.mp h
        cases h
        exact ih hrest

theorem buildLeftLeaf_leaves (h : buildLeftLeaf preds relation name leaves = some op) :
    op.leaves = leavesFor leaves name := by
  unfold buildLeftLeaf at h
  unfold leavesFor
  cases hscan : leafOf leaves name with
  | some scan =>
    simp only [hscan] at h ⊢
    cases h
    exact leaves_filtered scan preds
  | none =>
    simp only [hscan] at h ⊢
    obtain ⟨⟨access,leftover⟩,haccess,h⟩ := bind_eq_some_iff.mp h
    cases h
    rw [leaves_filtered]
    exact lowerAccess_leaves haccess

private theorem buildRightLeaf_leaves {offset : Nat} (h : buildRightLeaf preds relation name offset leaves = some op) :
    op.leaves = leavesFor leaves name := by
  obtain ⟨preds',-,h⟩ := bind_eq_some_iff.mp h
  exact buildLeftLeaf_leaves h

/-- Every plan of a query of the FROM clause is found under the name of one. -/
def PlanSources.Named (src : PlanSources) : Prop := ∀ leaf ∈ src.leaves, leaf.1 ∈ src.derived.map Prod.fst

private theorem leavesFor_indexed (hsrc : src.Named)
    (hright : resolveRelation src.tables src.derived name = .ok right) (hindexes : right.indexes ≠ []) :
    leavesFor src.leaves name = [.scan name] := by
  have hnone : leafOf src.leaves name = none := by
    unfold leafOf
    rw [map_eq_none_iff,find?_eq_none]
    intro leaf hleaf hname
    obtain ⟨d,hd,hdname⟩ := mem_map.mp (hsrc leaf hleaf)
    rw [decide_eq_true_eq] at hname
    unfold resolveRelation at hright
    cases hfind : src.derived.find? (fun d => decide (d.1 = name)) with
    | none => exact find?_eq_none.mp hfind d hd (by simp [hdname,hname])
    | some d' =>
      rw [hfind] at hright
      cases hright
      exact hindexes rfl
  unfold leavesFor
  rw [hnone]

private theorem planLeftOuter_leaves {card : F} (h : planLeftOuter selection src st range right name on = some (op,card)) :
    op.leaves = st.current.leaves ++ leavesFor src.leaves name := by
  obtain ⟨p,-,h⟩ := bind_eq_some_iff.mp h
  obtain ⟨inner,hinner,h⟩ := bind_eq_some_iff.mp h
  split_ifs at h
  · obtain ⟨⟨⟨outerCol,innerCol⟩,residual⟩,-,h⟩ := bind_eq_some_iff.mp h
    cases h
    exact congrArg (st.current.leaves ++ ·) (buildRightLeaf_leaves hinner)
  · cases h
    exact congrArg (st.current.leaves ++ ·) (buildRightLeaf_leaves hinner)

omit [Arith F] in
private theorem planInnerJoin_leaves {algorithm : JoinAlgorithm} (hsrc : src.Named)
    {rightPreds residual' : List Predicate} (hright : resolveRelation src.tables src.derived name = .ok right)
    (h : planInnerJoin algorithm src st range right name on rightPreds residual = some (op,residual')) :
    op.leaves = st.current.leaves ++ leavesFor src.leaves name := by
  cases algorithm with
  | indexNestedLoop =>
    obtain ⟨p,-,h⟩ := bind_eq_some_iff.mp h
    obtain ⟨⟨outerCol,handle⟩,hmatch,h⟩ := bind_eq_some_iff.mp h
    cases h
    obtain ⟨keys,-,hmatch⟩ := bind_eq_some_iff.mp hmatch
    obtain ⟨ix,hix,-⟩ := bind_eq_some_iff.mp hmatch
    have hindexes : right.indexes ≠ [] := ne_nil_of_mem (mem_of_find?_eq_some hix)
    rw [leavesFor_indexed hsrc hright hindexes]
    rfl
  | hash =>
    obtain ⟨p,-,h⟩ := bind_eq_some_iff.mp h
    obtain ⟨keys,-,h⟩ := bind_eq_some_iff.mp h
    obtain ⟨inner,hinner,h⟩ := bind_eq_some_iff.mp h
    cases h
    exact congrArg (st.current.leaves ++ ·) (buildRightLeaf_leaves hinner)
  | nestedLoop =>
    obtain ⟨inner,hinner,h⟩ := bind_eq_some_iff.mp h
    cases h
    exact congrArg (st.current.leaves ++ ·) (buildRightLeaf_leaves hinner)

theorem planJoin_leaves (hsrc : src.Named) {join : JoinClause}
    (h : planJoin selection src st range join u = some (.ok (st',u))) :
    st'.current.leaves = st.current.leaves ++ leavesFor src.leaves join.rightTable := by
  obtain ⟨right,_,hresolve,hjoin⟩ := ran_bind.mp h
  obtain ⟨hright,-⟩ := ran_ofExcept.mp hresolve
  cases hkind : join.kind with
  | leftOuter =>
    simp only [hkind] at hjoin
    obtain ⟨⟨op,card⟩,_,hop,hst⟩ := ran_bind.mp hjoin
    obtain ⟨hop',-⟩ := ran_ofOption.mp hop
    obtain ⟨rfl,-⟩ := ran_pure.mp hst
    exact planLeftOuter_leaves hop'
  | inner =>
    simp only [hkind] at hjoin
    obtain ⟨⟨op,residual⟩,_,hop,hst⟩ := ran_bind.mp hjoin
    obtain ⟨hop',-⟩ := ran_ofOption.mp hop
    obtain ⟨rfl,-⟩ := ran_pure.mp hst
    exact planInnerJoin_leaves hsrc hright hop'

theorem planJoins_leaves (hsrc : src.Named) (hlength : ranges.length = joins.length)
    (h : planJoins selection src st ranges joins u = some (.ok (st',u))) :
    st'.current.leaves = st.current.leaves ++ joins.flatMap (fun join => leavesFor src.leaves join.rightTable) := by
  induction joins generalizing st ranges with
  | nil =>
    cases ranges with
    | nil =>
      cases h
      simp
    | cons range ranges => cases hlength
  | cons join joins ih =>
    cases ranges with
    | nil => cases hlength
    | cons range ranges =>
      obtain ⟨st₁,_,hjoin,hrest⟩ := ran_bind.mp h
      rw [ih (Nat.succ.inj hlength) hrest,planJoin_leaves hsrc hjoin,flatMap_cons,append_assoc]

private theorem tableRanges_length {tables : List Table} {derived : List (String × List ColumnDef)} {start : Nat}
    (h : tableRanges tables derived start joins = .ok ranges) :
    ranges.length = joins.length := by
  induction joins generalizing start ranges with
  | nil =>
    cases h
    rfl
  | cons join joins ih =>
    obtain ⟨right,-,h⟩ := bind_eq_ok h
    obtain ⟨rest,hrest,h⟩ := bind_eq_ok h
    cases h
    rw [length_cons,length_cons,ih hrest]

private theorem applySelectSpine_leaves {current : PhysOp}
    (h : applySelectSpine current residual block u = some (.ok (op,u))) : op.leaves = current.leaves := by
  obtain ⟨_,_,-,h⟩ := ran_bind.mp h
  obtain ⟨_,_,-,h⟩ := ran_bind.mp h
  obtain ⟨rfl,-⟩ := ran_pure.mp h
  cases block.limit <;> simp <;> split_ifs <;> simp [PhysOp.leaves]

/-- A plan has a leaf for each name of the FROM clause, in their order. -/
theorem planSelect_leaves (hsrc : src.Named) (h : planSelect selection src block u = some (.ok (op,u))) :
    op.leaves = (block.table::block.joins.map JoinClause.rightTable).flatMap (leavesFor src.leaves) := by
  obtain ⟨left,_,-,h⟩ := ran_bind.mp h
  obtain ⟨ranges,_,hranges,h⟩ := ran_bind.mp h
  obtain ⟨hranges',-⟩ := ran_ofExcept.mp hranges
  obtain ⟨current,_,hcurrent,h⟩ := ran_bind.mp h
  obtain ⟨hcurrent',-⟩ := ran_ofOption.mp hcurrent
  obtain ⟨st,_,hst,hspine⟩ := ran_bind.mp h
  rw [applySelectSpine_leaves hspine,planJoins_leaves hsrc (tableRanges_length hranges') hst,buildLeftLeaf_leaves hcurrent',
    flatMap_cons,flatMap_map]

end Planned

section Resolved
variable {Q X : Type} {bindInner : Q → Nat → Except Error BoundSelect} {tables : List Table} {depth : Nat}
variable {renamed first : Option String} {f f' : FromClause X} {factors : List (TableFactor Q)}
  {items : List (TableWithJoins Q X)}

/-- The scope and the queries of the FROM clause come from its items, one after the other. -/
def Resolved (bindInner : Q → Nat → Except Error BoundSelect) (tables : List Table) (depth : Nat)
    (factors : List (TableFactor Q)) (entries : List (ScopedTable × Option DerivedTable)) : Prop :=
  List.Forall₂ (fun factor e => resolveFromFactor bindInner tables depth factor
    = .ok ((e.1.tableName,e.1.renamed,e.1.columns),e.2)) factors entries ∧ (entries.map (fun e => e.1.exposed)).Nodup

/-- Each item that is bound is exposed by a name of its own, and joined if it is not the first. -/
structure FromClause.Reads (bindInner : Q → Nat → Except Error BoundSelect) (tables : List Table) (depth : Nat)
    (factors : List (TableFactor Q)) (f : FromClause X) (unjoined : Option String) : Prop where
  entries : ∃ entries, Resolved bindInner tables depth factors entries ∧ f.scope = entries.map Prod.fst
    ∧ f.derived = entries.filterMap Prod.snd
  joined : f.scope.map ScopedTable.tableName = unjoined.toList ++ f.joined.map Prod.fst

private theorem pushScope_eq {scope scope' : List ScopedTable} {name : String}
    {columns : List ColumnDef} (h : pushScope scope name renamed columns = .ok scope') :
    ∃ s : ScopedTable, s.tableName = name ∧ s.renamed = renamed ∧ s.columns = columns ∧ scope' = scope ++ [s]
      ∧ s.exposed ∉ scope.map ScopedTable.exposed := by
  unfold pushScope at h
  simp only at h
  split_ifs at h with hany
  cases h
  refine ⟨_,rfl,rfl,rfl,rfl,fun hmem => hany ?_⟩
  obtain ⟨s,hs,heq⟩ := mem_map.mp hmem
  exact any_eq_true.mpr ⟨s,hs,decide_eq_true heq⟩

theorem bindFactor_resolved {factor : TableFactor Q} {entries : List (ScopedTable × Option DerivedTable)} {name : String}
    (hentries : Resolved bindInner tables depth factors entries) (hscope : f.scope = entries.map Prod.fst)
    (hderived : f.derived = entries.filterMap Prod.snd)
    (h : bindFactor bindInner tables depth f factor = .ok (f',name,renamed)) :
    ∃ e, Resolved bindInner tables depth (factors ++ [factor]) (entries ++ [e]) ∧ f'.scope = (entries ++ [e]).map Prod.fst
      ∧ f'.derived = (entries ++ [e]).filterMap Prod.snd ∧ e.1.tableName = name ∧ f'.joined = f.joined := by
  obtain ⟨⟨⟨name',renamed',columns⟩,d⟩,hresolve,h⟩ := bind_eq_ok h
  obtain ⟨scope,hpush,h⟩ := bind_eq_ok h
  cases h
  obtain ⟨s,rfl,rfl,rfl,rfl,hnew⟩ := pushScope_eq hpush
  have hexposed : entries.map (·.1.exposed) = f.scope.map ScopedTable.exposed := by
    rw [hscope,List.map_map]
    rfl
  refine ⟨(s,d),⟨rel_append hentries.1 (.cons hresolve .nil),?_⟩,?_,?_,rfl,rfl⟩
  · rw [map_append,map_singleton]
    refine nodup_append.mpr ⟨hentries.2,nodup_singleton _,fun a ha b hb => ?_⟩
    rintro rfl
    rw [hexposed] at ha
    exact hnew (mem_singleton.mp hb ▸ ha)
  · simp [hscope]
  · cases d <;> simp [hderived]

/-- One more factor is read, and joined to those before it. -/
private theorem FromClause.Reads.concat {factor : TableFactor Q} {name : String} {f₁ : FromClause X}
    (hf : f.Reads bindInner tables depth factors first)
    (h : bindFactor bindInner tables depth f factor = .ok (f₁,name,renamed)) (on : Option X) (kind : JoinKind) :
    FromClause.Reads bindInner tables depth (factors ++ [factor])
      { f₁ with joined := f₁.joined ++ [(name,renamed,on,kind)] } first := by
  obtain ⟨entries,hentries,hscope,hderived⟩ := hf.entries
  obtain ⟨e,hresolved,hscope',hderived',hname,hjoined⟩ := bindFactor_resolved hentries hscope hderived h
  refine ⟨⟨_,hresolved,hscope',hderived'⟩,?_⟩
  change f₁.scope.map _ = _
  rw [hscope',map_append,map_append,← hscope,hf.joined,hjoined]
  simp [hname]

theorem bindJoined_reads {joins : List (TableFactor Q × JoinOperator X)}
    (hf : f.Reads bindInner tables depth factors first) (h : bindJoined bindInner tables depth f joins = .ok f') :
    f'.Reads bindInner tables depth (factors ++ joins.map Prod.fst) first := by
  induction joins generalizing f factors with
  | nil =>
    cases h
    rwa [map_nil,append_nil]
  | cons join joins ih =>
    obtain ⟨⟨f₁,name,renamed⟩,hfactor,h⟩ := bind_eq_ok h
    obtain ⟨⟨kind,on⟩,-,h⟩ := bind_eq_ok h
    have hrest := ih (hf.concat hfactor on kind) h
    rwa [append_assoc] at hrest

theorem bindRest_reads (hf : f.Reads bindInner tables depth factors first)
    (h : bindRest bindInner tables depth f items = .ok f') :
    f'.Reads bindInner tables depth (factors ++ fromFactors items) first := by
  induction items generalizing f factors with
  | nil =>
    cases h
    rwa [fromFactors,flatMap_nil,append_nil]
  | cons twj items ih =>
    obtain ⟨⟨f₁,name,renamed⟩,hfactor,h⟩ := bind_eq_ok h
    obtain ⟨f₂,hjoined₂,h⟩ := bind_eq_ok h
    have hrest := ih (bindJoined_reads (hf.concat hfactor none .inner) hjoined₂) h
    simpa [fromFactors] using hrest

theorem bindFrom_reads (h : bindFrom bindInner tables depth items = .ok f) :
    ∃ first, f.Reads bindInner tables depth (fromFactors items) (some first) := by
  cases items with
  | nil => cases h
  | cons twj items =>
    obtain ⟨⟨f₁,name,renamed⟩,hfactor,h⟩ := bind_eq_ok h
    obtain ⟨f₂,hjoined₂,h⟩ := bind_eq_ok h
    have hnil : Resolved bindInner tables depth [] [] := ⟨.nil,nodup_nil⟩
    obtain ⟨e,hresolved,hscope',hderived',hname,hjoined⟩ := bindFactor_resolved hnil rfl rfl hfactor
    have hnext : FromClause.Reads bindInner tables depth [twj.relation] f₁ (some e.1.tableName) :=
      ⟨⟨_,hresolved,hscope',hderived'⟩,by rw [hscope',hjoined]; rfl⟩
    have hrest := bindRest_reads (bindJoined_reads hnext hjoined₂) h
    exact ⟨_,by simpa [fromFactors] using hrest⟩

end Resolved

section Lists
variable {A B C : Type}
variable {as : List A}

private theorem forall₂_comp {R : A → B → Prop} {S : B → C → Prop} {bs : List B} {cs : List C}
    (h : List.Forall₂ R as bs) (h' : List.Forall₂ S bs cs) : List.Forall₂ (fun a c => ∃ b ∈ bs, R a b ∧ S b c) as cs := by
  induction h generalizing cs with
  | nil =>
    cases h'
    exact .nil
  | @cons a b as bs hab _ ih =>
    cases h' with
    | cons hbc hrest =>
      refine .cons ⟨b,mem_cons_self,hab,hbc⟩ ((ih hrest).imp ?_)
      rintro a' c' ⟨b',hb',h⟩
      exact ⟨b',mem_cons_of_mem _ hb',h⟩

private theorem forall₂_iff_forall {R T : A → B → Prop} {P : A → Prop} {bs : List B} (h : List.Forall₂ T as bs)
    (hiff : ∀ a b, T a b → (R a b ↔ P a)) : List.Forall₂ R as bs ↔ ∀ a ∈ as, P a := by
  induction h with
  | nil => simp
  | cons hab _ ih => rw [forall₂_cons,forall_mem_cons,ih,hiff _ _ hab]

private theorem forall₂_flatMap {f : A → List B} (h : ∀ a ∈ as, ∃ b, f a = [b]) :
    List.Forall₂ (fun a b => f a = [b]) as (as.flatMap f) := by
  induction as with
  | nil => exact .nil
  | cons a as ih =>
    obtain ⟨⟨b,hb⟩,has⟩ := forall_mem_cons.mp h
    rw [flatMap_cons,hb]
    exact .cons hb (ih has)

end Lists

section Own
variable {Q X F : Type} [Arith F] {bindInner : Q → Nat → Except Error BoundSelect} {tables : List Table} {depth : Nat}
  {selection : JoinSelection F}
variable {derived : List DerivedTable} {leaves : List (String × PhysOp)} {factors : List (TableFactor Q)}
  {entries : List (ScopedTable × Option DerivedTable)}

def DerivedTable.name : DerivedTable → String
  | .mk name _ _ => name

/-- A query of the FROM clause and its leaf. -/
def LeafOfDerived (selection : JoinSelection F) (tables : List Table) (d : DerivedTable) (leaf : String × PhysOp) : Prop :=
  ∃ inner schema subplan, d = .mk leaf.1 inner schema ∧ planInner selection tables inner () = some (.ok (.query subplan,()))
    ∧ leaf.2 = .derivedScan leaf.1 subplan schema

theorem planDerivedLeaves_forall₂ (h : planDerivedLeaves selection tables derived () = some (.ok (leaves,()))) :
    List.Forall₂ (LeafOfDerived selection tables) derived leaves.reverse := by
  induction derived generalizing leaves with
  | nil =>
    cases h
    exact .nil
  | cons d derived ih =>
    rw [planDerivedLeaves] at h
    obtain ⟨leaf,_,hleaf,hrest⟩ := ran_bind.mp h
    obtain ⟨leaves',_,hleaves,hpure⟩ := ran_bind.mp hrest
    obtain ⟨rfl,-⟩ := ran_pure.mp hpure
    obtain ⟨name,inner,schema⟩ := d
    rw [planDerivedLeaf] at hleaf
    obtain ⟨planned,_,hplan,hscan⟩ := ran_bind.mp hleaf
    rw [reverse_append,reverse_singleton,singleton_append]
    refine .cons ?_ (ih hleaves)
    cases planned with
    | query subplan =>
      obtain ⟨rfl,-⟩ := ran_pure.mp hscan
      exact ⟨inner,schema,subplan,rfl,hplan,rfl⟩
    | descriptor => cases hscan

section

variable (hleaves : List.Forall₂ (LeafOfDerived selection tables) derived leaves.reverse)
include hleaves

private theorem leafOf_eq_some {d : DerivedTable} (hd : d ∈ derived) (hnames : ∀ d' ∈ derived, d'.name = d.name → d' = d) :
    ∃ leaf, LeafOfDerived selection tables d leaf ∧ leafOf leaves d.name = some leaf.2 := by
  obtain ⟨leaf,hleaf,hown⟩ := exists_right_of_forall₂ hleaves hd
  obtain ⟨inner,schema,subplan,hd',hplan,hscan⟩ := hown
  have hname : d.name = leaf.1 := by rw [hd']; rfl
  refine ⟨leaf,⟨inner,schema,subplan,hd',hplan,hscan⟩,?_⟩
  unfold leafOf
  rw [hname,find?_by_key (mem_reverse.mp hleaf) (fun leaf' hleaf' heq => ?_),map_some]
  obtain ⟨d',hmem,inner',schema',subplan',hd'',hplan',hscan'⟩ := exists_left_of_forall₂ hleaves (mem_reverse.mpr hleaf')
  have hsame : d' = d := hnames d' hmem (by rw [hd'',hname,← heq]; rfl)
  rw [hsame,hd'] at hd''
  obtain ⟨-,rfl,rfl⟩ := DerivedTable.mk.inj hd''
  cases hplan.symm.trans hplan'
  exact Prod.ext heq (by rw [hscan',hscan,heq])

private theorem leafOf_eq_none {name : String} (hname : ∀ d ∈ derived, d.name ≠ name) : leafOf leaves name = none := by
  unfold leafOf
  rw [map_eq_none_iff,find?_eq_none]
  intro leaf hleaf heq
  obtain ⟨d,hd,inner,schema,subplan,hd',-⟩ := exists_left_of_forall₂ hleaves (mem_reverse.mpr hleaf)
  refine hname d hd ?_
  rw [hd']
  exact of_decide_eq_true heq

private theorem leavesFor_singleton (name : String) :
    ∃ leaf, leavesFor leaves name = [leaf] := by
  unfold leavesFor leafOf
  cases hfind : leaves.find? (fun leaf => decide (leaf.1 = name)) with
  | none => exact ⟨_,rfl⟩
  | some leaf =>
    obtain ⟨d,-,inner,schema,subplan,-,-,hscan⟩ :=
      exists_left_of_forall₂ hleaves (mem_reverse.mpr (mem_of_find?_eq_some hfind))
    rw [map_some,hscan]
    exact ⟨_,rfl⟩

end

private theorem resolveFromFactor_cases {factor : TableFactor Q} {e : ScopedTable × Option DerivedTable}
    (h : resolveFromFactor bindInner tables depth factor = .ok ((e.1.tableName,e.1.renamed,e.1.columns),e.2)) :
    (∃ renamed, factor = .table e.1.tableName renamed) ∨ ∃ subquery named inner columns,
      factor = .derived false subquery (some named) ∧ bindInner subquery (depth + 1) = .ok (inner,columns)
      ∧ renameColumns named columns = .ok e.1.columns ∧ e.1.tableName = named.name ∧ e.1.exposed = named.name
      ∧ e.2 = some (.mk named.name inner e.1.columns) := by
  cases factor with
  | table name renamed =>
    obtain ⟨t,-,h⟩ := bind_eq_ok h
    injection h with h
    injection h with h h'
    injection h with hname h
    exact .inl ⟨renamed,by rw [hname]⟩
  | derived lateral subquery named =>
    cases lateral with
    | true => cases h
    | false =>
      cases named with
      | none => cases h
      | some named =>
        by_cases hdepth : depth + 1 > maxDerivedDepth
        · simp [resolveFromFactor,hdepth] at h
        · simp only [resolveFromFactor,Bool.false_eq_true,if_false,if_neg hdepth] at h
          obtain ⟨⟨inner,columns⟩,hinner,h⟩ := bind_eq_ok h
          obtain ⟨columns',hrename,h⟩ := bind_eq_ok h
          injection h with h
          injection h with h hd
          injection h with hname h
          injection h with hrenamed hcolumns
          refine .inr ⟨subquery,named,inner,columns,rfl,hinner,hcolumns ▸ hrename,hname.symm,?_,?_⟩
          · rw [ScopedTable.exposed,← hrenamed,← hname]
            rfl
          · rw [← hd,hcolumns]
  | other => cases h

private theorem FromClause.Binds.tableNames {f : FromClause X} {block : QueryBlock} (h : f.Binds block) {first : String}
    (htables : f.scope.map ScopedTable.tableName = first::f.joined.map Prod.fst) :
    f.scope.map ScopedTable.tableName = block.table::block.joins.map JoinClause.rightTable := by
  obtain ⟨htable,hjoins⟩ := h
  have hfirst : first = block.table := by
    rw [← head?_map,htables,head?_cons] at htable
    exact some.inj htable
  have hjoined : f.joined.map Prod.fst = block.joins.map JoinClause.rightTable :=
    forall₂_eq_eq_eq ▸ forall₂_map_left_iff.mpr (forall₂_map_right_iff.mpr
      (hjoins.imp (fun _ _ h => h.1.symm)))
  rw [htables,hfirst,hjoined]

private theorem derived_exposed (h : Resolved bindInner tables depth factors entries) {d : DerivedTable}
    (hd : d ∈ entries.filterMap Prod.snd) : ∃ e ∈ entries, e.2 = some d ∧ e.1.exposed = d.name := by
  obtain ⟨e,he,hd⟩ := mem_filterMap.mp hd
  obtain ⟨factor,-,hfactor⟩ := exists_left_of_forall₂ h.1 he
  rcases resolveFromFactor_cases hfactor with ⟨renamed,rfl⟩ | ⟨-,named,inner,-,-,-,-,-,hname,hd'⟩
  · obtain ⟨t,-,h⟩ := bind_eq_ok hfactor
    injection h with h
    injection h with h h'
    rw [← h'] at hd
    cases hd
  · rw [hd'] at hd
    cases hd
    exact ⟨e,he,hd',hname⟩

private theorem derived_names_inj (h : Resolved bindInner tables depth factors entries) :
    ∀ d ∈ entries.filterMap Prod.snd, ∀ d' ∈ entries.filterMap Prod.snd, d'.name = d.name → d' = d := by
  intro d hd d' hd' heq
  obtain ⟨e,he,hed,hname⟩ := derived_exposed h hd
  obtain ⟨e',he',hed',hname'⟩ := derived_exposed h hd'
  have hsame : e' = e := inj_on_of_nodup_map h.2 he' he (by rw [hname',hname,heq])
  rw [hsame,hed] at hed'
  exact (some.inj hed').symm

/-- The items of the FROM clause are planned as what they were bound to exactly if no table has the name of a query of the
clause. -/
theorem leaves_own_iff {items : List (TableWithJoins Q X)} {f : FromClause X}
    (hbind : bindFrom bindInner tables depth items = .ok f) {block : QueryBlock} (hblock : f.Binds block)
    {scalarSubqueries inSubqueries correlatedSubqueries : List LogicalPlan} {op : PhysOp}
    (hplan : planInner selection tables (.select block f.derived scalarSubqueries inSubqueries correlatedSubqueries) ()
      = some (.ok (.query op,()))) :
    List.Forall₂ (OwnLeaf bindInner depth selection tables) (fromFactors items) op.leaves ↔
      ∀ factor ∈ fromFactors items, ∀ name renamed, factor = .table name renamed → ∀ d ∈ f.derived, d.name ≠ name := by
  obtain ⟨first,hreads⟩ := bindFrom_reads hbind
  obtain ⟨entries,hresolved,hscope,hderived⟩ := hreads.entries
  rw [planInner] at hplan
  obtain ⟨leaves,_,hleaves,hselect⟩ := ran_bind.mp hplan
  have hforall := planDerivedLeaves_forall₂ hleaves
  obtain ⟨op',hop,heq⟩ := map_eq_some hselect
  cases heq
  have hnames : entries.map (·.1.tableName) = block.table::block.joins.map JoinClause.rightTable := by
    rw [← hblock.tableNames hreads.joined,hscope,List.map_map]
    rfl
  have hsources : PlanSources.Named ⟨tables,derivedSchemas f.derived,leaves⟩ := by
    intro leaf hleaf
    obtain ⟨d,hd,inner,schema,subplan,hd',-⟩ := exists_left_of_forall₂ hforall (mem_reverse.mpr hleaf)
    refine mem_map.mpr ⟨(leaf.1,schema),mem_map.mpr ⟨d,hd,?_⟩,rfl⟩
    rw [hd']
  have hunique : ∀ d ∈ f.derived, ∀ d' ∈ f.derived, d'.name = d.name → d' = d := by
    rw [hderived]
    exact derived_names_inj hresolved
  have hleaf : List.Forall₂ (fun factor leaf => ∃ e ∈ entries, resolveFromFactor bindInner tables depth factor
      = .ok ((e.1.tableName,e.1.renamed,e.1.columns),e.2) ∧ leavesFor leaves e.1.tableName = [leaf])
      (fromFactors items) op.leaves := by
    have hop' : op.leaves = entries.flatMap (fun e => leavesFor leaves e.1.tableName) := by
      rw [planSelect_leaves hsources hop,← hnames,flatMap_map]
    rw [hop']
    exact forall₂_comp hresolved.1 (forall₂_flatMap (fun e _ => leavesFor_singleton hforall e.1.tableName))
  refine forall₂_iff_forall hleaf ?_
  rintro factor leaf ⟨e,he,hresolve,hleaf⟩
  rcases resolveFromFactor_cases hresolve with ⟨renamed,rfl⟩ | ⟨subquery,named,inner,columns,rfl,hinner,hrename,htable,-,hd⟩
  · constructor
    · rintro hown name renamed' hfactor d hd heq
      cases hfactor
      obtain ⟨scan,⟨inner,schema,subplan,-,-,hscan⟩,hfound⟩ := leafOf_eq_some hforall hd (hunique d hd)
      rw [leavesFor,← heq,hfound,hscan] at hleaf
      cases hleaf
      cases hown
    · intro hother
      rw [leavesFor,leafOf_eq_none hforall (hother _ renamed rfl)] at hleaf
      cases hleaf
      exact .table _ renamed
  · refine iff_of_true ?_ nofun
    have hmem : DerivedTable.mk named.name inner e.1.columns ∈ f.derived := by
      rw [hderived]
      exact mem_filterMap.mpr ⟨e,he,hd⟩
    obtain ⟨scan,⟨inner',schema,subplan,hmk,hplanned,hscan⟩,hfound⟩ := leafOf_eq_some hforall hmem (hunique _ hmem)
    obtain ⟨hnamed,rfl,rfl⟩ := DerivedTable.mk.inj hmk
    rw [leavesFor,htable,show leafOf leaves named.name = some scan.2 from hfound,hscan,← hnamed] at hleaf
    cases hleaf
    exact .query hinner hrename hplanned

end Own

section Shadowed

private def bindAs (q : BoundSelect) (_ : Nat) : Except Error BoundSelect := .ok q

private def keyed (name : String) (tableId : Fin 4294967296) (column : String) : Table where
  schema := {
    name := name
    tableId := tableId
    columns := [⟨"id",.int32,false,none⟩,⟨column,.int32,true,none⟩]
    primaryKey := [0]
    keyed := cons_ne_nil 0 []
    keyNotNull := by simp }
  indexes := []

private def tu : List Table := [keyed "t" 1 "a",keyed "u" 2 "b"]

private def selectAll (table : String) (joins : List JoinClause) (projection : List Nat) : QueryBlock :=
  ⟨table,joins,projection,[],[],none,[],none,none⟩

private def selectU : BoundSelect :=
  (.select (selectAll "u" [] [0,1]) [] [] [] [],[⟨"id",.int32,false,none⟩,⟨"b",.int32,true,none⟩])

variable (name : String)

private def tAndQuery : List (TableWithJoins BoundSelect Unit) :=
  [⟨.table "t" (some "x"),[]⟩,⟨.derived false selectU (some ⟨name,[]⟩),[]⟩]

private def fromTAndQuery : FromClause Unit where
  scope := [⟨"t",some "x",(keyed "t" 1 "a").schema.columns,0⟩,⟨name,none,selectU.2,2⟩]
  derived := [.mk name selectU.1 selectU.2]
  joined := [(name,none,none,.inner)]

private def selectTAndQuery : QueryBlock := selectAll "t" [⟨name,none,none,.inner⟩] [1,3]

private def scanU : PhysOp := .derivedScan name (.projection (.seqScan "u") [0,1]) selectU.2

private theorem binds_tAndQuery : (fromTAndQuery name).Binds (selectTAndQuery name) :=
  ⟨rfl,.cons ⟨rfl,rfl,rfl,rfl⟩ .nil⟩

/-- Under a name of its own the query is read beside the table. -/
theorem leaves_own_named :
    List.Forall₂ (OwnLeaf bindAs 0 (JoinSelection.heuristic : JoinSelection ℚ) tu) (fromFactors (tAndQuery "d"))
      (PhysOp.projection (.nestedLoopJoin (.seqScan "t") (scanU "d") none .inner) [1,3]).leaves := by
  have hbind : bindFrom bindAs tu 0 (tAndQuery "d") = .ok (fromTAndQuery "d") := rfl
  have hplan : planInner (.heuristic : JoinSelection ℚ) tu
      (.select (selectTAndQuery "d") (fromTAndQuery "d").derived [] [] []) ()
      = some (.ok (.query (.projection (.nestedLoopJoin (.seqScan "t") (scanU "d") none .inner) [1,3]),())) := rfl
  refine (leaves_own_iff hbind (binds_tAndQuery "d") hplan).mpr ?_
  intro factor hfactor name renamed heq d hd
  obtain rfl := mem_singleton.mp hd
  rcases mem_pair.mp hfactor with rfl | rfl
  · cases heq
    decide
  · cases heq

/-- Under the name of the table, which the alias leaves free, it is read in the place of the table. -/
theorem query_shadows_table :
    bindFrom bindAs tu 0 (tAndQuery "t") = .ok (fromTAndQuery "t") ∧ (fromTAndQuery "t").Binds (selectTAndQuery "t") ∧
    ∃ op, planInner (JoinSelection.heuristic : JoinSelection ℚ) tu
        (.select (selectTAndQuery "t") (fromTAndQuery "t").derived [] [] []) () = some (.ok (.query op,())) ∧
      ¬ List.Forall₂ (OwnLeaf bindAs 0 (JoinSelection.heuristic : JoinSelection ℚ) tu) (fromFactors (tAndQuery "t")) op.leaves := by
  refine ⟨rfl,binds_tAndQuery "t",.projection (.nestedLoopJoin (scanU "t") (scanU "t") none .inner) [1,3],rfl,?_⟩
  intro h
  cases h with
  | cons hown _ => cases hown

end Shadowed

end InterchangeDb
