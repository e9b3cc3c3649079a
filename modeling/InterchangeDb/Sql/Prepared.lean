import InterchangeDb.Sql.LogicalPlan

/-! Prepared statements. The walk that puts parameters in leaves out aggregates, subqueries and EXPLAIN. -/
namespace InterchangeDb
open List Option

section Placeholders

def Slot.placeholder : Slot → Option Nat
  | .parameter i => some i
  | _ => none

namespace Site

def slots : Site → List Slot
  | .expression e => e.slots
  | .predicate p => p.slots

def placeholders (s : Site) : List Nat := s.slots.filterMap Slot.placeholder

def replace (g : Slot → Option Value) : Site → Site
  | .expression e => .expression (e.replace g)
  | .predicate p => .predicate (p.replace g)

end Site

def placeholdersOf (sites : List Site) : List Nat := sites.flatMap Site.placeholders

def LogicalPlan.placeholders (plan : LogicalPlan) : List Nat := placeholdersOf plan.sites

mutual

/-- Placeholders where the substitution of parameters does not look. -/
def LogicalPlan.unreached : LogicalPlan → List Nat
  | .select block derived scalarSubqueries inSubqueries correlatedSubqueries =>
    DerivedTable.allUnreached derived ++ placeholdersOf (AggregateSpec.sites block.aggregates) ++
      placeholdersOf (LogicalPlan.allSites scalarSubqueries) ++ placeholdersOf (LogicalPlan.allSites inSubqueries) ++
      placeholdersOf (LogicalPlan.allSites correlatedSubqueries)
  | .explain plan => placeholdersOf plan.sites
  | _ => []

def DerivedTable.unreached : DerivedTable → List Nat
  | .mk _ plan _ => plan.unreached

def DerivedTable.allUnreached : List DerivedTable → List Nat
  | [] => []
  | d::ds => d.unreached ++ DerivedTable.allUnreached ds

end

/-- The parameter a placeholder stands for. -/
def paramOf (params : List Value) : Slot → Option Value
  | .parameter i => params[i]?
  | _ => none

variable {params : List Value}

private theorem bindParams_eq {s : Slot} (h : ∀ i, s.placeholder = some i → i < params.length) :
    bindParams params s = .ok (paramOf params s) := by
  cases s with
  | parameter i =>
    have hi := getElem?_eq_getElem (h i rfl)
    simp [bindParams,paramOf,hi]
  | subqueryResult slot | outerRef k => rfl

private theorem paramOf_or (params scalars outer : List Value) (s : Slot) :
    (paramOf params s).or (Slots.get ⟨[],scalars,outer⟩ s) = Slots.get ⟨params,scalars,outer⟩ s := by
  cases s with
  | parameter i =>
    change (params[i]?).or (([] : List Value)[i]?) = params[i]?
    rw [getElem?_nil,or_none]
  | subqueryResult slot | outerRef k => rfl

def Covered (params : List Value) (sites : List Site) : Prop := ∀ i ∈ placeholdersOf sites, i < params.length

private theorem covered_append {a b : List Site} : Covered params (a ++ b) ↔ Covered params a ∧ Covered params b := by
  unfold Covered placeholdersOf
  rw [flatMap_append,forall_mem_append]

private theorem Covered.mono {a b : List Site} (h : Covered params b) (hsub : ∀ site ∈ a, site ∈ b) : Covered params a := by
  intro i hi
  obtain ⟨site,hsite,hi⟩ := mem_flatMap.mp hi
  exact h i (mem_flatMap_of_mem (hsub site hsite) hi)

private theorem Covered.slot {sites : List Site} (h : Covered params sites) {site : Site} (hm : site ∈ sites) :
    ∀ s ∈ site.slots, bindParams params s = .ok (paramOf params s) :=
  fun s hs => bindParams_eq (fun i hi => h i (mem_flatMap_of_mem hm (mem_filterMap.mpr ⟨s,hs,hi⟩)))

private theorem Covered.expression {sites : List Site} (h : Covered params sites) {e : Expression}
    (hm : .expression e ∈ sites) : e.mapSlots (bindParams params) = .ok (e.replace (paramOf params)) :=
  e.mapSlots_eq (h.slot hm)

private theorem Covered.predicate {sites : List Site} (h : Covered params sites) {p : Predicate}
    (hm : .predicate p ∈ sites) : p.mapSlots (bindParams params) = .ok (p.replace (paramOf params)) :=
  p.mapSlots_eq (h.slot hm)

private theorem replace_untouched {sites : List Site} (h : placeholdersOf sites = []) :
    sites.map (Site.replace (paramOf params)) = sites := by
  have hsame : ∀ site ∈ sites, site.replace (paramOf params) = site := by
    intro site hm
    have hnone : ∀ s ∈ site.slots, paramOf params s = none := by
      intro s hs
      have hs := filterMap_eq_nil_iff.mp (flatMap_eq_nil_iff.mp h site hm) s hs
      cases s with
      | parameter i => cases hs
      | subqueryResult slot | outerRef k => rfl
    cases site with
    | expression e => exact congrArg Site.expression (e.replace_self hnone)
    | predicate p => exact congrArg Site.predicate (p.replace_self hnone)
  exact (map_congr_left hsame).trans (map_id sites)

end Placeholders

section Walk
variable {params : List Value}

private theorem mapM_predicate {o : Option Predicate} (h : Covered params (o.toList.map .predicate)) :
    o.mapM (Predicate.mapSlots (bindParams params)) = .ok (o.map (Predicate.replace (paramOf params))) := by
  cases o with
  | none => rfl
  | some p =>
    have hp := h.predicate (p := p) mem_cons_self
    change some <$> p.mapSlots (bindParams params) = _
    rw [hp]
    rfl

private theorem mapM_expressions {es : List Expression} (h : Covered params (es.map .expression)) :
    es.mapM (Expression.mapSlots (bindParams params)) = .ok (es.map (Expression.replace (paramOf params))) :=
  mapM_eq_ok (fun _ he => h.expression (mem_map_of_mem he))

private theorem mapM_clauses {clauses : List (Nat × Expression)}
    (h : Covered params (clauses.map (fun clause => .expression clause.2))) :
    (clauses.mapM (fun clause => do return (clause.1,← clause.2.mapSlots (bindParams params))) :
      Except Error (List (Nat × Expression))) =
      .ok (clauses.map (fun clause => (clause.1,clause.2.replace (paramOf params)))) := by
  refine mapM_eq_ok (fun clause hm => ?_)
  rw [h.expression (mem_map_of_mem (f := fun clause => Site.expression clause.2) hm)]
  rfl

private theorem mapM_joins {joins : List JoinClause} (h : Covered params ((joins.filterMap JoinClause.on).map .predicate)) :
    joins.mapM (JoinClause.mapSlots (bindParams params)) =
      .ok (joins.map (fun j => { j with on := j.on.map (Predicate.replace (paramOf params)) })) := by
  refine mapM_eq_ok (fun j hj => ?_)
  have hon : Covered params (j.on.toList.map .predicate) := by
    refine h.mono (fun site hsite => ?_)
    obtain ⟨p,hp,rfl⟩ := mem_map.mp hsite
    exact mem_map_of_mem (mem_filterMap.mpr ⟨j,hj,mem_toList.mp hp⟩)
  rw [JoinClause.mapSlots,mapM_predicate hon]
  rfl

private theorem map_predicate_toList (o : Option Predicate) (g : Slot → Option Value) :
    (o.map (Predicate.replace g)).toList.map Site.predicate = (o.toList.map Site.predicate).map (Site.replace g) := by
  cases o <;> rfl

private theorem map_expression (es : List Expression) (g : Slot → Option Value) :
    (es.map (Expression.replace g)).map Site.expression = (es.map Site.expression).map (Site.replace g) := by
  rw [List.map_map,List.map_map]
  rfl

private theorem map_on (joins : List JoinClause) (g : Slot → Option Value) :
    ((joins.map (fun j => { j with on := j.on.map (.replace g) })).filterMap JoinClause.on).map Site.predicate =
      ((joins.filterMap JoinClause.on).map Site.predicate).map (.replace g) := by
  rw [List.filterMap_map,List.map_map,List.map_filterMap,List.map_filterMap]
  refine filterMap_congr (fun j _ => ?_)
  cases hj : j.on with
  | none => simp [hj]
  | some p => simp [hj,Site.replace]

mutual

private theorem LogicalPlan.substituteParams_eq (plan : LogicalPlan) (hc : Covered params plan.sites)
    (hr : plan.unreached = []) : ∃ plan', plan.substituteParams params = .ok plan' ∧
      plan'.sites = plan.sites.map (Site.replace (paramOf params)) := by
  cases plan with
  | select block derived scalarSubqueries inSubqueries correlatedSubqueries =>
    simp only [LogicalPlan.unreached,append_eq_nil_iff] at hr
    obtain ⟨⟨⟨⟨hderived,haggregates⟩,hscalar⟩,hin⟩,hcorrelated⟩ := hr
    simp only [LogicalPlan.sites,QueryBlock.plainSites,covered_append] at hc
    obtain ⟨⟨⟨⟨⟨⟨⟨⟨hjoins,hfilter⟩,hhaving⟩,hselect⟩,hd⟩,-⟩,-⟩,-⟩,-⟩ := hc
    obtain ⟨derived',hderived',hsites⟩ := DerivedTable.substituteAll_eq derived hd hderived
    refine ⟨_,by rw [LogicalPlan.substituteParams,hderived',mapM_joins hjoins,mapM_predicate hfilter,
      mapM_predicate hhaving,mapM_expressions hselect]; rfl,?_⟩
    simp only [LogicalPlan.sites,QueryBlock.plainSites,List.map_append,map_on,map_predicate_toList,map_expression,hsites,
      replace_untouched haggregates,replace_untouched hscalar,replace_untouched hin,replace_untouched hcorrelated]
  | insert table rows =>
    have hrows := mapM_eq_ok (fun row (hrow : row ∈ rows) => mapM_expressions (hc.mono (fun _ hsite =>
      map_subset _ (fun _ he => mem_flatten_of_mem hrow he) hsite)))
    refine ⟨_,by rw [LogicalPlan.substituteParams,hrows]; rfl,?_⟩
    simp only [LogicalPlan.sites,← List.map_flatten,map_expression]
  | update table setClauses filter =>
    rw [LogicalPlan.sites,covered_append] at hc
    refine ⟨_,by rw [LogicalPlan.substituteParams,mapM_clauses hc.1,mapM_predicate hc.2]; rfl,?_⟩
    simp only [LogicalPlan.sites,List.map_append,List.map_map,map_predicate_toList]
    rfl
  | delete table filter =>
    refine ⟨_,by rw [LogicalPlan.substituteParams,mapM_predicate hc]; rfl,?_⟩
    simp only [LogicalPlan.sites,map_predicate_toList]
  | explain plan => exact ⟨_,rfl,(replace_untouched hr).symm⟩
  | createTable | createIndex | analyze | beginTxn | commitTxn | abortTxn => exact ⟨_,rfl,rfl⟩

private theorem DerivedTable.substituteParams_eq (d : DerivedTable) (hc : Covered params d.sites)
    (hr : d.unreached = []) : ∃ d', d.substituteParams params = .ok d' ∧
      d'.sites = d.sites.map (Site.replace (paramOf params)) := by
  cases d with
  | mk name plan schema =>
    obtain ⟨plan',hplan,hsites⟩ := plan.substituteParams_eq hc hr
    exact ⟨.mk name plan' schema,by rw [DerivedTable.substituteParams,hplan]; rfl,hsites⟩

private theorem DerivedTable.substituteAll_eq (ds : List DerivedTable) (hc : Covered params (DerivedTable.allSites ds))
    (hr : DerivedTable.allUnreached ds = []) : ∃ ds', DerivedTable.substituteAll params ds = .ok ds' ∧
      DerivedTable.allSites ds' = (DerivedTable.allSites ds).map (Site.replace (paramOf params)) := by
  cases ds with
  | nil => exact ⟨[],rfl,rfl⟩
  | cons d ds =>
    rw [DerivedTable.allUnreached,append_eq_nil_iff] at hr
    rw [DerivedTable.allSites,covered_append] at hc
    obtain ⟨d',hd,hsites⟩ := d.substituteParams_eq hc.1 hr.1
    obtain ⟨ds',hds,hall⟩ := DerivedTable.substituteAll_eq ds hc.2 hr.2
    refine ⟨d'::ds',by rw [DerivedTable.substituteAll,hd,hds]; rfl,?_⟩
    rw [DerivedTable.allSites,DerivedTable.allSites,map_append,hsites,hall]

end

private theorem placeholdersOf_append (a b : List Site) :
    placeholdersOf (a ++ b) = placeholdersOf a ++ placeholdersOf b :=
  flatMap_append

mutual

private theorem LogicalPlan.unreached_subset (plan : LogicalPlan) {plan' : LogicalPlan}
    (h : plan.substituteParams params = .ok plan') : plan.unreached ⊆ plan'.placeholders := by
  cases plan with
  | select block derived scalarSubqueries inSubqueries correlatedSubqueries =>
    rw [LogicalPlan.substituteParams] at h
    obtain ⟨derived',hderived,h⟩ := bind_eq_ok h
    obtain ⟨joins,-,h⟩ := bind_eq_ok h
    obtain ⟨filter,-,h⟩ := bind_eq_ok h
    obtain ⟨having,-,h⟩ := bind_eq_ok h
    obtain ⟨selectList,-,h⟩ := bind_eq_ok h
    cases h
    have hsub := DerivedTable.allUnreached_subset derived hderived
    intro i hi
    simp only [LogicalPlan.unreached,LogicalPlan.placeholders,LogicalPlan.sites,placeholdersOf_append,
      mem_append] at hi ⊢
    have hd : i ∈ DerivedTable.allUnreached derived → i ∈ placeholdersOf (DerivedTable.allSites derived') := @hsub i
    tauto
  | explain plan =>
    cases h
    exact .refl _
  | insert | update | delete | createTable | createIndex | analyze | beginTxn | commitTxn | abortTxn =>
    exact nil_subset _

private theorem DerivedTable.unreached_subset (d : DerivedTable) {d' : DerivedTable}
    (h : d.substituteParams params = .ok d') : d.unreached ⊆ placeholdersOf d'.sites := by
  cases d with
  | mk name plan schema =>
    rw [DerivedTable.substituteParams] at h
    obtain ⟨plan',hplan,h⟩ := bind_eq_ok h
    cases h
    exact plan.unreached_subset hplan

private theorem DerivedTable.allUnreached_subset (ds : List DerivedTable) {ds' : List DerivedTable}
    (h : DerivedTable.substituteAll params ds = .ok ds') :
    DerivedTable.allUnreached ds ⊆ placeholdersOf (DerivedTable.allSites ds') := by
  cases ds with
  | nil => exact nil_subset _
  | cons d ds =>
    rw [DerivedTable.substituteAll] at h
    obtain ⟨d',hd,h⟩ := bind_eq_ok h
    obtain ⟨ds',hds,h⟩ := bind_eq_ok h
    cases h
    rw [DerivedTable.allUnreached,DerivedTable.allSites,placeholdersOf_append]
    exact append_subset.mpr ⟨subset_append_of_subset_left _ (d.unreached_subset hd),
      subset_append_of_subset_right _ (DerivedTable.allUnreached_subset ds hds)⟩

end

end Walk

section Binding

/-- A site after the substitution does on every row what the other does with its placeholders read as parameters,
whatever the values of scalar subqueries and of an outer row. -/
def Site.Reads (params : List Value) : Site → Site → Prop
  | .expression e, .expression e' => ∀ scalars outer,
    e'.compiles ⟨[],scalars,outer⟩ = e.compiles ⟨params,scalars,outer⟩ ∧
      ∀ row, e'.eval ⟨[],scalars,outer⟩ row = e.eval ⟨params,scalars,outer⟩ row
  | .predicate p, .predicate p' => ∀ scalars outer,
    (∀ sets evaluators, p'.compiles ⟨[],scalars,outer⟩ sets evaluators = p.compiles ⟨params,scalars,outer⟩ sets evaluators) ∧
      ∀ sets evaluators row,
        p'.eval ⟨[],scalars,outer⟩ sets evaluators row = p.eval ⟨params,scalars,outer⟩ sets evaluators row
  | _, _ => False

private theorem Site.reads_replace (params : List Value) (site : Site) : site.Reads params (site.replace (paramOf params)) := by
  cases site with
  | expression e =>
    intro scalars outer
    have h : ∀ s ∈ e.slots, _ := fun s _ => paramOf_or params scalars outer s
    exact ⟨e.compiles_replace h,e.eval_replace h⟩
  | predicate p =>
    intro scalars outer
    have h : ∀ s ∈ p.slots, _ := fun s _ => paramOf_or params scalars outer s
    exact ⟨p.compiles_replace h,p.eval_replace h⟩

private theorem Site.slots_replace (site : Site) (g : Slot → Option Value) :
    (site.replace g).slots = site.slots.filter (fun s => (g s).isNone) := by
  cases site with
  | expression e => exact e.slots_replace
  | predicate p => exact p.slots_replace

private theorem placeholders_replaced {params : List Value} {sites : List Site} (hc : Covered params sites) :
    placeholdersOf (sites.map (Site.replace (paramOf params))) = [] := by
  refine flatMap_eq_nil_iff.mpr (fun site' hm => filterMap_eq_nil_iff.mpr (fun s hs => ?_))
  obtain ⟨site,hsite,rfl⟩ := mem_map.mp hm
  rw [Site.slots_replace,mem_filter] at hs
  cases s with
  | parameter i =>
    have hi := hc i (mem_flatMap_of_mem hsite (mem_filterMap.mpr ⟨_,hs.1,rfl⟩))
    rw [paramOf,getElem?_eq_getElem hi] at hs
    cases hs.2
  | subqueryResult slot | outerRef k => rfl

/-- The parameters take the place of all placeholders: none is left, and every expression and condition does what the
original does with the parameters. -/
def LogicalPlan.Binds (params : List Value) (plan : LogicalPlan) : Prop :=
  ∃ plan', plan.substituteParams params = .ok plan' ∧ plan'.placeholders = [] ∧
    List.Forall₂ (Site.Reads params) plan.sites plan'.sites

/-- With a parameter for each placeholder, a statement is bound exactly when the walk reaches all its placeholders. -/
theorem LogicalPlan.prepared_binds_iff (plan : LogicalPlan) (params : List Value)
    (hlong : ∀ i ∈ plan.placeholders, i < params.length) : plan.Binds params ↔ plan.unreached = [] := by
  constructor
  · rintro ⟨plan',hplan,hnone,-⟩
    exact subset_nil.mp (hnone ▸ plan.unreached_subset hplan)
  · intro hreach
    obtain ⟨plan',hplan,hsites⟩ := plan.substituteParams_eq hlong hreach
    refine ⟨plan',hplan,?_,?_⟩
    · rw [placeholders,hsites]
      exact placeholders_replaced hlong
    · rw [hsites,forall₂_map_right_iff]
      exact forall₂_same.mpr (fun site _ => site.reads_replace params)

/-- SELECT with one table and no more than a condition. -/
private def selectFrom (table : String) (filter : Option Predicate) : QueryBlock :=
  ⟨table,[],[],[],[],filter,[],none,none⟩

/-- The column equals the placeholder. -/
private def equalsParam (column i : Nat) : Predicate := .compare .eq (.column column) (.parameter i)

/-- SELECT * FROM (SELECT * FROM t WHERE a = $2) d WHERE a = $1 -/
private def derivedFilter : LogicalPlan :=
  .select (selectFrom "d" (some (equalsParam 0 0)))
    [.mk "d" (.select (selectFrom "t" (some (equalsParam 0 1))) [] [] [] []) [⟨"a",.int32,false,none⟩]] [] [] []

theorem LogicalPlan.prepared_binds_derived : derivedFilter.Binds [.int32 5,.int32 7] :=
  (prepared_binds_iff derivedFilter [.int32 5,.int32 7] (by decide)).mpr (by decide)

/-- SELECT SUM(a + $1) FROM t -/
private def summed : LogicalPlan :=
  .select { selectFrom "t" none with aggregates := [.sum (.binaryOp .add (.column 0) (.parameter 0))] } [] [] [] []

/-- SELECT a FROM t WHERE a = (SELECT MAX(b) FROM u WHERE c = $1) -/
private def compared : LogicalPlan :=
  .select { selectFrom "t" (some (.compare .eq (.column 0) (.subqueryResult 0))) with projection := [0] } []
    [.select { selectFrom "u" (some (equalsParam 1 0)) with aggregates := [.max (.column 0)] } [] [] [] []] [] []

/-- EXPLAIN SELECT * FROM t WHERE a = $1 -/
private def explained : LogicalPlan := .explain (.select (selectFrom "t" (some (equalsParam 0 0))) [] [] [] [])

/-- The placeholders left by one parameter. -/
private def leftOver (plan : LogicalPlan) : Option (List Nat) :=
  (plan.substituteParams [.int32 5]).toOption.map LogicalPlan.placeholders

/-- A placeholder in the argument of an aggregate, in a scalar subquery or under EXPLAIN stays, although its parameter
is there. -/
theorem LogicalPlan.prepared_placeholder_left :
    [summed,compared,explained].map LogicalPlan.placeholders = [[0],[0],[0]] ∧
      [summed,compared,explained].map leftOver = [some [0],some [0],some [0]] := by
  decide

end Binding

end InterchangeDb
