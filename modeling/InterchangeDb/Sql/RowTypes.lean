import InterchangeDb.Sql.StatementSpec
import InterchangeDb.Sql.Volcano

/-! The rows of an operator have the types of its schema, if derived tables declare the types they have. -/
namespace InterchangeDb
open List Option InterchangeDb.Action
open KeyEnc (Fits)

section Statements
variable {R T : Type}
variable {P : R → Prop}

/-- Whatever the calls return, the result is as said. -/
theorem Statement.Keeps.exec {S : Type} {p : Statement R} (hp : p.Keeps .any P (fun _ => True)) {h : Handle S}
    {s s' : S} {r : R} (hr : p.exec h s = some (.ok (r,s'))) : P r := by
  generalize (fun _ : Bytes => True) = held at hp
  induction p generalizing s held with
  | done result =>
    obtain ⟨rfl,-⟩ := ran_ofExcept.mp hr
    exact hp
  | lockForWrite _ _ ih | indexPut _ _ _ ih | indexDelete _ _ _ ih =>
    obtain ⟨_,s₁,-,hr⟩ := ran_bind.mp hr
    exact ih hr _ hp
  | delete _ _ ih | put _ _ _ ih =>
    obtain ⟨_,s₁,-,hr⟩ := ran_bind.mp hr
    exact ih hr _ hp.2
  | get _ _ ih =>
    obtain ⟨v,s₁,-,hr⟩ := ran_bind.mp hr
    exact ih v hr _ (hp v fun _ _ => trivial)
  | scan _ _ _ ih =>
    obtain ⟨v,s₁,-,hr⟩ := ran_bind.mp hr
    exact ih v hr _ (hp v fun _ _ _ => trivial)
  | createIndex _ _ ih | indexScan _ _ _ _ ih =>
    obtain ⟨v,s₁,-,hr⟩ := ran_bind.mp hr
    exact ih v hr _ (hp v)

namespace Table

variable (t : Table)

def HasRow (row : Row) : Prop := Fits row t.schema.columnTypes

variable {t}

theorem hasRow_of_found {row : Row} (h : t.schema.Found .any row) : t.HasRow row := by
  obtain ⟨blob,hdecode,-⟩ := h
  exact Tuple.decode_fits hdecode

theorem insertRows_keeps (rows : List Row) :
    (t.insertRows rows).Keeps .any (fun result => ∀ row ∈ result, Fits row [.int64]) (fun _ => True) :=
  (each_keeps fun row _ => t.insert_keeps (fun _ _ _ _ _ _ _ => trivial) row).bind fun _ _ =>
    forall_mem_singleton.mpr (.cons rfl .nil)

end Table

end Statements

section Rows
variable {S : Type}
variable {row kept : Row} {picked columns : List ColumnDef} {cols : List Nat} {s s' : S} {exprs : List Expression}

theorem fits_append {a b : Row} {ta tb : List ColumnType} (ha : Fits a ta) (hb : Fits b tb) : Fits (a ++ b) (ta ++ tb) :=
  rel_append ha hb

theorem fits_nulls (types : List ColumnType) : Fits (List.replicate types.length .null) types := by
  induction types with
  | nil => exact .nil
  | cons ty types ih => exact .cons (Value.matchesType_null ty) ih

theorem fits_pick {picked : Row} {types ptypes : List ColumnType} (h : Fits row types)
    (hrow : List.Forall₂ (fun c v => row[c]? = some v) cols picked)
    (htypes : List.Forall₂ (fun c ty => types[c]? = some ty) cols ptypes) : Fits picked ptypes := by
  induction hrow generalizing ptypes with
  | nil =>
    cases htypes
    exact .nil
  | cons hv _ ih =>
    cases htypes with
    | cons hty htypes =>
      obtain ⟨hi,rfl⟩ := List.getElem?_eq_some_iff.mp hv
      obtain ⟨hi',rfl⟩ := List.getElem?_eq_some_iff.mp hty
      exact .cons (h.get hi hi') (ih htypes)

theorem types_pick (h : List.Forall₂ (fun c col => columns[c]? = some col) cols picked) :
    List.Forall₂ (fun c ty => (columns.map (·.ty))[c]? = some ty) cols (picked.map (·.ty)) := by
  rw [forall₂_map_right_iff]
  exact h.imp (fun c col hcol => by rw [getElem?_map,hcol,map_some])

theorem keepRow_eq_some {x : ExecContext S} {p : Predicate}
    (h : keepRow x p row s = some (.ok (some kept,s'))) : kept = row := by
  obtain ⟨h,-⟩ := query_eq_some h
  obtain ⟨verdict,-,h⟩ := bind_eq_some_iff.mp h
  split at h
  · cases h
  · split_ifs at h
    · cases h
      rfl
    · cases h

theorem projectRow_fits (hcols : projectedColumns columns cols = .ok picked) (hrow : Fits row (columns.map (·.ty)))
    (h : (projectRow cols row : Action S Error (Option Row)) s = some (.ok (some kept,s'))) :
    Fits kept (picked.map (·.ty)) := by
  obtain ⟨r,hr,hk⟩ := map_eq_some h
  cases hk
  obtain ⟨hr,-⟩ := ran_ofOption.mp hr
  refine fits_pick hrow (mapM_eq_some_iff.mp hr) (types_pick ((mapM_ok_forall₂ hcols).imp (fun c col hcol => ?_)))
  split at hcol
  · cases hcol
    assumption
  · cases hcol

theorem computeColumn_ty {e : Expression} {col : ColumnDef}
    (h : (computeColumn columns e : Action S Error ColumnDef) s = some (.ok (col,s'))) :
    e.columnType (columns.map (·.ty)) = some col.ty := by
  unfold computeColumn at h
  cases hty : e.columnType (columns.map (·.ty)) with
  | none =>
    simp only [hty] at h
    obtain ⟨text,s₁,-,h⟩ := ran_bind.mp h
    cases h
  | some ty =>
    simp only [hty] at h
    split at h
    · obtain ⟨c,s₁,-,h⟩ := ran_bind.mp h
      obtain ⟨rfl,-⟩ := ran_pure.mp h
      rfl
    · obtain ⟨rfl,-⟩ := ran_pure.mp h
      rfl

theorem fits_computed {types : List ColumnType} {values : Row}
    (hrow : Fits row types) (hvalues : List.Forall₂ (fun e v => Expression.eval .empty e row = some v) exprs values)
    (hcolumns : List.Forall₂ (fun e col => Expression.columnType types e = some (ColumnDef.ty col)) exprs columns) :
    Fits values (columns.map (·.ty)) := by
  induction hcolumns generalizing values with
  | nil =>
    cases hvalues
    exact .nil
  | cons hcol _ ih =>
    cases hvalues with
    | cons hv hvalues => exact .cons (Expression.eval_matches _ hcol hrow hv) (ih hvalues)

theorem computeRow_fits {out : List ColumnDef} (hcols : computeOutputColumns columns exprs () = some (.ok (out,())))
    (hrow : Fits row (columns.map (·.ty)))
    (h : (computeRow exprs row : Action S Error (Option Row)) s = some (.ok (some kept,s'))) : Fits kept (out.map (·.ty)) := by
  obtain ⟨r,hr,hk⟩ := map_eq_some h
  cases hk
  refine fits_computed hrow (mapM_eq_some_iff.mp (ran_ofOption.mp hr).1) ((mapM_forall₂ hcols).imp ?_)
  rintro e col ⟨t,t',hcol⟩
  exact computeColumn_ty hcol

end Rows

section Aggregates
variable {S : Type}
variable {arg : Expression} {types : List ColumnType} {ty : ColumnType} {agg : AggregateSpec} {state : AggState}
  {row : Row} {value : Option Value} {scale : Fin 19} {s s' : S} {aggregates : List AggregateSpec}
  {states : List AggState}

/-- A state that ends in values of a type. -/
def AggState.HasType : AggState → ColumnType → Prop
  | .count _, ty => ty = .int64
  | .distinctSet _, ty => ty = .int64
  | .sumInt _, ty => ty = .int64
  | .sumDecimal acc, ty => ∃ precision scale, ty = .decimal precision scale ∧ ∀ d, acc = some d → d.scale = scale
  | .minMaxValue best, ty => ∀ v, best = some v → v.matchesType ty = true
  | .avgInt _ _, ty => ty = .decimal 18 4
  | .avgDecimal acc _, ty => ∃ precision scale, ty = .decimal precision scale ∧ ∀ d, acc = some d → d.scale = scale

theorem requireArgType_eq_ok {label : String}
    (h : AggregateSpec.requireArgType arg types label = .ok ty) : arg.columnType types = some ty := by
  unfold AggregateSpec.requireArgType at h
  split at h
  · cases h
    assumption
  · cases h

theorem AggState.newFor_hasType
    (hnew : AggState.newFor types agg = .ok state) (hty : agg.outputType types = .ok ty) : state.HasType ty := by
  cases agg with
  | countStar =>
    cases hnew
    exact (Except.ok.inj hty).symm
  | count arg distinct =>
    obtain ⟨_,-,hty⟩ := bind_eq_ok hty
    cases hty
    cases distinct <;> cases hnew <;> rfl
  | min arg | max arg =>
    cases hnew
    intro v hv
    cases hv
  | sum arg | avg arg =>
    obtain ⟨a,ha,hnew⟩ := bind_eq_ok hnew
    obtain ⟨b,hb,hty⟩ := bind_eq_ok hty
    cases (requireArgType_eq_ok ha).symm.trans (requireArgType_eq_ok hb)
    cases a with
    | int32 | int64 =>
      cases hnew
      exact (Except.ok.inj hty).symm
    | decimal precision scale =>
      cases hnew
      exact ⟨precision,scale,(Except.ok.inj hty).symm,nofun⟩
    | varchar | char | bytes | timestamp | boolean | date => cases hnew

theorem AggregateSpec.argValue_matches {v : Value} (harg : agg.arg = some arg) (hty : arg.columnType types = some ty)
    (hrow : Fits row types) (h : agg.argValue row = some value) (hv : value = some v) : v.matchesType ty = true := by
  rw [argValue,harg] at h
  obtain ⟨w,hw,rfl⟩ := map_eq_some_iff.mp h
  cases hv
  exact arg.eval_matches hty hrow hw

private theorem decimalSum_scale {acc : Option Decimal} {d sum : Decimal} {name : String}
    (hacc : ∀ a, acc = some a → a.scale = scale) (hd : d.scale = scale) (h : decimalSum acc d name = .ok sum) :
    sum.scale = scale := by
  cases acc with
  | none =>
    cases h
    exact hd
  | some prev =>
    rw [decimalSum] at h
    split at h
    · next total htotal =>
      cases h
      exact (Decimal.add_scale htotal).2.trans (hacc prev rfl)
    · cases h

private theorem updateMinMax_hasType {wantSmaller : Bool} {best : Option Value}
    (hbest : ∀ v, best = some v → v.matchesType ty = true) (hvalue : ∀ v, value = some v → v.matchesType ty = true)
    (h : (AggState.updateMinMax wantSmaller best value : Action S Error AggState) s = some (.ok (state,s'))) :
    state.HasType ty := by
  unfold AggState.updateMinMax at h
  split at h
  · obtain ⟨rfl,-⟩ := ran_pure.mp h
    exact hbest
  · obtain ⟨rfl,-⟩ := ran_pure.mp h
    exact hbest
  · next v _ =>
    split at h
    · obtain ⟨rfl,-⟩ := ran_pure.mp h
      exact hvalue
    · next prev =>
      obtain ⟨w,s₁,hw,h⟩ := ran_bind.mp h
      obtain ⟨hw,-⟩ := ran_ofOption.mp hw
      obtain ⟨rfl,-⟩ := ran_pure.mp h
      obtain ⟨ord,-,rfl⟩ := map_eq_some_iff.mp hw
      intro u hu
      cases hu
      rcases ite_eq_or_eq (ord = if wantSmaller then .gt else .lt) v prev with hpick | hpick
      · rw [hpick]
        exact hvalue v rfl
      · rw [hpick]
        exact hbest prev rfl

private theorem decimalArg_eq_some {name : String} {d : Decimal}
    (h : AggState.decimalArg name value = .ok (some d)) : value = some (.decimal d) := by
  unfold AggState.decimalArg at h
  split at h <;> cases h
  rfl

private theorem addend_scale {d : Decimal} {precision : Fin 256} (hagg : agg = .sum arg ∨ agg = .avg arg)
    (hty : agg.outputType types = .ok (.decimal precision scale)) (hrow : Fits row types)
    (hvalue : agg.argValue row = some (some (.decimal d))) : d.scale = scale := by
  have harg : agg.arg = some arg := by
    rcases hagg with rfl | rfl <;> rfl
  obtain ⟨ty,hargTy,hout⟩ : ∃ ty, arg.columnType types = some ty ∧
      ∀ p s, ty = .decimal p s → ColumnType.decimal precision scale = .decimal p s := by
    rcases hagg with rfl | rfl
    all_goals
      obtain ⟨ty,ha,hty⟩ := bind_eq_ok hty
      refine ⟨ty,requireArgType_eq_ok ha,fun p s h => ?_⟩
      subst h
      exact (Except.ok.inj hty).symm
  have hmatches := AggregateSpec.argValue_matches harg hargTy hrow hvalue rfl
  cases ty with
  | decimal p s =>
    cases hout p s rfl
    exact of_decide_eq_true hmatches
  | int32 | int64 | varchar | char | bytes | timestamp | boolean | date => cases hmatches

theorem AggState.update_hasType {state' : AggState} (hty : agg.outputType types = .ok ty) (hrow : Fits row types)
    (hvalue : agg.argValue row = some value) (hstate : state.HasType ty)
    (h : (state.update agg value : Action S Error AggState) s = some (.ok (state',s'))) : state'.HasType ty := by
  unfold update at h
  split at h
  case h_1 | h_2 | h_3 =>
    obtain ⟨rfl,-⟩ := ran_pure.mp h
    exact hstate
  case h_4 | h_8 =>
    obtain ⟨n,s₁,-,h⟩ := ran_bind.mp h
    cases n with
    | none =>
      obtain ⟨rfl,-⟩ := ran_pure.mp h
      exact hstate
    | some n =>
      obtain ⟨sum,s₂,-,h⟩ := ran_bind.mp h
      obtain ⟨rfl,-⟩ := ran_pure.mp h
      exact hstate
  case h_5 arg acc | h_9 arg acc k =>
    obtain ⟨d,s₁,hd,h⟩ := ran_bind.mp h
    cases d with
    | none =>
      obtain ⟨rfl,-⟩ := ran_pure.mp h
      exact hstate
    | some d =>
      obtain ⟨sum,s₂,hsum,h⟩ := ran_bind.mp h
      obtain ⟨rfl,-⟩ := ran_pure.mp h
      obtain ⟨precision,scale,rfl,hacc⟩ := hstate
      obtain ⟨hsum,-⟩ := ran_ofExcept.mp hsum
      have hd := decimalArg_eq_some (ran_ofExcept.mp hd).1
      refine ⟨precision,scale,rfl,fun d' hd' => ?_⟩
      cases hd'
      refine decimalSum_scale hacc ?_ hsum
      subst hd
      exact addend_scale (by first | exact .inl rfl | exact .inr rfl) hty hrow hvalue
  case h_6 arg best | h_7 arg best =>
    exact updateMinMax_hasType hstate (fun v hv =>
      AggregateSpec.argValue_matches rfl (requireArgType_eq_ok hty) hrow hvalue hv) h
  case h_10 => cases h

theorem AggState.finalize_matches {v : Value}
    (hstate : state.HasType ty) (h : (state.finalize agg : Action S Error Value) s = some (.ok (v,s'))) :
    v.matchesType ty = true := by
  unfold finalize at h
  split at h
  case h_1 | h_2 | h_3 =>
    obtain ⟨rfl,-⟩ := ran_pure.mp h
    cases hstate
    rfl
  case h_4 arg acc =>
    obtain ⟨rfl,-⟩ := ran_pure.mp h
    cases hstate
    cases acc <;> rfl
  case h_5 arg acc =>
    obtain ⟨rfl,-⟩ := ran_pure.mp h
    obtain ⟨precision,scale,rfl,hacc⟩ := hstate
    cases acc with
    | none => rfl
    | some d => exact decide_eq_true (hacc d rfl)
  case h_6 arg best | h_7 arg best =>
    obtain ⟨rfl,-⟩ := ran_pure.mp h
    cases best with
    | none => exact Value.matchesType_null ty
    | some w => exact hstate w rfl
  case h_8 | h_10 =>
    obtain ⟨rfl,-⟩ := ran_pure.mp h
    exact Value.matchesType_null ty
  case h_9 arg sum k =>
    cases hstate
    split_ifs at h
    · obtain ⟨rfl,-⟩ := ran_pure.mp h
      rfl
    · obtain ⟨h,-⟩ := ran_ofExcept.mp h
      simp only [averageInt] at h
      split at h
      · cases h
        rfl
      · cases h
  case h_11 arg d k =>
    obtain ⟨precision,scale,rfl,hacc⟩ := hstate
    split_ifs at h
    · obtain ⟨rfl,-⟩ := ran_pure.mp h
      rfl
    · obtain ⟨rfl,-⟩ := ran_pure.mp h
      exact decide_eq_true (hacc d rfl)
  case h_12 => cases h

def StatesTyped (types : List ColumnType) (aggregates : List AggregateSpec) (states : List AggState) : Prop :=
  List.Forall₂ (fun agg state => ∀ ty, agg.outputType types = .ok ty → AggState.HasType state ty) aggregates states

theorem newStates_typed (h : newStates types aggregates = .ok states) : StatesTyped types aggregates states :=
  (mapM_ok_forall₂ h).imp (fun _ _ hnew _ hty => AggState.newFor_hasType hnew hty)

theorem updateStates_typed {states' : List AggState} (hstates : StatesTyped types aggregates states)
    (hrow : Fits row types)
    (h : (updateStates row aggregates states : Action S Error (List AggState)) s = some (.ok (states',s'))) :
    StatesTyped types aggregates states' := by
  induction hstates generalizing states' s with
  | nil =>
    obtain ⟨rfl,-⟩ := ran_pure.mp h
    exact .nil
  | cons hstate _ ih =>
    obtain ⟨value,s₁,hvalue,h⟩ := ran_bind.mp h
    obtain ⟨state,s₂,hupdate,h⟩ := ran_bind.mp h
    obtain ⟨rest,s₃,hrest,h⟩ := ran_bind.mp h
    obtain ⟨rfl,rfl⟩ := ran_pure.mp h
    refine .cons (fun ty hty => ?_) (ih hrest)
    exact AggState.update_hasType hty hrow (ran_ofOption.mp hvalue).1 (hstate ty hty) hupdate

def OutputTypes (types : List ColumnType) : List AggregateSpec → List ColumnType → Prop :=
  List.Forall₂ (fun agg ty => agg.outputType types = .ok ty)

theorem finalizeStates_fits {outs : List ColumnType} {values : Row} (hstates : StatesTyped types aggregates states)
    (houts : OutputTypes types aggregates outs)
    (h : (finalizeStates aggregates states : Action S Error (List Value)) s = some (.ok (values,s'))) : Fits values outs := by
  induction hstates generalizing outs values s with
  | nil =>
    cases houts
    obtain ⟨rfl,-⟩ := ran_pure.mp h
    exact .nil
  | cons hstate _ ih =>
    cases houts with
    | cons hout houts =>
      obtain ⟨value,s₁,hvalue,h⟩ := ran_bind.mp h
      obtain ⟨rest,s₂,hrest,h⟩ := ran_bind.mp h
      obtain ⟨rfl,rfl⟩ := ran_pure.mp h
      exact .cons (AggState.finalize_matches (hstate _ hout) hvalue) (ih houts hrest)

/-- Groups with keys and states of their types, no two with one key. -/
structure GroupsTyped (types keyTypes : List ColumnType) (aggregates : List AggregateSpec) (groups : List Group) : Prop where
  keys : ∀ g ∈ groups, Fits g.1 keyTypes
  states : ∀ g ∈ groups, StatesTyped types aggregates g.2
  nodup : (groups.map (·.1)).Nodup

theorem setStates_keys (key : List Value) (states : List AggState) (groups : List Group) :
    (setStates key states groups).map (·.1) = groups.map (·.1) := by
  induction groups with
  | nil => rfl
  | cons g groups ih =>
    unfold setStates
    split_ifs with hg
    · rw [map_cons,map_cons,hg]
    · rw [map_cons,map_cons,ih]

theorem mem_setStates {key : List Value} {groups : List Group} {g : Group} (hnodup : (groups.map (·.1)).Nodup)
    (h : g ∈ setStates key states groups) : g ∈ groups ∧ g.1 ≠ key ∨ g = (key,states) := by
  induction groups with
  | nil => cases h
  | cons g' groups ih =>
    obtain ⟨hfresh,hnodup⟩ := nodup_cons.mp hnodup
    unfold setStates at h
    split_ifs at h with hkey
    · rcases mem_cons.mp h with rfl | h
      · exact .inr rfl
      · exact .inl ⟨mem_cons_of_mem _ h,fun heq => hfresh (mem_map.mpr ⟨g,h,heq.trans hkey.symm⟩)⟩
    · rcases mem_cons.mp h with rfl | h
      · exact .inl ⟨mem_cons_self,hkey⟩
      · exact (ih hnodup h).imp_left (.imp_left (mem_cons_of_mem _))

theorem groupRow_typed {keyTypes : List ColumnType} {groupBy : List Nat} {groups groups' : List Group}
    (hkeys : List.Forall₂ (fun c ty => types[c]? = some ty) groupBy keyTypes)
    (hgroups : GroupsTyped types keyTypes aggregates groups) (hrow : Fits row types)
    (h : (groupRow types groupBy aggregates groups row : Action S Error (List Group)) s = some (.ok (groups',s'))) :
    GroupsTyped types keyTypes aggregates groups' := by
  obtain ⟨key,s₁,hkey,h⟩ := ran_bind.mp h
  have hkeyFits : Fits key keyTypes := fits_pick hrow (mapM_eq_some_iff.mp (ran_ofOption.mp hkey).1) hkeys
  cases hfind : groups.find? (fun g => decide (g.1 = key)) with
  | some g =>
    simp only [hfind] at h
    obtain ⟨states,s₂,hstates,h⟩ := ran_bind.mp h
    obtain ⟨rfl,-⟩ := ran_pure.mp h
    have htyped := updateStates_typed (hgroups.states g (mem_of_find?_eq_some hfind)) hrow hstates
    refine ⟨fun g' hg' => ?_,fun g' hg' => ?_,setStates_keys key states groups ▸ hgroups.nodup⟩
    · rcases mem_setStates hgroups.nodup hg' with ⟨hg',-⟩ | rfl
      · exact hgroups.keys g' hg'
      · exact hkeyFits
    · rcases mem_setStates hgroups.nodup hg' with ⟨hg',-⟩ | rfl
      · exact hgroups.states g' hg'
      · exact htyped
  | none =>
    simp only [hfind] at h
    obtain ⟨_,s₂,-,h⟩ := ran_bind.mp h
    obtain ⟨fresh,s₃,hfresh,h⟩ := ran_bind.mp h
    obtain ⟨states,s₄,hstates,h⟩ := ran_bind.mp h
    obtain ⟨rfl,-⟩ := ran_pure.mp h
    have htyped := updateStates_typed (newStates_typed (ran_ofExcept.mp hfresh).1) hrow hstates
    refine ⟨forall_mem_append.mpr ⟨hgroups.keys,forall_mem_singleton.mpr hkeyFits⟩,
      forall_mem_append.mpr ⟨hgroups.states,forall_mem_singleton.mpr htyped⟩,?_⟩
    · rw [map_append,nodup_append']
      refine ⟨hgroups.nodup,nodup_singleton _,?_⟩
      rw [map_singleton,disjoint_singleton]
      intro hmem
      obtain ⟨g,hg,hgkey⟩ := mem_map.mp hmem
      exact absurd (decide_eq_true hgkey) (find?_eq_none.mp hfind g hg)

end Aggregates

section Joins
variable {S : Type} {ta tb : List ColumnType}
variable {rows : List Row}

theorem joinMatches_fits {kind : JoinKind} {rightWidth : Nat} {passes : Row → Option Bool} {outer : Row}
    (houter : Fits outer ta) (hwidth : rightWidth = tb.length) (hrows : ∀ row ∈ rows, Fits row tb) (matched : Bool) :
    (joinMatches kind rightWidth passes outer rows matched : Stream S Error Row).All (Fits · (ta ++ tb)) := by
  induction rows generalizing matched with
  | nil =>
    unfold joinMatches
    split_ifs
    · exact ⟨fits_append houter (hwidth ▸ fits_nulls tb),trivial⟩
    · trivial
  | cons inner rows ih =>
    obtain ⟨hinner,hrows⟩ := forall_mem_cons.mp hrows
    unfold joinMatches
    split
    · trivial
    · exact ⟨fits_append houter hinner,ih hrows true⟩
    · exact ih hrows matched

theorem hashRow_fits {innerKeyCol : Nat} {table table' : List (Value × Row)} {row : Row} {s s' : S}
    (htable : ∀ entry ∈ table, Fits entry.2 tb) (hrow : Fits row tb)
    (h : (hashRow innerKeyCol table row : Action S Error (List (Value × Row))) s = some (.ok (table',s'))) :
    ∀ entry ∈ table', Fits entry.2 tb := by
  obtain ⟨key,s₁,-,h⟩ := ran_bind.mp h
  obtain ⟨rfl,-⟩ := ran_pure.mp h
  split_ifs
  · exact htable
  · exact forall_mem_append.mpr ⟨htable,forall_mem_singleton.mpr hrow⟩

theorem hashCandidates_fits {table : List (Value × Row)} (htable : ∀ entry ∈ table, Fits entry.2 tb) (key : Value) :
    ∀ row ∈ hashCandidates table key, Fits row tb := by
  unfold hashCandidates
  split_ifs
  · exact forall_mem_nil _
  · intro row hrow
    obtain ⟨entry,hentry,rfl⟩ := mem_map.mp hrow
    exact htable entry (mem_filter.mp hentry).1

private theorem recheckRows_subset {cols : List Nat} {lead : List Value} {kept : List Row}
    (h : recheckRows cols lead rows = some kept) : ∀ row ∈ kept, row ∈ rows := by
  induction rows generalizing kept with
  | nil =>
    cases h
    exact fun row hrow => hrow
  | cons r rows ih =>
    obtain ⟨found,-,h⟩ := bind_eq_some_iff.mp h
    obtain ⟨rest,hrest,h⟩ := bind_eq_some_iff.mp h
    cases h
    intro row hrow
    cases found with
    | false => exact mem_cons_of_mem _ (ih hrest row hrow)
    | true => exact mem_cons.mpr ((mem_cons.mp hrow).imp_right (ih hrest row))

theorem probeIndex_fits {x : ExecContext S} {t : Table} {ix : IndexHandle} {outerKeyCols : List Nat} {row : Row}
    {s s' : S} (h : probeIndex x t ix outerKeyCols row s = some (.ok (rows,s'))) :
    ∀ r ∈ rows, t.HasRow r := by
  obtain ⟨lead,s₁,-,h⟩ := ran_bind.mp h
  cases lead with
  | none =>
    obtain ⟨rfl,-⟩ := ran_pure.mp h
    exact forall_mem_nil _
  | some lead =>
    obtain ⟨found,s₂,hfound,h⟩ := ran_bind.mp h
    obtain ⟨h,-⟩ := ran_ofOption.mp h
    exact fun r hr => Table.hasRow_of_found ((t.indexScan_keeps ix lead).exec hfound r (recheckRows_subset h r hr))

theorem concat_types (outer inner : RowSchema) (rightNullable : Bool) :
    (outer.concat inner rightNullable).types = outer.types ++ inner.types := by
  simp only [RowSchema.types,RowSchema.concat,List.map_append,List.map_map]
  rfl

end Joins

section Merge
variable {S : Type} {ta tb : List ColumnType}
variable {right : Stream S Error Row} {last : Option Value}

/-- The rows a merge join holds from its right side, and those to come. -/
structure MergeState.Typed (tb : List ColumnType) (m : MergeState S) : Prop where
  run : ∀ row ∈ m.run, Fits row tb
  pending : ∀ row, m.pending = some row → Fits row tb
  right : m.right.All (Fits · tb)

variable {keyCol : Nat} {target : Value} {next : MergeState S → Stream S Error Row} {P : Row → Prop}

theorem collectRun_all (hnext : ∀ m, m.Typed tb → (next m).All P)
    {run : List Row} (hright : right.All (Fits · tb)) (hrun : ∀ row ∈ run, Fits row tb) :
    (collectRun keyCol target next right last run).All P := by
  induction right generalizing last run with
  | done => exact hnext _ ⟨hrun,nofun,trivial⟩
  | fail | crash => trivial
  | read f ih => exact fun s => ih s (hright s) hrun
  | write s rest ih => exact ih hright hrun
  | yield row rest ih =>
    unfold collectRun
    split
    · trivial
    · split_ifs
      · exact ih hright.2 (forall_mem_append.mpr ⟨hrun,forall_mem_singleton.mpr hright.1⟩)
      · refine hnext _ ⟨hrun,fun r h => ?_,hright.2⟩
        cases h
        exact hright.1
      · trivial

private theorem parked {row : Row} (hrow : Fits row tb)
    (hright : right.All (Fits · tb)) : MergeState.Typed tb ⟨[],none,some row,right,last⟩ :=
  ⟨forall_mem_nil _,fun _ h => some.inj h ▸ hrow,hright⟩

theorem findRun_all (hnext : ∀ m, m.Typed tb → (next m).All P)
    (hright : right.All (Fits · tb)) : (findRun keyCol target next right last).All P := by
  induction right generalizing last with
  | done => exact hnext _ ⟨forall_mem_nil _,nofun,trivial⟩
  | fail | crash => trivial
  | read f ih => exact fun s => ih s (hright s)
  | write s rest ih => exact ih hright
  | yield row rest ih =>
    unfold findRun
    split
    · trivial
    · split_ifs
      · exact ih hright.2
      · split
        · exact hnext _ (parked hright.1 hright.2)
        · exact collectRun_all hnext hright.2 (forall_mem_singleton.mpr hright.1)
        · exact ih hright.2
      · trivial

theorem buildRun_all (hnext : ∀ m, m.Typed tb → (next m).All P) {m : MergeState S} (hm : m.Typed tb) :
    (buildRun keyCol target m next).All P := by
  unfold buildRun
  split
  · exact findRun_all hnext hm.right
  · next row hrow =>
    split
    · trivial
    · split_ifs
      · exact findRun_all hnext hm.right
      · split
        · exact hnext _ (parked (hm.pending row hrow) hm.right)
        · exact collectRun_all hnext hm.right (forall_mem_singleton.mpr (hm.pending row hrow))
        · exact findRun_all hnext hm.right

theorem mergeRows_fits {leftKeyCol rightKeyCol : Nat} {left : Stream S Error Row} {m : MergeState S}
    (hleft : left.All (Fits · ta)) (hm : m.Typed tb) :
    (mergeRows leftKeyCol rightKeyCol left last m).All (Fits · (ta ++ tb)) := by
  induction left generalizing last m with
  | done | fail | crash => trivial
  | read f ih => exact fun s => ih s (hleft s) hm
  | write s rest ih => exact ih hleft hm
  | yield row rest ih =>
    have hemit : ∀ last m, MergeState.Typed tb m → ((Stream.ofList (m.run.map (row ++ ·))).append
        (mergeRows leftKeyCol rightKeyCol rest last m)).All (Fits · (ta ++ tb)) := by
      intro last m hm
      refine (Stream.All.ofList (fun r hr => ?_)).append (ih hleft.2 hm)
      obtain ⟨inner,hinner,rfl⟩ := mem_map.mp hr
      exact fits_append hleft.1 (hm.run inner hinner)
    unfold mergeRows
    split
    · trivial
    · dsimp only
      split_ifs
      · exact ih hleft.2 hm
      · split
        · exact buildRun_all (hemit _) hm
        · split
          · exact hemit _ m hm
          · exact ih hleft.2 hm
          · exact buildRun_all (hemit _) hm
      · trivial

end Merge

section Plans
variable {S : Type}
variable {types keyTypes outs : List ColumnType} {groupBy : List Nat} {aggregates : List AggregateSpec}
  {order : HashOrder} {input : Stream S Error Row}

/-- Every derived table declares the types of the subplan it is built from. -/
def PhysOp.Honest (x : ExecContext S) : PhysOp → Prop
  | .derivedScan _ subplan schema => subplan.Honest x ∧ ∀ orders s op s',
      Volcano.build x subplan orders s = some (.ok (op,s')) → op.schema.types = schema.map (·.ty)
  | .filter input _ => input.Honest x
  | .projection input _ => input.Honest x
  | .compute input _ => input.Honest x
  | .nestedLoopJoin outer inner _ _ => outer.Honest x ∧ inner.Honest x
  | .indexNestedLoopJoin outer _ _ _ => outer.Honest x
  | .hashJoin outer inner _ _ _ _ => outer.Honest x ∧ inner.Honest x
  | .mergeJoin left right _ _ => left.Honest x ∧ right.Honest x
  | .hashAggregate input _ _ => input.Honest x
  | .sort input _ => input.Honest x
  | .limit input _ => input.Honest x
  | .update _ input _ => input.Honest x
  | .delete _ input => input.Honest x
  | _ => True

/-- The rows of an operator have the types of its schema. -/
def Operator.Typed (op : Operator S) : Prop := op.rows.All (Fits · op.schema.types)

private theorem affected_fits (n : Nat) : ∀ row ∈ Table.affected n, Fits row [.int64] :=
  forall_mem_singleton.mpr (.cons rfl .nil)

private theorem buffered {rows rows' : List Row} {row : Row} (hrows : ∀ r ∈ rows, Fits r types)
    (hrow : Fits row types) (h : rows' = rows ++ [row]) : ∀ r ∈ rows', Fits r types :=
  h ▸ forall_mem_append.mpr ⟨hrows,forall_mem_singleton.mpr hrow⟩

theorem aggregateOutputColumns_types {columns out : List ColumnDef}
    (h : aggregateOutputColumns columns groupBy aggregates () = some (.ok (out,()))) :
    ∃ keyTypes outs, List.Forall₂ (fun c ty => (columns.map (·.ty))[c]? = some ty) groupBy keyTypes ∧
      OutputTypes (columns.map (·.ty)) aggregates outs ∧ out.map (·.ty) = keyTypes ++ outs := by
  obtain ⟨keys,s₁,hkeys,h⟩ := ran_bind.mp h
  obtain ⟨results,s₂,hresults,h⟩ := ran_bind.mp h
  obtain ⟨rfl,-⟩ := ran_pure.mp h
  refine ⟨keys.map (·.ty),results.map (·.ty),types_pick (mapM_eq_some_iff.mp (ran_ofOption.mp hkeys).1),?_,
    map_append⟩
  rw [OutputTypes,forall₂_map_right_iff]
  refine (mapM_forall₂ hresults).imp ?_
  rintro agg col ⟨t,t',hcol⟩
  obtain ⟨name,t₁,-,hcol⟩ := ran_bind.mp hcol
  obtain ⟨ty,t₂,hty,hcol⟩ := ran_bind.mp hcol
  obtain ⟨rfl,-⟩ := ran_pure.mp hcol
  exact (ran_ofExcept.mp hty).1

theorem finalizeGroup_fits {g : Group} {row : Row}
    {s s' : S} (hkey : Fits g.1 keyTypes) (hstates : StatesTyped types aggregates g.2)
    (houts : OutputTypes types aggregates outs)
    (h : (finalizeGroup aggregates g : Action S Error Row) s = some (.ok (row,s'))) : Fits row (keyTypes ++ outs) := by
  obtain ⟨values,s₁,hvalues,h⟩ := ran_bind.mp h
  obtain ⟨rfl,-⟩ := ran_pure.mp h
  exact fits_append hkey (finalizeStates_fits hstates houts hvalues)

theorem HashOrder.mem_sorted {groups sorted : List Group} (h : order.sorted groups = some sorted)
    {g : Group} (hg : g ∈ sorted) : g ∈ groups :=
  (order.perm groups).mem_iff.mp ((sortBy_perm h).mem_iff.mp hg)

private theorem ungrouped_fits (hinput : input.All (Fits · types))
    (houts : OutputTypes types aggregates outs) :
    (ungrouped types aggregates input).All (Fits · outs) := by
  refine .ofAction (fun s states s' hstates => ?_)
  refine hinput.gather (I := StatesTyped types aggregates)
    (fun states row s states' s' hst hrow h => updateStates_typed hst hrow h) (fun states hst => ?_)
    (newStates_typed (ran_ofExcept.mp hstates).1)
  refine .ofAction (fun s row s' hrow => .ofList (forall_mem_singleton.mpr ?_))
  exact finalizeStates_fits hst houts hrow

private theorem grouped_fits (hinput : input.All (Fits · types))
    (hkeys : List.Forall₂ (fun c ty => types[c]? = some ty) groupBy keyTypes)
    (houts : OutputTypes types aggregates outs) :
    (grouped order types groupBy aggregates input).All (Fits · (keyTypes ++ outs)) := by
  refine hinput.gather (I := GroupsTyped types keyTypes aggregates)
    (fun groups row s groups' s' hg hrow h => groupRow_typed hkeys hg hrow h) (fun groups hg => ?_)
    ⟨forall_mem_nil _,forall_mem_nil _,nodup_nil⟩
  unfold emitGroups
  split
  · trivial
  next sorted hsorted =>
  refine .ofOutcome (fun rows hrows row hrow => ?_)
  obtain ⟨g,hgmem,t,t',hfin⟩ := mapM_mem (outcome_eq_some hrows) hrow
  have hgroup := order.mem_sorted hsorted hgmem
  exact finalizeGroup_fits (hg.keys g hgroup) (hg.states g hgroup) houts hfin

theorem Volcano.build_typed {x : ExecContext S} {plan : PhysOp} (hplan : plan.Honest x) {orders : HashOrders} {s s' : S}
    {op : Operator S} (h : Volcano.build x plan orders s = some (.ok (op,s'))) : op.Typed := by
  induction plan generalizing orders s s' op with simp only [build,ran_bind,ran_pure] at h
  | seqScan table =>
    obtain ⟨t,s₁,-,rows,s₂,hrows,rfl,-⟩ := h
    exact .ofList (fun r hr => Table.hasRow_of_found (t.scan_keeps.exec hrows r hr))
  | indexScan table index lead =>
    obtain ⟨t,s₁,-,ix,s₂,-,rows,s₃,hrows,rfl,-⟩ := h
    exact .ofList (fun r hr => Table.hasRow_of_found ((t.indexScan_keeps ix lead).exec hrows r hr))
  | pkLookup table pk =>
    obtain ⟨t,s₁,-,row,s₂,hrow,rfl,-⟩ := h
    exact .ofList (fun r hr => Table.hasRow_of_found ((t.getByPk_keeps pk).exec hrow r hr))
  | derivedScan name subplan schema ih =>
    obtain ⟨child,s₁,hchild,rfl,-⟩ := h
    have htypes := hplan.2 _ _ _ _ hchild
    refine (ih hplan.1 hchild).gather (I := fun rows => ∀ row ∈ rows, Fits row child.schema.types)
      (fun rows row s rows' s' hrows hrow h => ?_) (fun rows hrows => ?_) (forall_mem_nil _)
    · obtain ⟨_,s₂,-,h⟩ := ran_bind.mp h
      exact buffered hrows hrow (ran_pure.mp h).1.symm
    · refine .ofList (fun row hrow => ?_)
      change Fits row (schema.map (·.ty))
      exact htypes ▸ hrows row hrow
  | filter input predicate ih =>
    obtain ⟨child,s₁,hchild,_,s₂,-,rfl,-⟩ := h
    exact (ih hplan hchild).filterMap (fun row s kept s' hrow hk => keepRow_eq_some hk ▸ hrow)
  | projection input cols ih =>
    obtain ⟨child,s₁,hchild,columns,s₂,hcolumns,rfl,-⟩ := h
    obtain ⟨hcolumns,-⟩ := ran_ofExcept.mp hcolumns
    exact (ih hplan hchild).filterMap (fun row s kept s' hrow hk => projectRow_fits hcolumns hrow hk)
  | compute input exprs ih =>
    obtain ⟨child,s₁,hchild,columns,s₂,hcolumns,_,s₃,-,rfl,-⟩ := h
    exact (ih hplan hchild).filterMap (fun row s kept s' hrow hk => computeRow_fits (ran_lift.mp hcolumns).1 hrow hk)
  | nestedLoopJoin outer inner on kind ihOuter ihInner =>
    obtain ⟨outerOp,s₁,houter,innerOp,s₂,hinner,_,s₃,-,innerRows,s₄,hrows,rfl,-⟩ := h
    unfold Operator.Typed
    rw [concat_types]
    refine (ihOuter hplan.1 houter).flatMap (fun row hrow => ?_)
    exact joinMatches_fits hrow (length_map _).symm ((ihInner hplan.2 hinner).collect hrows) false
  | indexNestedLoopJoin outer innerTable innerIndex outerKeyCols ih =>
    obtain ⟨outerOp,s₁,houter,t,s₂,-,ix,s₃,-,h⟩ := h
    split_ifs at h
    · cases h
    · obtain ⟨rfl,-⟩ := ran_pure.mp h
      unfold Operator.Typed
      rw [concat_types]
      refine (ih hplan houter).flatMap (fun row hrow => .ofAction (fun s rows s' hrows => ?_))
      refine .ofList (fun joined hjoined => ?_)
      obtain ⟨inner,hinner,rfl⟩ := mem_map.mp hjoined
      exact fits_append hrow (probeIndex_fits hrows inner hinner)
  | hashJoin outer inner outerKeyCol innerKeyCol kind residual ihOuter ihInner =>
    obtain ⟨outerOp,s₁,houter,innerOp,s₂,hinner,_,s₃,-,table,s₄,htable,rfl,-⟩ := h
    have hentries : ∀ entry ∈ table, Fits entry.2 innerOp.schema.types :=
      (ihInner hplan.2 hinner).fold (fun table row s table' s' hg hrow h => hashRow_fits hg hrow h)
        (forall_mem_nil _) htable
    unfold Operator.Typed
    rw [concat_types]
    refine (ihOuter hplan.1 houter).flatMap (fun row hrow => ?_)
    split
    · trivial
    · exact joinMatches_fits hrow (length_map _).symm (hashCandidates_fits hentries _) false
  | mergeJoin left right leftKeyCol rightKeyCol ihLeft ihRight =>
    obtain ⟨leftOp,s₁,hleft,rightOp,s₂,hright,_,s₃,-,_,s₄,-,rfl,-⟩ := h
    unfold Operator.Typed
    rw [concat_types]
    exact mergeRows_fits (ihLeft hplan.1 hleft)
      ⟨forall_mem_nil _,nofun,ihRight hplan.2 hright⟩
  | hashAggregate input groupBy aggregates ih =>
    obtain ⟨child,s₁,hchild,h⟩ := h
    split at h
    · cases h
    · simp only [ran_bind,ran_pure] at h
      obtain ⟨_,s₂,-,columns,s₃,hcolumns,_,s₄,-,rfl,-⟩ := h
      obtain ⟨keyTypes,outs,hkeys,houts,htypes⟩ := aggregateOutputColumns_types (ran_lift.mp hcolumns).1
      change Stream.All (Fits · (columns.map (·.ty))) _
      rw [htypes]
      split_ifs with hempty
      · cases isEmpty_iff.mp hempty
        cases hkeys
        exact ungrouped_fits (ih hplan hchild) houts
      · exact grouped_fits (ih hplan hchild) hkeys houts
  | sort input keys ih =>
    obtain ⟨child,s₁,hchild,h⟩ := h
    split_ifs at h
    · cases h
    · obtain ⟨rfl,-⟩ := ran_pure.mp h
      refine (ih hplan hchild).gather (I := fun rows => ∀ row ∈ rows, Fits row child.schema.types)
        (fun rows row s rows' s' hrows hrow h => buffered hrows hrow (ran_pure.mp h).1.symm) (fun rows hrows => ?_)
        (forall_mem_nil _)
      refine .ofAction (fun s sorted s' hsorted => .ofList (fun row hrow => ?_))
      exact hrows row ((sortBy_perm (ran_ofOption.mp hsorted).1).mem_iff.mp hrow)
  | limit input maxRows ih =>
    obtain ⟨child,s₁,hchild,rfl,-⟩ := h
    exact (ih hplan hchild).take maxRows
  | insert table rows =>
    obtain ⟨t,s₁,-,rfl,-⟩ := h
    exact .ofAction (fun s result s' hresult => .ofList (Table.insertRows_keeps rows |>.exec hresult))
  | update table input set ih =>
    obtain ⟨t,s₁,-,child,s₂,hchild,_,s₃,-,rfl,-⟩ := h
    exact (ih hplan hchild).gather (I := fun _ => True) (fun _ _ _ _ _ _ _ _ => trivial)
      (fun staged _ => .ofAction (fun _ _ _ _ => .ofList (affected_fits _))) trivial
  | delete table input ih =>
    obtain ⟨t,s₁,-,child,s₂,hchild,rfl,-⟩ := h
    exact (ih hplan hchild).gather (I := fun _ => True) (fun _ _ _ _ _ _ _ _ => trivial)
      (fun staged _ => .ofAction (fun _ _ _ _ => .ofList (affected_fits _))) trivial

theorem Volcano.execute_typed {x : ExecContext S} {plan : PhysOp} (hplan : plan.Honest x) {orders : HashOrders}
    {s s' : S} {schema : RowSchema} {rows : List Row} (h : Volcano.execute x plan orders s = some (.ok ((schema,rows),s'))) :
    ∀ row ∈ rows, Fits row schema.types := by
  simp only [Volcano.execute,ran_bind,ran_pure] at h
  obtain ⟨op,t₁,hop,collected,t₂,hrows,hout,-⟩ := h
  cases hout
  exact (Volcano.build_typed hplan hop).collect hrows

/-- One engine that holds the rows, with no indexes. -/
def Handle.ofEngine : Handle Engine where
  lockForWrite _ := pure ()
  get key := fun e => some (.ok (OrdMap.get e key,e))
  put key value := fun e => some (.ok ((),e.put key value))
  delete key := fun e => some (.ok ((),e.delete key))
  scan lo hi := fun e => some (.ok (e.scan lo hi,e))
  indexScan _ _ _ := pure []
  indexPut _ _ := pure ()
  indexDelete _ _ := pure ()
  createIndex _ := pure 0

private def numbers : Schema where
  name := "t"
  tableId := 1
  columns := [⟨"a",.int32,false,none⟩,⟨"b",.int64,true,none⟩]
  primaryKey := [0]
  keyed := by decide
  keyNotNull := by decide

def numbersContext : ExecContext Engine := ⟨.ofEngine,[⟨numbers,[]⟩],[],[]⟩

private def withNumbers (a : BitVec 32) (b : BitVec 64) (e : Engine) : Engine :=
  e.put (makeRowKey 1 (((KeyEnc.encodeKeyComponents [.int32 a] [.int32]).toOption).getD []))
    (((Tuple.encode [.int32,.int64] [.int32 a,.int64 b]).toOption).getD [])

def twoNumbers : Engine := withNumbers 1 5 (withNumbers 5 1 OrdMap.empty)

def counted : PhysOp := .limit (.hashAggregate (.seqScan "t") [1] [.countStar]) 1

def firstCount : RowSchema × List Row :=
  (aggregateSchema [⟨"b",.int64,true,none⟩,⟨"count_star",.int64,true,none⟩],[[.int64 1,.int64 1]])

theorem Volcano.execute_typed_counted :
    Volcano.execute numbersContext counted asHashed twoNumbers = some (.ok (firstCount,twoNumbers)) ∧
    ∀ row ∈ firstCount.2, Fits row firstCount.1.types := by
  have hpull : Volcano.execute numbersContext counted asHashed twoNumbers = some (.ok (firstCount,twoNumbers)) := rfl
  exact ⟨hpull,Volcano.execute_typed (show counted.Honest numbersContext from trivial) hpull⟩

end Plans

end InterchangeDb
