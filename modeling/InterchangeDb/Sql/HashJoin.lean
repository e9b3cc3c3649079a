import InterchangeDb.Lib.Follows
import InterchangeDb.Lib.Join
import InterchangeDb.Sql.Volcano
import InterchangeDb.Sql.Worth

/-! Joining two lists of rows on a key by nested loops and by a hash table over normalized keys. -/
namespace InterchangeDb
open List Option
open KeyEnc

def ColumnType.kind : ColumnType → Kind
  | .int32 | .int64 | .decimal _ _ => .number
  | .varchar _ | .char _ => .text
  | .bytes _ => .bytes
  | .timestamp => .timestamp
  | .boolean => .boolean
  | .date => .date

theorem Value.kind_of_matchesType {v : Value} {ty : ColumnType} (h : v.matchesType ty = true) :
    v = .null ∨ v.kind = some ty.kind := by
  cases ty <;> cases v <;> first | exact .inl rfl | exact .inr rfl | cases h

section Keys

/-- The value a row is joined by. -/
def keyOf (col : ℕ) (row : Row) : Value := (row[col]?).getD .null

/-- Each row has the key column, with a null or a value of the kind. -/
def Keyed (k : Kind) (col : ℕ) (rows : List Row) : Prop :=
  ∀ row ∈ rows, ∃ v, row[col]? = some v ∧ (v = .null ∨ v.kind = some k)

def keysEqual (leftKeyCol rightKeyCol : ℕ) (left right : Row) : Bool :=
  decide ((keyOf leftKeyCol left).compareSql (keyOf rightKeyCol right) = some .eq)

variable {k : Kind} {col : ℕ} {rows : List Row}

theorem Keyed.get (h : Keyed k col rows) {row : Row} (hrow : row ∈ rows) : row[col]? = some (keyOf col row) := by
  obtain ⟨v,hv,-⟩ := h row hrow
  rw [keyOf,hv,getD_some]

theorem Keyed.kind (h : Keyed k col rows) {row : Row} (hrow : row ∈ rows) :
    keyOf col row = .null ∨ (keyOf col row).kind = some k := by
  obtain ⟨v,hv,hkind⟩ := h row hrow
  rwa [keyOf,hv,getD_some]

theorem Keyed.mono {rows' : List Row} (h : Keyed k col rows) (hsub : ∀ row ∈ rows', row ∈ rows) : Keyed k col rows' :=
  fun row hrow => h row (hsub row hrow)

theorem Keyed.of_fits {types : List ColumnType} {ty : ColumnType} (hrows : ∀ row ∈ rows, Fits row types)
    (hty : types[col]? = some ty) : Keyed ty.kind col rows := by
  intro row hrow
  have hfit := forall₂_iff_get.mp (hrows row hrow)
  obtain ⟨hlt,hget⟩ := List.getElem?_eq_some_iff.mp hty
  have hlt' : col < row.length := hfit.1 ▸ hlt
  refine ⟨row[col],List.getElem?_eq_getElem hlt',Value.kind_of_matchesType ?_⟩
  have hmatch := hfit.2 col hlt' hlt
  rwa [get_eq_getElem,get_eq_getElem,hget] at hmatch

end Keys

section Hash
variable {S : Type} {k : Kind} {leftKeyCol rightKeyCol : ℕ}
variable {rights rows lefts : List Row} {kind : JoinKind} {rightWidth : ℕ} {passes : Row → Option Bool}
  {test : Row → Row → Bool}

def hashEntry (keyCol : ℕ) (row : Row) : List (Value × Row) :=
  if keyOf keyCol row = .null then [] else [((keyOf keyCol row).joinKeyNormalized,row)]

theorem fold_hashRow (hrights : Keyed k rightKeyCol rights) (s : S) :
    (Stream.ofList rights).fold (hashRow rightKeyCol) [] s = some (.ok (rights.flatMap (hashEntry rightKeyCol),s)) := by
  have hstep : ∀ row ∈ rights, ∀ table : List (Value × Row),
      (hashRow rightKeyCol table row : Action S Error _) s = some (.ok (table ++ hashEntry rightKeyCol row,s)) := by
    intro row hrow table
    rw [hashRow,hrights.get hrow,hashEntry]
    split
    · next h => simp [h,Action.ofOption,bind,Action.bind,Action.pure,pure]
    · next h => simp [h,Action.ofOption,bind,Action.bind,Action.pure,pure]
  rw [Stream.fold_ofList hstep,flatMap_eq_foldl]

theorem keysEqual_iff {left right : Row} : keysEqual leftKeyCol rightKeyCol left right = true ↔
    keyOf leftKeyCol left ≠ .null ∧ keyOf rightKeyCol right ≠ .null
      ∧ (keyOf rightKeyCol right).joinKeyNormalized = (keyOf leftKeyCol left).joinKeyNormalized := by
  rw [keysEqual,decide_eq_true_eq,Value.compareSql_eq_comm,Value.compareSql_eq_iff,Value.joinKeyNormalized_eq_iff,
    Ne,Value.kind_eq_none_iff]
  constructor
  · rintro ⟨hnull,hkind,hworth⟩
    refine ⟨fun hleft => hnull (Value.kind_eq_none_iff.mp ?_),hnull,hkind,hworth⟩
    rw [hkind,hleft]
    rfl
  · rintro ⟨-,hnull,hkind,hworth⟩
    exact ⟨hnull,hkind,hworth⟩

/-- The table holds the rows whose keys are equal, in their order. -/
theorem hashCandidates_eq (left : Row) :
    hashCandidates (rights.flatMap (hashEntry rightKeyCol)) (keyOf leftKeyCol left)
      = rights.filter (keysEqual leftKeyCol rightKeyCol left) := by
  unfold hashCandidates
  split
  · next h => exact (filter_eq_nil_iff.mpr (fun right _ hright => (keysEqual_iff.mp hright).1 h)).symm
  · next h =>
    have hentry : ∀ right, ((hashEntry rightKeyCol right).filter
        (fun entry => decide (entry.1 = (keyOf leftKeyCol left).joinKeyNormalized))).map (·.2)
        = [right].filter (keysEqual leftKeyCol rightKeyCol left) := by
      intro right
      cases hequal : keysEqual leftKeyCol rightKeyCol left right with
      | true =>
        obtain ⟨-,hnull,hnorm⟩ := keysEqual_iff.mp hequal
        simp [hashEntry,hnull,hnorm,hequal]
      | false =>
        rw [filter_cons_of_neg (by rw [hequal]; decide),hashEntry]
        split
        · rfl
        · next hnull =>
          rw [filter_cons_of_neg]
          · rfl
          · intro hnorm
            exact absurd (keysEqual_iff.mpr ⟨h,hnull,of_decide_eq_true hnorm⟩) (by rw [hequal]; decide)
    induction rights with
    | nil => rfl
    | cons right rights ih =>
      rw [flatMap_cons,filter_append,map_append,ih,hentry,← filter_append]
      rfl

theorem joinMatches_eq {q : Row → Bool} {outer : Row} (hpasses : ∀ row ∈ rows, passes row = some (q row)) (matched : Bool) :
    (joinMatches kind rightWidth passes outer rows matched : Stream S Error Row) = .ofList ((rows.filter q).map (outer ++ ·)
      ++ if kind = .leftOuter ∧ matched = false ∧ (rows.filter q).isEmpty then [outer ++ List.replicate rightWidth .null]
        else []) := by
  induction rows generalizing matched with
  | nil =>
    rw [joinMatches]
    split
    · next h => rw [if_pos ⟨h.1,h.2,rfl⟩]; rfl
    · next h => rw [if_neg (fun h' => h ⟨h'.1,h'.2.1⟩)]; rfl
  | cons row rows ih =>
    have hrest := ih (fun r hr => hpasses r (mem_cons_of_mem _ hr))
    rw [joinMatches,hpasses row mem_cons_self]
    cases hq : q row with
    | true =>
      rw [filter_cons_of_pos hq]
      simp only [hrest true]
      simp
      rfl
    | false =>
      rw [filter_cons_of_neg (by rw [hq]; decide)]
      exact hrest matched

/-- What stands in for a match. -/
def padding (kind : JoinKind) (rightWidth : ℕ) (outer : Row) : List Row :=
  if kind = .leftOuter then [outer ++ List.replicate rightWidth .null] else []

private theorem joinMatches_start {q : Row → Bool} {outer : Row} (hpasses : ∀ row ∈ rows, passes row = some (q row)) :
    (joinMatches kind rightWidth passes outer rows false : Stream S Error Row) = .ofList
      (if (rows.filter q).isEmpty then padding kind rightWidth outer else (rows.filter q).map (outer ++ ·)) := by
  rw [joinMatches_eq hpasses,padding]
  cases hempty : (rows.filter q).isEmpty with
  | true => simp [isEmpty_iff.mp hempty]
  | false => simp

theorem nestedLoop_eq {on : Option Predicate} (htest : ∀ l ∈ lefts, ∀ r ∈ rights, joinPredicate on l r = some (test l r)) :
    (nestedLoop kind rightWidth on rights (.ofList lefts) : Stream S Error Row)
      = .ofList (joinOn test (· ++ ·) (padding kind rightWidth) lefts rights) :=
  Stream.flatMap_ofList (fun l hl => joinMatches_start (htest l hl))

theorem hashProbe_eq {residual : Option Predicate}
  (hlefts : Keyed k leftKeyCol lefts) (htest : ∀ l ∈ lefts, ∀ r ∈ rights,
      keysEqual leftKeyCol rightKeyCol l r = true → joinPredicate residual l r = some (test l r)) :
    (hashProbe kind rightWidth leftKeyCol residual (rights.flatMap (hashEntry rightKeyCol)) (.ofList lefts) :
      Stream S Error Row) = .ofList (joinOn (fun l r => keysEqual leftKeyCol rightKeyCol l r && test l r) (· ++ ·)
        (padding kind rightWidth) lefts rights) := by
  refine Stream.flatMap_ofList (fun l hl => ?_)
  rw [hlefts.get hl]
  simp only [hashCandidates_eq]
  have hfilter : (rights.filter (keysEqual leftKeyCol rightKeyCol l)).filter (test l)
      = rights.filter (fun r => keysEqual leftKeyCol rightKeyCol l r && test l r) := by
    rw [List.filter_filter]
    exact List.filter_congr (fun r _ => Bool.and_comm _ _)
  rw [joinMatches_start (q := test l),hfilter]
  · intro r hr
    obtain ⟨hr,hequal⟩ := mem_filter.mp hr
    exact htest l hl r hr hequal

theorem hashProbe_inner (hlefts : Keyed k leftKeyCol lefts) :
    (hashProbe .inner rightWidth leftKeyCol none (rights.flatMap (hashEntry rightKeyCol)) (.ofList lefts) :
      Stream S Error Row) = .ofList (innerJoin (keysEqual leftKeyCol rightKeyCol) (· ++ ·) lefts rights) := by
  rw [hashProbe_eq hlefts (fun _ _ _ _ _ => rfl),← joinOn_nil]
  simp only [Bool.and_true]
  rfl

end Hash

section Condition
variable {leftKeyCol rightKeyCol : ℕ} {residual : Option Predicate} {l r : Row}

/-- The condition of the nested loop over both rows: the keys are equal, and the rest. -/
def keyedCondition (leftKeyCol rightKeyCol : ℕ) (residual : Option Predicate) : Predicate :=
  match residual with
  | none => .compare .eq (.column leftKeyCol) (.column rightKeyCol)
  | some p => .and (.compare .eq (.column leftKeyCol) (.column rightKeyCol)) p

private theorem eval_keys (hl : l[leftKeyCol]? = some (keyOf leftKeyCol l))
    (hr : r[rightKeyCol]? = some (keyOf rightKeyCol r)) :
    (Predicate.compare .eq (.column leftKeyCol) (.column (l.length + rightKeyCol))).eval .empty [] [] (l ++ r)
      = some ⟨((keyOf leftKeyCol l).compareSql (keyOf rightKeyCol r)).map (CompareOp.holds .eq),none⟩ := by
  have hleft : (l ++ r)[leftKeyCol]? = some (keyOf leftKeyCol l) := by
    rw [List.getElem?_append_left (List.getElem?_eq_some_iff.mp hl).1,hl]
  have hright : (l ++ r)[l.length + rightKeyCol]? = some (keyOf rightKeyCol r) := by
    rw [List.getElem?_append_right (Nat.le_add_right _ _),Nat.add_sub_cancel_left,hr]
  rw [Predicate.eval_compare]
  simp only [Expression.operand,Expression.eval,hleft,hright]
  rfl

theorem keysEqual_iff_holds : keysEqual leftKeyCol rightKeyCol l r = true ↔
    ((keyOf leftKeyCol l).compareSql (keyOf rightKeyCol r)).map (CompareOp.holds .eq) = some true := by
  rw [keysEqual,decide_eq_true_eq,map_eq_some_iff]
  constructor
  · exact fun h => ⟨.eq,h,rfl⟩
  · rintro ⟨ord,h,hord⟩
    rw [h,show ord = .eq from eq_of_beq hord]

section

variable (hl : l[leftKeyCol]? = some (keyOf leftKeyCol l)) (hr : r[rightKeyCol]? = some (keyOf rightKeyCol r))
include hl hr

theorem joinPredicate_equal (h : keysEqual leftKeyCol rightKeyCol l r = true) :
    joinPredicate (some (keyedCondition leftKeyCol (l.length + rightKeyCol) residual)) l r = joinPredicate residual l r := by
  have hkeys := eval_keys hl hr
  rw [keysEqual_iff_holds.mp h] at hkeys
  cases residual with
  | none => simp [joinPredicate,keyedCondition,hkeys]
  | some p =>
    simp only [joinPredicate,keyedCondition,Predicate.eval_and,hkeys]
    cases p.eval .empty [] [] (l ++ r) with
    | none => rfl
    | some verdict => simp [kleeneAnd_eq_true]

theorem joinPredicate_unequal (h : keysEqual leftKeyCol rightKeyCol l r = false) {b : Bool}
    (hb : joinPredicate (some (keyedCondition leftKeyCol (l.length + rightKeyCol) residual)) l r = some b) : b = false := by
  have hkeys := eval_keys hl hr
  have hne : ¬((keyOf leftKeyCol l).compareSql (keyOf rightKeyCol r)).map (CompareOp.holds .eq) = some true := by
    rw [← keysEqual_iff_holds,h]
    decide
  cases residual with
  | none =>
    simp only [joinPredicate,keyedCondition,hkeys,map_some,decide_eq_false hne,some.injEq] at hb
    exact hb.symm
  | some p =>
    simp only [joinPredicate,keyedCondition,Predicate.eval_and,hkeys,bind_eq_bind,bind_some] at hb
    obtain ⟨verdict,hverdict,rfl⟩ := map_eq_some_iff.mp hb
    refine decide_eq_false (fun htrue => hne ?_)
    split at hverdict
    · cases hverdict
      exact htrue
    · obtain ⟨bv,-,hbv⟩ := bind_eq_some_iff.mp hverdict
      cases hbv
      exact (kleeneAnd_eq_true.mp htrue).1

end

end Condition

end InterchangeDb
