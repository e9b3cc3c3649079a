import InterchangeDb.Sql.MergeJoin

/-! The ways to join two lists of rows on a key give the same rows. -/
namespace InterchangeDb
open KeyEnc

section Agreement
variable {S : Type}

/-- The test of a condition on a joined row. -/
def passes (p : Option Predicate) (row : Row) : Bool := decide (joinPredicate p row [] = some true)

private theorem passes_append (p : Option Predicate) (l r : Row) :
    passes p (l ++ r) = decide (joinPredicate p l r = some true) := by
  unfold passes joinPredicate
  rw [List.append_nil]

/-- For rows whose keys are of types that compare, and a condition that can be evaluated on every pair, the hash join gives
the rows of the nested loop under the equality of the keys and the condition. An inner hash join that leaves the condition
to a filter, and a merge of sorted rows, give them after the filter. -/
theorem joins_agree {leftTypes rightTypes : List ColumnType} {lefts rights : List Row}
    (hlefts : ∀ row ∈ lefts, Fits row leftTypes) (hrights : ∀ row ∈ rights, Fits row rightTypes)
    {leftKeyCol rightKeyCol : ℕ} {leftType rightType : ColumnType} (hleft : leftTypes[leftKeyCol]? = some leftType)
    (hright : rightTypes[rightKeyCol]? = some rightType) (hcompare : leftType.kind = rightType.kind)
    (kind : JoinKind) (residual : Option Predicate) (hcond : ∀ l ∈ lefts, ∀ r ∈ rights, (joinPredicate
      (some (keyedCondition leftKeyCol (leftTypes.length + rightKeyCol) residual)) l r).isSome) (s : S) :
    ∃ rows table, (nestedLoop kind rightTypes.length
        (some (keyedCondition leftKeyCol (leftTypes.length + rightKeyCol) residual)) rights (.ofList lefts)).collect s
        = some (.ok (rows,s))
      ∧ (Stream.ofList rights).fold (hashRow rightKeyCol) [] s = some (.ok (table,s))
      ∧ (∃ hashed, (hashProbe kind rightTypes.length leftKeyCol residual table (.ofList lefts)).collect s
          = some (.ok (hashed,s)) ∧ hashed.Perm rows)
      ∧ (kind = .inner → ∃ hashed, (hashProbe kind rightTypes.length leftKeyCol none table (.ofList lefts)).collect s
          = some (.ok (hashed,s)) ∧ (hashed.filter (passes residual)).Perm rows)
      ∧ (kind = .inner → SortedBy leftKeyCol lefts → SortedBy rightKeyCol rights →
          ∃ merged, (merge leftKeyCol rightKeyCol (.ofList lefts) (.ofList rights)).collect s = some (.ok (merged,s))
            ∧ (merged.filter (passes residual)).Perm rows) := by
  have hkl : Keyed leftType.kind leftKeyCol lefts := .of_fits hlefts hleft
  have hkr : Keyed leftType.kind rightKeyCol rights := hcompare ▸ .of_fits hrights hright
  -- the condition is the equality of the keys and the residual
  have htest : ∀ l ∈ lefts, ∀ r ∈ rights, joinPredicate
      (some (keyedCondition leftKeyCol (leftTypes.length + rightKeyCol) residual)) l r
      = some (keysEqual leftKeyCol rightKeyCol l r && passes residual (l ++ r)) := by
    intro l hl r hr
    have hlength : l.length = leftTypes.length := (hlefts l hl).length_eq
    have hsome := hcond l hl r hr
    rw [← hlength] at hsome ⊢
    obtain ⟨b,hb⟩ := Option.isSome_iff_exists.mp hsome
    cases hequal : keysEqual leftKeyCol rightKeyCol l r with
    | true =>
      rw [joinPredicate_equal (hkl.get hl) (hkr.get hr) hequal] at hb ⊢
      rw [passes_append,hb]
      cases b <;> rfl
    | false => rw [hb,joinPredicate_unequal (hkl.get hl) (hkr.get hr) hequal hb,Bool.false_and]
  have hresidual : ∀ l ∈ lefts, ∀ r ∈ rights, keysEqual leftKeyCol rightKeyCol l r = true →
      joinPredicate residual l r = some (passes residual (l ++ r)) := by
    intro l hl r hr hequal
    have hlength : l.length = leftTypes.length := (hlefts l hl).length_eq
    rw [← joinPredicate_equal (hkl.get hl) (hkr.get hr) hequal,hlength,htest l hl r hr,hequal,Bool.true_and]
  have hfilter : joinOn (fun l r => keysEqual leftKeyCol rightKeyCol l r && passes residual (l ++ r)) (· ++ ·)
      (padding .inner rightTypes.length) lefts rights
      = (innerJoin (keysEqual leftKeyCol rightKeyCol) (· ++ ·) lefts rights).filter (passes residual) := by
    rw [show padding .inner rightTypes.length = fun _ => [] from rfl,joinOn_nil]
    exact innerJoin_and (fun _ _ _ _ => rfl)
  refine ⟨joinOn (fun l r => keysEqual leftKeyCol rightKeyCol l r && passes residual (l ++ r)) (· ++ ·)
    (padding kind rightTypes.length) lefts rights,_,?_,fold_hashRow hkr s,⟨_,?_,.refl _⟩,?_,?_⟩
  · rw [nestedLoop_eq htest,Stream.collect_ofList]
  · rw [hashProbe_eq hkl hresidual,Stream.collect_ofList]
  · rintro rfl
    refine ⟨innerJoin (keysEqual leftKeyCol rightKeyCol) (· ++ ·) lefts rights,?_,.of_eq hfilter.symm⟩
    rw [hashProbe_inner hkl,Stream.collect_ofList]
  · rintro rfl hsl hsr
    refine ⟨innerJoin (keysEqual leftKeyCol rightKeyCol) (· ++ ·) lefts rights,?_,.of_eq hfilter.symm⟩
    rw [merge_eq hkl hkr hsl hsr,Stream.collect_ofList]

private def ones : List Row := [[.int32 1],[.int32 1],[.null]]

private def amounts : List Row := [[.decimal ⟨100,2⟩],[.decimal ⟨100,2⟩],[.decimal ⟨150,2⟩],[.null]]

private def notNull : Option Predicate := some (.not (.isNull (.column 0)))

/-- Equal numbers of two types, with duplicates and nulls on both sides. -/
theorem joins_agree_ones : SortedBy 0 ones ∧ SortedBy 0 amounts ∧ ∃ rows table,
    (nestedLoop .inner 1 (some (keyedCondition 0 1 notNull)) amounts (.ofList ones)).collect () = some (.ok (rows,()))
      ∧ (Stream.ofList amounts).fold (hashRow 0) [] () = some (.ok (table,()))
      ∧ (∃ hashed, (hashProbe .inner 1 0 notNull table (.ofList ones)).collect () = some (.ok (hashed,()))
          ∧ hashed.Perm rows)
      ∧ (∃ hashed, (hashProbe .inner 1 0 none table (.ofList ones)).collect () = some (.ok (hashed,()))
          ∧ (hashed.filter (passes notNull)).Perm rows)
      ∧ ∃ merged, (merge 0 0 (.ofList ones) (.ofList amounts)).collect () = some (.ok (merged,()))
          ∧ (merged.filter (passes notNull)).Perm rows := by
  have hones : SortedBy 0 ones := by
    unfold SortedBy
    decide
  have hamounts : SortedBy 0 amounts := by
    unfold SortedBy
    decide
  obtain ⟨rows,table,hnested,htable,hhash,hinner,hmerge⟩ :=
    @joins_agree Unit [.int32] [.decimal 5 2] ones amounts (by unfold Fits; decide) (by unfold Fits; decide) 0 0 .int32
      (.decimal 5 2) rfl rfl rfl .inner notNull (by decide) ()
  exact ⟨hones,hamounts,rows,table,hnested,htable,hhash,hinner rfl,hmerge rfl hones hamounts⟩

end Agreement

end InterchangeDb
