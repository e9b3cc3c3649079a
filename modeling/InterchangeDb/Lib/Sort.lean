import Mathlib

/-! Sorting by a comparison that may be undefined; where it is that of a rank, it orders the list by rank. -/
namespace InterchangeDb
open List

section Sorting
variable {A B : Type}

/-- A stable sort; none if two elements do not compare. -/
def sortBy (c : A → A → Option Ordering) (l : List A) : Option (List A) :=
  if l.Pairwise (fun a b => (c a b).isSome) then some (l.insertionSort (fun a b => c a b ≠ some .gt)) else none

theorem sortBy_perm {c : A → A → Option Ordering} {l l' : List A} (h : sortBy c l = some l') : l'.Perm l := by
  unfold sortBy at h
  split_ifs at h
  cases h
  exact perm_insertionSort _ l

def rankOrder [LinearOrder B] (a b : B) : Ordering := cmp a b

variable [LinearOrder B] {c : A → A → Option Ordering} {rank : A → B} {l l' : List A}

theorem sortBy_rank (hc : ∀ a ∈ l, ∀ b ∈ l, c a b = some (rankOrder (rank a) (rank b))) :
    sortBy c l = some (l.insertionSort (fun a b => rank a ≤ rank b)) := by
  have hdefined : l.Pairwise (fun a b => (c a b).isSome) := by
    refine .imp_of_mem (fun {a b} ha hb _ => ?_) (pairwise_of_forall (fun _ _ => trivial))
    rw [hc a ha b hb]
    rfl
  rw [sortBy,if_pos hdefined]
  congr 1
  have hmap := map_insertionSort (r := fun a b => c a b ≠ some .gt) (s := fun a b => rank a ≤ rank b) id l
    (fun a ha b hb => by
      rw [hc a ha b hb]
      simp [rankOrder,ne_eq,Option.some.injEq,cmp_eq_gt_iff,not_lt,id])
  rwa [map_id,map_id] at hmap

theorem pairwise_rank (rank : A → B) (l : List A) :
    (l.insertionSort (fun a b => rank a ≤ rank b)).Pairwise (fun a b => rank a ≤ rank b) := by
  have htotal : Std.Total (fun a b => rank a ≤ rank b) := ⟨fun a b => le_total _ _⟩
  have htrans : IsTrans A (fun a b => rank a ≤ rank b) := ⟨fun a b d => le_trans⟩
  exact pairwise_insertionSort _ l

theorem rankOrder_cons (a b : B) (as bs : List B) :
    rankOrder (a::as) (b::bs) = if rankOrder a b = .eq then rankOrder as bs else rankOrder a b := by
  unfold rankOrder
  rcases lt_trichotomy a b with h | rfl | h
  · rw [(cmp_eq_lt_iff a b).mpr h,if_neg (by decide),cmp_eq_lt_iff]
    exact .rel h
  · rw [cmp_self_eq_eq,if_pos rfl]
    exact StrictMono.cmp_map_eq (f := fun l : List B => a::l) (fun l l' hl => List.Lex.cons hl) as bs
  · rw [(cmp_eq_gt_iff a b).mpr h,if_neg (by decide),cmp_eq_gt_iff]
    exact .rel h

/-- Where no two elements have one rank, the order they come in does not matter. -/
theorem sortBy_eq_of_perm (rank : A → B) (hc : ∀ a ∈ l, ∀ b ∈ l, c a b = some (rankOrder (rank a) (rank b)))
    (hinj : ∀ a ∈ l, ∀ b ∈ l, rank a = rank b → a = b) (h : l.Perm l') : sortBy c l' = sortBy c l := by
  have hc' : ∀ a ∈ l', ∀ b ∈ l', c a b = some (rankOrder (rank a) (rank b)) :=
    fun a ha b hb => hc a (h.mem_iff.mpr ha) b (h.mem_iff.mpr hb)
  rw [sortBy_rank hc,sortBy_rank hc']
  congr 1
  have hperm : ∀ l : List A, (l.insertionSort (fun a b => rank a ≤ rank b)).Perm l := perm_insertionSort _
  refine List.Perm.eq_of_pairwise (fun a b ha hb hab hba => ?_) (pairwise_rank rank l') (pairwise_rank rank l)
    ((hperm l').trans (h.symm.trans (hperm l).symm))
  exact hinj a (h.mem_iff.mpr ((hperm l').mem_iff.mp ha)) b ((hperm l).mem_iff.mp hb) (le_antisymm hab hba)

end Sorting

end InterchangeDb
