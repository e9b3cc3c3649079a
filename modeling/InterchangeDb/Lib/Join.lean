import Mathlib

/-! Joins of lists by nested loops. -/
namespace InterchangeDb
open List

section Joins
variable {A B C : Type}

/-- Each left element with the right ones that match it, or what stands in for a match. -/
def joinOn (on : A → B → Bool) (pair : A → B → C) (pad : A → List C) (as : List A) (bs : List B) : List C :=
  as.flatMap (fun a => if (bs.filter (on a)).isEmpty then pad a else (bs.filter (on a)).map (pair a))

/-- What finds no match is dropped. -/
def innerJoin (on : A → B → Bool) (pair : A → B → C) (as : List A) (bs : List B) : List C :=
  as.flatMap (fun a => (bs.filter (on a)).map (pair a))

variable {on on' : A → B → Bool} {pair : A → B → C} {as : List A} {bs : List B}

theorem joinOn_nil : joinOn on pair (fun _ => []) as bs = innerJoin on pair as bs := by
  unfold joinOn innerJoin
  congr 1
  funext a
  split
  · next h => rw [isEmpty_iff.mp h,map_nil]
  · rfl

theorem innerJoin_and {p : C → Bool} (hpair : ∀ a ∈ as, ∀ b ∈ bs, p (pair a b) = on' a b) :
    innerJoin (fun a b => on a b && on' a b) pair as bs = (innerJoin on pair as bs).filter p := by
  unfold innerJoin
  rw [filter_flatMap]
  refine flatMap_congr (fun a ha => ?_)
  rw [filter_map,filter_filter]
  congr 1
  refine filter_congr (fun b hb => ?_)
  rw [Function.comp_apply,hpair a ha b hb,Bool.and_comm]

end Joins

end InterchangeDb
