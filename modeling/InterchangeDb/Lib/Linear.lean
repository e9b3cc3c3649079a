import Mathlib

/-! Linearizable objects: a call enters the sequential order at one step between its invocation and its response. -/
namespace InterchangeDb
open List

variable {S O R : Type*}

/-- What the callers of an object see. -/
inductive CallEvent (O R : Type*) where
  | invoke (id : Nat) (op : O)
  | respond (id : Nat) (result : R)
  deriving DecidableEq, Repr

/-- A call in a sequential order, with its result. -/
structure Placed (O R : Type*) where
  id : Nat
  op : O
  result : R

/-- The operations one after the other, with the results of the order, lead from one state to another. -/
def Legal (apply : S → O → S × R) (s₀ : S) : List (Placed O R) → S → Prop
  | [], s => s = s₀
  | x::order, s => ∃ m, Legal apply s₀ order m ∧ apply m x.op = (s,x.result)

/-- A sequential order explains what the callers have seen: every response is the one of the order, and a call that
has returned before another one was invoked comes before it. -/
structure Linearizes (apply : S → O → S × R) (s₀ : S) (history : List (CallEvent O R)) (order : List (Placed O R))
    (s : S) : Prop where
  legal : Legal apply s₀ order s
  once : (order.map Placed.id).Nodup
  invoked : ∀ x ∈ order, .invoke x.id x.op ∈ history
  responded : ∀ {id r}, .respond id r ∈ history → ∃ op, ⟨id,op,r⟩ ∈ order
  realTime : ∀ {x y op r}, x ∈ order → y ∈ order → [.invoke y.id op,.respond x.id r].Sublist history → [y,x].Sublist order

def Linearizable (apply : S → O → S × R) (s₀ : S) (history : List (CallEvent O R)) : Prop :=
  ∃ order s, Linearizes apply s₀ history order s

namespace Linearizes
variable {apply : S → O → S × R} {s₀ s : S} {history : List (CallEvent O R)} {order : List (Placed O R)}

theorem init (apply : S → O → S × R) (s₀ : S) : Linearizes apply s₀ [] [] s₀ where
  legal := rfl
  once := nodup_nil
  invoked x hx := by cases hx
  responded hr := by cases hr
  realTime hx := by cases hx

section

variable (h : Linearizes apply s₀ history order s)
include h

theorem invoke {id : Nat} (hnew : ∀ x ∈ order, x.id ≠ id) (op : O) :
    Linearizes apply s₀ (.invoke id op :: history) order s where
  legal := h.legal
  once := h.once
  invoked x hx := mem_cons_of_mem _ (h.invoked x hx)
  responded hr := by
    rcases mem_cons.mp hr with heq | hr
    · cases heq
    · exact h.responded hr
  realTime {x y _ _} hx hy hsub := by
    cases hsub with
    | cons _ hsub => exact h.realTime hx hy hsub
    | cons_cons _ hsub => exact (hnew y hy rfl).elim

theorem place {id : Nat} {op : O} {s' : S} {r : R}
    (hinv : .invoke id op ∈ history) (hnew : ∀ x ∈ order, x.id ≠ id) (hopen : ∀ r, .respond id r ∉ history)
    (happly : apply s op = (s',r)) : Linearizes apply s₀ history (⟨id,op,r⟩ :: order) s' where
  legal := ⟨s,h.legal,happly⟩
  once := by
    rw [map_cons,nodup_cons]
    refine ⟨fun hmem => ?_,h.once⟩
    obtain ⟨x,hx,hid⟩ := mem_map.mp hmem
    exact hnew x hx hid
  invoked x hx := by
    rcases mem_cons.mp hx with rfl | hx
    · exact hinv
    · exact h.invoked x hx
  responded hr := by
    obtain ⟨op',hmem⟩ := h.responded hr
    exact ⟨op',mem_cons_of_mem _ hmem⟩
  realTime {x y _ _} hx hy hsub := by
    -- the call that takes effect has not returned, so it is not the earlier one
    have hx' : x ∈ order := by
      rcases mem_cons.mp hx with rfl | hx
      · exact (hopen _ (hsub.subset (mem_cons_of_mem _ mem_cons_self))).elim
      · exact hx
    rcases mem_cons.mp hy with rfl | hy
    · exact cons_sublist_cons.mpr (singleton_sublist.mpr hx')
    · exact (h.realTime hx' hy hsub).cons _

theorem respond {id : Nat} {op : O} {r : R} (hmem : ⟨id,op,r⟩ ∈ order) :
    Linearizes apply s₀ (.respond id r :: history) order s where
  legal := h.legal
  once := h.once
  invoked x hx := mem_cons_of_mem _ (h.invoked x hx)
  responded hr := by
    rcases mem_cons.mp hr with heq | hr
    · cases heq
      exact ⟨op,hmem⟩
    · exact h.responded hr
  realTime hx hy hsub := by
    cases hsub with
    | cons _ hsub => exact h.realTime hx hy hsub

end

end Linearizes
end InterchangeDb
