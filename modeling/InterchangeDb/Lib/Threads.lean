import Mathlib

/-! Threads as the list of their local states. One moves at a time, so sums change by what it gains or gives up. -/
namespace InterchangeDb
open List
namespace Threads

variable {T : Type*} {g : T → Nat} {l : List T} {i : Nat} {a b : T}

/-- The sum of a quantity over all threads. -/
def total (g : T → Nat) (l : List T) : Nat := (l.map g).sum

theorem total_set (g : T → Nat) (h : l[i]? = some a) (b : T) : total g (l.set i b) + g a = total g l + g b := by
  induction l generalizing i with
  | nil => cases h
  | cons x l ih =>
    cases i with
    | zero =>
      cases h
      simp only [total,set_cons_zero,map_cons,sum_cons]
      omega
    | succ i =>
      have htail := ih h
      simp only [total,set_cons_succ,map_cons,sum_cons] at htail ⊢
      omega

theorem le_total (g : T → Nat) (h : a ∈ l) : g a ≤ total g l := by
  induction l with
  | nil => cases h
  | cons x l ih =>
    simp only [total,map_cons,sum_cons] at ih ⊢
    rcases mem_cons.mp h with rfl | h
    · omega
    · exact Nat.le_trans (ih h) (Nat.le_add_left _ _)

theorem add_le_total (g : T → Nat) {j : Nat} {x : T} (ha : l[i]? = some a) (hx : l[j]? = some x) (hij : i ≠ j) :
    g a + g x ≤ total g l := by
  induction l generalizing i j with
  | nil => cases ha
  | cons y l ih =>
    rw [total,map_cons,sum_cons]
    cases i with
    | zero =>
      cases j with
      | zero => exact (hij rfl).elim
      | succ j =>
        cases ha
        have hle : g x ≤ (l.map g).sum := le_total g (mem_of_getElem? (l := l) (i := j) hx)
        omega
    | succ i =>
      cases j with
      | zero =>
        cases hx
        have hle : g a ≤ (l.map g).sum := le_total g (mem_of_getElem? (l := l) (i := i) ha)
        omega
      | succ j =>
        have hle := ih ha hx (fun heq => hij (congrArg Nat.succ heq))
        rw [total] at hle
        omega

theorem total_le {k : Nat} (h : ∀ x, g x ≤ k) (l : List T) : total g l ≤ k * l.length := by
  induction l with
  | nil => simp [total]
  | cons x l ih =>
    have hx := h x
    simp only [total,map_cons,sum_cons,length_cons] at ih ⊢
    rw [Nat.mul_succ]
    omega

theorem exists_of_total_pos (h : 0 < total g l) : ∃ x ∈ l, 0 < g x := by
  induction l with
  | nil => cases h
  | cons x l ih =>
    rw [total,map_cons,sum_cons] at h
    by_cases hx : 0 < g x
    · exact ⟨x,mem_cons_self,hx⟩
    · obtain ⟨y,hy,hpos⟩ := ih (by rw [total]; omega)
      exact ⟨y,mem_cons_of_mem _ hy,hpos⟩

/-- What holds of all threads holds after one has moved, if it holds of its new state. -/
theorem forall_set {p : T → Prop} (h : ∀ x ∈ l, p x) (hb : p b) : ∀ x ∈ l.set i b, p x := by
  intro x hx
  rcases mem_or_eq_of_mem_set hx with hx | rfl
  · exact h x hx
  · exact hb

/-- A thread with a property is still there after one has moved, if the one that moved keeps it. -/
theorem exists_set {p : T → Prop} (h : ∃ x ∈ l, p x) (ha : l[i]? = some a) (hab : p a → p b) : ∃ x ∈ l.set i b, p x := by
  obtain ⟨x,hx,hpx⟩ := h
  obtain ⟨j,hj⟩ := mem_iff_getElem?.mp hx
  by_cases hij : i = j
  · subst hij
    rw [ha] at hj
    cases hj
    exact ⟨b,mem_set (List.getElem?_eq_some_iff.mp ha).1 b,hab hpx⟩
  · refine ⟨x,mem_iff_getElem?.mpr ⟨j,?_⟩,hpx⟩
    rw [getElem?_set_ne hij]
    exact hj

theorem mem_set_cases {x : T} (h : x ∈ l.set i b) : x = b ∨ ∃ j, i ≠ j ∧ l[j]? = some x := by
  obtain ⟨j,hj⟩ := mem_iff_getElem?.mp h
  by_cases hij : i = j
  · subst hij
    have hi := (List.getElem?_eq_some_iff.mp hj).1
    rw [length_set] at hi
    rw [getElem?_set_self hi] at hj
    exact .inl (Option.some.inj hj).symm
  · rw [getElem?_set_ne hij] at hj
    exact .inr ⟨j,hij,hj⟩

theorem getElem?_set_cases {j : Nat} {x : T} (ha : l[i]? = some a) (h : (l.set i b)[j]? = some x) :
    (i = j ∧ b = x) ∨ (i ≠ j ∧ l[j]? = some x) := by
  by_cases hij : i = j
  · subst hij
    rw [List.getElem?_set_self (List.getElem?_eq_some_iff.mp ha).1] at h
    exact .inl ⟨rfl,Option.some.inj h⟩
  · rw [getElem?_set_ne hij] at h
    exact .inr ⟨hij,h⟩

theorem getElem?_append_cases {j : Nat} {x : T} (h : (l ++ [b])[j]? = some x) : (j = l.length ∧ b = x) ∨ l[j]? = some x := by
  rw [getElem?_append] at h
  split_ifs at h with hlt
  · exact .inr h
  · have hlen := (List.getElem?_eq_some_iff.mp h).1
    rw [length_singleton] at hlen
    have hj : j = l.length := by omega
    subst hj
    rw [Nat.sub_self] at h
    exact .inl ⟨rfl,Option.some.inj h⟩

theorem mem_set_self (h : l[i]? = some a) (b : T) : b ∈ l.set i b := mem_set (List.getElem?_eq_some_iff.mp h).1 b

end Threads
end InterchangeDb
