import InterchangeDb.Lib.OrdMap

/-! Sorted runs asked one after the other: the first run that holds a key answers. -/
namespace InterchangeDb
open List Option

variable {K V : Type} [LinearOrder K]

/-- Entries in strictly ascending key order. -/
def Ascending (es : List (K × V)) : Prop := es.Pairwise (fun a b => a.1 < b.1)

namespace Layers
open OrdMap (find)
variable {k : K} {es : List (K × V)} {runs : List (List (K × V))}

theorem find_append (k : K) (xs ys : List (K × V)) : find k (xs ++ ys) = (find k xs).or (find k ys) := by
  induction xs with
  | nil => rfl
  | cons e xs ih =>
    simp only [cons_append,find,ih]
    split_ifs <;> rfl

theorem mem_of_find {v : V} (h : find k es = some v) : (k,v) ∈ es := by
  induction es with
  | nil => cases h
  | cons e es ih =>
    simp only [find] at h
    split_ifs at h with hk
    · obtain rfl := some.inj h
      rw [← hk]
      exact mem_cons_self
    · exact mem_cons_of_mem _ (ih h)

theorem find_eq_none_iff : find k es = none ↔ ∀ e ∈ es, e.1 ≠ k := by
  induction es with
  | nil => simp [find]
  | cons e es ih =>
    simp only [find,forall_mem_cons,← ih]
    split_ifs with hk <;> simp [hk]

theorem find_filter (p : K → Bool) (k : K) (es : List (K × V)) :
    find k (es.filter (fun e => p e.1)) = if p k then find k es else none := by
  induction es with
  | nil => simp [find]
  | cons e es ih =>
    by_cases hp : p e.1
    · simp only [filter_cons,hp,if_true,find,ih]
      split_ifs with hk hpk hpk
      · rfl
      · exact (hpk (hk ▸ hp)).elim
      · rfl
      · rfl
    · simp only [filter_cons,hp,Bool.false_eq_true,if_false,ih,find]
      split_ifs with hpk hk
      · exact (hp (hk ▸ hpk)).elim
      · rfl
      · rfl

/-- The first run that holds the key answers. -/
def layered (runs : List (List (K × V))) (k : K) : Option V := runs.findSome? (find k)

@[simp] theorem layered_nil (k : K) : layered ([] : List (List (K × V))) k = none := rfl

theorem layered_cons (run : List (K × V)) (runs : List (List (K × V))) (k : K) :
    layered (run::runs) k = (find k run).or (layered runs k) := by
  unfold layered
  rw [findSome?_cons]
  cases find k run <;> rfl

theorem layered_append (as bs : List (List (K × V))) (k : K) :
    layered (as ++ bs) k = (layered as k).or (layered bs k) := by
  induction as with
  | nil => rfl
  | cons a as ih => rw [List.cons_append,layered_cons,layered_cons,ih,Option.or_assoc]

theorem layered_flatMap {L : Type*} (ls : List L) (f : L → List (List (K × V))) (k : K) :
    layered (ls.flatMap f) k = ls.findSome? (fun l => layered (f l) k) := by
  induction ls with
  | nil => rfl
  | cons l ls ih =>
    rw [flatMap_cons,layered_append,ih,findSome?_cons]
    cases layered (f l) k <;> rfl

theorem findSome?_congr {A B : Type*} {f g : A → Option B} {as : List A} (h : ∀ a ∈ as, f a = g a) :
    as.findSome? f = as.findSome? g := by
  induction as with
  | nil => rfl
  | cons a as ih => rw [findSome?_cons,findSome?_cons,h a mem_cons_self,ih (fun x hx => h x (mem_cons_of_mem _ hx))]

theorem layered_flatMap_congr {L : Type*} {ls : List L} {f g : L → List (List (K × V))}
    (h : ∀ l ∈ ls, layered (f l) k = layered (g l) k) : layered (ls.flatMap f) k = layered (ls.flatMap g) k := by
  rw [layered_flatMap,layered_flatMap]
  exact findSome?_congr h

theorem layered_eq_find_flatten (runs : List (List (K × V))) (k : K) : layered runs k = find k runs.flatten := by
  induction runs with
  | nil => rfl
  | cons run runs ih => rw [layered_cons,ih,flatten_cons,find_append]

theorem layered_eq_none_iff :
    layered runs k = none ↔ ∀ run ∈ runs, find k run = none := findSome?_eq_none_iff

theorem layered_filter (p : K → Bool) (k : K) (runs : List (List (K × V))) :
    layered (runs.map (fun run => run.filter (fun e => p e.1))) k = if p k then layered runs k else none := by
  induction runs with
  | nil => simp
  | cons run runs ih =>
    rw [map_cons,layered_cons,ih,find_filter,layered_cons]
    split_ifs <;> rfl

/-- No key stands in both runs. -/
def Apart (a b : List (K × V)) : Prop := ∀ k, find k a = none ∨ find k b = none

theorem Apart.symm {a b : List (K × V)} (h : Apart a b) : Apart b a := fun k => (h k).symm

/-- Among runs without a common key it does not matter which is asked first. -/
theorem layered_eq_some_iff (h : runs.Pairwise Apart) {v : V} :
    layered runs k = some v ↔ ∃ run ∈ runs, find k run = some v := by
  induction runs with
  | nil => simp
  | cons run runs ih =>
    obtain ⟨hrun,hruns⟩ := pairwise_cons.mp h
    rw [layered_cons,or_eq_some_iff,ih hruns]
    simp only [mem_cons,exists_eq_or_imp]
    constructor
    · rintro (hv | ⟨-,hv⟩)
      · exact .inl hv
      · exact .inr hv
    · rintro (hv | ⟨r,hr,hv⟩)
      · exact .inl hv
      · rcases hrun r hr k with hnone | hnone
        · exact .inr ⟨hnone,r,hr,hv⟩
        · rw [hnone] at hv
          cases hv

theorem layered_perm {as bs : List (List (K × V))} (h : as.Perm bs) (ha : as.Pairwise Apart) (k : K) :
    layered as k = layered bs k := by
  have hb : bs.Pairwise Apart := h.pairwise ha (·.symm)
  apply ext
  intro v
  rw [layered_eq_some_iff ha,layered_eq_some_iff hb]
  simp [h.mem_iff]

theorem find_filter_value (h : Ascending es) (p : V → Bool) (k : K) :
    find k (es.filter (fun e => p e.2)) = (find k es).filter p := by
  apply ext
  intro v
  rw [OrdMap.find_eq_some_iff (h.filter _),mem_filter,← OrdMap.find_eq_some_iff h,filter_eq_some_iff]

end Layers
end InterchangeDb
