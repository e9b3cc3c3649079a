import Mathlib

/-! Finite maps with unique keys: tests, many changes at once, and the values with their multiplicity. -/
namespace InterchangeDb
open List AList

variable {K : Type*} {V : Type*}

/-- The entries whose value passes a test, with their keys. -/
def retain (m : AList (fun _ : K => V)) (p : V → Bool) : AList (fun _ : K => V) :=
  ⟨m.entries.filter (fun x => p x.2), m.nodupKeys.sublist filter_sublist⟩

theorem lookup_retain [DecidableEq K] (m : AList (fun _ : K => V)) (p : V → Bool) (k : K) (v : V) :
    (retain m p).lookup k = some v ↔ m.lookup k = some v ∧ p v = true := by
  have hm : ∀ m' : AList (fun _ : K => V), m'.lookup k = some v ↔ (⟨k,v⟩ : Sigma (fun _ : K => V)) ∈ m'.entries :=
    fun m' => mem_lookup_iff
  rw [hm,hm]
  simp [retain]

section Lookup
variable [DecidableEq K] {m : AList (fun _ : K => V)} {k k' : K} {v x : V}

theorem lookup_insert_eq (m : AList (fun _ : K => V)) (k k' : K) (v : V) :
    (m.insert k v).lookup k' = if k' = k then some v else m.lookup k' := by
  split_ifs with h
  · rw [h,lookup_insert]
  · exact lookup_insert_ne h

theorem lookup_erase_eq (m : AList (fun _ : K => V)) (k k' : K) :
    (m.erase k).lookup k' = if k' = k then none else m.lookup k' := by
  split_ifs with h
  · rw [h,lookup_erase]
  · exact lookup_erase_ne h

theorem lookup_insert_cases (h : (m.insert k v).lookup k' = some x) : k' = k ∧ x = v ∨ k' ≠ k ∧ m.lookup k' = some x := by
  rw [lookup_insert_eq] at h
  split_ifs at h with hk
  · exact .inl ⟨hk,(Option.some.inj h).symm⟩
  · exact .inr ⟨hk,h⟩

theorem lookup_erase_cases (h : (m.erase k).lookup k' = some x) : k' ≠ k ∧ m.lookup k' = some x := by
  rw [lookup_erase_eq] at h
  split_ifs at h with hk
  exact ⟨hk,h⟩

end Lookup

private theorem filter_kerase [DecidableEq K] (p : Sigma (fun _ : K => V) → Bool) (k : K) {l : List (Sigma (fun _ : K => V))}
    (h : l.NodupKeys) : (l.kerase k).filter p = (l.filter p).kerase k := by
  induction l with
  | nil => rfl
  | cons x l ih =>
    obtain ⟨hx,hl⟩ := nodupKeys_cons.mp h
    by_cases hk : k = x.1
    · rw [kerase_cons_eq hk]
      have habsent : k ∉ (l.filter p).keys := by
        rw [hk]
        exact fun hmem => hx ((filter_sublist.map _).subset hmem)
      by_cases hp : p x = true
      · rw [filter_cons_of_pos hp,kerase_cons_eq hk]
      · rw [filter_cons_of_neg hp,kerase_of_notMem_keys habsent]
    · rw [kerase_cons_ne hk]
      by_cases hp : p x = true
      · rw [filter_cons_of_pos hp,filter_cons_of_pos hp,kerase_cons_ne hk,ih hl]
      · rw [filter_cons_of_neg hp,filter_cons_of_neg hp,ih hl]

theorem retain_insert [DecidableEq K] (m : AList (fun _ : K => V)) {p : V → Bool} (k : K) {v : V} (hv : p v = true) :
    retain (m.insert k v) p = (retain m p).insert k v := by
  apply ext
  change (⟨k,v⟩::m.entries.kerase k).filter (fun x : Sigma (fun _ : K => V) => p x.2) = ⟨k,v⟩::(m.entries.filter _).kerase k
  rw [filter_cons,if_pos hv,filter_kerase _ k m.nodupKeys]

theorem retain_comm (m : AList (fun _ : K => V)) (p q : V → Bool) : retain (retain m p) q = retain (retain m q) p := by
  apply ext
  change filter _ (filter _ _) = filter _ (filter _ _)
  rw [filter_comm]

section Folds
variable [DecidableEq K]

theorem lookup_foldl_erase (ks : List K) (m : AList (fun _ : K => V)) (k : K) :
    (ks.foldl (fun m k => m.erase k) m).lookup k = if k ∈ ks then none else m.lookup k := by
  induction ks generalizing m with
  | nil => simp
  | cons a ks ih =>
    rw [foldl_cons,ih]
    by_cases hk : k = a <;> simp [hk,lookup_erase_eq]

variable {X : Type*} (f : X → K) (g : X → V)

theorem lookup_foldl_insert_of_notMem {xs : List X} {m : AList (fun _ : K => V)} {k : K} (h : k ∉ xs.map f) :
    (xs.foldl (fun m x => m.insert (f x) (g x)) m).lookup k = m.lookup k := by
  induction xs generalizing m with
  | nil => rfl
  | cons x xs ih =>
    simp only [map_cons,mem_cons,not_or] at h
    rw [foldl_cons,ih h.2,lookup_insert_ne h.1]

/-- Of several insertions under different keys each one stays. -/
theorem lookup_foldl_insert {xs : List X} {m : AList (fun _ : K => V)} (hnodup : (xs.map f).Nodup) {x : X} (hx : x ∈ xs) :
    (xs.foldl (fun m x => m.insert (f x) (g x)) m).lookup (f x) = some (g x) := by
  induction xs generalizing m with
  | nil => cases hx
  | cons y xs ih =>
    obtain ⟨hy,hxs⟩ := nodup_cons.mp hnodup
    rw [foldl_cons]
    rcases mem_cons.mp hx with rfl | hx
    · rw [lookup_foldl_insert_of_notMem f g hy,lookup_insert]
    · exact ih hxs hx

end Folds

section Values
variable [DecidableEq K]

def values (m : AList (fun _ : K => V)) : List V := m.entries.map (fun x => x.2)

omit [DecidableEq K] in
theorem length_values (m : AList (fun _ : K => V)) : (values m).length = m.entries.length := length_map _

theorem mem_values_iff {m : AList (fun _ : K => V)} {v : V} : v ∈ values m ↔ ∃ k, m.lookup k = some v := by
  rw [values,mem_map]
  constructor
  · rintro ⟨⟨k,w⟩,hmem,rfl⟩
    exact ⟨k,mem_lookup_iff.mpr hmem⟩
  · rintro ⟨k,hk⟩
    exact ⟨⟨k,v⟩,mem_lookup_iff.mp hk,rfl⟩

variable [DecidableEq V]

theorem count_values_insert {m : AList (fun _ : K => V)} {k : K} (h : m.lookup k = none) (v x : V) :
    (values (m.insert k v)).count x = (values m).count x + if v = x then 1 else 0 := by
  rw [values,insert_of_notMem (lookup_eq_none.mp h)]
  change (v :: values m).count x = _
  rw [count_cons]
  simp [beq_iff_eq]

theorem count_values_erase {m : AList (fun _ : K => V)} {k : K} {v : V} (h : m.lookup k = some v) (x : V) :
    (values m).count x = (values (m.erase k)).count x + if v = x then 1 else 0 := by
  have hkeys : k ∈ m.entries.keys := lookup_isSome.mp (by rw [h]; rfl)
  obtain ⟨w,l₁,l₂,-,hl,herase⟩ := exists_of_kerase hkeys
  have hw : w = v := by
    have hmem : (⟨k,w⟩ : Sigma (fun _ : K => V)) ∈ m.entries := by
      rw [hl]
      exact mem_append_right _ mem_cons_self
    have hlookup := mem_lookup_iff.mpr hmem
    rw [h] at hlookup
    exact (Option.some.inj hlookup).symm
  have herased : (m.erase k).entries = l₁ ++ l₂ := herase
  rw [values,values,hl,herased,map_append,map_append,count_append,count_append,map_cons,
    count_cons,hw]
  simp only [beq_iff_eq]
  omega

end Values

end InterchangeDb
