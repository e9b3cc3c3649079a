import Mathlib

/-! Ordered maps as strictly sorted association lists, determined by their lookups. -/
namespace InterchangeDb
open List

/-- One end of a range. -/
inductive Bound (K : Type) where
  | included (k : K)
  | excluded (k : K)
  | unbounded
  deriving DecidableEq, Repr

namespace Bound
variable {K : Type} [LinearOrder K]

/-- The key passes this bound used as a lower end. -/
def above : Bound K → K → Bool
  | .included a, k => decide (a ≤ k)
  | .excluded a, k => decide (a < k)
  | .unbounded, _ => true

/-- The key passes this bound used as an upper end. -/
def below : Bound K → K → Bool
  | .included b, k => decide (k ≤ b)
  | .excluded b, k => decide (k < b)
  | .unbounded, _ => true

theorem above_mono (lo : Bound K) {a b : K} (hab : a ≤ b) (h : lo.above a = true) : lo.above b = true := by
  cases lo with
  | included c => exact decide_eq_true ((of_decide_eq_true h).trans hab)
  | excluded c => exact decide_eq_true ((of_decide_eq_true h).trans_le hab)
  | unbounded => rfl

theorem below_mono (hi : Bound K) {a b : K} (hab : a ≤ b) (h : hi.below b = true) : hi.below a = true := by
  cases hi with
  | included c => exact decide_eq_true (hab.trans (of_decide_eq_true h))
  | excluded c => exact decide_eq_true (hab.trans_lt (of_decide_eq_true h))
  | unbounded => rfl

end Bound

/-- Entries in strictly ascending key order. -/
structure OrdMap (K V : Type) [LinearOrder K] where
  entries : List (K × V)
  sorted : entries.Pairwise (fun a b => a.1 < b.1)

namespace OrdMap
variable {K V : Type} [LinearOrder K]

def empty : OrdMap K V := ⟨[], List.Pairwise.nil⟩

def find (k : K) : List (K × V) → Option V
  | [] => none
  | e::es => if e.1 = k then some e.2 else find k es

variable (m : OrdMap K V)

def get (k : K) : Option V := find k m.entries

def insertEntry (k : K) (v : V) : List (K × V) → List (K × V)
  | [] => [(k,v)]
  | e::es =>
    if k < e.1 then (k,v)::e::es
    else if k = e.1 then (k,v)::es
    else e :: insertEntry k v es

private theorem mem_insertEntry {k : K} {v : V} {es : List (K × V)} {x : K × V}
    (h : x ∈ insertEntry k v es) : x = (k,v) ∨ x ∈ es := by
  induction es with
  | nil => simpa [insertEntry] using h
  | cons e es ih =>
    simp only [insertEntry] at h
    split_ifs at h with h1 h2
    · simpa using h
    · simp only [mem_cons] at h ⊢
      tauto
    · simp only [mem_cons] at h ⊢
      rcases h with h | h
      · exact .inr (.inl h)
      · rcases ih h with h | h
        · exact .inl h
        · exact .inr (.inr h)

private theorem sorted_insertEntry {k : K} {v : V} {es : List (K × V)} (h : es.Pairwise (fun a b => a.1 < b.1)) :
    (insertEntry k v es).Pairwise (fun a b => a.1 < b.1) := by
  induction es with
  | nil => simp [insertEntry]
  | cons e es ih =>
    obtain ⟨he,hs⟩ := pairwise_cons.mp h
    simp only [insertEntry]
    split_ifs with h1 h2
    · refine pairwise_cons.mpr ⟨?_,h⟩
      intro x hx
      rcases mem_cons.mp hx with rfl | hx
      · exact h1
      · exact h1.trans (he x hx)
    · exact pairwise_cons.mpr ⟨fun x hx => h2 ▸ he x hx,hs⟩
    · refine pairwise_cons.mpr ⟨?_,ih hs⟩
      intro x hx
      rcases mem_insertEntry hx with rfl | hx
      · exact lt_of_le_of_ne (not_lt.mp h1) (symm h2)
      · exact he x hx

def insert (k : K) (v : V) : OrdMap K V :=
  ⟨insertEntry k v m.entries, sorted_insertEntry m.sorted⟩

theorem mem_insert {m : OrdMap K V} {k : K} {v : V} {x : K × V} (h : x ∈ (m.insert k v).entries) :
    x = (k,v) ∨ x ∈ m.entries := mem_insertEntry h

def erase (k : K) : OrdMap K V :=
  ⟨m.entries.filter (fun e => decide (e.1 ≠ k)), m.sorted.filter _⟩

/-- The entries between two bounds, in key order. -/
def range (lo hi : Bound K) : List (K × V) :=
  m.entries.filter (fun e => lo.above e.1 && hi.below e.1)

private theorem find_insertEntry (k : K) (v : V) (es : List (K × V)) (q : K) :
    find q (insertEntry k v es) = if q = k then some v else find q es := by
  induction es with
  | nil => simp only [insertEntry,find,eq_comm]
  | cons e es ih =>
    simp only [insertEntry]
    split_ifs with h1 h2 h3 h3 h3 <;> simp_all [find,eq_comm]

@[simp] theorem get_empty (k : K) : (empty : OrdMap K V).get k = none := rfl

theorem get_insert (k q : K) (v : V) :
    (m.insert k v).get q = if q = k then some v else m.get q :=
  find_insertEntry k v m.entries q

private theorem find_filter_ne (k q : K) (es : List (K × V)) :
    find q (es.filter (fun e => decide (e.1 ≠ k))) = if q = k then none else find q es := by
  induction es with
  | nil => simp [find]
  | cons e es ih =>
    by_cases h : e.1 = k
    · rw [filter_cons_of_neg (by simp [h]),ih]
      simp only [find,h]
      split_ifs <;> simp_all
    · rw [filter_cons_of_pos (by simp [h])]
      simp only [find,ih]
      split_ifs <;> simp_all

theorem get_erase (k q : K) :
    (m.erase k).get q = if q = k then none else m.get q :=
  find_filter_ne k q m.entries

theorem find_eq_some_iff {es : List (K × V)} (h : es.Pairwise (fun a b => a.1 < b.1)) (k : K) (v : V) :
    find k es = some v ↔ (k,v) ∈ es := by
  induction es with
  | nil => simp [find]
  | cons e es ih =>
    obtain ⟨he,hs⟩ := pairwise_cons.mp h
    obtain ⟨a,b⟩ := e
    simp only [find,mem_cons,Prod.mk.injEq]
    split_ifs with hk
    · subst hk
      have hn : (a,v) ∉ es := fun hm => lt_irrefl a (he (a,v) hm)
      simp [hn,eq_comm]
    · simp [ih hs,Ne.symm hk]

/-- Lookup is membership: keys of a map are distinct. -/
theorem get_eq_some_iff (k : K) (v : V) :
    m.get k = some v ↔ (k,v) ∈ m.entries :=
  find_eq_some_iff m.sorted k v

theorem mem_range (lo hi : Bound K) (k : K) (v : V) :
    (k,v) ∈ m.range lo hi ↔ m.get k = some v ∧ lo.above k = true ∧ hi.below k = true := by
  simp [range,get_eq_some_iff]

theorem range_sorted (lo hi : Bound K) :
    (m.range lo hi).Pairwise (fun a b => a.1 < b.1) :=
  m.sorted.filter _

/-- Strictly sorted lists with the same members are equal. -/
theorem sorted_ext {es fs : List (K × V)} (he : es.Pairwise (fun a b => a.1 < b.1))
    (hf : fs.Pairwise (fun a b => a.1 < b.1)) (h : ∀ x, x ∈ es ↔ x ∈ fs) : es = fs := by
  have asymm : ∀ a b : K × V, a ∈ es → b ∈ fs → a.1 < b.1 → b.1 < a.1 → a = b :=
    fun a b _ _ hab hba => (lt_asymm hab hba).elim
  have nodup : ∀ {xs : List (K × V)}, xs.Pairwise (fun a b => a.1 < b.1) → xs.Nodup :=
    fun hx => hx.imp (fun hlt heq => (ne_of_lt hlt) (congrArg Prod.fst heq))
  exact List.Perm.eq_of_pairwise asymm he hf
    ((perm_ext_iff_of_nodup (nodup he) (nodup hf)).mpr h)

@[ext] theorem ext_get {m n : OrdMap K V} (h : ∀ k, m.get k = n.get k) : m = n := by
  have he : m.entries = n.entries := by
    apply sorted_ext m.sorted n.sorted
    rintro ⟨k,v⟩
    rw [← get_eq_some_iff,← get_eq_some_iff,h]
  cases m; cases n; cases he; rfl

theorem nodup_entries : m.entries.Nodup :=
  m.sorted.imp (fun hlt heq => (ne_of_lt hlt) (congrArg Prod.fst heq))

theorem perm_insert {m : OrdMap K V} {k : K} (h : m.get k = none) (v : V) : (m.insert k v).entries.Perm ((k,v)::m.entries) := by
  have hnew : ∀ w, (k,w) ∉ m.entries := fun w hw => by simp [(m.get_eq_some_iff k w).mpr hw] at h
  refine (perm_ext_iff_of_nodup (m.insert k v).nodup_entries (nodup_cons.mpr ⟨hnew v,m.nodup_entries⟩)).mpr ?_
  rintro ⟨q,w⟩
  rw [← get_eq_some_iff,get_insert,mem_cons,← get_eq_some_iff]
  by_cases hq : q = k
  · subst hq
    simp [h,eq_comm]
  · simp [hq]

theorem perm_erase {m : OrdMap K V} {k : K} {v : V} (h : m.get k = some v) : m.entries.Perm ((k,v)::(m.erase k).entries) := by
  have hback : (m.erase k).insert k v = m := by
    ext1 q
    rw [get_insert,get_erase]
    split_ifs with hq
    · rw [hq,h]
    · rfl
  have hperm := perm_insert (m := m.erase k) (k := k) (by rw [get_erase,if_pos rfl]) v
  rwa [hback] at hperm

/-- The new entry of a key takes the place of the old one. -/
theorem sum_insert (f : K × V → Nat) (k : K) (v : V) : ((m.insert k v).entries.map f).sum +
    (m.get k).elim 0 (fun old => f (k,old)) = (m.entries.map f).sum + f (k,v) := by
  cases h : m.get k with
  | none => simp [((perm_insert h v).map f).sum_eq,add_comm]
  | some old =>
    have hback : m.insert k v = (m.erase k).insert k v := by
      ext1 q
      simp only [get_insert,get_erase]
      split_ifs <;> rfl
    have hnone : (m.erase k).get k = none := by rw [get_erase,if_pos rfl]
    rw [hback,((perm_insert hnone v).map f).sum_eq,((perm_erase h).map f).sum_eq]
    simp only [map_cons,sum_cons,Option.elim]
    omega

theorem length_insert_le (k : K) (v : V) : (m.insert k v).entries.length ≤ m.entries.length + 1 := by
  have := m.sum_insert (fun _ => 1) k v
  simp only [map_const',sum_replicate,smul_eq_mul,mul_one] at this
  omega

end OrdMap
end InterchangeDb
