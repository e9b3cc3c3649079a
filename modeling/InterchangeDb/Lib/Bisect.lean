import Mathlib

/-! Binary search for the end of the positions that pass a test. -/
namespace InterchangeDb
open List

/-- Halve the interval until it is empty; the fuel is its length. -/
def bisectLoop (p : Nat → Bool) : Nat → Nat → Nat → Nat
  | 0, lo, _ => lo
  | fuel+1, lo, hi =>
    if lo < hi then
      let mid := lo + (hi - lo) / 2
      if p mid then bisectLoop p fuel (mid+1) hi else bisectLoop p fuel lo mid
    else lo

def bisect (p : Nat → Bool) (n : Nat) : Nat := bisectLoop p n 0 n

private theorem bisectLoop_spec {p : Nat → Bool} {n : Nat} (hmono : ∀ i j, i ≤ j → j < n → p j = true → p i = true)
    {fuel lo hi : Nat} (hfuel : hi ≤ lo + fuel) (hle : lo ≤ hi) (hhi : hi ≤ n) (hlo : ∀ i < lo, p i = true)
    (hgt : ∀ i, hi ≤ i → i < n → p i = false) :
    bisectLoop p fuel lo hi ≤ n ∧ (∀ i < bisectLoop p fuel lo hi, p i = true) ∧
      ∀ i, bisectLoop p fuel lo hi ≤ i → i < n → p i = false := by
  induction fuel generalizing lo hi with
  | zero =>
    obtain rfl : lo = hi := by omega
    exact ⟨hhi,hlo,hgt⟩
  | succ fuel ih =>
    rw [bisectLoop]
    split_ifs with hlt
    · have hmid : lo + (hi - lo) / 2 < hi := by omega
      by_cases hp : p (lo + (hi - lo) / 2) = true
      · simp only [hp,if_true]
        refine ih (by omega) (by omega) hhi (fun i hi' => ?_) hgt
        exact hmono i _ (by omega) (by omega) hp
      · simp only [hp]
        refine ih (by omega) (by omega) (by omega) hlo (fun i hi' hn => ?_)
        by_contra hpi
        exact hp (hmono _ i hi' hn (by simpa using hpi))
    · obtain rfl : lo = hi := by omega
      exact ⟨hhi,hlo,hgt⟩

/-- On a test that passes exactly up to some position, the search finds that position. -/
theorem bisect_spec {p : Nat → Bool} {n : Nat} (hmono : ∀ i j, i ≤ j → j < n → p j = true → p i = true) :
    bisect p n ≤ n ∧ (∀ i < bisect p n, p i = true) ∧ ∀ i, bisect p n ≤ i → i < n → p i = false :=
  bisectLoop_spec hmono (by omega) (by omega) le_rfl (by omega) (by omega)

variable {A : Type*}

/-- The number of leading elements that pass the test, found by bisection. -/
def partitionPoint (p : A → Bool) (l : List A) : Nat := bisect (fun i => (l[i]?).elim false p) l.length

/-- The cut of a list in which the elements that pass the test stand first. -/
theorem partitionPoint_append {p : A → Bool} {as bs : List A} (ha : ∀ a ∈ as, p a = true)
    (hb : ∀ b ∈ bs, p b = false) : partitionPoint p (as ++ bs) = as.length := by
  have hlt : ∀ i, i < as.length → ((as ++ bs)[i]?).elim false p = true := by
    intro i hi
    rw [getElem?_append_left hi,getElem?_eq_getElem hi]
    exact ha _ (getElem_mem hi)
  have hge : ∀ i, as.length ≤ i → i < (as ++ bs).length → ((as ++ bs)[i]?).elim false p = false := by
    intro i hi hn
    have hib : i - as.length < bs.length := by
      rw [length_append] at hn
      omega
    rw [getElem?_append_right hi,getElem?_eq_getElem hib]
    exact hb _ (getElem_mem hib)
  obtain ⟨hle,hbelow,habove⟩ := bisect_spec (p := fun i => ((as ++ bs)[i]?).elim false p) (n := (as ++ bs).length) (by
    intro i j hij hj hpj
    by_contra hpi
    have : as.length ≤ i := by
      by_contra h
      exact hpi (hlt i (by omega))
    rw [hge j (by omega) hj] at hpj
    cases hpj)
  unfold partitionPoint
  generalize bisect _ _ = r at *
  rw [length_append] at *
  apply le_antisymm
  · by_contra hgt
    have h1 := hbelow as.length (by omega)
    rw [hge as.length le_rfl (by omega)] at h1
    cases h1
  · by_contra hgt
    have h1 := habove r le_rfl (by omega)
    rw [hlt r (by omega)] at h1
    cases h1

theorem exists_partition {p : A → Bool} {l : List A} (h : l.Pairwise (fun a b => p b = true → p a = true)) :
    ∃ as bs, l = as ++ bs ∧ (∀ a ∈ as, p a = true) ∧ (∀ b ∈ bs, p b = false) ∧ partitionPoint p l = as.length := by
  have hcut : ∃ as bs, l = as ++ bs ∧ (∀ a ∈ as, p a = true) ∧ ∀ b ∈ bs, p b = false := by
    induction l with
    | nil => exact ⟨[],[],rfl,by simp,by simp⟩
    | cons a l ih =>
      obtain ⟨ha,hl⟩ := pairwise_cons.mp h
      cases hp : p a with
      | true =>
        obtain ⟨as,bs,rfl,has,hbs⟩ := ih hl
        exact ⟨a::as,bs,rfl,by simpa [hp] using has,hbs⟩
      | false =>
        refine ⟨[],a::l,rfl,by simp,?_⟩
        intro b hb
        rcases mem_cons.mp hb with rfl | hb
        · exact hp
        · by_contra hpb
          have := ha b hb (by simpa using hpb)
          rw [hp] at this
          cases this
  obtain ⟨as,bs,rfl,has,hbs⟩ := hcut
  exact ⟨as,bs,rfl,has,hbs,partitionPoint_append has hbs⟩

theorem insertIdx_append (as bs : List A) (a : A) : (as ++ bs).insertIdx as.length a = as ++ a::bs := by
  induction as with
  | nil => rfl
  | cons x as ih => rw [cons_append,length_cons,insertIdx_succ_cons,ih,cons_append]

end InterchangeDb
