import InterchangeDb.Sql.Worth

/-! The equi-width histograms of ANALYZE. -/
namespace InterchangeDb.Histogram
open List Option

/-- Count one value. The count saturates; an index out of range stops the loop. -/
def bump (counts : List Nat) (b : Nat) : Option (List Nat) := counts[b]?.map (fun c => counts.set b (min (c+1) u32Max))

/-- One round of the loop of `build_equi_width_int_histogram`. A difference that leaves the 64 bits stops it. -/
def countValue (min span : Int) (numBuckets : Nat) (counts : List Nat) (v : BitVec 64) : Option (List Nat) := do
  let offset ← checkedInt 64 (v.toInt - min)
  let b := ((offset.toInt * numBuckets).tdiv span).toNat
  bump counts (if numBuckets ≤ b then numBuckets - 1 else b)

def countValues (min max : Int) (numBuckets : Nat) (values : List (BitVec 64)) : Option (List Nat) := do
  let width ← checkedInt 64 (max - min)
  let span := Max.max width.toInt 0 + 1
  values.foldlM (countValue min span numBuckets) (replicate numBuckets 0)

/-- The least and the greatest value, the number of buckets and their counts. -/
def blob (min max : Int) (numBuckets : Nat) (counts : List Nat) : Bytes :=
  toLeBytes 8 (BitVec.ofInt 64 min).toNat ++ toLeBytes 8 (BitVec.ofInt 64 max).toNat ++ toLeBytes 2 numBuckets
    ++ counts.flatMap (toLeBytes 4)

def buildEquiWidthIntHistogram (values : List (BitVec 64)) (numBuckets : Nat) : Option Bytes := do
  let min ← (values.map BitVec.toInt).min?
  let max ← (values.map BitVec.toInt).max?
  (countValues min max numBuckets values).map (blob min max numBuckets)

section Counting

private theorem sum_set_succ {counts : List Nat} {b c : Nat} (h : counts[b]? = some c) :
    (counts.set b (c+1)).sum = counts.sum + 1 := by
  induction counts generalizing b with
  | nil => cases h
  | cons x counts ih =>
    cases b with
    | zero =>
      cases h
      simp only [set_cons_zero,sum_cons]
      omega
    | succ b =>
      rw [set_cons_succ,sum_cons,sum_cons,ih h]
      omega

private theorem bump_eq {counts : List Nat} {b : Nat} (hb : b < counts.length) (hsum : counts.sum < u32Max) :
    ∃ cs, bump counts b = some cs ∧ cs.length = counts.length ∧ cs.sum = counts.sum + 1
      ∧ ∀ i, cs[i]? = counts[i]?.map (· + if b = i then 1 else 0) := by
  have hget : counts[b]? = some counts[b] := getElem?_eq_getElem hb
  have hle : counts[b] ≤ counts.sum := single_le_sum (by simp) _ (getElem_mem hb)
  refine ⟨counts.set b (counts[b] + 1),?_,length_set,sum_set_succ hget,fun i => ?_⟩
  · rw [bump,hget,map_some,min_eq_left (by omega)]
  · rw [getElem?_set]
    split_ifs with hi
    · subst hi
      rw [hget]
      rfl
    · cases counts[i]? <;> rfl

private theorem foldlM_bump {A : Type} {step : List Nat → A → Option (List Nat)} {bucket : A → Nat} {vs : List A}
    {counts : List Nat} (hstep : ∀ cs, ∀ v ∈ vs, step cs v = bump cs (bucket v)) (hb : ∀ v ∈ vs, bucket v < counts.length)
    (hsum : counts.sum + vs.length ≤ u32Max) :
    ∃ cs, vs.foldlM step counts = some cs ∧ cs.length = counts.length ∧ cs.sum = counts.sum + vs.length
      ∧ ∀ i, cs[i]? = counts[i]?.map (· + vs.countP (bucket · = i)) := by
  induction vs generalizing counts with
  | nil => exact ⟨counts,rfl,rfl,rfl,fun i => by simp⟩
  | cons v vs ih =>
    rw [length_cons] at hsum
    obtain ⟨cs,hcs,hlen,htotal,hcounts⟩ := bump_eq (hb v mem_cons_self) (by omega)
    obtain ⟨out,hout,hlen',htotal',hcounts'⟩ := @ih cs (fun cs w hw => hstep cs w (mem_cons_of_mem v hw))
      (fun w hw => hlen.symm ▸ hb w (mem_cons_of_mem v hw)) (by omega)
    refine ⟨out,?_,hlen'.trans hlen,by rw [htotal',htotal,length_cons]; omega,fun i => ?_⟩
    · rw [foldlM_cons,hstep counts v mem_cons_self,hcs]
      exact hout
    · rw [hcounts',hcounts,Option.map_map,countP_cons]
      congr 1
      funext c
      simp only [Function.comp_apply,decide_eq_true_eq]
      omega

end Counting

section
variable {least greatest : Int} {n : Nat} {values : List (BitVec 64)} {v : BitVec 64}

/-- The share of the range below a value, in buckets. -/
private def share (least greatest : Int) (n : Nat) (v : BitVec 64) : Nat :=
  ((v.toInt - least) * n / (greatest - least + 1)).toNat

private theorem share_lt (hv : least ≤ v.toInt ∧ v.toInt ≤ greatest) (hn : 0 < n) : share least greatest n v < n := by
  have hlt : (v.toInt - least) * n / (greatest - least + 1) < n := by
    refine Int.ediv_lt_of_lt_mul (by omega) ?_
    rw [mul_comm]
    exact mul_lt_mul_of_pos_left (by omega) (by omega)
  exact Int.toNat_lt_of_ne_zero hn.ne' |>.mpr hlt

private theorem checked_sub {a b : Int} (h : a ≤ b ∧ b - a < 2^63) : ∃ d, checkedInt 64 (b - a) = some d ∧ d.toInt = b - a :=
  have hd : checkedInt 64 (b - a) = some (BitVec.ofInt 64 (b - a)) := if_pos (by omega)
  ⟨_,hd,checkedInt_eq_some_iff.mp hd⟩

private theorem countValue_eq (hwidth : greatest - least < 2^63) (hv : least ≤ v.toInt ∧ v.toInt ≤ greatest) (hn : 0 < n)
    (counts : List Nat) : countValue least (greatest - least + 1) n counts v = bump counts (share least greatest n v) := by
  obtain ⟨offset,ho,ho'⟩ := @checked_sub least v.toInt (by omega)
  rw [countValue,ho,bind_eq_bind,bind_some,ho',
    Int.tdiv_eq_ediv_of_nonneg (mul_nonneg (by omega) (by omega))]
  exact congrArg (bump counts) (if_neg (share_lt hv hn).not_ge)

private theorem countValues_eq (hwidth : greatest - least < 2^63) (hn : 0 < n) (hle : least ≤ greatest)
    (hv : ∀ v ∈ values, least ≤ v.toInt ∧ v.toInt ≤ greatest) (hlen : values.length < 2^32) :
    ∃ counts, countValues least greatest n values = some counts ∧ counts.length = n ∧ counts.sum = values.length
      ∧ ∀ i < n, counts[i]? = some (values.countP (share least greatest n · = i)) := by
  obtain ⟨width,hw,hw'⟩ := checked_sub ⟨hle,hwidth⟩
  have hspan : Max.max width.toInt 0 + 1 = greatest - least + 1 := by omega
  have hroom : (replicate n 0).sum + values.length ≤ u32Max := by
    rw [sum_replicate,smul_zero,zero_add]
    exact Nat.le_of_lt_succ hlen
  obtain ⟨counts,hcounts,hl,hs,hi⟩ := foldlM_bump (fun cs v hmem => countValue_eq hwidth (hv v hmem) hn cs)
    (fun v hmem => length_replicate.symm ▸ share_lt (hv v hmem) hn) hroom
  refine ⟨counts,?_,by simpa using hl,by simpa using hs,fun i hlt => ?_⟩
  · rw [countValues,hw,bind_eq_bind,bind_some,hspan]
    exact hcounts
  · rw [hi,getElem?_replicate_of_lt hlt]
    simp

/-- The counts are right exactly if the values lie less than 2^63 apart: then every value is counted in a bucket, the
buckets follow the values, and the least value is in the first. -/
theorem histogram_counts_iff (hmin : (values.map BitVec.toInt).min? = some least)
    (hmax : (values.map BitVec.toInt).max? = some greatest) (hlen : values.length < 2^32) (hn : 0 < n) :
    (∃ counts, ∃ bucket : BitVec 64 → Nat, buildEquiWidthIntHistogram values n = some (blob least greatest n counts)
      ∧ counts.length = n ∧ counts.sum = values.length ∧ (∀ i < n, counts[i]? = some (values.countP (bucket · = i)))
      ∧ ∀ v ∈ values, bucket v < n ∧ (v.toInt = least → bucket v = 0)
        ∧ ∀ w ∈ values, v.toInt ≤ w.toInt → bucket v ≤ bucket w)
    ↔ greatest - least < 2^63 := by
  obtain ⟨hmem,hlo⟩ := min?_eq_some_iff.mp hmin
  obtain ⟨-,hhi⟩ := max?_eq_some_iff.mp hmax
  have hbuild : buildEquiWidthIntHistogram values n =
      (countValues least greatest n values).map (blob least greatest n) := by
    rw [buildEquiWidthIntHistogram,hmin,hmax]
    rfl
  have hv : ∀ v ∈ values, least ≤ v.toInt ∧ v.toInt ≤ greatest :=
    fun v hv => ⟨hlo _ (mem_map_of_mem hv),hhi _ (mem_map_of_mem hv)⟩
  constructor
  · rintro ⟨counts,bucket,hsome,-⟩
    by_contra hwide
    rw [hbuild,countValues,show checkedInt 64 (greatest - least) = none from if_neg (by omega)] at hsome
    cases hsome
  · intro hwidth
    obtain ⟨counts,hcounts,hl,hs,hi⟩ := countValues_eq hwidth hn (hhi _ hmem) hv hlen
    refine ⟨counts,share least greatest n,by rw [hbuild,hcounts]; rfl,hl,hs,hi,fun v hmem => ?_⟩
    refine ⟨share_lt (hv v hmem) hn,fun heq => ?_,fun w hw hle => ?_⟩
    · simp [share,heq]
    · refine Int.toNat_le_toNat (Int.ediv_le_ediv ?_ (mul_le_mul_of_nonneg_right ?_ ?_))
      · have := hv v hmem
        omega
      · omega
      · omega

/-- The values of a column in two buckets. -/
theorem histogram_counts_iff_pair : ∃ counts, ∃ bucket : BitVec 64 → Nat,
    buildEquiWidthIntHistogram [3,9] 2 = some (blob 3 9 2 counts) ∧ counts.sum = 2 ∧ bucket 3 < 2 := by
  obtain ⟨counts,bucket,hbuild,-,hsum,-,hbucket⟩ :=
    (@histogram_counts_iff 3 9 2 [3,9] (by decide) (by decide) (by decide) (by decide)).mpr (by decide)
  exact ⟨counts,bucket,hbuild,hsum,(hbucket 3 (by decide)).1⟩

/-- The least and the greatest number in one column. -/
theorem histogram_overflows : buildEquiWidthIntHistogram [BitVec.ofInt 64 (-2^63+1),BitVec.ofInt 64 (2^63-1)] 16 = none := by
  decide

end

end InterchangeDb.Histogram
