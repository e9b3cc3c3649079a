import InterchangeDb.Sql.Numeric

/-! What values are worth: values of one kind compare by it, and join keys and coercions keep it. -/
namespace InterchangeDb
open Option Nat

/-- Values of one kind compare. -/
inductive Kind where
  | number
  | text
  | bytes
  | boolean
  | timestamp
  | date
  deriving DecidableEq, Repr

def Decimal.worth (d : Decimal) : ℚ := d.mantissa.toInt / 10^d.scale.val

namespace Value

/-- A null has no kind. -/
def kind : Value → Option Kind
  | .null => none
  | .int32 _ | .int64 _ | .decimal _ => some .number
  | .varchar _ | .char _ => some .text
  | .bytes _ => some .bytes
  | .boolean _ => some .boolean
  | .timestamp _ => some .timestamp
  | .date _ => some .date

/-- Numbers by what they are worth, texts by their bytes. -/
def worth : Value → ℚ ×ₗ Bytes
  | .null => toLex (0,[])
  | .int32 n => toLex (n.toInt,[])
  | .int64 n => toLex (n.toInt,[])
  | .decimal d => toLex (d.worth,[])
  | .varchar s => toLex (0,s.val)
  | .char s => toLex (0,s.val)
  | .bytes b => toLex (0,b)
  | .boolean b => toLex (if b then 1 else 0,[])
  | .timestamp t => toLex (t.toInt,[])
  | .date days => toLex (days.toInt,[])

end Value

section Comparison

private theorem cmp_worth_number (a b : ℚ) : cmp (toLex (a,[]) : ℚ ×ₗ Bytes) (toLex (b,[])) = cmp a b := by
  have hmono : StrictMono (fun n : ℚ => (toLex (n,[]) : ℚ ×ₗ Bytes)) :=
    fun m n h => Prod.Lex.toLex_lt_toLex.mpr (.inl h)
  exact hmono.cmp_map_eq a b

private theorem cmp_worth_int (a b : ℤ) : cmp (toLex ((a : ℚ),[]) : ℚ ×ₗ Bytes) (toLex ((b : ℚ),[])) = cmp a b := by
  rw [cmp_worth_number]
  exact (Int.cast_strictMono (R := ℚ)).cmp_map_eq a b

private theorem cmp_worth_text (a b : Bytes) : cmp (toLex (0,a) : ℚ ×ₗ Bytes) (toLex (0,b)) = cmp a b := by
  have hmono : StrictMono (fun s : Bytes => (toLex (0,s) : ℚ ×ₗ Bytes)) :=
    fun m n h => Prod.Lex.toLex_lt_toLex.mpr (.inr ⟨rfl,h⟩)
  refine (hmono.cmp_map_eq a b).trans ?_
  unfold cmp
  congr

private theorem cmp_scaled (a b : ℤ) (s t : ℕ) : cmp ((a : ℚ) / 10^s) ((b : ℚ) / 10^t) = cmp (a * 10^t) (b * 10^s) := by
  have hs : (0 : ℚ) < 10^s := by positivity
  have ht : (0 : ℚ) < 10^t := by positivity
  have hlt : ∀ {m n : ℤ} {u v : ℕ}, (m : ℚ) / 10^u < n / 10^v ↔ m * 10^v < n * 10^u := by
    intro m n u v
    rw [div_lt_div_iff₀ (by positivity) (by positivity)]
    exact_mod_cast Iff.rfl
  rcases lt_trichotomy (a * 10^t) (b * 10^s) with h | h | h
  · rw [(cmp_eq_lt_iff _ _).mpr h,cmp_eq_lt_iff]
    exact hlt.mpr h
  · rw [(cmp_eq_eq_iff _ _).mpr h,cmp_eq_eq_iff,div_eq_div_iff hs.ne' ht.ne']
    exact_mod_cast h
  · rw [(cmp_eq_gt_iff _ _).mpr h,cmp_eq_gt_iff]
    exact hlt.mpr h

theorem Decimal.compare_worth (a b : Decimal) : a.compare b = cmp a.worth b.worth := by
  rw [worth,worth,cmp_scaled,compare]
  split
  · next h =>
    rw [h]
    have hmono : StrictMono (fun n : ℤ => n * 10^b.scale.val) := fun m n hmn => mul_lt_mul_of_pos_right hmn (by positivity)
    exact (hmono.cmp_map_eq _ _).symm
  · rfl

theorem Decimal.compareInt_worth (n : ℤ) (d : Decimal) : d.compareInt n = cmp (n : ℚ) d.worth := by
  have h := cmp_scaled n d.mantissa.toInt 0 d.scale.val
  rw [pow_zero,pow_zero,div_one,mul_one] at h
  exact h.symm

namespace Value

/-- Values compare exactly if they are of one kind, and then by what they are worth. -/
theorem compareSql_eq (a b : Value) :
    a.compareSql b = if a.kind ≠ none ∧ a.kind = b.kind then some (cmp a.worth b.worth) else none := by
  cases a <;> cases b <;> simp only [kind,compareSql,worth,ne_eq,reduceCtorEq,not_true_eq_false,not_false_eq_true,
    some.injEq,and_true,and_false,if_true,if_false,cmp_worth_int,cmp_worth_text]
  case boolean.boolean p q =>
    rw [cmp_worth_number]
    cases p <;> cases q <;> rfl
  case decimal.decimal c d => rw [cmp_worth_number,Decimal.compare_worth]
  case int32.decimal n d | int64.decimal n d => rw [cmp_worth_number,Decimal.compareInt_worth]
  case decimal.int32 d n | decimal.int64 d n => rw [cmp_worth_number,Decimal.compareInt_worth,cmp_swap]

theorem compareSql_eq_iff {a b : Value} :
    a.compareSql b = some .eq ↔ a.kind ≠ none ∧ a.kind = b.kind ∧ a.worth = b.worth := by
  rw [compareSql_eq]
  split
  · next h => rw [some.injEq,cmp_eq_eq_iff,and_iff_right h.1,and_iff_right h.2]
  · next h =>
    constructor
    · exact nofun
    · exact fun h' => absurd ⟨h'.1,h'.2.1⟩ h

theorem compareSql_eq_comm {a b : Value} : a.compareSql b = some .eq ↔ b.compareSql a = some .eq := by
  rw [compareSql_eq_iff,compareSql_eq_iff]
  constructor <;> rintro ⟨hkind,heq,hworth⟩ <;> exact ⟨heq ▸ hkind,heq.symm,hworth.symm⟩

theorem kind_eq_none_iff {v : Value} : v.kind = none ↔ v = .null := by
  cases v <;> simp [kind]

end Value

end Comparison

section Normalized

private theorem toInt_ten : (10 : BitVec 64).toInt = 10 := by decide

theorem Decimal.stripZeros_spec (mantissa : BitVec 64) (scale : ℕ) :
    (stripZeros mantissa scale).2 ≤ scale
      ∧ mantissa.toInt = (stripZeros mantissa scale).1.toInt * 10^(scale - (stripZeros mantissa scale).2)
      ∧ ((stripZeros mantissa scale).2 = 0 ∨ ¬(10 : ℤ) ∣ (stripZeros mantissa scale).1.toInt) := by
  induction scale generalizing mantissa with
  | zero => simp [stripZeros]
  | succ scale ih =>
    have hdvd : mantissa.srem 10 = 0 ↔ (10 : ℤ) ∣ mantissa.toInt := by
      rw [← BitVec.toInt_inj,BitVec.toInt_srem,toInt_ten]
      exact Int.dvd_iff_tmod_eq_zero.symm
    rw [stripZeros]
    split
    · next h =>
      have hten := hdvd.mp h
      have hdiv : (mantissa.sdiv 10).toInt * 10 = mantissa.toInt := by
        rw [BitVec.toInt_sdiv_of_ne_or_ne _ _ (.inr (by decide)),toInt_ten]
        exact Int.tdiv_mul_cancel hten
      obtain ⟨hle,hmantissa,hzeros⟩ := ih (mantissa.sdiv 10)
      refine ⟨hle.trans (le_succ _),?_,hzeros⟩
      rw [← hdiv,hmantissa,succ_sub hle,pow_succ,mul_assoc]
    · next h => exact ⟨le_rfl,by simp,.inr (fun hten => h (hdvd.mpr hten))⟩

private theorem scaled_eq_iff {m n : ℤ} {s t : ℕ} (hle : s ≤ t) : (m : ℚ) / 10^s = n / 10^t ↔ m * 10^(t-s) = n := by
  obtain ⟨k,rfl⟩ := Nat.exists_eq_add_of_le hle
  rw [div_eq_div_iff (by positivity) (by positivity),Nat.add_sub_cancel_left,pow_add,← mul_assoc,
    mul_right_comm,mul_left_inj' (by positivity)]
  exact_mod_cast Iff.rfl

private theorem scaled_inj {m n : ℤ} {s t : ℕ} (hm : s = 0 ∨ ¬(10 : ℤ) ∣ m) (hn : t = 0 ∨ ¬(10 : ℤ) ∣ n)
    (h : (m : ℚ) / 10^s = n / 10^t) : m = n ∧ s = t := by
  rcases lt_trichotomy s t with hlt | rfl | hgt
  · -- the longer fraction ends in a zero
    have hn' := (scaled_eq_iff hlt.le).mp h
    refine absurd ?_ (hn.resolve_left (ne_zero_of_lt hlt))
    exact hn' ▸ Dvd.dvd.mul_left (dvd_pow_self 10 (sub_ne_zero_of_lt hlt)) m
  · exact ⟨by simpa using (scaled_eq_iff le_rfl).mp h,rfl⟩
  · have hm' := (scaled_eq_iff hgt.le).mp h.symm
    refine absurd ?_ (hm.resolve_left (ne_zero_of_lt hgt))
    exact hm' ▸ Dvd.dvd.mul_left (dvd_pow_self 10 (sub_ne_zero_of_lt hgt)) n

namespace Value

private def Normal : Value → Prop
  | .int32 _ | .char _ => False
  | .decimal d => d.scale.val ≠ 0 ∧ ¬(10 : ℤ) ∣ d.mantissa.toInt
  | _ => True

private theorem joinKeyNormalized_spec (v : Value) :
    v.joinKeyNormalized.kind = v.kind ∧ v.joinKeyNormalized.worth = v.worth ∧ v.joinKeyNormalized.Normal := by
  cases v with
  | int32 n =>
    refine ⟨rfl,?_,trivial⟩
    rw [joinKeyNormalized,worth,worth,BitVec.toInt_signExtend_of_le (by decide)]
  | decimal d =>
    obtain ⟨hle,hmantissa,hzeros⟩ := Decimal.stripZeros_spec d.mantissa d.scale.val
    have hworth : d.worth = (Decimal.stripZeros d.mantissa d.scale.val).1.toInt
        / 10^(Decimal.stripZeros d.mantissa d.scale.val).2 := by
      rw [Decimal.worth,div_eq_div_iff (by positivity) (by positivity),hmantissa]
      push_cast
      rw [mul_assoc,← pow_add,Nat.sub_add_cancel hle]
    simp only [joinKeyNormalized]
    split
    · next h =>
      refine ⟨rfl,?_,trivial⟩
      rw [worth,worth,hworth,h,pow_zero,div_one]
    · next h =>
      have hscale : (Fin.ofNat 19 (Decimal.stripZeros d.mantissa d.scale.val).2).val
          = (Decimal.stripZeros d.mantissa d.scale.val).2 := mod_eq_of_lt (hle.trans_lt d.scale.isLt)
      refine ⟨rfl,?_,?_⟩
      · rw [worth,worth,hworth,Decimal.worth,hscale]
      · exact ⟨by rw [hscale]; exact h,hzeros.resolve_left h⟩
  | _ => exact ⟨rfl,rfl,trivial⟩

private theorem toLex_number_inj {a b : ℚ} (h : (toLex (a,[]) : ℚ ×ₗ Bytes) = toLex (b,[])) : a = b :=
  congrArg Prod.fst (toLex_inj.mp h)

private theorem toLex_text_inj {a b : Bytes} (h : (toLex (0,a) : ℚ ×ₗ Bytes) = toLex (0,b)) : a = b :=
  congrArg Prod.snd (toLex_inj.mp h)

private theorem toLex_int_inj {w : ℕ} {a b : BitVec w}
    (h : (toLex ((a.toInt : ℚ),[]) : ℚ ×ₗ Bytes) = toLex ((b.toInt : ℚ),[])) : a = b :=
  BitVec.toInt_inj.mp (Int.cast_injective (toLex_number_inj h))

private theorem normal_inj {a b : Value} (ha : a.Normal) (hb : b.Normal) (hkind : a.kind = b.kind)
    (hworth : a.worth = b.worth) : a = b := by
  cases a <;> cases b <;> try first | exact ha.elim | exact hb.elim | (cases hkind; done)
  case int64.int64 | timestamp.timestamp | date.date => rw [toLex_int_inj hworth]
  case varchar.varchar => rw [Subtype.ext (toLex_text_inj hworth)]
  case bytes.bytes => rw [toLex_text_inj hworth]
  case boolean.boolean p q => cases p <;> cases q <;> first | rfl | exact absurd (toLex_number_inj hworth) (by simp)
  case null.null => rfl
  case int64.decimal n d =>
    have h := toLex_number_inj hworth
    rw [← div_one (n.toInt : ℚ),← pow_zero 10] at h
    exact absurd (scaled_inj (.inl rfl) (.inr hb.2) h).2.symm hb.1
  case decimal.int64 d n =>
    have h := toLex_number_inj hworth
    rw [← div_one (n.toInt : ℚ),← pow_zero 10] at h
    exact absurd (scaled_inj (.inr ha.2) (.inl rfl) h).2 ha.1
  case decimal.decimal c d =>
    obtain ⟨hmantissa,hscale⟩ := scaled_inj (.inr ha.2) (.inr hb.2) (toLex_number_inj hworth)
    obtain ⟨cm,cs⟩ := c
    obtain ⟨dm,ds⟩ := d
    obtain rfl : cm = dm := BitVec.toInt_inj.mp hmantissa
    obtain rfl : cs = ds := Fin.ext hscale
    rfl

/-- Values that compare as equal, and no others, have the same key in the hash table. -/
theorem joinKeyNormalized_eq_iff {a b : Value} :
    a.joinKeyNormalized = b.joinKeyNormalized ↔ a.kind = b.kind ∧ a.worth = b.worth := by
  obtain ⟨hakind,haworth,ha⟩ := joinKeyNormalized_spec a
  obtain ⟨hbkind,hbworth,hb⟩ := joinKeyNormalized_spec b
  constructor
  · intro h
    exact ⟨by rw [← hakind,← hbkind,h],by rw [← haworth,← hbworth,h]⟩
  · rintro ⟨hkind,hworth⟩
    exact normal_inj ha hb (by rw [hakind,hbkind,hkind]) (by rw [haworth,hbworth,hworth])

end Value

end Normalized

section Exact

theorem toInt_ofInt_of_bounds {w : ℕ} {n : ℤ} (h : -2^w ≤ n ∧ n < 2^w) : (BitVec.ofInt (w+1) n).toInt = n := by
  rw [BitVec.toInt_ofInt]
  exact Int.bmod_eq_of_le (by grind) (by grind)

theorem checkedInt_eq_some_iff {w : ℕ} {n : ℤ} {m : BitVec (w+1)} : checkedInt (w+1) n = some m ↔ m.toInt = n := by
  rw [checkedInt,ite_none_right_eq_some,some.injEq,Nat.add_sub_cancel]
  constructor
  · rintro ⟨h,rfl⟩
    exact toInt_ofInt_of_bounds h
  · rintro rfl
    exact ⟨⟨BitVec.le_toInt m,BitVec.toInt_lt⟩,BitVec.ofInt_toInt⟩

namespace Value
variable {ty : ColumnType} {m k : ℤ} {scale : Fin 19} {w v : Value}

/-- Values of one type that are worth the same are the same. -/
theorem eq_of_worth {a b : Value} (ha : a.matchesType ty = true) (hb : b.matchesType ty = true)
    (hkind : a.kind = b.kind) (hworth : a.worth = b.worth) : a = b := by
  cases ty <;> cases a <;> try (cases ha; done)
  all_goals cases b <;> try first | rfl | (cases hb; done) | (cases hkind; done)
  case decimal.decimal.decimal precision scale c d =>
    obtain ⟨m,s⟩ := c
    obtain ⟨n,t⟩ := d
    obtain rfl : s = scale := of_decide_eq_true ha
    obtain rfl : t = s := of_decide_eq_true hb
    obtain rfl : m = n := BitVec.toInt_inj.mp (by simpa using (scaled_eq_iff le_rfl).mp (toLex_number_inj hworth))
    rfl
  case boolean.boolean.boolean p q =>
    cases p <;> cases q <;> first | rfl | exact absurd (toLex_number_inj hworth) (by simp)
  all_goals first
    | rw [toLex_int_inj hworth]
    | rw [Subtype.ext (toLex_text_inj hworth)]
    | rw [toLex_text_inj hworth]

theorem decimalExact_eq_some_iff :
    decimalExact m scale = some w ↔ ∃ b : BitVec 64, b.toInt = m ∧ w = .decimal ⟨b,scale⟩ := by
  simp [decimalExact,map_eq_some_iff,checkedInt_eq_some_iff,@eq_comm _ w]

private theorem tdiv_eq_iff {p : ℤ} (hp : p ≠ 0) : m.tmod p = 0 ∧ m.tdiv p = k ↔ k * p = m := by
  rw [← Int.dvd_iff_tmod_eq_zero]
  constructor
  · rintro ⟨hdvd,rfl⟩
    exact Int.tdiv_mul_cancel hdvd
  · rintro rfl
    exact ⟨Int.dvd_mul_left _ _,Int.mul_tdiv_cancel _ hp⟩

theorem intExact_eq_some_iff {d : Decimal} :
    intExact d = some k ↔ k * 10^d.scale.val = d.mantissa.toInt := by
  rw [intExact,ite_none_right_eq_some,some.injEq]
  exact tdiv_eq_iff (pow_ne_zero _ (by decide))

private theorem toInt_ofInt_of_mul {m : BitVec 64} {s : ℕ} (h : k * 10^s = m.toInt) :
    (BitVec.ofInt 64 k).toInt = k := by
  have hlo := BitVec.le_toInt m
  have hhi := BitVec.toInt_lt (x := m)
  have hone : (1 : ℤ) ≤ 10^s := one_le_pow₀ (by decide)
  refine toInt_ofInt_of_bounds ⟨?_,?_⟩
  · rcases le_or_gt 0 k with hk | hk
    · exact (by decide : (-2^63 : ℤ) ≤ 0).trans hk
    · exact (h ▸ hlo).trans (mul_le_of_one_le_right hk.le hone)
  · rcases le_or_gt 0 k with hk | hk
    · exact (le_mul_of_one_le_right hk hone).trans_lt (h ▸ hhi)
    · exact hk.trans (by decide)

private theorem toLex_number_eq_iff {a b : ℚ} : (toLex (a,[]) : ℚ ×ₗ Bytes) = toLex (b,[]) ↔ a = b :=
  ⟨toLex_number_inj,fun h => h ▸ rfl⟩

private theorem int_worth_iff {n : ℤ} {d : Decimal} : (n : ℚ) = d.worth ↔ n * 10^d.scale.val = d.mantissa.toInt := by
  have h := scaled_eq_iff (m := n) (n := d.mantissa.toInt) (zero_le d.scale.val)
  rwa [pow_zero,div_one,Nat.sub_zero] at h

private theorem rescale_worth_iff {c d : Decimal} (h : c.scale ≤ d.scale) :
    c.worth = d.worth ↔ c.mantissa.toInt * 10^(d.scale.val - c.scale.val) = d.mantissa.toInt :=
  scaled_eq_iff h

private theorem coerceExact_spec (h : v.coerceExact ty = some w) :
    w.matchesType ty = true ∧ w.kind = v.kind ∧ w.worth = v.worth := by
  unfold coerceExact at h
  split at h
  · obtain ⟨m,hm,rfl⟩ := map_eq_some_iff.mp h
    rw [checkedInt_eq_some_iff] at hm
    exact ⟨rfl,rfl,by rw [worth,worth,hm]⟩
  · cases h
    exact ⟨rfl,rfl,by rw [worth,worth,BitVec.toInt_signExtend_of_le (by decide)]⟩
  · obtain ⟨b,hb,rfl⟩ := decimalExact_eq_some_iff.mp h
    exact ⟨decide_eq_true rfl,rfl,toLex_number_eq_iff.mpr (int_worth_iff.mpr hb.symm).symm⟩
  · obtain ⟨b,hb,rfl⟩ := decimalExact_eq_some_iff.mp h
    exact ⟨decide_eq_true rfl,rfl,toLex_number_eq_iff.mpr (int_worth_iff.mpr hb.symm).symm⟩
  · obtain ⟨n,hn,h⟩ := bind_eq_some_iff.mp h
    obtain ⟨m,hm,rfl⟩ := map_eq_some_iff.mp h
    rw [checkedInt_eq_some_iff] at hm
    exact ⟨rfl,rfl,toLex_number_eq_iff.mpr (int_worth_iff.mpr (hm ▸ intExact_eq_some_iff.mp hn))⟩
  · obtain ⟨n,hn,rfl⟩ := map_eq_some_iff.mp h
    have hn := intExact_eq_some_iff.mp hn
    refine ⟨rfl,rfl,toLex_number_eq_iff.mpr (int_worth_iff.mpr ?_)⟩
    rw [toInt_ofInt_of_mul hn,hn]
  · split_ifs at h with hsame hless hzeros
    · cases h
      exact ⟨decide_eq_true hsame,rfl,rfl⟩
    · obtain ⟨b,hb,rfl⟩ := decimalExact_eq_some_iff.mp h
      exact ⟨decide_eq_true rfl,rfl,toLex_number_eq_iff.mpr ((rescale_worth_iff hless.le).mpr hb.symm).symm⟩
    · cases h
      have hmul := (tdiv_eq_iff (pow_ne_zero _ (by decide))).mp ⟨hzeros,rfl⟩
      refine ⟨decide_eq_true rfl,rfl,toLex_number_eq_iff.mpr ((rescale_worth_iff (not_lt.mp hless)).mpr ?_)⟩
      rw [toInt_ofInt_of_mul hmul,hmul]
  · cases h
    exact ⟨rfl,rfl,rfl⟩
  · cases h
    exact ⟨rfl,rfl,rfl⟩
  · obtain ⟨hmatches,heq⟩ := ite_none_right_eq_some.mp h
    cases heq
    exact ⟨hmatches,rfl,rfl⟩

/-- What a value is turned into is the value of the type that is worth the same. -/
theorem coerceExact_eq_some_iff :
    v.coerceExact ty = some w ↔ w.matchesType ty = true ∧ w.kind = v.kind ∧ w.worth = v.worth := by
  refine ⟨coerceExact_spec,?_⟩
  rintro ⟨hmatches,hkind,hworth⟩
  have hnull : v ≠ .null → w ≠ .null := fun hv hw => hv (kind_eq_none_iff.mp (hkind.symm.trans (kind_eq_none_iff.mpr hw)))
  -- some value is found, and there is but one
  suffices hsome : ∃ u, v.coerceExact ty = some u by
    obtain ⟨u,hu⟩ := hsome
    obtain ⟨humatches,hukind,huworth⟩ := coerceExact_spec hu
    rw [hu,eq_of_worth humatches hmatches (hukind.trans hkind.symm) (huworth.trans hworth.symm)]
  unfold coerceExact
  split
  · obtain ⟨n,rfl⟩ := int32_of_matches (hnull nofun) hmatches
    exact ⟨_,map_eq_some_iff.mpr
      ⟨n,checkedInt_eq_some_iff.mpr (Int.cast_injective (toLex_number_inj hworth)),rfl⟩⟩
  · exact ⟨_,rfl⟩
  · obtain ⟨b,rfl⟩ := decimal_of_matches (hnull nofun) hmatches
    exact ⟨_,decimalExact_eq_some_iff.mpr ⟨b,(int_worth_iff.mp (toLex_number_inj hworth).symm).symm,rfl⟩⟩
  · obtain ⟨b,rfl⟩ := decimal_of_matches (hnull nofun) hmatches
    exact ⟨_,decimalExact_eq_some_iff.mpr ⟨b,(int_worth_iff.mp (toLex_number_inj hworth).symm).symm,rfl⟩⟩
  · obtain ⟨n,rfl⟩ := int32_of_matches (hnull nofun) hmatches
    have hn := intExact_eq_some_iff.mpr (int_worth_iff.mp (toLex_number_inj hworth))
    exact ⟨_,bind_eq_some_iff.mpr ⟨_,hn,map_eq_some_iff.mpr ⟨n,checkedInt_eq_some_iff.mpr rfl,rfl⟩⟩⟩
  · obtain ⟨n,rfl⟩ := int64_of_matches (hnull nofun) hmatches
    have hn := intExact_eq_some_iff.mpr (int_worth_iff.mp (toLex_number_inj hworth))
    exact ⟨_,map_eq_some_iff.mpr ⟨_,hn,rfl⟩⟩
  · obtain ⟨b,rfl⟩ := decimal_of_matches (hnull nofun) hmatches
    split_ifs with hsame hless hzeros
    · exact ⟨_,rfl⟩
    · exact ⟨_,decimalExact_eq_some_iff.mpr
        ⟨b,((rescale_worth_iff hless.le).mp (toLex_number_inj hworth).symm).symm,rfl⟩⟩
    · exact ⟨_,rfl⟩
    · have hmul := (rescale_worth_iff (not_lt.mp hless)).mp (toLex_number_inj hworth)
      exact absurd ((tdiv_eq_iff (pow_ne_zero _ (by decide))).mpr hmul).1 hzeros
  · exact ⟨_,rfl⟩
  · exact ⟨_,rfl⟩
  · have hv : v.matchesType ty = true := by
      cases ty <;> cases w <;> try (cases hmatches; done)
      all_goals cases v <;> first | rfl | (cases hkind; done) | grind
    exact ⟨v,if_pos hv⟩

/-- Two values compare, and the first is not the greater one. -/
def AtMost (a b : Value) : Prop := ∃ ord, a.compareSql b = some ord ∧ ord ≠ .gt

theorem atMost_iff {a b : Value} : a.AtMost b ↔ a.kind ≠ none ∧ a.kind = b.kind ∧ a.worth ≤ b.worth := by
  rw [AtMost,compareSql_eq]
  split_ifs with h
  · simp [some.injEq,exists_eq_left',ne_eq,cmp_eq_gt_iff,not_lt,and_iff_right h.1,and_iff_right h.2]
  · constructor
    · rintro ⟨ord,heq,-⟩
      cases heq
    · exact fun h' => absurd ⟨h'.1,h'.2.1⟩ h

/-- Comparison is that of what values are worth, a total preorder on each kind; hash keys and exact coercions agree with
it. -/
theorem comparison_agrees {a : Value} (ha : a ≠ .null) (b : Value) :
    a.compareSql b = (if a.kind = b.kind then some (cmp a.worth b.worth) else none) ∧
    (a.AtMost a ∧ (∀ c, a.AtMost b → b.AtMost c → a.AtMost c) ∧ (a.compareSql b ≠ none → a.AtMost b ∨ b.AtMost a)) ∧
    (a.joinKeyNormalized = b.joinKeyNormalized ↔ a.compareSql b = some .eq) ∧
    ∀ ty, (∀ w : Value, a.coerceExact ty = some w → w.matchesType ty = true ∧ w.compareSql a = some .eq) ∧
      (a.coerceExact ty = none → ∀ w : Value, w.matchesType ty = true → w.compareSql a ≠ some .eq) := by
  have hkind : a.kind ≠ none := fun h => ha (kind_eq_none_iff.mp h)
  refine ⟨?_,⟨atMost_iff.mpr ⟨hkind,rfl,le_rfl⟩,fun c hab hbc => ?_,fun hcmp => ?_⟩,?_,fun ty => ⟨fun w hw => ?_,fun hnone w hw heq => ?_⟩⟩
  · rw [compareSql_eq]
    simp [ne_eq,hkind,not_false_eq_true,true_and]
  · rw [atMost_iff] at hab hbc ⊢
    exact ⟨hkind,hab.2.1.trans hbc.2.1,hab.2.2.trans hbc.2.2⟩
  · rw [compareSql_eq,ne_eq,ite_eq_right_iff,not_forall] at hcmp
    obtain ⟨⟨-,heq⟩,-⟩ := hcmp
    rw [atMost_iff,atMost_iff]
    exact (le_total a.worth b.worth).imp (⟨hkind,heq,·⟩) (⟨heq ▸ hkind,heq.symm,·⟩)
  · rw [joinKeyNormalized_eq_iff,compareSql_eq_iff,and_iff_right hkind]
  · obtain ⟨hmatches,hk,hworth⟩ := coerceExact_eq_some_iff.mp hw
    exact ⟨hmatches,compareSql_eq_iff.mpr ⟨hk ▸ hkind,hk,hworth⟩⟩
  · obtain ⟨-,hk,hworth⟩ := compareSql_eq_iff.mp heq
    rw [coerceExact_eq_some_iff.mpr ⟨hw,hk,hworth⟩] at hnone
    cases hnone

/-- One and 1.0 have one hash key. -/
theorem comparison_agrees_one :
    (int32 1).joinKeyNormalized = (decimal ⟨10,1⟩).joinKeyNormalized :=
  (comparison_agrees (nofun : int32 1 ≠ .null) (.decimal ⟨10,1⟩)).2.2.1.mpr (by decide)

end Value

end Exact

end InterchangeDb
