import InterchangeDb.Txn.MvccSpec
import InterchangeDb.Txn.Scan

/-! A scan returns each user key between the bounds with its newest visible version, shorter keys first. -/
namespace InterchangeDb
open List Option Nat
variable {p k start stop a b lo hi : Bytes} {n l : Nat}

theorem carryKey_spec (p : Bytes) : (carryKey p).1.length = p.length ∧
    fromBeBytes (carryKey p).1 + (carryKey p).2.toNat * 256^p.length = fromBeBytes p + 1 := by
  induction p with
  | nil => exact ⟨rfl,rfl⟩
  | cons b p ih =>
    rw [carryKey]
    generalize carryKey p = c at ih
    obtain ⟨q,carry⟩ := c
    obtain ⟨hlen,hval⟩ := ih
    dsimp only at hlen hval
    cases carry with
    | false =>
      simp only [length_cons,hlen,fromBeBytes_cons,Bool.toNat_false,zero_mul,true_and] at hval ⊢
      omega
    | true =>
      by_cases hb : b = 255
      · simp [hb,hlen,fromBeBytes_cons,pow_succ] at hval ⊢
        omega
      · have hsucc : (b + 1).val = b.val + 1 := Fin.val_add_one_of_lt (Fin.lt_last_iff_ne_last.mpr hb)
        simp [hb,hlen,fromBeBytes_cons,hsucc,succ_mul] at hval ⊢
        omega

theorem carryKey_le_iff (h : k.length = p.length) :
    p < k ↔ (carryKey p).2 = false ∧ (carryKey p).1 ≤ k := by
  obtain ⟨hlen,hval⟩ := carryKey_spec p
  have hk := fromBeBytes_lt k
  rw [h] at hk
  rw [lt_iff_fromBeBytes_lt h.symm,← not_lt,lt_iff_fromBeBytes_lt (h.trans hlen.symm)]
  cases hc : (carryKey p).2 <;> simp only [hc] at hval ⊢ <;> simp at hval ⊢ <;> omega

theorem borrowKey_spec (p : Bytes) : (borrowKey p).1.length = p.length ∧
    fromBeBytes (borrowKey p).1 + 1 = fromBeBytes p + (borrowKey p).2.toNat * 256^p.length := by
  induction p with
  | nil => exact ⟨rfl,rfl⟩
  | cons b p ih =>
    rw [borrowKey]
    generalize borrowKey p = c at ih
    obtain ⟨q,borrow⟩ := c
    obtain ⟨hlen,hval⟩ := ih
    dsimp only at hlen hval
    cases borrow with
    | false =>
      simp only [length_cons,hlen,fromBeBytes_cons,Bool.toNat_false,zero_mul,true_and] at hval ⊢
      omega
    | true =>
      by_cases hb : b = 0
      · simp [hb,hlen,fromBeBytes_cons,pow_succ] at hval ⊢
        omega
      · have hpred : b.val = (b - 1).val + 1 := by
          have hpos : b.val ≠ 0 := fun heq => hb (Fin.ext heq)
          rw [Fin.val_sub_one_of_ne_zero hb]
          omega
        simp [hb,hlen,fromBeBytes_cons] at hval ⊢
        rw [hpred,succ_mul]
        omega

theorem le_borrowKey_iff (h : k.length = p.length) :
    k < p ↔ (borrowKey p).2 = false ∧ k ≤ (borrowKey p).1 := by
  obtain ⟨hlen,hval⟩ := borrowKey_spec p
  have hp := fromBeBytes_lt (borrowKey p).1
  rw [hlen] at hp
  rw [lt_iff_fromBeBytes_lt h,← not_lt,lt_iff_fromBeBytes_lt (hlen.trans h.symm)]
  cases hc : (borrowKey p).2 <;> simp only [hc] at hval ⊢ <;> simp at hval ⊢ <;> omega

private theorem zeros_le (h : n ≤ k.length) : List.replicate n 0 ≤ k := by
  induction n generalizing k with
  | zero => exact Bytes.nil_le k
  | succ n ih =>
    cases k with
    | nil => simp at h
    | cons c k =>
      rw [replicate_succ]
      exact Bytes.cons_le_iff.mpr ((Fin.zero_le c).lt_or_eq.imp id fun heq => ⟨heq,ih (by simpa using h)⟩)

private theorem le_replicate_last (k : Bytes) : k ≤ List.replicate k.length 255 := by
  induction k with
  | nil => exact Bytes.nil_le _
  | cons c k ih => exact Bytes.cons_le_iff.mpr ((Fin.le_last c).lt_or_eq.imp id fun heq => ⟨heq,ih⟩)

private theorem exists_split (h : n ≤ k.length) : ∃ a b, k = a ++ b ∧ a.length = n :=
  ⟨k.take n,k.drop n,(take_append_drop n k).symm,by simp [h]⟩

private theorem append_le_iff (h : a.length = k.length) (hb : b ≠ []) : a ++ b ≤ k ↔ a < k := by
  have hnil : ¬b ≤ [] := fun hle => hb (le_antisymm hle (Bytes.nil_le b))
  conv_lhs => rw [← append_nil k]
  rw [append_le_append_iff h,or_iff_left (fun h => hnil h.2)]

private theorem le_append_iff (h : a.length = k.length) : a ≤ k ++ b ↔ a ≤ k := by
  conv_lhs => rw [← append_nil a]
  rw [append_le_append_iff h,and_iff_left (Bytes.nil_le b),le_iff_lt_or_eq]

theorem minUserKeyAtLengthGe_spec (start k : Bytes) :
    start ≤ k ↔ ∃ lo, minUserKeyAtLengthGe start k.length = some lo ∧ lo ≤ k := by
  unfold minUserKeyAtLengthGe
  split_ifs with h
  · obtain ⟨a,b,rfl,ha⟩ := exists_split h
    have hzeros : replicate ((a ++ b).length - start.length) 0 ≤ b := zeros_le (by simp; omega)
    simp only [some.injEq,exists_eq_left']
    rw [le_append_iff ha.symm,append_le_append_iff ha.symm,and_iff_left hzeros,le_iff_lt_or_eq]
  · obtain ⟨a,b,rfl,ha⟩ := exists_split (not_le.mp h).le
    have hb : b ≠ [] := by
      rintro rfl
      exact h (by simp [ha])
    rw [append_le_iff ha hb,take_left' ha,carryKey_le_iff ha.symm]
    obtain ⟨uk,carry⟩ := carryKey a
    cases carry <;> simp

theorem maxUserKeyAtLengthLe_spec (stop k : Bytes) :
    k ≤ stop ↔ ∃ hi, maxUserKeyAtLengthLe stop k.length = some hi ∧ k ≤ hi := by
  unfold maxUserKeyAtLengthLe
  split_ifs with h
  · obtain ⟨a,b,rfl,ha⟩ := exists_split h
    rw [le_append_iff ha.symm,take_left' ha]
    simp
  · obtain ⟨a,b,rfl,ha⟩ := exists_split (not_le.mp h).le
    have hb : b ≠ [] := by
      rintro rfl
      exact h (by simp [ha])
    have hlen := (borrowKey_spec stop).1
    have hlast : b ≤ replicate ((a ++ b).length - stop.length) 255 := by
      simpa [ha] using le_replicate_last b
    rw [append_le_iff ha hb,le_borrowKey_iff ha]
    generalize borrowKey stop = c at hlen
    obtain ⟨keyPrefix,borrow⟩ := c
    cases borrow with
    | false =>
      simp only [true_and,some.injEq,exists_eq_left']
      rw [append_le_append_iff (ha.trans hlen.symm),and_iff_left hlast,le_iff_lt_or_eq]
    | true => simp

/-- Shorter user keys first, keys of one length in byte order. -/
abbrev KeyBefore (a b : Bytes) : Prop := List.Shortlex (· < ·) a b

theorem keyBefore_iff : KeyBefore a b ↔ a.length < b.length ∨ (a.length = b.length ∧ a < b) := shortlex_def

theorem KeyBefore.ne (h : KeyBefore a b) : a ≠ b := by
  rintro rfl
  rcases keyBefore_iff.mp h with h | h
  · exact lt_irrefl _ h
  · exact lt_irrefl _ h.2

theorem KeyBefore.trans {c : Bytes} (h : KeyBefore a b) (h' : KeyBefore b c) : KeyBefore a c := by
  rw [keyBefore_iff] at *
  rcases h with h | ⟨h,hlt⟩
  · exact .inl (h.trans_le (h'.elim le_of_lt (·.1.le)))
  · rcases h' with h' | ⟨h',hlt'⟩
    · exact .inl (h.trans_lt h')
    · exact .inr ⟨h.trans h',hlt.trans hlt'⟩

theorem mvccKey_lt_mvccKey_iff {ts ts' : Nat} (ha : a.length ≤ u32Max) (hb : b.length ≤ u32Max)
    (ht : ts ≤ u64Max) (ht' : ts' ≤ u64Max) : mvccKey a ts < mvccKey b ts' ↔ KeyBefore a b ∨ (a = b ∧ ts' < ts) := by
  by_cases hab : a = b
  · subst hab
    rw [mvccKey_lt_iff ht ht']
    exact ⟨fun h => .inr ⟨rfl,h⟩,fun h => h.elim (fun h => (h.ne rfl).elim) (·.2)⟩
  · have ha' : a.length < 256^4 := lt_of_le_of_lt ha (by norm_num [u32Max])
    have hb' : b.length < 256^4 := lt_of_le_of_lt hb (by norm_num [u32Max])
    rw [mvccKey,mvccKey,append_assoc,append_assoc,append_lt_append_iff (by simp),toBeBytes_lt_iff ha' hb',
      keyBefore_iff]
    simp only [hab,false_and,or_false]
    refine or_congr_right ⟨?_,?_⟩ <;> rintro ⟨hlen,hlt⟩
    · have hlen := toBeBytes_inj ha' hb' hlen
      rw [append_lt_append_iff hlen] at hlt
      exact ⟨hlen,hlt.resolve_right fun h => hab h.1⟩
    · rw [append_lt_append_iff hlen,hlen]
      exact ⟨rfl,.inl hlt⟩

namespace DecodedEntry
variable {xs : List DecodedEntry}

/-- The first entry of a user key that is visible. -/
def shown (visible : Nat → Nat → Bool) (xs : List DecodedEntry) (k : Bytes) : Option DecodedEntry :=
  xs.find? (fun x => decide (x.key = k) && visible x.value.txnId x.ts)

variable {visible : Nat → Nat → Bool}

theorem shown_cons (x : DecodedEntry) (xs : List DecodedEntry) (k : Bytes) :
    shown visible (x::xs) k = if x.key = k ∧ visible x.value.txnId x.ts = true then some x else shown visible xs k := by
  by_cases h : x.key = k ∧ visible x.value.txnId x.ts = true
  · simp [shown,h]
  · rw [if_neg h]
    have hp : (decide (x.key = k) && visible x.value.txnId x.ts) = false := by
      simpa using h
    simp [shown,hp]

theorem shown_eq_none {k : Bytes} (h : ∀ x ∈ xs, x.key ≠ k) : shown visible xs k = none := by
  refine find?_eq_none.mpr fun x hx => ?_
  simp [h x hx]

theorem Sorted.not_before {x : DecodedEntry} (h : Sorted (x::xs)) (hx : x.WellFormed)
    (hw : ∀ y ∈ xs, y.WellFormed) : ∀ y ∈ xs, KeyBefore x.key y.key ∨ x.key = y.key := by
  intro y hy
  have hlt := (pairwise_cons.mp h).1 y hy
  have hy' := hw y hy
  exact ((mvccKey_lt_mvccKey_iff hx.1 hy'.1 hx.2.1 hy'.2.1).mp hlt).imp id And.left

/-- What a key reads as. -/
def reads (visible : Nat → Nat → Bool) (xs : List DecodedEntry) (k : Bytes) : Option Bytes :=
  (shown visible xs k).bind (·.value.data)

theorem reads_cons (x : DecodedEntry) (xs : List DecodedEntry) (k : Bytes) : reads visible (x::xs) k =
    if x.key = k ∧ visible x.value.txnId x.ts = true then x.value.data else reads visible xs k := by
  rw [reads,shown_cons]
  split_ifs <;> rfl

theorem mem_of_reads {k d : Bytes} (h : reads visible xs k = some d) : ∃ x ∈ xs, x.key = k := by
  obtain ⟨x,hx,-⟩ := bind_eq_some_iff.mp h
  have hp := find?_some hx
  simp only [Bool.and_eq_true,decide_eq_true_eq] at hp
  exact ⟨x,mem_of_find?_eq_some hx,hp.1⟩

/-- Entries in order, given where the scan stands: the rows are what the keys that are not decided yet read as. -/
theorem resolveVersions_spec (visible : Nat → Nat → Bool) (hw : ∀ x ∈ xs, x.WellFormed) (hs : Sorted xs)
    (current : Option Bytes) (found : Bool) (hcur : ∀ k, current = some k → ∀ x ∈ xs, KeyBefore k x.key ∨ k = x.key) :
    ∃ rows, resolveVersions visible current found (xs.map encode) = .ok rows ∧
      rows.Pairwise (fun a b => KeyBefore a.1 b.1) ∧
      ∀ k d, (k,d) ∈ rows ↔ ¬(current = some k ∧ found = true) ∧ reads visible xs k = some d := by
  induction xs generalizing current found with
  | nil => exact ⟨[],rfl,.nil,by simp [reads,shown]⟩
  | cons x xs ih =>
    have hx := hw x mem_cons_self
    have hw' : ∀ y ∈ xs, y.WellFormed := fun y hy => hw y (mem_cons_of_mem _ hy)
    have hafter := hs.not_before hx hw'
    have hnext := fun found' => ih hw' (pairwise_cons.mp hs).2 (some x.key) found' (by
      rintro k ⟨⟩
      exact hafter)
    simp only [some.injEq] at hnext
    simp only [map_cons,encode,resolveVersions,decodeMvccKey_mvccKey hx.1 hx.2.1,
      decodeMvccValue_encodeMvccValue hx.2.2]
    by_cases hdec : current = some x.key ∧ found = true
    · -- an older version of a decided key
      rw [if_pos hdec]
      obtain ⟨rows,hr,hsorted,hmem⟩ := hnext true
      refine ⟨rows,hr,hsorted,fun k d => ?_⟩
      rw [hmem,hdec.1,hdec.2,some.injEq]
      exact and_congr_right fun hne => by rw [reads_cons,if_neg (fun h => hne ⟨h.1,rfl⟩)]
    · -- the key where the scan stands is this one or lies behind
      have hopen : ∀ k d, reads visible (x::xs) k = some d → ¬(current = some k ∧ found = true) := by
        rintro k d hd ⟨hk,hfound⟩
        have hne : k ≠ x.key := fun heq => hdec ⟨heq ▸ hk,hfound⟩
        have hbefore := (hcur k hk x mem_cons_self).resolve_right hne
        obtain ⟨y,hy,rfl⟩ := mem_of_reads hd
        rcases mem_cons.mp hy with rfl | hy
        · exact hne rfl
        · rcases hafter y hy with hxy | hxy
          · exact (hbefore.trans hxy).ne rfl
          · exact hne hxy.symm
      simp only [and_iff_right_of_imp (hopen _ _)]
      rw [if_neg hdec]
      by_cases hvis : visible x.value.txnId x.ts = true
      · -- the first visible version decides
        rw [if_pos hvis]
        obtain ⟨rows,hr,hsorted,hmem⟩ := hnext true
        simp only [reads_cons,hvis,and_true]
        cases hv : x.value with
        | tombstone t =>
          refine ⟨rows,hr,hsorted,fun k d => ?_⟩
          rw [hmem]
          split_ifs with hk <;> simp [hk,MvccValue.data]
        | value t data =>
          refine ⟨(x.key,data)::rows,by simp [hr,Except.map],pairwise_cons.mpr ⟨fun r hr' => ?_,hsorted⟩,fun k d => ?_⟩
          · obtain ⟨hne,hd⟩ := (hmem r.1 r.2).mp hr'
            obtain ⟨y,hy,heq⟩ := mem_of_reads hd
            rw [← heq] at hne ⊢
            exact (hafter y hy).resolve_right (fun hxy => hne ⟨hxy,rfl⟩)
          · rw [mem_cons,hmem,Prod.mk.injEq,eq_comm (a := k),eq_comm (a := d)]
            split_ifs with hk <;> simp [hk,MvccValue.data]
      · rw [if_neg hvis]
        obtain ⟨rows,hr,hsorted,hmem⟩ := hnext false
        refine ⟨rows,hr,hsorted,fun k d => ?_⟩
        rw [hmem,reads_cons,if_neg (fun h => hvis h.2)]
        simp

theorem shown_newest (visible : Nat → Nat → Bool) {e : Engine} (hw : ∀ x ∈ xs, x.WellFormed) (hs : Sorted xs)
    (hmem : ∀ x : DecodedEntry, x ∈ xs ↔ e.version x.key x.ts = some x.value) (k : Bytes) :
    NewestVisible e k visible ((shown visible xs k).map (fun x => (x.ts,x.value))) := by
  cases hf : shown visible xs k with
  | none =>
    intro ts v hv
    have hnot := find?_eq_none.mp hf ⟨k,ts,v⟩ ((hmem ⟨k,ts,v⟩).mpr hv)
    simpa using hnot
  | some x =>
    obtain ⟨hp,front,back,rfl,hfront⟩ := find?_eq_some_iff_append.mp hf
    simp only [Bool.and_eq_true,decide_eq_true_eq] at hp
    obtain ⟨rfl,hvis⟩ := hp
    refine ⟨(hmem x).mp (by simp),hvis,fun ts' v' hv' hvis' => ?_⟩
    rcases mem_append.mp ((hmem ⟨x.key,ts',v'⟩).mpr hv') with hy | hy
    · have hnot := hfront _ hy
      simp [hvis'] at hnot
    · rcases mem_cons.mp hy with heq | hy
      · exact (congrArg ts heq).le
      · have hlt := (pairwise_cons.mp (pairwise_append.mp hs).2.1).1 _ hy
        have hy' := hw _ (mem_append_right front (mem_cons_of_mem x hy))
        exact ((mvccKey_lt_iff (hw x (by simp)).2.1 hy'.2.1).mp hlt).le

theorem shown_filter {k : Bytes} {p : DecodedEntry → Bool} {b : Bool} (h : ∀ x ∈ xs, x.key = k → p x = b) :
    shown visible (xs.filter p) k = if b = true then shown visible xs k else none := by
  cases b with
  | false =>
    refine shown_eq_none fun x hx heq => ?_
    obtain ⟨hx,hp⟩ := mem_filter.mp hx
    rw [h x hx heq] at hp
    cases hp
  | true =>
    rw [if_pos rfl,shown,find?_filter]
    refine find?_congr fun x hx => ?_
    by_cases hk : x.key = k
    · simp [h x hx hk]
    · simp [hk]

end DecodedEntry

theorem length_minUserKeyAtLengthGe (h : minUserKeyAtLengthGe start l = some lo) : lo.length = l := by
  unfold minUserKeyAtLengthGe at h
  have hlen := (carryKey_spec (start.take l)).1
  split_ifs at h
  · cases h
    simp
    omega
  · split at h <;> rename_i hc <;> rw [hc] at hlen <;> cases h
    simp at hlen
    omega

theorem length_maxUserKeyAtLengthLe (h : maxUserKeyAtLengthLe stop l = some hi) : hi.length = l := by
  unfold maxUserKeyAtLengthLe at h
  have hlen := (borrowKey_spec stop).1
  split_ifs at h with hle
  · cases h
    simpa using hle
  · split at h <;> rename_i hc <;> rw [hc] at hlen <;> cases h
    simp at hlen ⊢
    omega

private theorem bucket_range (hlen : lo.length = hi.length) (hl : hi.length ≤ u32Max) {x : DecodedEntry}
    (hx : x.WellFormed) : (mvccKey lo u64Max ≤ mvccKey x.key x.ts ∧ mvccKey x.key x.ts ≤ mvccKey hi 0) ↔
      x.key.length = hi.length ∧ lo ≤ x.key ∧ x.key ≤ hi := by
  obtain ⟨hk,ht,-⟩ := hx
  rw [← not_lt,← not_lt,mvccKey_lt_mvccKey_iff hk (hlen ▸ hl) ht le_rfl,mvccKey_lt_mvccKey_iff hl hk (zero_le _) ht,
    keyBefore_iff,keyBefore_iff,← not_lt,← not_lt]
  have hts : ¬ u64Max < x.ts := not_lt.mpr ht
  simp only [hts,not_lt_zero,and_false,or_false,not_or,not_and,not_lt,hlen]
  constructor
  · rintro ⟨⟨h1,h2⟩,h3,h4⟩
    have hleneq : x.key.length = hi.length := le_antisymm h3 h1
    exact ⟨hleneq,h2 hleneq,h4 hleneq.symm⟩
  · rintro ⟨hleneq,h2,h4⟩
    exact ⟨⟨hleneq.ge,fun _ => h2⟩,hleneq.le,fun _ => h4⟩

section

variable {e : Engine} {xs : List DecodedEntry} (hxs : e.entries = xs.map DecodedEntry.encode)
  (hw : ∀ x ∈ xs, x.WellFormed) (hs : DecodedEntry.Sorted xs)
include hxs hw hs

omit hw hs in
private theorem scan_eq {lo hi : Bound Bytes} {q : DecodedEntry → Prop} [DecidablePred q]
    (h : ∀ x ∈ xs, lo.above (mvccKey x.key x.ts) = true ∧ hi.below (mvccKey x.key x.ts) = true ↔ q x) :
    e.scan lo hi = (xs.filter (fun x => decide (q x))).map DecodedEntry.encode := by
  rw [Engine.scan,OrdMap.range,hxs,List.filter_map]
  refine congrArg _ (filter_congr fun x hx => ?_)
  rw [Bool.eq_iff_iff,decide_eq_true_eq,← h x hx,← Bool.and_eq_true]
  rfl

theorem scanBucket_spec (startKey endKey : Bytes) (visible : Nat → Nat → Bool) {l : Nat} (hl : l ≤ u32Max) :
    ∃ rows, scanBucket e startKey endKey visible l = .ok rows ∧ rows.Pairwise (fun a b => KeyBefore a.1 b.1) ∧
      ∀ k d, (k,d) ∈ rows ↔ k.length = l ∧ startKey ≤ k ∧ k ≤ endKey ∧ DecodedEntry.reads visible xs k = some d := by
  have hbounds : ∀ {k : Bytes}, k.length = l → (startKey ≤ k ∧ k ≤ endKey ↔ ∃ lo hi,
      minUserKeyAtLengthGe startKey l = some lo ∧ maxUserKeyAtLengthLe endKey l = some hi ∧ lo ≤ k ∧ k ≤ hi) := by
    rintro k rfl
    rw [minUserKeyAtLengthGe_spec,maxUserKeyAtLengthLe_spec]
    exact ⟨fun ⟨⟨lo,hlo,h⟩,hi,hhi,h'⟩ => ⟨lo,hi,hlo,hhi,h,h'⟩,fun ⟨lo,hi,hlo,hhi,h,h'⟩ => ⟨⟨lo,hlo,h⟩,hi,hhi,h'⟩⟩
  unfold scanBucket
  split
  · next lo hi hlo hhi =>
    have hlolen := length_minUserKeyAtLengthGe hlo
    have hhilen := length_maxUserKeyAtLengthLe hhi
    simp only [hlo,hhi,some.injEq,exists_and_left,exists_eq_left'] at hbounds
    split_ifs with hle
    · rw [scan_eq hxs (q := fun x => x.key.length = l ∧ startKey ≤ x.key ∧ x.key ≤ endKey) (fun x hx => ?_)]
      · obtain ⟨rows,hr,hsorted,hmem⟩ := DecodedEntry.resolveVersions_spec visible
          (fun x hx => hw x (mem_of_mem_filter hx)) (hs.filter _) none false nofun
        refine ⟨rows,hr,hsorted,fun k d => ?_⟩
        rw [hmem,DecodedEntry.reads,DecodedEntry.shown_filter (b := decide (k.length = l ∧ startKey ≤ k ∧ k ≤ endKey))
          (fun x _ hk => by rw [hk])]
        by_cases hin : k.length = l ∧ startKey ≤ k ∧ k ≤ endKey
        · simp [hin,DecodedEntry.reads]
        · simp only [hin,decide_false,Bool.false_eq_true,if_false,bind_none,reduceCtorEq,and_false,false_iff]
          exact fun h => hin ⟨h.1,h.2.1,h.2.2.1⟩
      · have hrange := bucket_range (hlolen.trans hhilen.symm) (hhilen.trans_le hl) (hw x hx)
        rw [hhilen] at hrange
        simp only [Bound.above,Bound.below,decide_eq_true_eq]
        rw [hrange]
        exact and_congr_right fun hk => (hbounds hk).symm
    · refine ⟨[],rfl,.nil,fun k d => iff_of_false not_mem_nil ?_⟩
      rintro ⟨hk,h1,h2,-⟩
      obtain ⟨h1,h2⟩ := (hbounds hk).mp ⟨h1,h2⟩
      exact hle (h1.trans h2)
  · next hnone =>
    refine ⟨[],rfl,.nil,fun k d => iff_of_false not_mem_nil ?_⟩
    rintro ⟨hk,h1,h2,-⟩
    obtain ⟨lo,hi,hlo,hhi,-⟩ := (hbounds hk).mp ⟨h1,h2⟩
    exact hnone lo hi hlo hhi

omit hxs hw hs in
private theorem probe_le_iff {ts : Nat} (hn : n ≤ u32Max) (hk : k.length ≤ u32Max) :
    toBeBytes 4 n ≤ mvccKey k ts ↔ n ≤ k.length := by
  have hb : n < 256^4 := lt_of_le_of_lt hn (by norm_num [u32Max])
  have hb' : k.length < 256^4 := lt_of_le_of_lt hk (by norm_num [u32Max])
  have hnil : toBeBytes 4 n = toBeBytes 4 n ++ [] := (append_nil _).symm
  rw [← not_lt,← not_lt,hnil,mvccKey,append_assoc,append_lt_append_iff (by simp),toBeBytes_lt_iff hb' hb]
  simp

/-- The rows from one length on, if the fuel covers the entries from there on. -/
theorem scanBuckets_spec (startKey endKey : Bytes) (visible : Nat → Nat → Bool) (fuel n : Nat) (probePos : Bytes)
    (hprobe : ∀ x ∈ xs, probePos ≤ mvccKey x.key x.ts ↔ n ≤ x.key.length)
    (hfuel : (xs.filter (fun x => decide (n ≤ x.key.length))).length ≤ fuel) :
    ∃ rows, scanBuckets e startKey endKey visible fuel probePos = .ok rows ∧
      rows.Pairwise (fun a b => KeyBefore a.1 b.1) ∧
      ∀ k d, (k,d) ∈ rows ↔ n ≤ k.length ∧ startKey ≤ k ∧ k ≤ endKey ∧ DecodedEntry.reads visible xs k = some d := by
  induction fuel generalizing n probePos with
  | zero =>
    refine ⟨[],rfl,.nil,fun k d => iff_of_false not_mem_nil ?_⟩
    rintro ⟨hn,-,-,hd⟩
    obtain ⟨x,hx,rfl⟩ := DecodedEntry.mem_of_reads hd
    have hnil := length_eq_zero_iff.mp (le_zero.mp hfuel)
    exact not_mem_nil (hnil ▸ mem_filter.mpr ⟨hx,by simpa using hn⟩)
  | succ fuel ih =>
    have hscan : e.scan (.included probePos) .unbounded =
        (xs.filter (fun x => decide (n ≤ x.key.length))).map DecodedEntry.encode :=
      scan_eq hxs (fun x hx => by simp [Bound.above,Bound.below,hprobe x hx])
    cases hys : xs.filter (fun x => decide (n ≤ x.key.length)) with
    | nil =>
      refine ⟨[],by simp [scanBuckets,hscan,hys],.nil,fun k d => iff_of_false not_mem_nil ?_⟩
      rintro ⟨hn,-,-,hd⟩
      obtain ⟨x,hx,rfl⟩ := DecodedEntry.mem_of_reads hd
      exact not_mem_nil (hys ▸ mem_filter.mpr ⟨hx,by simpa using hn⟩)
    | cons y ys =>
      have hmemys : ∀ {x}, x ∈ y::ys ↔ x ∈ xs ∧ n ≤ x.key.length := by
        intro x
        rw [← hys,mem_filter,decide_eq_true_eq]
      obtain ⟨hy,hny⟩ := hmemys.mp mem_cons_self
      have hyw := hw y hy
      have hsub : DecodedEntry.Sorted (y::ys) := hys ▸ hs.filter _
      have hleast : ∀ {k d}, DecodedEntry.reads visible xs k = some d → n ≤ k.length → y.key.length ≤ k.length := by
        intro k d hd hn
        obtain ⟨x,hx,rfl⟩ := DecodedEntry.mem_of_reads hd
        rcases mem_cons.mp (hmemys.mpr ⟨hx,hn⟩) with rfl | hmem
        · exact le_rfl
        · rcases hsub.not_before hyw (fun z hz => hw z (hmemys.mp (mem_cons_of_mem y hz)).1) x hmem with hbefore | heq
          · exact (keyBefore_iff.mp hbefore).elim le_of_lt (·.1.le)
          · rw [heq]
      obtain ⟨rows,hr,hsorted,hmem⟩ := scanBucket_spec hxs hw hs startKey endKey visible hyw.1
      have hlen : (mvccKey y.key y.ts).length = 4 + y.key.length + 8 := by
        simp [mvccKey]
        omega
      have htake : fromBeBytes ((mvccKey y.key y.ts).take 4) = y.key.length := by
        rw [show (mvccKey y.key y.ts).take 4 = toBeBytes 4 y.key.length by simp [mvccKey,append_assoc]]
        exact fromBeBytes_toBeBytes_of_lt (lt_of_le_of_lt hyw.1 (by norm_num [u32Max]))
      rw [scanBuckets,hscan,hys]
      simp only [map_cons,List.head?_cons,DecodedEntry.encode,htake,hlen,hr]
      rw [if_neg (by omega),if_neg (by simp)]
      by_cases hlast : y.key.length + 1 ≤ u32Max
      · have hprobe' : ∀ x ∈ xs, toBeBytes 4 (y.key.length + 1) ≤ mvccKey x.key x.ts ↔ y.key.length + 1 ≤ x.key.length :=
          fun x hx => probe_le_iff hlast (hw x hx).1
        have hfuel' : (xs.filter (fun x => decide (y.key.length + 1 ≤ x.key.length))).length ≤ fuel := by
          have hrest : xs.filter (fun x => decide (y.key.length + 1 ≤ x.key.length)) =
              (y::ys).filter (fun x => decide (y.key.length + 1 ≤ x.key.length)) := by
            rw [← hys,List.filter_filter]
            refine filter_congr fun x _ => ?_
            rw [← Bool.decide_and,decide_eq_decide]
            omega
          rw [hrest,filter_cons_of_neg (by simp)]
          rw [hys,length_cons] at hfuel
          exact (length_filter_le _ _).trans (le_of_succ_le_succ hfuel)
        obtain ⟨rest,hrest,hsorted',hmem'⟩ := ih (y.key.length + 1) (toBeBytes 4 (y.key.length + 1)) hprobe' hfuel'
        refine ⟨rows ++ rest,by simp only [if_pos hlast,hrest]; rfl,?_,fun k d => ?_⟩
        · refine pairwise_append.mpr ⟨hsorted,hsorted',fun a ha b hb => ?_⟩
          have h1 := ((hmem a.1 a.2).mp ha).1
          have h2 := ((hmem' b.1 b.2).mp hb).1
          exact keyBefore_iff.mpr (.inl (by omega))
        · rw [mem_append,hmem,hmem',← or_and_right]
          refine ⟨fun h => ⟨by omega,h.2⟩,?_⟩
          rintro ⟨h1,h2⟩
          refine ⟨?_,h2⟩
          have := hleast h2.2.2 h1
          omega
      · refine ⟨rows,by simp only [if_neg hlast]; rfl,hsorted,fun k d => ?_⟩
        rw [hmem]
        refine ⟨fun h => ⟨by omega,h.2⟩,?_⟩
        rintro ⟨h1,h2⟩
        refine ⟨?_,h2⟩
        have h3 := hleast h2.2.2 h1
        obtain ⟨x,hx,rfl⟩ := DecodedEntry.mem_of_reads h2.2.2
        have h4 := (hw x hx).1
        omega

end

/-- A scan returns the newest visible version of every user key between the bounds that has one with a value. -/
theorem mvccScan_spec {e : Engine} (he : e.Versioned) (startKey endKey : Bytes) (visible : Nat → Nat → Bool) :
    ∃ rows, mvccScan e startKey endKey visible = .ok rows ∧ rows.Pairwise (fun a b => KeyBefore a.1 b.1) ∧
      ∀ k d, (k,d) ∈ rows ↔ startKey ≤ k ∧ k ≤ endKey ∧
        ∃ r, NewestVisible e k visible r ∧ r.bind (·.2.data) = some d := by
  obtain ⟨xs,hxs,hw,hs,hmem⟩ := entries_decoded he
  have hentries : e.entries = xs.map DecodedEntry.encode := by
    rw [← hxs,Engine.scan,OrdMap.range]
    simp [Bound.above,Bound.below]
  have hprobe : ∀ x ∈ xs, replicate 12 0 ≤ mvccKey x.key x.ts ↔ 0 ≤ x.key.length := by
    intro x hx
    refine iff_of_true (zeros_le ?_) (zero_le _)
    simp only [mvccKey,length_append,length_toBeBytes]
    omega
  obtain ⟨rows,hr,hsorted,hrows⟩ := scanBuckets_spec hentries hw hs startKey endKey visible e.entries.length 0
    (replicate 12 0) hprobe (by simp [hentries])
  refine ⟨rows,hr,hsorted,fun k d => ?_⟩
  have hnew := DecodedEntry.shown_newest visible hw hs hmem k
  rw [hrows]
  simp only [zero_le,true_and]
  refine and_congr_right fun _ => and_congr_right fun _ => ⟨fun hd => ⟨_,hnew,?_⟩,?_⟩
  · obtain ⟨x,hx,hxd⟩ := bind_eq_some_iff.mp hd
    simp [hx,hxd]
  · rintro ⟨r,hr',hd⟩
    rw [NewestVisible.unique hr' hnew] at hd
    obtain ⟨y,hy,hyd⟩ := bind_eq_some_iff.mp hd
    obtain ⟨x,hx,rfl⟩ := map_eq_some_iff.mp hy
    simpa [DecodedEntry.reads,hx] using hyd

end InterchangeDb
