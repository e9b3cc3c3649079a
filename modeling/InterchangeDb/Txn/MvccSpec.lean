import InterchangeDb.Txn.Mvcc

/-! The engine as a store of versions: the read path finds the newest visible one. -/
namespace InterchangeDb
open List Option Nat
variable {k k' : Bytes} {ts ts' : Nat} {e : Engine} {es : List (Bytes × Bytes)} {vs : List (Nat × MvccValue)}
  {visible : Nat → Nat → Bool} {found : Nat × MvccValue}

private theorem mvccKey_prefix_length (k : Bytes) : (toBeBytes 4 k.length ++ k).length = 4 + k.length := by
  simp

private theorem inverted_lt (ts : Nat) : u64Max - ts < 256^8 :=
  lt_of_le_of_lt (sub_le _ _) (by norm_num [u64Max])

theorem decodeMvccKey_mvccKey (hk : k.length ≤ u32Max) (ht : ts ≤ u64Max) :
    decodeMvccKey (mvccKey k ts) = .ok (k,ts) := by
  have hlen : (mvccKey k ts).length = 4 + k.length + 8 := by simp [mvccKey]; omega
  have hl : fromBeBytes ((mvccKey k ts).take 4) = k.length := by
    have h4 : (mvccKey k ts).take 4 = toBeBytes 4 k.length := by
      simp [mvccKey,append_assoc]
    rw [h4]
    exact fromBeBytes_toBeBytes_of_lt (lt_of_le_of_lt hk (by norm_num [u32Max]))
  have hd : (mvccKey k ts).drop 4 = k ++ toBeBytes 8 (u64Max - ts) := by
    simp [mvccKey,append_assoc]
  have hd' : (mvccKey k ts).drop (4 + k.length) = toBeBytes 8 (u64Max - ts) := by
    rw [mvccKey,← mvccKey_prefix_length k,drop_left]
  simp only [decodeMvccKey,hlen,hl,hd,hd',take_left]
  rw [if_neg (by omega),if_neg (by simp),take_of_length_le (by simp),
    fromBeBytes_toBeBytes_of_lt (inverted_lt ts),Nat.sub_sub_self ht]

theorem mvccKey_inj (hk : k.length ≤ u32Max) (ht : ts ≤ u64Max)
    (hk' : k'.length ≤ u32Max) (ht' : ts' ≤ u64Max) (h : mvccKey k ts = mvccKey k' ts') :
    k = k' ∧ ts = ts' := by
  have hd := decodeMvccKey_mvccKey hk ht
  rw [h,decodeMvccKey_mvccKey hk' ht'] at hd
  simpa [eq_comm] using hd

/-- Among the versions of one user key, byte order is newest first. -/
theorem mvccKey_lt_iff (ht : ts ≤ u64Max) (ht' : ts' ≤ u64Max) :
    mvccKey k ts < mvccKey k ts' ↔ ts' < ts := by
  rw [mvccKey,mvccKey,append_lt_append_iff rfl,
    toBeBytes_lt_iff (inverted_lt ts) (inverted_lt ts')]
  simp only [lt_irrefl,true_and,false_or]
  omega

private theorem prefix_le_of_append_le {a a' b b' : Bytes} (hl : a.length = a'.length)
    (h : a ++ b ≤ a' ++ b') : a ≤ a' := by
  by_contra hn
  exact absurd ((append_lt_append_iff hl.symm).mpr (.inl (not_le.mp hn))) (not_lt.mpr h)

/-- Every key between the first and last possible version key of a user key is
one of that user key. -/
theorem userKey_eq_of_between (hk : k.length ≤ u32Max) (hk' : k'.length ≤ u32Max) (hlo : mvccKey k u64Max ≤ mvccKey k' ts)
    (hhi : mvccKey k' ts ≤ mvccKey k 0) : k' = k := by
  simp only [mvccKey,append_assoc] at hlo hhi
  have h1 := prefix_le_of_append_le (by simp) hlo
  have h2 := prefix_le_of_append_le (by simp) hhi
  have hb : k.length < 256^4 := lt_of_le_of_lt hk (by norm_num [u32Max])
  have hb' : k'.length < 256^4 := lt_of_le_of_lt hk' (by norm_num [u32Max])
  have hlen : k'.length = k.length := toBeBytes_inj hb' hb (le_antisymm h2 h1)
  rw [hlen] at hlo hhi
  have h3 := prefix_le_of_append_le hlen.symm (by
    simpa only [not_lt,append_lt_append_iff (rfl : (toBeBytes 4 k.length).length = _),
      lt_irrefl,true_and,false_or] using not_lt.mpr hlo)
  have h4 := prefix_le_of_append_le hlen (by
    simpa only [not_lt,append_lt_append_iff (rfl : (toBeBytes 4 k.length).length = _),
      lt_irrefl,true_and,false_or] using not_lt.mpr hhi)
  exact le_antisymm h4 h3

theorem between_iff (hk : k.length ≤ u32Max) (hk' : k'.length ≤ u32Max) (ht : ts ≤ u64Max) :
    mvccKey k u64Max ≤ mvccKey k' ts ∧ mvccKey k' ts ≤ mvccKey k 0 ↔ k' = k := by
  refine ⟨fun h => userKey_eq_of_between hk hk' h.1 h.2,?_⟩
  rintro rfl
  rw [← not_lt,← not_lt,mvccKey_lt_iff ht le_rfl,mvccKey_lt_iff (zero_le _) ht]
  exact ⟨not_lt.mpr ht,not_lt_zero _⟩

theorem scanUserKey_eq (e : Engine) (hk : k.length ≤ u32Max) :
    scanUserKey e k = some (e.scan (.included (mvccKey k u64Max)) (.included (mvccKey k 0))) := by
  simp [scanUserKey,encodeMvccKeyStart,encodeMvccKeyEnd,encodeMvccKey,hk]

/-- Version keys can be decoded, descend in time, and stand between the bounds of their own user key only:
a scan between them meets the versions of that key and no others. -/
theorem versions_grouped (k k' : Bytes) (ts ts' : Nat) (hk : k.length < 2^32) (hk' : k'.length < 2^32) (ht : ts < 2^64)
    (ht' : ts' < 2^64) : ∃ key key' start stop, encodeMvccKey k ts = some key ∧ encodeMvccKey k' ts' = some key' ∧
      encodeMvccKeyStart k = some start ∧ encodeMvccKeyEnd k = some stop ∧
      decodeMvccKey key = .ok (k,ts) ∧ (key = key' → k = k' ∧ ts = ts') ∧ (k = k' → (key < key' ↔ ts' < ts)) ∧
      (start ≤ key' ∧ key' ≤ stop ↔ k' = k) ∧
      ∀ e, ∃ es, scanUserKey e k = some es ∧ ∀ v, (key',v) ∈ es ↔ e.get key' = some v ∧ k' = k := by
  replace hk : k.length ≤ u32Max := le_of_lt_succ hk
  replace hk' : k'.length ≤ u32Max := le_of_lt_succ hk'
  replace ht : ts ≤ u64Max := le_of_lt_succ ht
  replace ht' : ts' ≤ u64Max := le_of_lt_succ ht'
  have hbetween := between_iff hk hk' ht'
  refine ⟨mvccKey k ts,mvccKey k' ts',mvccKey k u64Max,mvccKey k 0,if_pos hk,if_pos hk',if_pos hk,if_pos hk,
    decodeMvccKey_mvccKey hk ht,mvccKey_inj hk ht hk' ht',?_,hbetween,fun e => ⟨_,scanUserKey_eq e hk,fun v => ?_⟩⟩
  · rintro rfl
    exact mvccKey_lt_iff ht ht'
  · rw [← hbetween]
    refine (OrdMap.mem_range e _ _ _ v).trans ?_
    simp [Bound.above,Bound.below,decide_eq_true_eq]

/-- A key with one more byte is out of the range. -/
theorem versions_grouped_longer : ∃ start stop key, encodeMvccKeyStart [7] = some start ∧ encodeMvccKeyEnd [7] = some stop ∧
    encodeMvccKey [7,0] 3 = some key ∧ ¬(start ≤ key ∧ key ≤ stop) := by
  obtain ⟨-,key,start,stop,-,hkey,hstart,hstop,-,-,-,hrange,-⟩ := versions_grouped [7] [7,0] 5 3 (by decide) (by decide)
    (by decide) (by decide)
  exact ⟨start,stop,key,hstart,hstop,hkey,fun h => absurd (hrange.mp h) (by decide)⟩

/-- The data a version can carry: what its length fields represent. -/
def MvccValue.Encodable (v : MvccValue) : Prop :=
  v.txnId ≤ u64Max ∧ ∀ d, v.data = some d → d.length ≤ u32Max

theorem decodeMvccValue_encodeMvccValue {v : MvccValue} (h : v.Encodable) :
    decodeMvccValue (encodeMvccValue v) = .ok v := by
  have ht : v.txnId < 256^8 := lt_of_le_of_lt h.1 (by norm_num [u64Max])
  cases v with
  | tombstone t =>
    simp only [MvccValue.txnId] at ht
    have htake : (toLeBytes 8 t).take 8 = toLeBytes 8 t := take_of_length_le (by simp)
    simp [encodeMvccValue,decodeMvccValue,htake,fromLeBytes_toLeBytes_of_lt ht]
  | value t d =>
    simp only [MvccValue.txnId] at ht
    have hd : d.length < 256^4 := lt_of_le_of_lt (h.2 d rfl) (by norm_num [u32Max])
    have hdrop : (toLeBytes 8 t ++ (toLeBytes 4 d.length ++ d)).drop 12 = d := by
      rw [← append_assoc]
      exact drop_left' (by simp)
    simp [encodeMvccValue,decodeMvccValue,append_assoc,fromLeBytes_toLeBytes_of_lt ht,
      fromLeBytes_toLeBytes_of_lt hd,hdrop,← add_assoc]

namespace Engine
variable {e : Engine} {k : Bytes} {ts : Nat} {v : MvccValue}

def version (e : Engine) (k : Bytes) (ts : Nat) : Option MvccValue :=
  if k.length ≤ u32Max ∧ ts ≤ u64Max then
    (e.get (mvccKey k ts)).bind (fun ev => (decodeMvccValue ev).toOption)
  else none

/-- Every entry of the engine is a well-formed version. -/
def Versioned (e : Engine) : Prop :=
  ∀ ek ev, e.get ek = some ev → ∃ k ts v, k.length ≤ u32Max ∧ ts ≤ u64Max ∧
    v.Encodable ∧ ek = mvccKey k ts ∧ ev = encodeMvccValue v

theorem versioned_empty : Versioned OrdMap.empty := by
  intro ek ev h
  simp at h

@[simp] theorem version_empty (k : Bytes) (ts : Nat) :
    version OrdMap.empty k ts = none := by
  simp [version]

theorem Versioned.put (he : e.Versioned) (hk : k.length ≤ u32Max) (ht : ts ≤ u64Max) (hv : v.Encodable) :
    (e.put (mvccKey k ts) (encodeMvccValue v)).Versioned := by
  intro ek ev h
  rw [Engine.put,OrdMap.get_insert] at h
  split_ifs at h with hek
  · cases h
    exact ⟨k,ts,v,hk,ht,hv,hek,rfl⟩
  · exact he ek ev h

theorem version_put (e : Engine) (hk : k.length ≤ u32Max) (ht : ts ≤ u64Max) (hv : v.Encodable) (k' : Bytes) (ts' : Nat) :
    (e.put (mvccKey k ts) (encodeMvccValue v)).version k' ts' =
      if k' = k ∧ ts' = ts then some v else e.version k' ts' := by
  unfold version
  by_cases hb : k'.length ≤ u32Max ∧ ts' ≤ u64Max
  · rw [if_pos hb,if_pos hb,Engine.put,OrdMap.get_insert]
    by_cases hs : k' = k ∧ ts' = ts
    · obtain ⟨rfl,rfl⟩ := hs
      simp [decodeMvccValue_encodeMvccValue hv,Except.toOption]
    · rw [if_neg (fun h => hs (mvccKey_inj hb.1 hb.2 hk ht h)),if_neg hs]
  · rw [if_neg hb,if_neg hb,if_neg]
    rintro ⟨rfl,rfl⟩
    exact hb ⟨hk,ht⟩

theorem version_bounds (h : e.version k ts = some v) : k.length ≤ u32Max ∧ ts ≤ u64Max := by
  unfold version at h
  split_ifs at h with hb
  exact hb

theorem Versioned.version_eq_some_iff (he : e.Versioned) (hk : k.length ≤ u32Max) (ht : ts ≤ u64Max) :
    e.version k ts = some v ↔ v.Encodable ∧ e.get (mvccKey k ts) = some (encodeMvccValue v) := by
  rw [version,if_pos ⟨hk,ht⟩]
  constructor
  · intro h
    obtain ⟨ev,hev,hd⟩ := bind_eq_some_iff.mp h
    obtain ⟨k',ts',v',hk',ht',hv',hek,rfl⟩ := he _ _ hev
    rw [decodeMvccValue_encodeMvccValue hv'] at hd
    cases hd
    exact ⟨hv',hev⟩
  · rintro ⟨hv,hg⟩
    simp [hg,decodeMvccValue_encodeMvccValue hv,Except.toOption]

end Engine

structure DecodedEntry where
  key : Bytes
  ts : Nat
  value : MvccValue

namespace DecodedEntry

def WellFormed (x : DecodedEntry) : Prop := x.key.length ≤ u32Max ∧ x.ts ≤ u64Max ∧ x.value.Encodable

def encode (x : DecodedEntry) : Bytes × Bytes := (mvccKey x.key x.ts,encodeMvccValue x.value)

def Sorted (xs : List DecodedEntry) : Prop := xs.Pairwise (fun x y => mvccKey x.key x.ts < mvccKey y.key y.ts)

end DecodedEntry

private theorem exists_decoded (es : List (Bytes × Bytes))
    (hw : ∀ y ∈ es, ∃ x : DecodedEntry, x.WellFormed ∧ x.encode = y) :
    ∃ xs : List DecodedEntry, es = xs.map DecodedEntry.encode ∧ ∀ x ∈ xs, x.WellFormed := by
  induction es with
  | nil => exact ⟨[],rfl,by simp⟩
  | cons y es ih =>
    obtain ⟨xs,rfl,hxs⟩ := ih (fun z hz => hw z (mem_cons_of_mem _ hz))
    obtain ⟨x,hx,rfl⟩ := hw y mem_cons_self
    exact ⟨x::xs,rfl,forall_mem_cons.mpr ⟨hx,hxs⟩⟩

private theorem encode_inj {x y : DecodedEntry} (hx : x.WellFormed) (hy : y.WellFormed) (h : x.encode = y.encode) :
    x = y := by
  obtain ⟨hk,hv⟩ := Prod.mk.inj h
  obtain ⟨h1,h2⟩ := mvccKey_inj hx.1 hx.2.1 hy.1 hy.2.1 hk
  have hd := decodeMvccValue_encodeMvccValue hx.2.2
  rw [hv,decodeMvccValue_encodeMvccValue hy.2.2] at hd
  cases x
  cases y
  simp_all

/-- The engine's entries, decoded: one for each version. -/
theorem entries_decoded (he : e.Versioned) :
    ∃ xs : List DecodedEntry, e.scan .unbounded .unbounded = xs.map DecodedEntry.encode ∧ (∀ x ∈ xs, x.WellFormed) ∧
      DecodedEntry.Sorted xs ∧ ∀ x : DecodedEntry, x ∈ xs ↔ e.version x.key x.ts = some x.value := by
  have hw : ∀ y ∈ e.scan .unbounded .unbounded, ∃ x : DecodedEntry, x.WellFormed ∧ x.encode = y := by
    rintro ⟨ek,ev⟩ hy
    obtain ⟨k,ts,v,hk,ht,hv,rfl,rfl⟩ := he ek ev ((OrdMap.mem_range e _ _ ek ev).mp hy).1
    exact ⟨⟨k,ts,v⟩,⟨hk,ht,hv⟩,rfl⟩
  obtain ⟨xs,hxs,hwf⟩ := exists_decoded _ hw
  have hsorted := OrdMap.range_sorted e .unbounded .unbounded
  refine ⟨xs,hxs,hwf,?_,?_⟩
  · rw [show e.range .unbounded .unbounded = xs.map DecodedEntry.encode from hxs] at hsorted
    rw [pairwise_map] at hsorted
    exact hsorted
  · intro x
    have hmem : x.encode ∈ xs.map DecodedEntry.encode ↔ e.get (mvccKey x.key x.ts) = some (encodeMvccValue x.value) := by
      rw [← hxs]
      exact (OrdMap.mem_range e _ _ _ _).trans (by simp [Bound.above,Bound.below])
    constructor
    · intro hx
      obtain ⟨hk,ht,hv⟩ := hwf x hx
      exact (he.version_eq_some_iff hk ht).mpr ⟨hv,hmem.mp (mem_map_of_mem hx)⟩
    · intro hv
      obtain ⟨hk,ht⟩ := Engine.version_bounds hv
      obtain ⟨henc,hg⟩ := (he.version_eq_some_iff hk ht).mp hv
      obtain ⟨y,hy,hyx⟩ := mem_map.mp (hmem.mpr hg)
      rwa [← encode_inj (hwf y hy) ⟨hk,ht,henc⟩ hyx]

/-- A list of encoded entries that are versions of one user key, newest first. -/
inductive Chain (k : Bytes) : List (Bytes × Bytes) → List (Nat × MvccValue) → Prop where
  | nil : Chain k [] []
  | cons {es : List (Bytes × Bytes)} {vs : List (Nat × MvccValue)} (ts : Nat) (v : MvccValue)
      (hk : k.length ≤ u32Max) (ht : ts ≤ u64Max) (hv : v.Encodable)
      (hlt : ∀ x ∈ vs, x.1 < ts) (rest : Chain k es vs) :
      Chain k ((mvccKey k ts, encodeMvccValue v)::es) ((ts,v)::vs)

private theorem chain_below (ht : ts ≤ u64Max) (h : Chain k es vs) (hx : ∀ x ∈ es, mvccKey k ts < x.1) :
    ∀ y ∈ vs, y.1 < ts := by
  induction h with
  | nil => simp
  | cons ts' v' _ ht' _ _ _ ih =>
    intro y hy
    rcases mem_cons.mp hy with rfl | hy
    · exact (mvccKey_lt_iff ht ht').mp (hx _ mem_cons_self)
    · exact ih (fun z hz => hx z (mem_cons_of_mem _ hz)) y hy

private theorem chain_of_sorted (hk : k.length ≤ u32Max) (es : List (Bytes × Bytes))
    (hs : es.Pairwise (fun a b => a.1 < b.1))
    (hw : ∀ x ∈ es, ∃ ts v, ts ≤ u64Max ∧ v.Encodable ∧ x = (mvccKey k ts, encodeMvccValue v)) :
    ∃ vs, Chain k es vs := by
  induction es with
  | nil => exact ⟨[],.nil⟩
  | cons x es ih =>
    obtain ⟨hx,hs⟩ := pairwise_cons.mp hs
    obtain ⟨vs,hvs⟩ := ih hs (fun y hy => hw y (mem_cons_of_mem _ hy))
    obtain ⟨ts,v,ht,hv,rfl⟩ := hw x mem_cons_self
    exact ⟨(ts,v)::vs,.cons ts v hk ht hv (chain_below ht hvs hx) hvs⟩

private theorem chain_mem (h : Chain k es vs) (ts : Nat) (v : MvccValue) (ht : ts ≤ u64Max) (hv : v.Encodable) :
    (ts,v) ∈ vs ↔ (mvccKey k ts, encodeMvccValue v) ∈ es := by
  induction h with
  | nil => simp
  | cons ts' v' hk ht' hv' _ _ ih =>
    simp only [mem_cons,ih,Prod.mk.injEq]
    apply or_congr_left
    constructor
    · rintro ⟨rfl,rfl⟩
      exact ⟨rfl,rfl⟩
    · rintro ⟨he,hev⟩
      refine ⟨(mvccKey_inj hk ht hk ht' he).2,?_⟩
      have hd := decodeMvccValue_encodeMvccValue hv
      rw [hev,decodeMvccValue_encodeMvccValue hv'] at hd
      simpa [eq_comm] using hd

private theorem chain_encodable (h : Chain k es vs) : ∀ x ∈ vs, x.1 ≤ u64Max ∧ x.2.Encodable := by
  induction h with
  | nil => simp
  | cons ts v _ ht hv _ _ ih =>
    intro x hx
    rcases mem_cons.mp hx with rfl | hx
    · exact ⟨ht,hv⟩
    · exact ih x hx

theorem scanUserKey_oversized (hk : ¬ k.length ≤ u32Max) (e : Engine) : scanUserKey e k = none := by
  simp [scanUserKey,encodeMvccKeyStart,encodeMvccKey,hk]

/-- Scanning a user key lists exactly its versions, newest first. -/
theorem scanUserKey_chain (he : e.Versioned) (hk : k.length ≤ u32Max) :
    ∃ es vs, scanUserKey e k = some es ∧ Chain k es vs ∧
      ∀ ts v, (ts,v) ∈ vs ↔ e.version k ts = some v := by
  have hw : ∀ x ∈ e.scan (.included (mvccKey k u64Max)) (.included (mvccKey k 0)),
      ∃ ts v, ts ≤ u64Max ∧ v.Encodable ∧ x = (mvccKey k ts, encodeMvccValue v) := by
    rintro ⟨ek,ev⟩ hx
    obtain ⟨hg,hlo,hhi⟩ := (OrdMap.mem_range e _ _ ek ev).mp hx
    obtain ⟨k',ts,v,hk',ht,hv,rfl,rfl⟩ := he ek ev hg
    simp only [Bound.above,Bound.below,decide_eq_true_eq] at hlo hhi
    obtain rfl := userKey_eq_of_between hk hk' hlo hhi
    exact ⟨ts,v,ht,hv,rfl⟩
  obtain ⟨vs,hvs⟩ := chain_of_sorted hk _ (OrdMap.range_sorted e _ _) hw
  refine ⟨_,vs,scanUserKey_eq e hk,hvs,?_⟩
  intro ts v
  constructor
  · intro hm
    obtain ⟨ht,hv⟩ := chain_encodable hvs _ hm
    have hx := (chain_mem hvs ts v ht hv).mp hm
    exact (he.version_eq_some_iff hk ht).mpr ⟨hv,((OrdMap.mem_range e _ _ _ _).mp hx).1⟩
  · intro h
    obtain ⟨_,ht⟩ := Engine.version_bounds h
    obtain ⟨hv,hg⟩ := (he.version_eq_some_iff hk ht).mp h
    refine (chain_mem hvs ts v ht hv).mpr ((OrdMap.mem_range e _ _ _ _).mpr ⟨hg,?_⟩)
    simp only [Bound.above,Bound.below,decide_eq_true_eq]
    exact (between_iff hk hk ht).mpr rfl

private theorem firstVisible_chain (h : Chain k es vs) (visible : Nat → Nat → Bool) :
    firstVisible k visible es = .ok (vs.find? (fun x => visible x.2.txnId x.1)) := by
  induction h with
  | nil => rfl
  | cons ts v hk ht hv _ _ ih =>
    simp only [firstVisible,decodeMvccKey_mvccKey hk ht,decodeMvccValue_encodeMvccValue hv,ih,
      find?_cons]
    cases visible v.txnId ts <;> simp

/-- The result is the newest visible version of the user key, if there is one. -/
def NewestVisible (e : Engine) (k : Bytes) (visible : Nat → Nat → Bool) :
    Option (Nat × MvccValue) → Prop
  | none => ∀ ts v, e.version k ts = some v → visible v.txnId ts = false
  | some (ts,v) => e.version k ts = some v ∧ visible v.txnId ts = true ∧
      ∀ ts' v', e.version k ts' = some v' → visible v'.txnId ts' = true → ts' ≤ ts

private theorem chain_find_newest (h : Chain k es vs) (p : Nat × MvccValue → Bool) {x : Nat × MvccValue}
    (hx : vs.find? p = some x) : ∀ y ∈ vs, p y = true → y.1 ≤ x.1 := by
  induction h with
  | nil => simp at hx
  | cons ts v _ _ _ hlt _ ih =>
    intro y hy hp
    rw [find?_cons] at hx
    cases hpv : p (ts,v) with
    | true =>
      simp only [hpv,some.injEq] at hx
      subst hx
      rcases mem_cons.mp hy with rfl | hy
      · exact le_rfl
      · exact (hlt y hy).le
    | false =>
      simp only [hpv] at hx
      rcases mem_cons.mp hy with rfl | hy
      · simp [hp] at hpv
      · exact ih hx y hy hp

theorem Chain.newest
    (hc : Chain k es vs) (hm : ∀ ts v, (ts,v) ∈ vs ↔ e.version k ts = some v) (visible : Nat → Nat → Bool) :
    NewestVisible e k visible (vs.find? (fun x => visible x.2.txnId x.1)) := by
  cases hf : vs.find? (fun x => visible x.2.txnId x.1) with
  | none =>
    intro ts v hv
    have hnot := find?_eq_none.mp hf (ts,v) ((hm ts v).mpr hv)
    simpa using hnot
  | some x =>
    have hvis : visible x.2.txnId x.1 = true := by simpa using find?_some hf
    refine ⟨(hm _ _).mp (mem_of_find?_eq_some hf),hvis,?_⟩
    intro ts' v' hv' hvis
    exact chain_find_newest hc _ hf (ts',v') ((hm _ _).mpr hv') hvis

private theorem firstVisible_visible (h : firstVisible k visible es = .ok (some found)) :
    visible found.2.txnId found.1 = true := by
  induction es with
  | nil => cases h
  | cons x es ih =>
    obtain ⟨encodedKey,encodedValue⟩ := x
    rw [firstVisible] at h
    split at h
    · cases h
    · split_ifs at h with hkey
      · cases h
      · split at h
        · cases h
        · split_ifs at h with hvis
          · cases h
            exact hvis
          · exact ih h

theorem mvccFind_visible (h : mvccFind e k visible = some (.ok (some found))) : visible found.2.txnId found.1 = true := by
  obtain ⟨es,-,hes⟩ := map_eq_some_iff.mp h
  exact firstVisible_visible hes

/-- The read path returns, and what it returns is the newest visible version. -/
theorem mvccFind_spec (he : e.Versioned) (hk : k.length ≤ u32Max) (visible : Nat → Nat → Bool) :
    ∃ r, mvccFind e k visible = some (.ok r) ∧ NewestVisible e k visible r := by
  obtain ⟨es,vs,hscan,hc,hm⟩ := scanUserKey_chain he hk
  exact ⟨_,by rw [mvccFind,hscan,map_some,firstVisible_chain hc],hc.newest hm visible⟩

theorem NewestVisible.unique {r r' : Option (Nat × MvccValue)} (h : NewestVisible e k visible r)
    (h' : NewestVisible e k visible r') : r = r' := by
  match r, r' with
  | none, none => rfl
  | none, some (ts,v) => exact absurd h'.2.1 (by simp [h ts v h'.1])
  | some (ts,v), none => exact absurd h.2.1 (by simp [h' ts v h.1])
  | some (ts,v), some (ts',v') =>
    have he := le_antisymm (h'.2.2 ts v h.1 h.2.1) (h.2.2 ts' v' h'.1 h'.2.1)
    subst he
    have hv : v = v' := some.inj (h.1.symm.trans h'.1)
    rw [hv]

/-- A read returns a value exactly if the newest visible version holds it. -/
theorem mvccGet_eq_some_iff (he : e.Versioned) {d : Bytes} :
    mvccGet e k visible = some (.ok (some d)) ↔ ∃ r, NewestVisible e k visible r ∧ r.bind (·.2.data) = some d := by
  by_cases hk : k.length ≤ u32Max
  · obtain ⟨r,hfind,hnew⟩ := mvccFind_spec he hk visible
    rw [mvccGet,hfind]
    simp only [map_some,Except.map,Option.some.injEq,Except.ok.injEq]
    exact ⟨fun hd => ⟨r,hnew,hd⟩,fun ⟨r',hnew',hd⟩ => hnew.unique hnew' ▸ hd⟩
  · refine iff_of_false ?_ ?_
    · rw [mvccGet,mvccFind,scanUserKey_oversized hk]
      simp
    · rintro ⟨r,hnew,hd⟩
      obtain ⟨x,rfl,-⟩ := bind_eq_some_iff.mp hd
      exact hk (Engine.version_bounds hnew.1).1

end InterchangeDb
