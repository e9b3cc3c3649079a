import Mathlib

/-! Byte strings and fixed-width integers: codecs with their round trips, and byte order as numeric order. -/
namespace InterchangeDb
open List Nat

abbrev Byte := Fin 256
abbrev Bytes := List Byte

-- named, so that numerals and tests of membership do not bring in a proof of their own
instance neZero_256 : NeZero 256 := ⟨by decide⟩
instance neZero_65536 : NeZero 65536 := ⟨by decide⟩
instance neZero_4294967296 : NeZero 4294967296 := ⟨by decide⟩
instance lawfulBEq_byte : LawfulBEq Byte := inferInstance
instance lawfulBEq_bytes : LawfulBEq Bytes := inferInstance

/-- The low w base-256 digits, least significant first. -/
def toLeBytes : Nat → Nat → Bytes
  | 0, _ => []
  | w+1, n => ⟨n % 256, Nat.mod_lt _ (by decide)⟩ :: toLeBytes w (n / 256)

def fromLeBytes : Bytes → Nat
  | [] => 0
  | b::bs => b.val + 256 * fromLeBytes bs

def toBeBytes (w n : Nat) : Bytes := (toLeBytes w n).reverse
def fromBeBytes (bs : Bytes) : Nat := fromLeBytes bs.reverse

@[simp] theorem length_toLeBytes (w n : Nat) : (toLeBytes w n).length = w := by
  induction w generalizing n with
  | zero => rfl
  | succ w ih => simp [toLeBytes,ih]

@[simp] theorem length_toBeBytes (w n : Nat) : (toBeBytes w n).length = w := by simp [toBeBytes]

theorem fromLeBytes_toLeBytes (w n : Nat) : fromLeBytes (toLeBytes w n) = n % 256^w := by
  induction w generalizing n with
  | zero => simp [toLeBytes,fromLeBytes,mod_one]
  | succ w ih =>
    simp only [toLeBytes,fromLeBytes,ih]
    rw [pow_succ',mod_mul]

theorem fromLeBytes_toLeBytes_of_lt {w n : Nat} (h : n < 256^w) :
    fromLeBytes (toLeBytes w n) = n := by
  rw [fromLeBytes_toLeBytes,mod_eq_of_lt h]

theorem fromBeBytes_toBeBytes_of_lt {w n : Nat} (h : n < 256^w) :
    fromBeBytes (toBeBytes w n) = n := by
  simp [fromBeBytes,toBeBytes,fromLeBytes_toLeBytes_of_lt h]

theorem toBeBytes_inj {w n m : Nat} (hn : n < 256^w) (hm : m < 256^w) (h : toBeBytes w n = toBeBytes w m) : n = m := by
  rw [← fromBeBytes_toBeBytes_of_lt hn,h,fromBeBytes_toBeBytes_of_lt hm]

theorem Bytes.nil_le (k : Bytes) : [] ≤ k := not_lt.mp (not_lt_nil k)

/-- Byte order of two concatenations whose first parts have one length is
decided by the first parts, then by the rest. -/
theorem append_lt_append_iff {a a' b b' : Bytes} (h : a.length = a'.length) :
    a ++ b < a' ++ b' ↔ a < a' ∨ (a = a' ∧ b < b') := by
  induction a generalizing a' with
  | nil =>
    obtain rfl := length_eq_zero_iff.mp h.symm
    simp
  | cons x a ih =>
    cases a' with
    | nil => simp at h
    | cons y a' =>
      simp only [cons_append,cons_lt_cons_iff,ih (by simpa using h),
        cons.injEq]
      tauto

theorem append_le_append_iff {a a' b b' : Bytes} (h : a.length = a'.length) :
    a ++ b ≤ a' ++ b' ↔ a < a' ∨ (a = a' ∧ b ≤ b') := by
  rw [← not_lt,← not_lt,append_lt_append_iff h.symm]
  rcases lt_trichotomy a a' with h | rfl | h
  · simp [h,h.not_gt,h.ne']
  · simp
  · simp [h,h.not_gt,h.ne']

theorem Bytes.cons_le_iff {b c : Byte} {p q : Bytes} : b::p ≤ c::q ↔ b < c ∨ (b = c ∧ p ≤ q) := by
  simpa [cons_lt_cons_iff] using (append_le_append_iff rfl : [b] ++ p ≤ [c] ++ q ↔ _)

private theorem fromLeBytes_append (a b : Bytes) : fromLeBytes (a ++ b) = fromLeBytes a + 256^a.length * fromLeBytes b := by
  induction a with
  | nil => simp [fromLeBytes]
  | cons x a ih =>
    simp only [cons_append,fromLeBytes,ih,length_cons,pow_succ]
    ring

theorem fromBeBytes_cons (b : Byte) (bs : Bytes) : fromBeBytes (b::bs) = b.val * 256^bs.length + fromBeBytes bs := by
  simp [fromBeBytes,fromLeBytes_append,fromLeBytes]
  ring

theorem fromBeBytes_lt (bs : Bytes) : fromBeBytes bs < 256^bs.length := by
  induction bs with
  | nil => exact one_pos
  | cons b bs ih =>
    have hb := mul_le_mul_right (256^bs.length) b.is_le
    rw [fromBeBytes_cons,length_cons,pow_succ]
    omega

/-- On strings of one length, byte order is the order of the big-endian numbers. -/
theorem lt_iff_fromBeBytes_lt {a b : Bytes} (h : a.length = b.length) : a < b ↔ fromBeBytes a < fromBeBytes b := by
  induction a generalizing b with
  | nil =>
    obtain rfl := length_eq_zero_iff.mp h.symm
    simp
  | cons x a ih =>
    cases b with
    | nil => simp at h
    | cons y b =>
      have hlen : a.length = b.length := by simpa using h
      have ha := fromBeBytes_lt a
      have hb := fromBeBytes_lt b
      rw [cons_lt_cons_iff,ih hlen,fromBeBytes_cons,fromBeBytes_cons,Fin.lt_def,Fin.ext_iff]
      rw [hlen] at ha ⊢
      rcases lt_trichotomy x.val y.val with hxy | hxy | hxy
      · have := mul_le_mul_right (256^b.length) hxy
        simp only [hxy,true_or,true_iff]
        rw [succ_mul] at this
        omega
      · simp [hxy]
      · have := mul_le_mul_right (256^b.length) hxy
        rw [succ_mul] at this
        omega

theorem toBeBytes_lt_iff {w n m : Nat} (hn : n < 256^w) (hm : m < 256^w) :
    toBeBytes w n < toBeBytes w m ↔ n < m := by
  rw [lt_iff_fromBeBytes_lt (by simp),fromBeBytes_toBeBytes_of_lt hn,fromBeBytes_toBeBytes_of_lt hm]

/-- The bytes of a buffer from an offset on, at most len of them. -/
def slice (buf : Bytes) (off len : Nat) : Bytes := (buf.drop off).take len

/-- A little-endian word of w bytes at an offset. -/
def readLe (w : Nat) (buf : Bytes) (off : Nat) : Nat := fromLeBytes (slice buf off w)

/-- A part of a concatenation, found by the length of what stands before it. -/
theorem slice_mid {a b c : Bytes} {o l : Nat} (ho : o = a.length) (hl : l = b.length) :
    slice (a ++ (b ++ c)) o l = b := by
  subst ho hl
  rw [slice,drop_left,take_left]

theorem readLe_mid {a c : Bytes} {w n o : Nat} (ho : o = a.length) :
    readLe w (a ++ (toLeBytes w n ++ c)) o = n % 256^w := by
  rw [readLe,slice_mid ho (length_toLeBytes w n).symm,fromLeBytes_toLeBytes]

end InterchangeDb
