import InterchangeDb.Lib.Bytes

/-! Logs of self-delimiting frames. A cut anywhere leaves exactly the frames that lie wholly before it. -/
namespace InterchangeDb
open List

/-- A frame format: a valid frame decodes in front of anything, and no proper
part of one decodes. -/
structure FrameCodec (R E : Type*) where
  encode : R → Bytes
  decode : Bytes → Except E (R × Nat)
  Valid : R → Prop
  encode_ne_nil : ∀ r, Valid r → encode r ≠ []
  decode_encode : ∀ r rest, Valid r → decode (encode r ++ rest) = .ok (r,(encode r).length)
  decode_torn : ∀ r n, Valid r → n < (encode r).length → ∃ e, decode ((encode r).take n) = .error e

/-- Decode frame after frame; the second part is the error that stopped it. -/
def scanFrames {R E : Type*} (decode : Bytes → Except E (R × Nat)) : Nat → Bytes → List R × Option E
  | 0, _ => ([],none)
  | fuel+1, data =>
    if data = [] then ([],none)
    else match decode data with
      | .ok (r,consumed) =>
        let s := scanFrames decode fuel (data.drop consumed)
        (r::s.1,s.2)
      | .error e => ([],some e)

namespace FrameCodec

variable {R E : Type*} (c : FrameCodec R E)
variable {rs : List R} {tail : Bytes}

def frames (rs : List R) : Bytes := rs.flatMap c.encode

/-- The frames wholly inside the first n bytes. -/
def whole : Nat → List R → List R
  | _, [] => []
  | n, r::rs => if (c.encode r).length ≤ n then r :: whole (n - (c.encode r).length) rs else []

@[simp] theorem frames_nil : c.frames [] = [] := rfl

@[simp] theorem frames_cons (r : R) (rs : List R) : c.frames (r::rs) = c.encode r ++ c.frames rs := rfl

@[simp] theorem frames_append (rs rs' : List R) : c.frames (rs ++ rs') = c.frames rs ++ c.frames rs' := by
  simp [frames]

theorem whole_isPrefix (n : Nat) (rs : List R) : c.whole n rs <+: rs := by
  induction rs generalizing n with
  | nil => simp [whole]
  | cons r rs ih =>
    rw [whole]
    split_ifs
    · exact (prefix_cons_inj r).mpr (ih _)
    · exact nil_prefix

theorem whole_of_length_le {n : Nat} (h : (c.frames rs).length ≤ n) : c.whole n rs = rs := by
  induction rs generalizing n with
  | nil => rfl
  | cons r rs ih =>
    simp only [frames_cons,length_append] at h
    rw [whole,if_pos (by omega),ih (by omega)]

variable {c}

private theorem encode_length_pos {r : R} (h : c.Valid r) : 0 < (c.encode r).length :=
  length_pos_iff.mpr (c.encode_ne_nil r h)

theorem scanFrames_append (hv : ∀ r ∈ rs, c.Valid r) (fuel : Nat) (tail : Bytes)
    (hf : (c.frames rs ++ tail).length ≤ fuel) :
    ∃ fuel', tail.length ≤ fuel' ∧ scanFrames c.decode fuel (c.frames rs ++ tail) =
      (rs ++ (scanFrames c.decode fuel' tail).1,(scanFrames c.decode fuel' tail).2) := by
  induction rs generalizing fuel with
  | nil => exact ⟨fuel,by simpa using hf,by simp⟩
  | cons r rs ih =>
    have hr := hv r mem_cons_self
    have hpos := encode_length_pos hr
    simp only [frames_cons,append_assoc,length_append] at hf ⊢
    cases fuel with
    | zero => omega
    | succ fuel =>
      obtain ⟨fuel',hle,hs⟩ := ih (fun x hx => hv x (mem_cons_of_mem _ hx)) fuel
        (by rw [length_append]; omega)
      refine ⟨fuel',hle,?_⟩
      have hne : c.encode r ++ (c.frames rs ++ tail) ≠ [] := by
        simp [c.encode_ne_nil r hr]
      rw [scanFrames,if_neg hne,c.decode_encode r _ hr]
      simp [hs,cons_append]

/-- Nothing, or a proper part of a frame. -/
def Torn (c : FrameCodec R E) (tail : Bytes) : Prop :=
  tail = [] ∨ ∃ r n, c.Valid r ∧ n < (c.encode r).length ∧ tail = (c.encode r).take n

theorem Torn.take (h : c.Torn tail) (n : Nat) : c.Torn (tail.take n) := by
  rcases h with rfl | ⟨r,m,hr,hm,rfl⟩
  · exact .inl take_nil
  · exact .inr ⟨r,min n m,hr,by omega,take_take⟩

/-- A torn tail decodes to nothing, and stops the scan unless it is empty. -/
theorem scanFrames_torn (hv : ∀ r ∈ rs, c.Valid r) (ht : c.Torn tail) {fuel : Nat}
    (hf : (c.frames rs ++ tail).length ≤ fuel) :
    (scanFrames c.decode fuel (c.frames rs ++ tail)).1 = rs ∧
      ((scanFrames c.decode fuel (c.frames rs ++ tail)).2 = none ↔ tail = []) := by
  obtain ⟨fuel',hle,hs⟩ := scanFrames_append hv fuel tail hf
  rw [hs]
  by_cases hnil : tail = []
  · subst hnil
    cases fuel' <;> simp [scanFrames]
  · rcases ht with rfl | ⟨r,n,hr,hn,rfl⟩
    · exact absurd rfl hnil
    · obtain ⟨e,he⟩ := c.decode_torn r n hr hn
      cases fuel' with
      | zero => exact absurd (length_eq_zero_iff.mp (Nat.le_zero.mp hle)) hnil
      | succ fuel' => simp [scanFrames,hnil,he]

/-- A cut of a log splits into whole frames and a part of the next one. -/
theorem take_frames (hv : ∀ r ∈ rs, c.Valid r) (n : Nat) :
    ∃ tail, (c.frames rs).take n = c.frames (c.whole n rs) ++ tail ∧ c.Torn tail := by
  induction rs generalizing n with
  | nil => exact ⟨[],by simp [whole],.inl rfl⟩
  | cons r rs ih =>
    rw [whole]
    split_ifs with h
    · obtain ⟨tail,ht,htorn⟩ := ih (fun x hx => hv x (mem_cons_of_mem _ hx)) (n - (c.encode r).length)
      refine ⟨tail,?_,htorn⟩
      rw [frames_cons,take_append,take_of_length_le h,ht,frames_cons,append_assoc]
    · refine ⟨(c.encode r).take n,?_,.inr ⟨r,n,hv r mem_cons_self,not_le.mp h,rfl⟩⟩
      rw [frames_cons,frames_nil,nil_append,take_append_of_le_length (not_le.mp h).le]

/-- A cut of a log with a torn tail. -/
theorem take_frames_torn (hv : ∀ r ∈ rs, c.Valid r) (ht : c.Torn tail) (n : Nat) :
    ∃ tail', (c.frames rs ++ tail).take n = c.frames (c.whole n rs) ++ tail' ∧ c.Torn tail' := by
  by_cases hn : n ≤ (c.frames rs).length
  · rw [take_append_of_le_length hn]
    exact take_frames hv n
  · refine ⟨tail.take (n - (c.frames rs).length),?_,ht.take _⟩
    rw [take_append,take_of_length_le (by omega),whole_of_length_le (h := by omega)]

variable (c) in
/-- Each frame with the position of its end, from an offset on. -/
def ends : Nat → List R → List (R × Nat)
  | _, [] => []
  | off, r::rs => (r,off + (c.encode r).length) :: ends (off + (c.encode r).length) rs

theorem ends_append (off : Nat) (rs rs' : List R) :
    c.ends off (rs ++ rs') = c.ends off rs ++ c.ends (off + (c.frames rs).length) rs' := by
  induction rs generalizing off with
  | nil => simp [ends]
  | cons r rs ih => simp [ends,ih,add_assoc]

theorem map_ends (off : Nat) (rs : List R) : (c.ends off rs).map Prod.fst = rs := by
  induction rs generalizing off with
  | nil => rfl
  | cons r rs ih => simp [ends,ih]

private theorem lt_of_mem_ends {off : Nat} {x : R × Nat} (h : x ∈ c.ends off rs) : off ≤ x.2 := by
  induction rs generalizing off with
  | nil => simp [ends] at h
  | cons r rs ih =>
    rcases mem_cons.mp h with rfl | h
    · exact Nat.le_add_right _ _
    · exact le_trans (Nat.le_add_right _ _) (ih h)

theorem filter_ends (off n : Nat) (rs : List R) :
    (c.ends off rs).filter (fun x => decide (x.2 ≤ off + n)) = c.ends off (c.whole n rs) := by
  induction rs generalizing off n with
  | nil => rfl
  | cons r rs ih =>
    rw [whole,ends,filter_cons]
    split_ifs with h1 h2 h2
    · have hoff : off + n = off + (c.encode r).length + (n - (c.encode r).length) := by omega
      rw [ends,hoff,ih]
    · simp only [decide_eq_true_eq] at h1
      omega
    · simp only [decide_eq_true_eq] at h1
      omega
    · rw [ends,filter_eq_nil_iff]
      intro x hx
      have := lt_of_mem_ends hx
      simp only [decide_eq_true_eq]
      omega

end FrameCodec
end InterchangeDb
