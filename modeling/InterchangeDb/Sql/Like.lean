import InterchangeDb.Sql.Expr

/-! LIKE. Each piece of a pattern is taken at its leftmost place, which leaves the most room for the pieces behind it. -/
namespace InterchangeDb
open List

/-- The texts of a pattern, character by character: a percent sign stands for any text, an underscore for one
character. -/
inductive Like : List Bytes → List Bytes → Prop where
  | nil : Like [] []
  | many (s : List Bytes) {p t : List Bytes} (h : Like p t) : Like ([0x25]::p) (s ++ t)
  | one (c : Bytes) {p t : List Bytes} (h : Like p t) : Like ([0x5F]::p) (c::t)
  | lit {c : Bytes} (hmany : c ≠ [0x25]) (hone : c ≠ [0x5F]) {p t : List Bytes} (h : Like p t) : Like (c::p) (c::t)

namespace Like
variable {seg : List PatChar} {segments mids : List (List PatChar)} {chars : List Bytes} {n cursor bound pos : Nat}

/-- Pieces in order, the first at a position and the last at the end of the text. -/
def Placed (chars : List Bytes) : Nat → List (List PatChar) → Prop
  | _, [] => False
  | n, [seg] => n + seg.length = chars.length ∧ segmentMatchesAt seg chars n = true
  | n, seg::next::segments => segmentMatchesAt seg chars n = true ∧
      ∃ m, n + seg.length ≤ m ∧ m ≤ chars.length ∧ Placed chars m (next::segments)

theorem segmentMatchesAt_cons {x : PatChar} : segmentMatchesAt (x::seg) chars n = true ↔
    chars[n]?.any x.accepts = true ∧ segmentMatchesAt seg chars (n + 1) = true := by
  have hlen := length_drop (i := n) (l := chars)
  rw [← head?_drop,segmentMatchesAt,segmentMatchesAt,← tail_drop]
  cases hdrop : chars.drop n with
  | nil =>
    rw [hdrop,length_nil] at hlen
    simp only [length_cons,Bool.and_eq_true,decide_eq_true_eq,head?_nil,Option.any_none,Bool.false_eq_true,false_and,iff_false]
    omega
  | cons c t =>
    simp only [length_cons,zip_cons_cons,all_cons,Bool.and_eq_true,decide_eq_true_eq,head?_cons,Option.any_some,tail_cons,
      add_right_comm n 1,add_assoc]
    tauto

theorem placed_cons {x : PatChar} : Placed chars n ((x::seg)::segments) ↔
    chars[n]?.any x.accepts = true ∧ Placed chars (n + 1) (seg::segments) := by
  have hlen : n + (x::seg).length = n + 1 + seg.length := by rw [length_cons,add_right_comm,add_assoc]
  cases segments <;> simp only [Placed,segmentMatchesAt_cons,hlen] <;> tauto

theorem many_iff {p t : List Bytes} : Like ([0x25]::p) t ↔ ∃ k ≤ t.length, Like p (t.drop k) := by
  constructor
  · intro h
    cases h with
    | many s h => exact ⟨s.length,by simp,by rwa [drop_left]⟩
    | lit hne => exact absurd rfl hne
  · rintro ⟨k,-,h⟩
    rw [← take_append_drop k t]
    exact .many _ h

theorem cons_iff {c : Bytes} (hmany : c ≠ [0x25]) {p t : List Bytes} : Like (c::p) t ↔
    t.head?.any (if c = [0x5F] then PatChar.anyOne else .lit c).accepts = true ∧ Like p t.tail := by
  constructor
  · intro h
    cases h with
    | many => exact absurd rfl hmany
    | one c h => exact ⟨rfl,h⟩
    | lit _ hone h => exact ⟨by simp [if_neg hone,PatChar.accepts],h⟩
  · rintro ⟨hx,h⟩
    cases t with
    | nil => cases hx
    | cons d t =>
      by_cases hone : c = [0x5F]
      · exact hone ▸ .one d h
      · rw [if_neg hone] at hx
        exact of_decide_eq_true hx ▸ .lit hmany hone h

theorem compileLikePattern_ne_nil (p : List Bytes) : compileLikePattern p ≠ [] := by
  cases p with
  | nil => exact cons_ne_nil _ _
  | cons c p =>
    obtain ⟨seg,segments,heq⟩ := exists_cons_of_ne_nil (compileLikePattern_ne_nil p)
    rw [compileLikePattern,heq]
    by_cases hmany : c = [0x25]
    · exact if_pos hmany ▸ cons_ne_nil _ _
    · exact if_neg hmany ▸ cons_ne_nil _ _

theorem iff_placed (p : List Bytes) (hn : n ≤ chars.length) : Like p (chars.drop n) ↔ Placed chars n (compileLikePattern p) := by
  induction p generalizing n with
  | nil =>
    have hnil : Like [] (chars.drop n) ↔ chars.drop n = [] := by
      generalize chars.drop n = t
      exact ⟨fun h => by cases h; rfl,fun h => h ▸ .nil⟩
    simp only [hnil,drop_eq_nil_iff,compileLikePattern,Placed,segmentMatchesAt,length_nil,add_zero,zip_nil_left,all_nil,
      Bool.and_true,decide_eq_true_eq]
    omega
  | cons c p ih =>
    obtain ⟨seg,segments,heq⟩ := exists_cons_of_ne_nil (compileLikePattern_ne_nil p)
    rw [compileLikePattern,heq]
    rw [heq] at ih
    by_cases hmany : c = [0x25]
    · subst hmany
      rw [if_pos rfl,many_iff,length_drop]
      simp only [Placed,segmentMatchesAt,length_nil,Nat.add_zero,zip_nil_left,all_nil,Bool.and_true,decide_eq_true_eq,hn,true_and]
      constructor
      · rintro ⟨k,hk,h⟩
        rw [drop_drop] at h
        exact ⟨n + k,Nat.le_add_right _ _,by omega,(ih (by omega)).mp h⟩
      · rintro ⟨m,hm,hle,h⟩
        refine ⟨m - n,by omega,?_⟩
        rw [drop_drop,Nat.add_sub_cancel' hm]
        exact (ih hle).mpr h
    · rw [if_neg hmany,placed_cons,cons_iff hmany,head?_drop,tail_drop]
      refine and_congr_right fun hx => ih ?_
      by_contra hlt
      rw [getElem?_eq_none (by omega)] at hx
      cases hx

theorem findSegment_spec (h : findSegment seg chars cursor bound = some pos) :
    cursor ≤ pos ∧ pos + seg.length ≤ bound ∧ segmentMatchesAt seg chars pos = true := by
  unfold findSegment at h
  split_ifs at h
  have hmem := mem_range'_1.mp (mem_of_find?_eq_some h)
  exact ⟨hmem.1,by omega,find?_some h⟩

theorem findSegment_le (hc : cursor ≤ n) (hb : n + seg.length ≤ bound) (h : segmentMatchesAt seg chars n = true) :
    ∃ pos ≤ n, findSegment seg chars cursor bound = some pos := by
  have hmem : n ∈ range' cursor (bound - seg.length + 1 - cursor) := mem_range'_1.mpr (by omega)
  rw [findSegment,if_pos (by omega)]
  obtain ⟨pos,hpos⟩ := Option.isSome_iff_exists.mp (find?_isSome.mpr ⟨n,hmem,h⟩)
  refine ⟨pos,?_,hpos⟩
  by_contra hlt
  simpa [h] using (find?_range'_eq_some.mp hpos).2.2 n hc (not_le.mp hlt)

/-- The pieces stand somewhere from a position on. -/
def From (chars : List Bytes) (segments : List (List PatChar)) (cursor : Nat) : Prop :=
  ∃ n, cursor ≤ n ∧ n ≤ chars.length ∧ Placed chars n segments

/-- Taking each piece at its leftmost place finds a way to place them all, if there is one. -/
theorem matchMiddle_iff (suffix : List PatChar) : From chars (mids ++ [suffix]) cursor ↔
    suffix.length ≤ chars.length ∧ cursor ≤ chars.length - suffix.length ∧
      segmentMatchesAt suffix chars (chars.length - suffix.length) = true ∧
      matchMiddle chars (chars.length - suffix.length) cursor mids = true := by
  induction mids generalizing cursor with
  | nil =>
    constructor
    · rintro ⟨n,hn,hle,hend,h⟩
      obtain rfl : n = chars.length - suffix.length := by omega
      exact ⟨by omega,hn,h,rfl⟩
    · rintro ⟨hle,hn,h,-⟩
      exact ⟨_,hn,Nat.sub_le _ _,by omega,h⟩
  | cons seg mids ih =>
    have hplaced : ∀ n, Placed chars n (seg::(mids ++ [suffix])) ↔
        segmentMatchesAt seg chars n = true ∧ From chars (mids ++ [suffix]) (n + seg.length) := by
      intro n
      cases mids <;> rfl
    simp only [cons_append,From,hplaced,matchMiddle]
    constructor
    · rintro ⟨n,hcn,hn,hat,hrest⟩
      obtain ⟨hsuf,hbound,hlast,-⟩ := ih.mp hrest
      obtain ⟨pos,hpos,hfind⟩ := findSegment_le hcn hbound hat
      have hearlier : From chars (mids ++ [suffix]) (pos + seg.length) := hrest.imp fun m h => ⟨by omega,h.2⟩
      rw [hfind]
      exact ⟨hsuf,by omega,hlast,(ih.mp hearlier).2.2.2⟩
    · rintro ⟨hsuf,-,hlast,hmid⟩
      split at hmid
      · cases hmid
      case h_2 pos hfind =>
        obtain ⟨hpos,hbound,hat⟩ := findSegment_spec hfind
        exact ⟨pos,hpos,by omega,hat,ih.mpr ⟨hsuf,hbound,hlast,hmid⟩⟩

/-- A text matches a LIKE pattern exactly if it is one of the texts of the pattern. -/
theorem likeMatch_iff (pattern text : Text) :
    likeMatch (compileLikePattern pattern.chars) text = true ↔ Like pattern.chars text.chars := by
  have hpattern := iff_placed pattern.chars (Nat.zero_le text.chars.length)
  rw [drop_zero] at hpattern
  rw [hpattern]
  match compileLikePattern pattern.chars with
  | [] => simp [likeMatch,Placed]
  | [seg] => simp [likeMatch,Placed]
  | lead::next::rest =>
    obtain ⟨mids,suffix,hrest⟩ : ∃ mids suffix, next::rest = mids ++ [suffix] :=
      ⟨_,_,(dropLast_append_getLast (cons_ne_nil next rest)).symm⟩
    have hplaced : Placed text.chars 0 (lead::next::rest) ↔
        segmentMatchesAt lead text.chars 0 = true ∧ From text.chars (mids ++ [suffix]) lead.length := by
      rw [← hrest,Placed,zero_add]
      rfl
    rw [hplaced,matchMiddle_iff,likeMatch.eq_def]
    simp [hrest,Bool.and_eq_true,decide_eq_true_eq,and_assoc]

end Like
end InterchangeDb
