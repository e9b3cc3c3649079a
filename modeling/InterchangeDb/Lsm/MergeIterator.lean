import InterchangeDb.Lib.Bytes
import InterchangeDb.Lib.Layers

/-! The k-way merge over sorted sources; on equal keys the first source wins. -/
namespace InterchangeDb
open List

/-- A key with its value; no value is a tombstone. -/
abbrev Entry := Bytes × Option Bytes

namespace MergeIterator
open OrdMap (find)
open Layers
variable {sources : List (List Entry)} {i j : Nat} {best : Option (Bytes × Nat)} {key : Bytes} {source : List Entry}
  {e : Entry}

/-- Find the source with the smallest current key; on a tie the lower index stays. -/
def pickMin : Nat → Option (Bytes × Nat) → List (List Entry) → Option (Bytes × Nat)
  | _, best, [] => best
  | i, best, []::sources => pickMin (i+1) best sources
  | i, none, (e::_)::sources => pickMin (i+1) (some (e.1, i)) sources
  | i, some (minKey, minIdx), (e::_)::sources =>
    if e.1 < minKey then pickMin (i+1) (some (e.1, i)) sources
    else pickMin (i+1) (some (minKey, minIdx)) sources

/-- Take the winner's entry off, and the entries of the same key off the other sources. -/
def advance (winnerKey : Bytes) (winnerIdx : Nat) (sources : List (List Entry)) : List (List Entry) :=
  sources.mapIdx (fun i source =>
    if i = winnerIdx then source.tail else source.dropWhile (fun e => e.1 == winnerKey))

/-- The loop; every round takes at least one entry, so their number is enough fuel. -/
def collect : Nat → List (List Entry) → List Entry
  | 0, _ => []
  | fuel+1, sources =>
    match pickMin 0 none sources with
    | none => []
    | some (winnerKey, winnerIdx) =>
      match (sources[winnerIdx]?).bind List.head? with
      | none => []
      | some entry => entry :: collect fuel (advance winnerKey winnerIdx sources)

def collectAll (sources : List (List Entry)) : List Entry := collect (sources.map List.length).sum sources

private theorem pickMin_eq_none (h : pickMin i best sources = none) : best = none ∧ ∀ source ∈ sources, source = [] := by
  fun_induction pickMin i best sources with
  | case1 i best => exact ⟨h,by simp⟩
  | case2 i best sources ih => exact ⟨(ih h).1,by simpa using (ih h).2⟩
  | case3 i e rest sources ih => cases (ih h).1
  | case4 i minKey minIdx e rest sources hlt ih => cases (ih h).1
  | case5 i minKey minIdx e rest sources hlt ih => cases (ih h).1

/-- The first source that starts with the smallest key, counted from a given number on. -/
private def Wins (sources : List (List Entry)) (i : Nat) (key : Bytes) (j : Nat) : Prop :=
  ∃ before e rest after, sources = before ++ (e::rest)::after ∧ j = i + before.length ∧ e.1 = key ∧
    ∀ source ∈ before, ∀ x ∈ source.head?, key < x.1

private theorem Wins.cons (h : Wins sources (i+1) key j) (hs : ∀ x ∈ source.head?, key < x.1) :
    Wins (source::sources) i key j := by
  obtain ⟨before,e,rest,after,rfl,rfl,he,hb⟩ := h
  exact ⟨source::before,e,rest,after,rfl,by simp only [length_cons]; omega,he,forall_mem_cons.mpr ⟨hs,hb⟩⟩

private theorem pickMin_eq_some (h : pickMin i best sources = some (key,j)) :
    (∀ b ∈ best, key ≤ b.1) ∧ (∀ source ∈ sources, ∀ x ∈ source.head?, key ≤ x.1) ∧
    (best = some (key,j) ∨ (∀ b ∈ best, key < b.1) ∧ Wins sources i key j) := by
  -- a source that is the best so far wins, unless a later one starts below it
  have hnew : ∀ {e : Entry} {rest : List Entry} {sources : List (List Entry)} {i : Nat},
      some (e.1,i) = some (key,j) ∨ (∀ b ∈ some (e.1,i), key < b.1) ∧ Wins sources (i+1) key j → Wins ((e::rest)::sources) i key j := by
    rintro e rest sources i (heq | ⟨hlt,hwin⟩)
    · cases heq
      exact ⟨[],e,rest,sources,rfl,rfl,rfl,by simp⟩
    · exact hwin.cons (by simpa using hlt)
  fun_induction pickMin i best sources with
  | case1 i best =>
    subst h
    exact ⟨by simp,by simp,.inl rfl⟩
  | case2 i best sources ih =>
    obtain ⟨hbest,hheads,hwin⟩ := ih h
    exact ⟨hbest,by simpa using hheads,hwin.imp_right (.imp_right fun hwin => hwin.cons (by simp))⟩
  | case3 i e rest sources ih =>
    obtain ⟨hbest,hheads,hwin⟩ := ih h
    exact ⟨by simp,forall_mem_cons.mpr ⟨by simpa using hbest,hheads⟩,.inr ⟨by simp,hnew hwin⟩⟩
  | case4 i minKey minIdx e rest sources hmin ih =>
    obtain ⟨hbest,hheads,hwin⟩ := ih h
    have hlt : key < minKey := lt_of_le_of_lt (hbest _ rfl) hmin
    exact ⟨by simpa using hlt.le,forall_mem_cons.mpr ⟨by simpa using hbest,hheads⟩,.inr ⟨by simpa using hlt,hnew hwin⟩⟩
  | case5 i minKey minIdx e rest sources hmin ih =>
    obtain ⟨hbest,hheads,hwin⟩ := ih h
    have hle : key ≤ e.1 := (hbest _ rfl).trans (not_lt.mp hmin)
    refine ⟨hbest,forall_mem_cons.mpr ⟨by simpa using hle,hheads⟩,hwin.imp_right ?_⟩
    rintro ⟨hlt,hwin⟩
    exact ⟨hlt,hwin.cons (by simpa using lt_of_lt_of_le (hlt _ rfl) (not_lt.mp hmin))⟩

private theorem le_of_mem_source (h : Ascending source)
    (hhead : ∀ x ∈ source.head?, key ≤ x.1) (he : e ∈ source) : key ≤ e.1 := by
  cases source with
  | nil => cases he
  | cons x rest =>
    have hx : key ≤ x.1 := hhead x rfl
    rcases mem_cons.mp he with rfl | he
    · exact hx
    · exact hx.trans (rel_of_pairwise_cons h he).le

private theorem dropWhile_head {rest : List Entry} (h : Ascending (e::rest)) :
    (e::rest).dropWhile (fun x => x.1 == e.1) = rest := by
  rw [dropWhile_cons_of_pos (by simp)]
  cases rest with
  | nil => rfl
  | cons y rest => rw [dropWhile_cons_of_neg (by simpa using (rel_of_pairwise_cons h mem_cons_self).ne')]

private theorem dropWhile_key (h : Ascending source) (hle : ∀ e ∈ source, key ≤ e.1) :
    Ascending (source.dropWhile (fun e => e.1 == key)) ∧
    (∀ e ∈ source.dropWhile (fun e => e.1 == key), key < e.1) ∧
    ∀ k, k ≠ key → find k (source.dropWhile (fun e => e.1 == key)) = find k source := by
  cases source with
  | nil => exact ⟨h,by simp,fun _ _ => rfl⟩
  | cons x rest =>
    obtain ⟨hx,hrest⟩ := pairwise_cons.mp h
    by_cases hk : x.1 = key
    · subst hk
      rw [dropWhile_head h]
      refine ⟨hrest,hx,fun k hne => ?_⟩
      simp only [find]
      rw [if_neg hne.symm]
    · have hlt : key < x.1 := lt_of_le_of_ne (hle x mem_cons_self) (symm hk)
      rw [dropWhile_cons_of_neg (by simpa using hk)]
      refine ⟨h,fun e he => ?_,fun _ _ => rfl⟩
      rcases mem_cons.mp he with rfl | he
      · exact hlt
      · exact hlt.trans (hx e he)

private theorem advance_eq {rest : List Entry} (h : Ascending (e::rest)) (before after : List (List Entry)) :
    advance e.1 before.length (before ++ (e::rest)::after) =
      (before ++ (e::rest)::after).map (fun source => source.dropWhile (fun x => x.1 == e.1)) := by
  unfold advance
  apply ext_getElem (by simp)
  intro i hi hi'
  rw [getElem_mapIdx,getElem_map]
  split_ifs with heq
  · subst heq
    simp [dropWhile_head h]
  · rfl

private theorem round_spec (h : ∀ source ∈ sources, Ascending source) (hpick : pickMin 0 none sources = some (key,j)) :
    ∃ e, (sources[j]?).bind List.head? = some e ∧ e.1 = key ∧ layered sources key = some e.2 ∧
      (∀ source ∈ sources, ∀ x ∈ source, key ≤ x.1) ∧
      (∀ source ∈ advance key j sources, Ascending source ∧ ∀ x ∈ source, key < x.1) ∧
      (∀ k, k ≠ key → layered (advance key j sources) k = layered sources k) ∧
      ((advance key j sources).map List.length).sum < (sources.map List.length).sum := by
  obtain ⟨-,hheads,hwin⟩ := pickMin_eq_some hpick
  obtain ⟨-,before,e,rest,after,hsources,rfl,rfl,hb⟩ := hwin.resolve_left (by simp)
  have hle : ∀ source ∈ sources, ∀ x ∈ source, e.1 ≤ x.1 :=
    fun source hs x hx => le_of_mem_source (h source hs) (hheads source hs) hx
  have hdrop : ∀ source ∈ sources, _ := fun source hs => dropWhile_key (h source hs) (hle source hs)
  have hwinner : e::rest ∈ sources := by simp [hsources]
  rw [zero_add,hsources,advance_eq (h _ hwinner),← hsources]
  refine ⟨e,by simp [hsources],rfl,?_,hle,fun source hs => ?_,fun k hk => ?_,?_⟩
  · -- the sources before the winner start above the key
    have hnone : layered before e.1 = none := by
      rw [layered_eq_none_iff]
      intro source hs
      rw [find_eq_none_iff]
      intro x hx hxe
      cases source with
      | nil => cases hx
      | cons y ys =>
        have hy : e.1 < y.1 := hb _ hs y rfl
        have hyx : y.1 ≤ x.1 := le_of_mem_source (h _ (by simp [hsources,hs])) (by simp) hx
        exact absurd hxe (lt_of_lt_of_le hy hyx).ne'
    rw [hsources,layered_append,hnone,layered_cons]
    simp [find]
  · obtain ⟨s,hmem,rfl⟩ := mem_map.mp hs
    exact ⟨(hdrop s hmem).1,(hdrop s hmem).2.1⟩
  · have hkeep : ∀ ss ⊆ sources, layered (ss.map (fun source => source.dropWhile (fun x => x.1 == e.1))) k = layered ss k := by
      intro ss hss
      induction ss with
      | nil => rfl
      | cons s ss ih =>
        rw [map_cons,layered_cons,layered_cons,ih (fun s' hs' => hss (mem_cons_of_mem _ hs')),
          (hdrop s (hss mem_cons_self)).2.2 k hk]
    exact hkeep sources (.refl _)
  · rw [map_map]
    refine sum_lt_sum _ _ (fun s _ => (dropWhile_suffix _).length_le) ⟨_,hwinner,?_⟩
    rw [Function.comp_apply,dropWhile_head (h _ hwinner)]
    exact Nat.lt_succ_self _

private theorem collect_spec (fuel : Nat) (h : ∀ source ∈ sources, Ascending source)
    (hfuel : (sources.map List.length).sum ≤ fuel) :
    Ascending (collect fuel sources) ∧ (∀ k, find k (collect fuel sources) = layered sources k) := by
  induction fuel generalizing sources with
  | zero =>
    refine ⟨.nil,fun k => (layered_eq_none_iff.mpr (fun source hs => ?_)).symm⟩
    have hlen : source.length ≤ (sources.map length).sum := single_le_sum (by simp) _ (mem_map_of_mem hs)
    rw [length_eq_zero_iff.mp (by omega : source.length = 0)]
    rfl
  | succ fuel ih =>
    rw [collect]
    cases hpick : pickMin 0 none sources with
    | none =>
      refine ⟨.nil,fun k => (layered_eq_none_iff.mpr (fun source hs => ?_)).symm⟩
      rw [(pickMin_eq_none hpick).2 source hs]
      rfl
    | some x =>
      obtain ⟨key,j⟩ := x
      obtain ⟨e,hhead,rfl,hkey,-,hleft,hother,hless⟩ := round_spec h hpick
      obtain ⟨hasc,hfind⟩ := ih (fun source hs => (hleft source hs).1) (by omega)
      simp only [hhead]
      refine ⟨pairwise_cons.mpr ⟨fun x hx => ?_,hasc⟩,fun k => ?_⟩
      · -- what is left lies above the winner
        have hx' : find x.1 (collect fuel (advance e.1 j sources)) = some x.2 := (OrdMap.find_eq_some_iff hasc _ _).mpr hx
        rw [hfind,layered_eq_find_flatten] at hx'
        obtain ⟨source,hs,hmem⟩ := mem_flatten.mp (mem_of_find hx')
        exact (hleft source hs).2 _ hmem
      · simp only [find,hfind]
        split_ifs with hk
        · rw [← hk,hkey]
        · exact hother k (symm hk)

section

variable (h : ∀ source ∈ sources, Ascending source)
include h

/-- The merge is the newest-wins union of its sources, in ascending key order. -/
theorem collectAll_spec :
    Ascending (collectAll sources) ∧ ∀ k, find k (collectAll sources) = layered sources k :=
  collect_spec _ h le_rfl

theorem mem_of_mem_collectAll (he : e ∈ collectAll sources) : ∃ source ∈ sources, e ∈ source := by
  obtain ⟨hsorted,hfind⟩ := collectAll_spec h
  have hsome := hfind e.1
  rw [(OrdMap.find_eq_some_iff hsorted e.1 e.2).mpr he,layered_eq_find_flatten] at hsome
  exact mem_flatten.mp (mem_of_find hsome.symm)

theorem length_collectAll_le :
    (collectAll sources).length ≤ (sources.map List.length).sum := by
  have hnodup : (collectAll sources).Nodup :=
    (collectAll_spec h).1.imp (fun hlt heq => (ne_of_lt hlt) (congrArg Prod.fst heq))
  rw [← length_flatten]
  refine (hnodup.subperm fun e he => ?_).length_le
  obtain ⟨source,hs,hes⟩ := mem_of_mem_collectAll h he
  exact mem_flatten_of_mem hs hes

/-- The merge has every key of the sources once and in ascending order, with the entry of the first source that holds
it. -/
theorem collectAll_newest_wins : Ascending (collectAll sources)
    ∧ (∀ k, k ∈ (collectAll sources).map Prod.fst ↔ ∃ source ∈ sources, k ∈ source.map Prod.fst)
    ∧ ∀ e, e ∈ collectAll sources ↔
      ∃ newer source older, sources = newer ++ source::older ∧ e ∈ source ∧ ∀ s ∈ newer, e.1 ∉ s.map Prod.fst := by
  obtain ⟨hasc,hfind⟩ := collectAll_spec h
  have hkey : ∀ {k : Bytes} {es : List Entry}, find k es = none ↔ k ∉ es.map Prod.fst := by
    intro k es
    rw [find_eq_none_iff,mem_map]
    exact ⟨fun h ⟨e,he,heq⟩ => h e he heq,fun h e he heq => h ⟨e,he,heq⟩⟩
  refine ⟨hasc,fun k => not_iff_not.mp ?_,fun e => ?_⟩
  · rw [← hkey,hfind,layered_eq_none_iff]
    push Not
    exact forall₂_congr fun _ _ => hkey
  · rw [← OrdMap.find_eq_some_iff hasc,hfind,layered,findSome?_eq_some_iff]
    refine exists_congr fun newer => exists_congr fun source => exists_congr fun older => and_congr_right fun hs => ?_
    rw [OrdMap.find_eq_some_iff (h source (by simp [hs]))]
    exact and_congr_right' (forall₂_congr fun _ _ => hkey)

end

/-- A newer tombstone stands for the key. -/
theorem collectAll_newest_wins_tombstone : ([1],none) ∈ collectAll [[([1],none)],[([1],some [7]),([2],some [8])]] :=
  ((collectAll_newest_wins (by unfold Ascending; decide)).2.2 _).mpr ⟨[],_,_,rfl,by decide,by decide⟩

end MergeIterator
end InterchangeDb
