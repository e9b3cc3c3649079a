import InterchangeDb.Lsm.CompactionSpec
import InterchangeDb.Lsm.ManifestSpec

/-! Replay of the manifest gives level 0 as it is, and the deeper levels in the order of their ids. -/
namespace InterchangeDb
open List Function
open Manifest (Edit)

/-- A replayed level state seen against the one in memory. -/
structure Mirrors (logged s : LevelState) : Prop where
  zero : logged.levels 0 = s.levels 0
  perm : ∀ l, (logged.levels l).Perm (s.levels l)
  order : ∀ l, 1 ≤ l → (logged.levels l).Pairwise (fun a b => a.id < b.id)
  next : logged.nextSstId ≤ s.nextSstId
  bound : ∀ l, ∀ m ∈ logged.levels l, m.id < logged.nextSstId

/-- Key order is the order of ids in every level below the first. -/
def LevelState.IdOrder (s : LevelState) : Prop :=
  ∀ l, 1 ≤ l → l < maxLevelCount → (s.levels l).Pairwise (fun a b => a.id < b.id)

theorem Mirrors.levels_eq {logged s : LevelState} (h : Mirrors logged s) (horder : s.IdOrder)
    (hdeep : ∀ l, maxLevelCount ≤ l → s.levels l = []) : logged.levels = s.levels := by
  funext l
  rcases eq_zero_or_pos l with rfl | hl
  · exact h.zero
  · rcases lt_or_ge l maxLevelCount with hlt | hge
    · refine List.Perm.eq_of_pairwise ?_ (h.order l hl) (horder l hl hlt) (h.perm l)
      intro a b _ _ hab hba
      omega
    · have hperm := h.perm l
      rw [hdeep l hge] at hperm ⊢
      exact hperm.eq_nil

theorem Mirrors.refl_of_order {logged s : LevelState} (h : Mirrors logged s) : Mirrors logged logged :=
  ⟨rfl,fun _ => .refl _,h.order,le_rfl,h.bound⟩

private theorem foldl_del (ids : List Nat) (s : LevelState) :
    (ids.map Edit.del).foldl Edit.apply s =
      { s with levels := fun l => (s.levels l).filter (fun m => decide (m.id ∉ ids)) } := by
  induction ids generalizing s with
  | nil => simp
  | cons id ids ih =>
    rw [map_cons,foldl_cons,ih]
    simp only [Edit.apply,Manifest.applyDel,filter_filter,LevelState.mk.injEq,and_true]
    funext l
    apply filter_congr
    intro m _
    by_cases h : m.id = id <;> simp [h]

private theorem foldl_add (target : Nat) (ms : List SSTableMeta) (s : LevelState) :
    ((ms.map (Edit.add target)).foldl Edit.apply s).levels = Function.update s.levels target (s.levels target ++ ms) ∧
      s.nextSstId ≤ ((ms.map (Edit.add target)).foldl Edit.apply s).nextSstId ∧
      (∀ m ∈ ms, m.id < ((ms.map (Edit.add target)).foldl Edit.apply s).nextSstId) ∧
      ∀ b, s.nextSstId ≤ b → (∀ m ∈ ms, m.id < b) → ((ms.map (Edit.add target)).foldl Edit.apply s).nextSstId ≤ b := by
  induction ms generalizing s with
  | nil => simp
  | cons m ms ih =>
    obtain ⟨h1,h2,h3,h4⟩ := ih (Manifest.applyAdd s target m)
    have hnext : s.nextSstId ≤ (Manifest.applyAdd s target m).nextSstId ∧ m.id < (Manifest.applyAdd s target m).nextSstId ∧
        ∀ b, s.nextSstId ≤ b → m.id < b → (Manifest.applyAdd s target m).nextSstId ≤ b := by
      simp only [Manifest.applyAdd]
      split_ifs <;> refine ⟨by omega,by omega,by omega⟩
    rw [map_cons,foldl_cons]
    change ((ms.map (Edit.add target)).foldl Edit.apply (Manifest.applyAdd s target m)).levels = _ ∧
      _ ≤ ((ms.map (Edit.add target)).foldl Edit.apply (Manifest.applyAdd s target m)).nextSstId ∧
      (∀ x ∈ m::ms, x.id < ((ms.map (Edit.add target)).foldl Edit.apply (Manifest.applyAdd s target m)).nextSstId) ∧
      ∀ b, _ → _ → ((ms.map (Edit.add target)).foldl Edit.apply (Manifest.applyAdd s target m)).nextSstId ≤ b
    refine ⟨?_,hnext.1.trans h2,?_,fun b hb hm => h4 b (hnext.2.2 b hb (hm m mem_cons_self)) (fun x hx => hm x (mem_cons_of_mem _ hx))⟩
    · rw [h1]
      simp [Manifest.applyAdd]
    · intro x hx
      rcases mem_cons.mp hx with rfl | hx
      · exact hnext.2.1.trans_le h2
      · exact h3 x hx

theorem Mirrors.publish {logged : LevelState} {s : SstStore} (h : Mirrors logged s.levelState) {m : SSTableMeta}
    {table : SSTable} (hid : m.id < s.levelState.nextSstId) :
    Mirrors (Manifest.applyAdd logged 0 m) (s.publish m table).levelState := by
  obtain ⟨h1,h2,h3,h4⟩ := foldl_add 0 [m] logged
  change (Manifest.applyAdd logged 0 m).levels = _ at h1
  change _ ≤ (Manifest.applyAdd logged 0 m).nextSstId at h2
  change ∀ x ∈ [m], x.id < (Manifest.applyAdd logged 0 m).nextSstId at h3
  change ∀ b, _ → _ → (Manifest.applyAdd logged 0 m).nextSstId ≤ b at h4
  have hlevels : ∀ l, (Manifest.applyAdd logged 0 m).levels l = if l = 0 then logged.levels 0 ++ [m] else logged.levels l := by
    intro l
    rw [h1,update_apply]
  refine ⟨?_,?_,?_,?_,?_⟩
  · rw [hlevels,SstStore.levels_publish,if_pos rfl,if_pos rfl,h.zero]
  · intro l
    rw [hlevels,SstStore.levels_publish]
    split_ifs
    · rw [h.zero]
    · exact h.perm l
  · intro l hl
    rw [hlevels,if_neg (by omega)]
    exact h.order l hl
  · refine h4 _ h.next (fun x hx => ?_)
    rw [mem_singleton.mp hx]
    exact hid
  · intro l x hx
    rw [hlevels] at hx
    split_ifs at hx
    · rcases mem_append.mp hx with hx | hx
      · exact (h.bound 0 x hx).trans_le h2
      · exact h3 x hx
    · exact (h.bound l x hx).trans_le h2

namespace SstStore
variable [Crc32]

section Merge
variable {s : SstStore} {level : Nat} {top stay : List SSTableMeta} {minKey maxKey : Bytes} {r : Merge}

def Merge.edits (r : Merge) (target : Nat) : List Edit := r.ids.map .del ++ (r.out.map Prod.fst).map (.add target)

omit [Crc32] in
theorem Merge.lines_eq (r : Merge) (target : Nat) : r.lines target = (r.edits target).flatMap Edit.line := by
  simp [Merge.lines,Merge.edits,flatMap_append,flatMap_map,Edit.line]

theorem mirrors_install {logged : LevelState} (h : Mirrors logged s.levelState) (hok : s.Ok)
    (hmove : Move s level top stay minKey maxKey) (hr : Merged s top minKey maxKey (level+1) r) :
    Mirrors ((r.edits (level+1)).foldl Edit.apply logged) (r.install s level stay).levelState := by
  rw [Merge.edits,foldl_append,foldl_del]
  generalize hdel : ({ logged with levels := fun l => (logged.levels l).filter (fun m => decide (m.id ∉ r.ids)) } : LevelState) = kept
  have hkept : ∀ l, kept.levels l = (logged.levels l).filter (fun m => decide (m.id ∉ r.ids)) := fun l => by rw [← hdel]
  have hkeptNext : kept.nextSstId = logged.nextSstId := by rw [← hdel]
  obtain ⟨h1,h2,h3,h4⟩ := foldl_add (level+1) (r.out.map Prod.fst) kept
  generalize ((r.out.map Prod.fst).map (.add (level+1))).foldl Edit.apply kept = new at h1 h2 h3 h4
  have hnew : ∀ l, new.levels l = if l = level+1 then kept.levels (level+1) ++ r.out.map Prod.fst else kept.levels l := by
    intro l
    rw [h1,update_apply]
  have houtId : ∀ m ∈ r.out.map Prod.fst, s.levelState.nextSstId ≤ m.id ∧ m.id < r.levelState.nextSstId := by
    rw [forall_mem_map]
    exact fun x hx => outId_bounds hr hx
  have hkeptPerm : ∀ l, (kept.levels l).Perm (if l = level+1 then r.remaining else if l = level then stay else s.levelState.levels l) := by
    intro l
    rw [hkept,← filter_ids hok hmove hr l]
    exact (h.perm l).filter _
  refine ⟨?_,?_,?_,?_,?_⟩
  · have hzero := filter_ids hok hmove hr 0
    have hne : 0 ≠ level+1 := by omega
    rw [hnew,if_neg hne,hkept,h.zero,hzero,if_neg hne,levels_install hr.levels,if_neg hne]
  · intro l
    rw [hnew,levels_install hr.levels]
    have hperm := hkeptPerm l
    split_ifs at hperm ⊢ with h1 h2
    · subst h1
      exact ((hperm.append_right _).trans perm_append_comm).trans (target_spec hok hmove hr).2.symm
    · exact hperm
    · exact hperm
  · intro l hl
    have hsorted : (kept.levels l).Pairwise (fun a b => a.id < b.id) := by
      rw [hkept]
      exact (h.order l hl).filter _
    rw [hnew]
    split_ifs with h1
    · subst h1
      refine pairwise_append.mpr ⟨hsorted,?_,?_⟩
      · have hids := pairwise_lt_range' (s := s.levelState.nextSstId) (n := r.out.length)
        rw [← hr.outIds,pairwise_map] at hids
        rw [pairwise_map]
        exact hids
      · intro a ha b hb
        rw [hkept] at ha
        have hlt := (h.bound _ a (mem_of_mem_filter ha)).trans_le h.next
        exact hlt.trans_le (houtId b hb).1
    · exact hsorted
  · have hnext : s.levelState.nextSstId ≤ r.levelState.nextSstId := by
      rw [hr.nextSstId]
      omega
    refine h4 _ ?_ (fun m hm => (houtId m hm).2)
    rw [hkeptNext]
    exact h.next.trans hnext
  · intro l m hm
    have hkeptBound : ∀ l, ∀ m ∈ kept.levels l, m.id < new.nextSstId := by
      intro l m hm
      rw [hkept] at hm
      rw [hkeptNext] at h2
      exact (h.bound l m (mem_of_mem_filter hm)).trans_le h2
    rw [hnew] at hm
    split_ifs at hm
    · rcases mem_append.mp hm with hm | hm
      · exact hkeptBound _ m hm
      · exact h3 m hm
    · exact hkeptBound l m hm

/-- No key is empty. -/
abbrev KeysFull (s : SstStore) : Prop := s.All (fun e => e.1 ≠ [])

theorem valid_edits (hfull : s.KeysFull) (hok : s.Ok) (hmove : Move s level top stay minKey maxKey)
    (hr : Merged s top minKey maxKey (level+1) r) : ∀ e ∈ r.edits (level+1), e.Valid := by
  intro e he
  have hmax : u64Max < 2^64 := by decide
  rcases mem_append.mp he with he | he
  · obtain ⟨id,hid,rfl⟩ := mem_map.mp he
    have := ids_bound hok hmove hr id hid
    have := hok.idMax
    change id < 2^64
    omega
  · obtain ⟨m,hm,rfl⟩ := mem_map.mp he
    obtain ⟨x,hx,rfl⟩ := mem_map.mp hm
    obtain ⟨hsound,hfirst,hlast⟩ := hr.out x hx
    obtain ⟨hsize,hcount⟩ := hr.sizes x hx
    have hid := (outId_bounds hr hx).2
    have hidMax := hr.idMax hok.idMax
    have htable : ∀ e ∈ x.2.iter, e.1 ≠ [] := fun e he => hmove.all_merged hok hfull e (mem_merged hr hx he)
    obtain ⟨a,ha,hak⟩ := hsound.firstKey_mem
    obtain ⟨b,hb,hbk⟩ := hsound.lastKey_mem
    refine ⟨hmove.level_lt,by omega,?_,?_,hsize,hcount⟩
    · rw [hfirst,← hak]
      exact htable a ha
    · rw [hlast,← hbk]
      exact htable b hb

end Merge

/-- The manifest consists of whole lines and replays to a mirror of the levels. -/
def Logged (s : SstStore) : Prop :=
  Manifest.Complete s.manifest ∧ ∃ logged, Manifest.openFile s.manifest = some (.ok logged) ∧ Mirrors logged s.levelState

omit [Crc32] in
theorem logged_new : SstStore.new.Logged := by
  refine ⟨.inl rfl,.new,rfl,rfl,fun _ => .refl _,fun _ _ => .nil,le_rfl,?_⟩
  intro l m hm
  cases hm

theorem Compacts.logged {cfg : LsmConfig} {s s' : SstStore} (h : Compacts cfg s s') (hok : s.Ok) (hfull : s.KeysFull)
    (hlogged : s.Logged) : s'.Logged ∧ s'.KeysFull := by
  obtain ⟨level,top,stay,minKey,maxKey,r,hmove,hr,rfl⟩ := h
  have hmerged := merge_spec (hmove.holds_inputs hok) hr
  obtain ⟨hcomplete,logged,hopen,hmirror⟩ := hlogged
  obtain ⟨hcomplete',hopen'⟩ := Manifest.openFile_edits hcomplete hopen (valid_edits hfull hok hmove hmerged)
  refine ⟨⟨?_,_,?_,mirrors_install hmirror hok hmove hmerged⟩,all_install hok hmove hmerged hfull⟩
  · change Manifest.Complete (s.manifest ++ r.lines (level+1))
    rwa [Merge.lines_eq]
  · change Manifest.openFile (s.manifest ++ r.lines (level+1)) = _
    rwa [Merge.lines_eq]

theorem Cascade.logged {cfg : LsmConfig} {s s' : SstStore} (h : Cascade cfg s s') (hok : s.Ok) (hlogged : s.Logged)
    (hfull : s.KeysFull) : s'.Ok ∧ s'.Logged ∧ s'.KeysFull :=
  h.induction (P := fun s => s.Logged ∧ s.KeysFull) (fun _ _ hok hp hc => hc.logged hok hp.2 hp.1) hok ⟨hlogged,hfull⟩

end SstStore
end InterchangeDb
