import InterchangeDb.Sql.HashJoin

/-! Merging two sorted lists of rows on a key. The run of the last key is kept, and one row read past it. -/
namespace InterchangeDb
open List Option

section Heights

/-- Where a value stands among those of its kind; a null is above them all. -/
def Value.height (v : Value) : WithTop (ℚ ×ₗ Bytes) := if v = .null then ⊤ else v.worth

theorem Value.height_eq_top_iff {v : Value} : v.height = ⊤ ↔ v = .null := by
  unfold height
  split
  · next h => exact ⟨fun _ => h,fun _ => rfl⟩
  · next h => exact ⟨fun htop => absurd htop (WithTop.coe_ne_top),fun hnull => absurd hnull h⟩

variable {k : Kind} {a b : Value} {col : ℕ} {rows : List Row}

theorem Value.compareSql_height (ha : a.kind = some k) (hb : b.kind = some k) :
    a.compareSql b = some (rankOrder a.height b.height) := by
  have hane : a ≠ .null := fun h => by rw [h] at ha; cases ha
  have hbne : b ≠ .null := fun h => by rw [h] at hb; cases hb
  rw [compareSql_eq,ha,hb,if_pos ⟨by simp,rfl⟩,height,if_neg hane,height,if_neg hbne,rankOrder]
  exact congrArg some ((WithTop.coe_strictMono (α := ℚ ×ₗ Bytes)).cmp_map_eq _ _).symm

private theorem ne_null_of_kind (h : a.kind = some k) : a ≠ .null := by
  rintro rfl
  cases h

private theorem height_null : Value.null.height = ⊤ := Value.height_eq_top_iff.mpr rfl

private theorem height_lt_top (h : a.kind = some k) : a.height < ⊤ :=
  lt_top_iff_ne_top.mpr (fun htop => ne_null_of_kind h (Value.height_eq_top_iff.mp htop))

private theorem compareSortKey_height (ha : a = .null ∨ a.kind = some k) (hb : b = .null ∨ b.kind = some k) :
    compareSortKey .asc a b = some (rankOrder a.height b.height) := by
  rcases ha with rfl | ha
  · rcases hb with rfl | hb
    · rw [rankOrder,cmp_self_eq_eq]
      rfl
    · have hgt := (cmp_eq_gt_iff _ _).mpr (height_lt_top hb)
      rw [height_null,rankOrder,hgt]
      cases b <;> first | rfl | cases hb
  · rcases hb with rfl | hb
    · have hlt := (cmp_eq_lt_iff _ _).mpr (height_lt_top ha)
      rw [height_null,rankOrder,hlt]
      cases a <;> first | rfl | cases ha
    · rw [← Value.compareSql_height ha hb]
      cases a <;> cases b <;> first | rfl | (cases ha; done) | cases hb

def rowHeight (col : ℕ) (row : Row) : WithTop (ℚ ×ₗ Bytes) := (keyOf col row).height

/-- In the order of a sort by the column. -/
def SortedBy (col : ℕ) (rows : List Row) : Prop :=
  rows.Pairwise (fun a b => compareRows [(col,.asc)] a b = some .lt ∨ compareRows [(col,.asc)] a b = some .eq)

private theorem compareRows_height (h : Keyed k col rows) {a b : Row} (ha : a ∈ rows) (hb : b ∈ rows) :
    compareRows [(col,.asc)] a b = some (rankOrder (rowHeight col a) (rowHeight col b)) := by
  simp only [compareRows,h.get ha,h.get hb,bind_eq_bind,bind_some,
    compareSortKey_height (h.kind ha) (h.kind hb)]
  split
  · next heq => exact congrArg some heq.symm
  · rfl

theorem sortedBy_iff (h : Keyed k col rows) :
    SortedBy col rows ↔ rows.Pairwise (fun a b => rowHeight col a ≤ rowHeight col b) := by
  refine List.Pairwise.iff_of_mem (fun {a b} ha hb => ?_)
  rw [compareRows_height h ha hb,some.injEq,some.injEq,rankOrder,cmp_eq_lt_iff,cmp_eq_eq_iff,
    le_iff_lt_or_eq]

end Heights

section Runs
variable {S : Type} {k : Kind} {col : ℕ} {next : MergeState S → Stream S Error Row}
variable {last : Option Value} {row : Row} {rows : List Row} {target : Value} {height : WithTop (ℚ ×ₗ Bytes)}

/-- The key of each row to come is not below the last that was read. -/
def Passed (col : ℕ) (last : Option Value) (rows : List Row) : Prop := ∀ row ∈ rows, ascends last (keyOf col row) = true

/-- Rows that a side of the merge can still read. -/
structure Readable (k : Kind) (col : ℕ) (last : Option Value) (rows : List Row) : Prop where
  keyed : Keyed k col rows
  sorted : rows.Pairwise (fun a b => rowHeight col a ≤ rowHeight col b)
  passed : Passed col last rows

private theorem ascends_of_le {a b : Value} (ha : a = .null ∨ a.kind = some k) (hb : b = .null ∨ b.kind = some k)
    (hle : a.height ≤ b.height) (hane : a ≠ .null) : ascends (some a) b = true := by
  rcases hb with rfl | hb
  · rfl
  · have hcmp := Value.compareSql_height hb (ha.resolve_left hane)
    rw [ascends,hcmp,Bool.or_eq_true]
    refine .inr (decide_eq_true (fun hlt => ?_))
    exact absurd ((cmp_eq_lt_iff _ _).mp (some.inj hlt)) (not_lt.mpr hle)

theorem Readable.tail (h : Readable k col last (row::rows)) :
    Readable k col (lastKey last (keyOf col row)) rows where
  keyed := h.keyed.mono (fun r hr => mem_cons_of_mem _ hr)
  sorted := (pairwise_cons.mp h.sorted).2
  passed := by
    intro r hr
    have hmem := mem_cons_of_mem row hr
    unfold lastKey
    split
    · exact h.passed r hmem
    · next hnull =>
      exact ascends_of_le (h.keyed.kind mem_cons_self) (h.keyed.kind hmem)
        ((pairwise_cons.mp h.sorted).1 r hr) hnull

private theorem compareSql_target (htarget : target.kind = some k) {v : Value}
    (hv : v = .null ∨ v.kind = some k) : v.compareSql target = some .eq ↔ v.height = target.height := by
  rcases hv with rfl | hv
  · rw [height_null,Value.compareSql_eq_iff]
    exact ⟨fun h => absurd rfl h.1,fun h => absurd h.symm (height_lt_top htarget).ne⟩
  · rw [Value.compareSql_height hv htarget,some.injEq]
    exact cmp_eq_eq_iff _ _

theorem Readable.again (h : Readable k col last (row::rows)) :
    Readable k col (lastKey last (keyOf col row)) (row::rows) where
  keyed := h.keyed
  sorted := h.sorted
  passed := by
    intro r hr
    rcases mem_cons.mp hr with rfl | hr
    · unfold lastKey
      split
      · exact h.passed r mem_cons_self
      · next hnull => exact ascends_of_le (h.keyed.kind hr) (h.keyed.kind hr) le_rfl hnull
    · exact h.tail.passed r hr

def atHeight (col : ℕ) (height : WithTop (ℚ ×ₗ Bytes)) (rows : List Row) : List Row :=
  rows.filter (fun row => decide (rowHeight col row = height))

theorem atHeight_cons :
    atHeight col height (row::rows)
      = if rowHeight col row = height then row::atHeight col height rows else atHeight col height rows := by
  unfold atHeight
  split
  · next h => exact filter_cons_of_pos (decide_eq_true h)
  · next h => exact filter_cons_of_neg (fun h' => h (of_decide_eq_true h'))

theorem atHeight_eq_nil (h : ∀ row ∈ rows, rowHeight col row ≠ height) :
    atHeight col height rows = [] :=
  filter_eq_nil_iff.mpr (fun row hrow heq => h row hrow (of_decide_eq_true heq))

/-- The rows the right side of a merge still has. -/
def MergeState.Has (k : Kind) (col : ℕ) (m : MergeState S) (rows : List Row) : Prop :=
  ∃ rest, m.right = .ofList rest ∧ rows = m.pending.toList ++ rest ∧ Readable k col m.lastRight rows

theorem collectRun_eq (htarget : target.kind = some k)
    (h : Readable k col last rows) (habove : ∀ row ∈ rows, target.height ≤ rowHeight col row) (run : List Row) :
    ∃ m rest, collectRun col target next (.ofList rows) last run = next m ∧ m.runKey = some target
      ∧ m.run = run ++ atHeight col target.height rows ∧ m.Has k col rest
      ∧ ∀ height, height ≠ target.height → atHeight col height rest = atHeight col height rows := by
  induction rows generalizing last run with
  | nil => exact ⟨_,[],rfl,rfl,(append_nil run).symm,⟨[],rfl,rfl,h⟩,fun _ _ => rfl⟩
  | cons row rows ih =>
    have hascends := h.passed row mem_cons_self
    have hiff := compareSql_target htarget (h.keyed.kind mem_cons_self)
    simp only [Stream.ofList,collectRun,h.keyed.get mem_cons_self,hascends,if_true]
    by_cases heq : rowHeight col row = target.height
    · obtain ⟨m,rest,hcollect,hkey,hrun,hhas,hrest⟩ :=
        ih h.tail (fun r hr => habove r (mem_cons_of_mem _ hr)) (run ++ [row])
      refine ⟨m,rest,?_,hkey,?_,hhas,fun height hne => ?_⟩
      · rw [if_pos (hiff.mpr heq),hcollect]
      · rw [hrun,atHeight_cons,if_pos heq,append_assoc,singleton_append]
      · rw [hrest height hne,atHeight_cons,if_neg (fun h' => hne (h'.symm.trans heq))]
    · -- every row after it is above the target as well
      have hlt := lt_of_le_of_ne (habove row mem_cons_self) (symm heq)
      have hne : ∀ r ∈ row::rows, rowHeight col r ≠ target.height := by
        intro r hr
        rcases mem_cons.mp hr with rfl | hr
        · exact heq
        · exact (hlt.trans_le ((pairwise_cons.mp h.sorted).1 r hr)).ne'
      rw [if_neg (fun h' => heq (hiff.mp h'))]
      refine ⟨_,row::rows,rfl,rfl,?_,⟨rows,rfl,rfl,h.again⟩,fun _ _ => rfl⟩
      rw [atHeight_eq_nil hne,append_nil]

/-- What the search for a run leaves: the run, and the rows for every key above it. A search that finds nothing leaves the
rows for the key itself as well. -/
structure Built (k : Kind) (col : ℕ) (target : Value) (rows : List Row) (m : MergeState S) (rest : List Row) : Prop where
  has : m.Has k col rest
  run : m.run = atHeight col target.height rows
  key : m.runKey = some target ∨ m.runKey = none ∧ m.run = []
  above : ∀ height, target.height ≤ height → height < ⊤ → m.runKey = none ∨ height ≠ target.height →
    atHeight col height rest = atHeight col height rows

private theorem built_skip {m : MergeState S} {rest : List Row}
    (h : Built k col target rows m rest) (hskip : rowHeight col row < target.height ∨ rowHeight col row = ⊤)
    (htarget : target.kind = some k) : Built k col target (row::rows) m rest where
  has := h.has
  run := by
    rw [h.run,atHeight_cons,if_neg]
    rintro heq
    rcases hskip with hlt | htop
    · exact hlt.ne heq
    · exact (height_lt_top htarget).ne (heq.symm.trans htop)
  key := h.key
  above := by
    intro height hle hfinite hkey
    rw [h.above height hle hfinite hkey,atHeight_cons,if_neg]
    rintro heq
    rcases hskip with hlt | htop
    · exact (heq ▸ hlt).not_ge hle
    · exact hfinite.ne (heq.symm.trans htop)

theorem Readable.rest (h : Readable k col last (row::rows)) :
    Readable k col last rows where
  keyed := h.tail.keyed
  sorted := h.tail.sorted
  passed := fun r hr => h.passed r (mem_cons_of_mem _ hr)

private theorem firstRow_eq (htarget : target.kind = some k) (h : Readable k col last (row::rows))
    (hfind : ∃ m rest, findRun col target next (.ofList rows) last = next m ∧ Built k col target rows m rest) :
    ∃ m rest, (if keyOf col row = .null then findRun col target next (.ofList rows) last
      else match (keyOf col row).compareSql target with
        | some .gt => next ⟨[],none,some row,.ofList rows,last⟩
        | some .eq => collectRun col target next (.ofList rows) last [row]
        | _ => findRun col target next (.ofList rows) last) = next m ∧ Built k col target (row::rows) m rest := by
  obtain ⟨m,rest,hfind,hbuilt⟩ := hfind
  have hsorted := (pairwise_cons.mp h.sorted).1
  rcases h.keyed.kind mem_cons_self with hnull | hkind
  · rw [if_pos hnull]
    exact ⟨m,rest,hfind,built_skip hbuilt (.inr (Value.height_eq_top_iff.mpr hnull)) htarget⟩
  · rw [if_neg (ne_null_of_kind hkind),Value.compareSql_height hkind htarget]
    rcases lt_trichotomy (rowHeight col row) target.height with hlt | heq | hgt
    · rw [show rankOrder (keyOf col row).height target.height = .lt from (cmp_eq_lt_iff _ _).mpr hlt]
      exact ⟨m,rest,hfind,built_skip hbuilt (.inl hlt) htarget⟩
    · rw [show rankOrder (keyOf col row).height target.height = .eq from (cmp_eq_eq_iff _ _).mpr heq]
      obtain ⟨m,rest,hcollect,hkey,hrun,hhas,hrest⟩ :=
        collectRun_eq htarget h.rest (fun r hr => heq ▸ hsorted r hr) [row]
      refine ⟨m,rest,hcollect,⟨hhas,?_,.inl hkey,fun height hle hfinite hother => ?_⟩⟩
      · rw [hrun,atHeight_cons,if_pos heq,singleton_append]
      · have hne := hother.resolve_left (by rw [hkey]; exact nofun)
        rw [hrest height hne,atHeight_cons,if_neg (fun h' => hne (h'.symm.trans heq))]
    · rw [show rankOrder (keyOf col row).height target.height = .gt from (cmp_eq_gt_iff _ _).mpr hgt]
      refine ⟨_,row::rows,rfl,⟨⟨rows,rfl,rfl,h⟩,?_,.inr ⟨rfl,rfl⟩,fun _ _ _ _ => rfl⟩⟩
      refine (atHeight_eq_nil (fun r hr => ?_)).symm
      rcases mem_cons.mp hr with rfl | hr
      · exact hgt.ne'
      · exact (hgt.trans_le (hsorted r hr)).ne'

theorem findRun_eq (htarget : target.kind = some k) (h : Readable k col last rows) :
    ∃ m rest, findRun col target next (.ofList rows) last = next m ∧ Built k col target rows m rest := by
  induction rows generalizing last with
  | nil => exact ⟨_,[],rfl,⟨⟨[],rfl,rfl,h⟩,rfl,.inr ⟨rfl,rfl⟩,fun _ _ _ _ => rfl⟩⟩
  | cons row rows ih =>
    have hascends := h.passed row mem_cons_self
    simp only [Stream.ofList,findRun,h.keyed.get mem_cons_self,hascends,if_true]
    exact firstRow_eq htarget h.again (ih h.tail)

theorem buildRun_eq (htarget : target.kind = some k) {m : MergeState S}
    (h : m.Has k col rows) : ∃ m' rest, buildRun col target m next = next m' ∧ Built k col target rows m' rest := by
  obtain ⟨rest,hright,rfl,hreadable⟩ := h
  unfold buildRun
  rw [hright]
  cases hpending : m.pending with
  | none =>
    rw [hpending] at hreadable
    exact findRun_eq htarget hreadable
  | some row =>
    rw [hpending] at hreadable
    simp only [hreadable.keyed.get mem_cons_self]
    exact firstRow_eq htarget hreadable (findRun_eq htarget hreadable.rest)

end Runs

section Merge
variable {S : Type} {k : Kind} {leftKeyCol rightKeyCol : ℕ} {lefts rights : List Row}
variable {l : Row} {m : MergeState S} {rows rest : List Row}

/-- The rows a merge still has for a key: the run, if it is the run's, and those to come above it. -/
def MergeState.found (col : ℕ) (m : MergeState S) (rows : List Row) (height : WithTop (ℚ ×ₗ Bytes)) : List Row :=
  match m.runKey with
  | none => atHeight col height rows
  | some key => if height = key.height then m.run else if height < key.height then [] else atHeight col height rows

/-- Nothing is lost of the rows on the right for the rows that come on the left. -/
structure Ready (k : Kind) (leftKeyCol rightKeyCol : ℕ) (lefts rights : List Row) (m : MergeState S) (rows : List Row) :
    Prop where
  has : m.Has k rightKeyCol rows
  key : ∀ key, m.runKey = some key → key.kind = some k
  found : ∀ l ∈ lefts, rowHeight leftKeyCol l ≠ ⊤ →
    m.found rightKeyCol rows (rowHeight leftKeyCol l) = atHeight rightKeyCol (rowHeight leftKeyCol l) rights

theorem Ready.tail
    (h : Ready k leftKeyCol rightKeyCol (l::lefts) rights m rows) : Ready k leftKeyCol rightKeyCol lefts rights m rows where
  has := h.has
  key := h.key
  found := fun l' hl' => h.found l' (mem_cons_of_mem _ hl')

private theorem Built.found {target : Value}
    (h : Built k rightKeyCol target rows m rest) {height : WithTop (ℚ ×ₗ Bytes)} (hle : target.height ≤ height)
    (hfinite : height < ⊤) : m.found rightKeyCol rest height = atHeight rightKeyCol height rows := by
  unfold MergeState.found
  rcases h.key with hkey | ⟨hkey,-⟩
  · rw [hkey]
    by_cases heq : height = target.height
    · simp only [heq,if_true]
      exact h.run
    · simp only [if_neg heq,if_neg hle.not_gt]
      exact h.above height hle hfinite (.inr heq)
  · rw [hkey]
    exact h.above height hle hfinite (.inl hkey)

private theorem filter_keysEqual (hl : (keyOf leftKeyCol l).kind = some k) (hrights : Keyed k rightKeyCol rights) :
    rights.filter (keysEqual leftKeyCol rightKeyCol l) = atHeight rightKeyCol (rowHeight leftKeyCol l) rights := by
  refine filter_congr (fun r hr => ?_)
  refine decide_eq_decide.mpr ?_
  rw [Value.compareSql_eq_comm,compareSql_target hl (hrights.kind hr)]
  rfl

private theorem ready_built {m' : MergeState S} (h : Ready k leftKeyCol rightKeyCol (l::lefts) rights m rows)
    (hl : (keyOf leftKeyCol l).kind = some k) (habove : ∀ key, m.runKey = some key → key.height < rowHeight leftKeyCol l)
    (hsorted : ∀ l' ∈ lefts, rowHeight leftKeyCol l ≤ rowHeight leftKeyCol l')
    (hbuilt : Built k rightKeyCol (keyOf leftKeyCol l) rows m' rest) :
    m'.run = atHeight rightKeyCol (rowHeight leftKeyCol l) rights
      ∧ Ready k leftKeyCol rightKeyCol lefts rights m' rest := by
  have hrows : ∀ l' ∈ l::lefts, rowHeight leftKeyCol l' ≠ ⊤ →
      atHeight rightKeyCol (rowHeight leftKeyCol l') rows = atHeight rightKeyCol (rowHeight leftKeyCol l') rights := by
    intro l' hl' hfinite
    rw [← h.found l' hl' hfinite,MergeState.found]
    cases hkey : m.runKey with
    | none => rfl
    | some key =>
      have hle : rowHeight leftKeyCol l ≤ rowHeight leftKeyCol l' := by
        rcases mem_cons.mp hl' with rfl | hl'
        · exact le_rfl
        · exact hsorted l' hl'
      have hlt := (habove key hkey).trans_le hle
      simp [if_neg hlt.ne',if_neg hlt.not_gt]
  refine ⟨?_,hbuilt.has,?_,?_⟩
  · rw [hbuilt.run]
    exact hrows l mem_cons_self (height_lt_top hl).ne
  · intro key hkey
    rcases hbuilt.key with h' | ⟨h',-⟩
    · rw [hkey] at h'
      cases h'
      exact hl
    · rw [hkey] at h'
      cases h'
  · intro l' hl' hfinite
    rw [hbuilt.found (hsorted l' hl') (lt_top_iff_ne_top.mpr hfinite)]
    exact hrows l' (mem_cons_of_mem _ hl') hfinite

theorem mergeRows_eq {last : Option Value} (hlefts : Readable k leftKeyCol last lefts)
    (hrights : Keyed k rightKeyCol rights) (h : Ready k leftKeyCol rightKeyCol lefts rights m rows) :
    mergeRows leftKeyCol rightKeyCol (.ofList lefts) last m
      = .ofList (innerJoin (keysEqual leftKeyCol rightKeyCol) (· ++ ·) lefts rights) := by
  induction lefts generalizing last m rows with
  | nil => rfl
  | cons l lefts ih =>
    have hascends := hlefts.passed l mem_cons_self
    have hsorted := (pairwise_cons.mp hlefts.sorted).1
    simp only [Stream.ofList,mergeRows,hlefts.keyed.get mem_cons_self,hascends,if_true]
    rcases hlefts.keyed.kind mem_cons_self with hnull | hkind
    · have hnone : rights.filter (keysEqual leftKeyCol rightKeyCol l) = [] :=
        filter_eq_nil_iff.mpr (fun r _ hr => (keysEqual_iff.mp hr).1 hnull)
      rw [if_pos hnull,ih hlefts.tail h.tail,innerJoin,innerJoin,flatMap_cons,hnone]
      rfl
    · rw [if_neg (ne_null_of_kind hkind),innerJoin,flatMap_cons,← Stream.append_ofList,filter_keysEqual hkind hrights]
      have hgo : ∀ {m' : MergeState S} {rest : List Row}, m'.run = atHeight rightKeyCol (rowHeight leftKeyCol l) rights →
          Ready k leftKeyCol rightKeyCol lefts rights m' rest →
          (Stream.ofList (m'.run.map (l ++ ·))).append
            (mergeRows leftKeyCol rightKeyCol (.ofList lefts) (lastKey last (keyOf leftKeyCol l)) m')
          = (Stream.ofList ((atHeight rightKeyCol (rowHeight leftKeyCol l) rights).map (l ++ ·))).append
            (.ofList (innerJoin (keysEqual leftKeyCol rightKeyCol) (· ++ ·) lefts rights)) :=
        fun hrun hready => by rw [hrun,ih hlefts.tail hready]
      have hrebuilt : (∀ key, m.runKey = some key → key.height < rowHeight leftKeyCol l) →
          buildRun rightKeyCol (keyOf leftKeyCol l) m (fun m' => (Stream.ofList (m'.run.map (l ++ ·))).append
            (mergeRows leftKeyCol rightKeyCol (.ofList lefts) (lastKey last (keyOf leftKeyCol l)) m'))
          = (Stream.ofList ((atHeight rightKeyCol (rowHeight leftKeyCol l) rights).map (l ++ ·))).append
            (.ofList (innerJoin (keysEqual leftKeyCol rightKeyCol) (· ++ ·) lefts rights)) := by
        intro habove
        obtain ⟨m',rest,hbuild,hbuilt⟩ := buildRun_eq hkind h.has
        obtain ⟨hrun,hready⟩ := ready_built h hkind habove hsorted hbuilt
        rw [hbuild]
        exact hgo hrun hready
      have hfound := h.found l mem_cons_self (height_lt_top hkind).ne
      cases hkey : m.runKey with
      | none => exact hrebuilt (fun key h' => by rw [hkey] at h'; cases h')
      | some key =>
        rw [MergeState.found,hkey] at hfound
        simp only [Value.compareSql_height hkind (h.key key hkey)]
        rcases lt_trichotomy (rowHeight leftKeyCol l) key.height with hlt | heq | hgt
        · rw [show rankOrder (keyOf leftKeyCol l).height key.height = .lt from (cmp_eq_lt_iff _ _).mpr hlt]
          simp only [if_neg hlt.ne,if_pos hlt] at hfound
          rw [← hfound,ih hlefts.tail h.tail]
          rfl
        · rw [show rankOrder (keyOf leftKeyCol l).height key.height = .eq from (cmp_eq_eq_iff _ _).mpr heq]
          simp only [if_pos heq] at hfound
          exact hgo hfound h.tail
        · rw [show rankOrder (keyOf leftKeyCol l).height key.height = .gt from (cmp_eq_gt_iff _ _).mpr hgt]
          exact hrebuilt (fun key' h' => by rw [hkey] at h'; cases h'; exact hgt)

theorem merge_eq (hlefts : Keyed k leftKeyCol lefts) (hrights : Keyed k rightKeyCol rights)
    (hleft : SortedBy leftKeyCol lefts) (hright : SortedBy rightKeyCol rights) :
    (merge leftKeyCol rightKeyCol (.ofList lefts) (.ofList rights) : Stream S Error Row)
      = .ofList (innerJoin (keysEqual leftKeyCol rightKeyCol) (· ++ ·) lefts rights) :=
  mergeRows_eq ⟨hlefts,(sortedBy_iff hlefts).mp hleft,fun _ _ => rfl⟩ hrights
    ⟨⟨rights,rfl,rfl,hrights,(sortedBy_iff hrights).mp hright,fun _ _ => rfl⟩,nofun,fun _ _ _ => rfl⟩

end Merge

end InterchangeDb
