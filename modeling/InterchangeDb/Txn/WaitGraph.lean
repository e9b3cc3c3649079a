import InterchangeDb.Txn.LockTable

/-! The search for a cycle of waiting transactions finds every cycle through its start. -/
namespace InterchangeDb
open List AList Relation

namespace WaitGraph
variable {graph : WaitGraph} {start : Nat}

def neighbors (graph : WaitGraph) (a : Nat) : List Nat := (graph.lookup a).getD []

def Edge (graph : WaitGraph) (a b : Nat) : Prop := b ∈ graph.neighbors a

theorem edge_addEdge (graph : WaitGraph) (w h a b : Nat) : (graph.addEdge w h).Edge a b ↔ graph.Edge a b ∨ a = w ∧ b = h := by
  unfold Edge neighbors addEdge
  by_cases ha : a = w
  · subst ha
    simp only [lookup_insert,Option.getD_some,true_and]
    split_ifs with hmem
    · exact ⟨.inl,fun hb => hb.elim id (fun hb => hb ▸ hmem)⟩
    · simp
  · simp [lookup_insert_ne ha,ha]

theorem edge_foldl {β : Type*} {f : WaitGraph → β → WaitGraph} {q : β → Nat → Nat → Prop}
    (hf : ∀ g x a b, (f g x).Edge a b ↔ g.Edge a b ∨ q x a b) (l : List β) (graph : WaitGraph) (a b : Nat) :
    (l.foldl f graph).Edge a b ↔ graph.Edge a b ∨ ∃ x ∈ l, q x a b := by
  induction l generalizing graph with
  | nil => simp
  | cons x l ih => rw [foldl_cons,ih,hf,exists_mem_cons_iff,or_assoc]

private theorem visit_ok {current : Nat} {ns queue queue' : List Nat} {parent parent' : AList (fun _ : Nat => Nat)}
    (h : visit start current ns parent queue = .ok (parent',queue')) :
    (∀ n ∈ ns, n ≠ start ∧ n ∈ parent') ∧ (∀ n ∈ parent, n ∈ parent') ∧ (∀ n ∈ parent', n ∈ parent ∨ n ∈ queue') ∧ queue ⊆ queue' := by
  induction ns generalizing parent queue with
  | nil =>
    cases h
    exact ⟨fun n hn => (not_mem_nil hn).elim,fun _ hn => hn,fun _ hn => .inl hn,.refl _⟩
  | cons neighbor rest ih =>
    rw [visit] at h
    split_ifs at h with hstart hknown
    · obtain ⟨h1,h2,h3,h4⟩ := ih h
      refine ⟨fun n hn => ?_,h2,h3,h4⟩
      rcases mem_cons.mp hn with rfl | hn
      · exact ⟨hstart,h2 n (lookup_isSome.mp hknown)⟩
      · exact h1 n hn
    · obtain ⟨h1,h2,h3,h4⟩ := ih h
      refine ⟨fun n hn => ?_,fun n hn => h2 n (mem_insert _ |>.mpr (.inr hn)),fun n hn => ?_,fun n hn => h4 (mem_append_left _ hn)⟩
      · rcases mem_cons.mp hn with rfl | hn
        · exact ⟨hstart,h2 n (mem_insert _ |>.mpr (.inl rfl))⟩
        · exact h1 n hn
      · rcases h3 n hn with hn | hn
        · rcases (mem_insert _).mp hn with rfl | hn
          · exact .inr (h4 (mem_append_right _ (mem_singleton_self _)))
          · exact .inl hn
        · exact .inr hn

private theorem search_none {fuel : Nat} {queue : List Nat} {parent : AList (fun _ : Nat => Nat)}
    (hclosed : ∀ v ∈ parent, v ∈ queue ∨ ∀ n ∈ graph.neighbors v, n ≠ start ∧ n ∈ parent)
    (h : graph.search start fuel parent queue = some none) :
    ∃ seen : Nat → Prop, (∀ v ∈ parent, seen v) ∧ ∀ v, seen v → ∀ n ∈ graph.neighbors v, n ≠ start ∧ seen n := by
  induction fuel generalizing queue parent with
  | zero =>
    cases queue with
    | nil => exact ⟨(· ∈ parent),fun _ hv => hv,fun v hv => (hclosed v hv).resolve_left not_mem_nil⟩
    | cons current queue => cases h
  | succ fuel ih =>
    cases queue with
    | nil => exact ⟨(· ∈ parent),fun _ hv => hv,fun v hv => (hclosed v hv).resolve_left not_mem_nil⟩
    | cons current queue =>
      cases hns : graph.lookup current with
      | none =>
        simp only [search,hns] at h
        refine ih (fun v hv => ?_) h
        rcases hclosed v hv with hmem | hdone
        · rcases mem_cons.mp hmem with rfl | hmem
          · right
            intro n hn
            rw [neighbors,hns] at hn
            cases hn
          · exact .inl hmem
        · exact .inr hdone
      | some ns =>
        simp only [search,hns] at h
        cases hvisit : visit start current ns parent queue with
        | error parent' =>
          simp [hvisit] at h
        | ok x =>
          obtain ⟨parent',queue'⟩ := x
          simp only [hvisit] at h
          obtain ⟨h1,h2,h3,h4⟩ := visit_ok hvisit
          have hnext : ∀ v ∈ parent', v ∈ queue' ∨ ∀ n ∈ graph.neighbors v, n ≠ start ∧ n ∈ parent' := by
            intro v hv
            rcases h3 v hv with hold | hnew
            · rcases hclosed v hold with hmem | hdone
              · rcases mem_cons.mp hmem with rfl | hmem
                · right
                  rwa [neighbors,hns,Option.getD_some]
                · exact .inl (h4 hmem)
              · exact .inr (fun n hn => ⟨(hdone n hn).1,h2 n (hdone n hn).2⟩)
            · exact .inl hnew
          obtain ⟨seen,hseen,hleave⟩ := ih hnext h
          exact ⟨seen,fun v hv => hseen v (h2 v hv),hleave⟩

private theorem mem_foldl_insert (ns : List Nat) (parent : AList (fun _ : Nat => Nat)) (n : Nat) :
    n ∈ ns.foldl (fun parent n => parent.insert n start) parent ↔ n ∈ ns ∨ n ∈ parent := by
  induction ns generalizing parent with
  | nil => simp
  | cons m ns ih =>
    rw [foldl_cons,ih,mem_insert,mem_cons]
    tauto

theorem not_transGen_of_detectCycle (hself : ¬graph.Edge start start) (h : graph.detectCycle start = some none) :
    ¬TransGen graph.Edge start start := by
  unfold detectCycle at h
  cases hns : graph.lookup start with
  | none =>
    intro hcycle
    obtain ⟨b,hb,-⟩ := TransGen.head'_iff.mp hcycle
    rw [Edge,neighbors,hns] at hb
    cases hb
  | some ns =>
    simp only [hns] at h
    have hqueued : ∀ v ∈ ns.foldl (fun parent n => parent.insert n start) (∅ : AList (fun _ : Nat => Nat)),
        v ∈ ns ∨ ∀ n ∈ graph.neighbors v, n ≠ start ∧ n ∈ ns.foldl (fun parent n => parent.insert n start) (∅ : AList (fun _ : Nat => Nat)) :=
      fun v hv => .inl (((mem_foldl_insert ns ∅ v).mp hv).resolve_right (notMem_empty v))
    obtain ⟨seen,hseen,hleave⟩ := search_none hqueued h
    have hreach : ∀ x, TransGen graph.Edge start x → seen x ∧ x ≠ start := by
      intro x hx
      induction hx with
      | single hx =>
        refine ⟨hseen _ ((mem_foldl_insert ns ∅ _).mpr (.inl ?_)),fun heq => hself (heq ▸ hx)⟩
        rwa [Edge,neighbors,hns] at hx
      | tail _ hx ih => exact (hleave _ ih.1 _ hx).symm
    exact fun hcycle => (hreach start hcycle).2 rfl

/-- Every known node has been reached from its parent, which was known before it. -/
def Tree (graph : WaitGraph) (start : Nat) (parent : AList (fun _ : Nat => Nat)) (rank : Nat → Nat) : Prop :=
  ∀ v p, parent.lookup v = some p → v ≠ start ∧ graph.Edge p v ∧ rank v < parent.keys.length ∧
    (p = start ∨ p ∈ parent ∧ rank p < rank v)

section
variable {parent : AList (fun _ : Nat => Nat)} {rank : Nat → Nat} {current : Nat}

theorem Tree.insert {n : Nat} (h : graph.Tree start parent rank) (hn : n ∉ parent) (hstart : n ≠ start)
    (hedge : graph.Edge current n) (hcurrent : current = start ∨ current ∈ parent) :
    graph.Tree start (parent.insert n current) (Function.update rank n parent.keys.length) ∧
      (parent.insert n current).keys.length = parent.keys.length + 1 := by
  have hlength : (parent.insert n current).keys.length = parent.keys.length + 1 := by
    rw [keys_insert,erase_of_not_mem hn,length_cons]
  refine ⟨fun v p hv => ?_,hlength⟩
  have hother : ∀ u ∈ parent, Function.update rank n parent.keys.length u = rank u :=
    fun u hu => Function.update_of_ne (ne_of_mem_of_not_mem hu hn) _ _
  rw [hlength]
  by_cases hvn : v = n
  · subst hvn
    rw [lookup_insert] at hv
    cases hv
    rw [Function.update_self]
    refine ⟨hstart,hedge,Nat.lt_succ_self _,hcurrent.imp_right (fun hc => ⟨(mem_insert _).mpr (.inr hc),?_⟩)⟩
    obtain ⟨q,hq⟩ := Option.isSome_iff_exists.mp (lookup_isSome.mpr hc)
    rw [hother _ hc]
    exact (h _ q hq).2.2.1
  · rw [lookup_insert_ne hvn] at hv
    obtain ⟨hne,hpv,hrank,hp⟩ := h v p hv
    rw [hother v (lookup_isSome.mp (Option.isSome_iff_exists.mpr ⟨p,hv⟩))]
    refine ⟨hne,hpv,Nat.lt_succ_of_lt hrank,hp.imp_right (fun hp => ⟨(mem_insert _).mpr (.inr hp.1),?_⟩)⟩
    rw [hother p hp.1]
    exact hp.2

/-- Following the parents leads back to the start, along edges and without repetition. -/
theorem cycleFrom_spec (h : graph.Tree start parent rank) {fuel node : Nat} (hnode : node ∈ parent)
    (hfuel : rank node + 2 ≤ fuel) : ∃ path, cycleFrom parent start fuel node = some (node::path) ∧
      (node::path).IsChain (fun a b => graph.Edge b a) ∧ (node::path).getLast? = some start ∧ (node::path).Nodup ∧
      ∀ x ∈ node::path, x = start ∨ rank x ≤ rank node := by
  induction fuel generalizing node with
  | zero => omega
  | succ fuel ih =>
    obtain ⟨p,hp⟩ := Option.isSome_iff_exists.mp (lookup_isSome.mpr hnode)
    obtain ⟨hne,hedge,-,hparent⟩ := h node p hp
    rw [cycleFrom,if_neg hne,hp]
    rcases hparent with rfl | ⟨hmem,hrank⟩
    · obtain ⟨fuel,rfl⟩ : ∃ k, fuel = k+1 := ⟨fuel-1,by omega⟩
      refine ⟨[p],?_,by simpa using hedge,rfl,by simpa using hne,by simp⟩
      simp [cycleFrom]
    · obtain ⟨path,hpath,hchain,hlast,hnodup,hle⟩ := ih hmem (by omega)
      refine ⟨p::path,?_,.cons_cons hedge hchain,?_,nodup_cons.mpr ⟨fun hin => ?_,hnodup⟩,fun x hx => ?_⟩
      · rw [Option.bind_some,hpath,Option.map_some]
      · rw [getLast?_cons_cons,hlast]
      · rcases hle node hin with heq | hle
        · exact hne heq
        · omega
      · rcases mem_cons.mp hx with rfl | hx
        · exact .inr le_rfl
        · exact (hle x hx).imp_right (·.trans hrank.le)

private theorem visit_tree {ns : List Nat} (queue : List Nat) (h : graph.Tree start parent rank) (hcurrent : current ∈ parent)
    (hns : ∀ n ∈ ns, graph.Edge current n) : ∃ rank', match visit start current ns parent queue with
      | .error parent' => graph.Tree start parent' rank' ∧ current ∈ parent' ∧ graph.Edge current start
      | .ok (parent',queue') => graph.Tree start parent' rank' ∧ (∀ v ∈ parent, v ∈ parent') ∧
        (∀ v ∈ queue', v ∈ queue ∨ v ∈ parent') ∧ parent'.keys.length + queue.length = parent.keys.length + queue'.length := by
  induction ns generalizing parent queue rank with
  | nil => exact ⟨rank,h,fun _ => id,fun _ => .inl,rfl⟩
  | cons n ns ih =>
    have hrest := fun m hm => hns m (mem_cons_of_mem _ hm)
    rw [visit]
    split_ifs with hstart hknown
    · exact ⟨rank,h,hcurrent,hstart ▸ hns n mem_cons_self⟩
    · exact ih queue h hcurrent hrest
    · have hn : n ∉ parent := fun hmem => hknown (lookup_isSome.mpr hmem)
      obtain ⟨htree,hlength⟩ := h.insert hn hstart (hns n mem_cons_self) (.inr hcurrent)
      obtain ⟨rank',hvisit⟩ := ih (queue ++ [n]) htree ((mem_insert _).mpr (.inr hcurrent)) hrest
      refine ⟨rank',?_⟩
      split at hvisit
      · exact hvisit
      · obtain ⟨htree',hsub,hqueue,hcount⟩ := hvisit
        refine ⟨htree',fun v hv => hsub v ((mem_insert _).mpr (.inr hv)),fun v hv => ?_,?_⟩
        · rcases hqueue v hv with hv | hv
          · refine (mem_append.mp hv).imp_right (fun hv => hsub v ((mem_insert _).mpr (.inl (mem_singleton.mp hv))))
          · exact .inr hv
        · rw [hlength,length_append,length_singleton] at hcount
          omega

theorem Tree.length_le {nodes : Finset Nat} (h : graph.Tree start parent rank) (hnodes : ∀ a b, graph.Edge a b → b ∈ nodes) :
    parent.keys.length ≤ nodes.card := by
  rw [← toFinset_card_of_nodup (keys_nodup parent)]
  refine Finset.card_le_card (fun v hv => ?_)
  obtain ⟨p,hp⟩ := Option.isSome_iff_exists.mp (lookup_isSome.mpr (mem_keys.mpr (mem_toFinset.mp hv)))
  exact hnodes p v (h v p hp).2.1

private theorem search_tree {nodes : Finset Nat} (hnodes : ∀ a b, graph.Edge a b → b ∈ nodes) {fuel : Nat} {queue : List Nat}
    (hfuel : nodes.card + queue.length ≤ fuel + parent.keys.length) (h : graph.Tree start parent rank)
    (hqueue : ∀ v ∈ queue, v ∈ parent) : ∃ found, graph.search start fuel parent queue = some found ∧
      ∀ cycle ∈ found, cycle.Nodup ∧ cycle.getLast? = some start ∧ (start::cycle).IsChain (fun a b => graph.Edge b a) := by
  induction fuel generalizing parent rank queue with
  | zero =>
    have hkeys := h.length_le hnodes
    obtain rfl : queue = [] := length_eq_zero_iff.mp (by omega)
    exact ⟨none,by rw [search],nofun⟩
  | succ fuel ih =>
    cases queue with
    | nil => exact ⟨none,by rw [search],nofun⟩
    | cons current queue =>
      rw [length_cons] at hfuel
      have hrest := fun v hv => hqueue v (mem_cons_of_mem _ hv)
      cases hns : graph.lookup current with
      | none =>
        simp only [search,hns]
        exact ih (by omega) h hrest
      | some ns =>
        have hedges : ∀ n ∈ ns, graph.Edge current n := by
          intro n hn
          rwa [Edge,neighbors,hns]
        obtain ⟨rank',hvisit⟩ := visit_tree queue h (hqueue current mem_cons_self) hedges
        rw [search,hns]
        dsimp only
        cases heq : visit start current ns parent queue with
        | error parent' =>
          rw [heq] at hvisit
          obtain ⟨htree,hmem,hback⟩ := hvisit
          obtain ⟨p,hp⟩ := Option.isSome_iff_exists.mp (lookup_isSome.mpr hmem)
          obtain ⟨path,hpath,hchain,hlast,hnodup,-⟩ := cycleFrom_spec htree hmem (Nat.succ_le_succ (htree current p hp).2.2.1)
          refine ⟨some (current::path),?_,?_⟩
          · dsimp only
            rw [hpath,Option.map_some]
          · rintro _ ⟨⟩
            exact ⟨hnodup,hlast,.cons_cons hback hchain⟩
        | ok x =>
          rw [heq] at hvisit
          obtain ⟨htree,hsub,hqueue',hcount⟩ := hvisit
          exact ih (by omega) htree (fun v hv => (hqueue' v hv).elim (fun hv => hsub v (hrest v hv)) id)

private theorem tree_start {ns : List Nat} (hns : ∀ n ∈ ns, graph.Edge start n) (hself : ¬graph.Edge start start) (hnodup : ns.Nodup)
    (h : graph.Tree start parent rank) (hnew : ∀ n ∈ ns, n ∉ parent) :
    ∃ rank', graph.Tree start (ns.foldl (fun parent n => parent.insert n start) parent) rank' ∧
      (ns.foldl (fun parent n => parent.insert n start) parent).keys.length = parent.keys.length + ns.length := by
  induction ns generalizing parent rank with
  | nil => exact ⟨rank,h,rfl⟩
  | cons n ns ih =>
    obtain ⟨hn,hnodup⟩ := nodup_cons.mp hnodup
    have hedge := hns n mem_cons_self
    obtain ⟨htree,hlength⟩ := h.insert (hnew n mem_cons_self) (fun heq => hself (heq ▸ hedge)) hedge (.inl rfl)
    have hfresh : ∀ m ∈ ns, m ∉ parent.insert n start := by
      intro m hm hin
      rcases (mem_insert _).mp hin with rfl | hin
      · exact hn hm
      · exact hnew m (mem_cons_of_mem _ hm) hin
    obtain ⟨rank',hall,hcount⟩ := ih (fun m hm => hns m (mem_cons_of_mem _ hm)) hnodup htree hfresh
    refine ⟨rank',hall,?_⟩
    rw [foldl_cons,hcount,hlength,length_cons]
    omega

end

private theorem transGen_of_chain {a b : Nat} {path : List Nat} (h : (a::b::path).IsChain (fun x y => graph.Edge y x))
    (hlast : (b::path).getLast? = some start) : TransGen graph.Edge start a := by
  induction path generalizing a b with
  | nil =>
    obtain rfl : b = start := Option.some.inj hlast
    exact .single (by simpa using h)
  | cons c path ih =>
    rw [isChain_cons_cons] at h
    rw [getLast?_cons_cons] at hlast
    exact (ih h.2 hlast).tail h.1

private theorem mem_entries_of_edge {a b : Nat} (h : graph.Edge a b) : ∃ ns, ⟨a,ns⟩ ∈ graph.entries ∧ b ∈ ns := by
  unfold Edge neighbors at h
  cases hns : graph.lookup a with
  | none =>
    rw [hns] at h
    cases h
  | some ns =>
    rw [hns] at h
    exact ⟨ns,mem_lookup_iff.mp hns,h⟩

/-- In a graph without self-edges and with no more nodes than the search may look at, a cycle is returned
exactly if there is one through the start, and it is a cycle of the graph. -/
theorem detectCycle_exact (graph : WaitGraph) (nodes : Finset Nat) (start : Nat) (hsets : ∀ x ∈ graph.entries, x.2.Nodup)
    (hself : ∀ x ∈ graph.entries, x.1 ∉ x.2) (hnodes : ∀ x ∈ graph.entries, x.1 ∈ nodes ∧ ∀ b ∈ x.2, b ∈ nodes)
    (hcard : nodes.card ≤ 65536) :
    ∃ found, graph.detectCycle start = some found ∧ (found.isSome ↔ TransGen graph.Edge start start) ∧
      ∀ cycle ∈ found, cycle.Nodup ∧ cycle.getLast? = some start ∧ (start::cycle).IsChain (fun a b => graph.Edge b a) := by
  have hloop : ¬graph.Edge start start := by
    intro hedge
    obtain ⟨ns,hns,hmem⟩ := mem_entries_of_edge hedge
    exact hself _ hns hmem
  have hends : ∀ a b, graph.Edge a b → b ∈ nodes := by
    intro a b hedge
    obtain ⟨ns,hns,hmem⟩ := mem_entries_of_edge hedge
    exact (hnodes _ hns).2 b hmem
  have hfound : ∃ found, graph.detectCycle start = some found ∧ ∀ cycle ∈ found, cycle.Nodup ∧
      cycle.getLast? = some start ∧ (start::cycle).IsChain (fun a b => graph.Edge b a) := by
    unfold detectCycle
    cases hns : graph.lookup start with
    | none => exact ⟨none,rfl,nofun⟩
    | some ns =>
      have hempty : graph.Tree start ∅ (fun _ => 0) := by simp [Tree]
      obtain ⟨rank,htree,hcount⟩ := tree_start (fun n hn => by rwa [Edge,neighbors,hns]) hloop (hsets _ (mem_lookup_iff.mp hns))
        hempty (fun n _ => notMem_empty n)
      refine search_tree hends ?_ htree (fun v hv => (mem_foldl_insert ns ∅ v).mpr (.inl hv))
      rw [hcount,← add_assoc]
      exact Nat.add_le_add_right hcard _
  obtain ⟨found,heq,hcycle⟩ := hfound
  refine ⟨found,heq,?_,hcycle⟩
  cases found with
  | none => exact ⟨nofun,fun h => (not_transGen_of_detectCycle hloop heq h).elim⟩
  | some cycle =>
    obtain ⟨-,hlast,hchain⟩ := hcycle cycle rfl
    refine ⟨fun _ => ?_,fun _ => rfl⟩
    cases cycle with
    | nil => cases hlast
    | cons v path => exact transGen_of_chain hchain hlast

private def triangle : WaitGraph := ((addEdge ∅ 1 2).addEdge 2 4 |>.addEdge 2 3).addEdge 3 1

theorem detectCycle_exact_triangle : triangle.detectCycle 1 = some (some [3,2,1]) ∧ TransGen triangle.Edge 1 1 := by
  have heq : triangle.detectCycle 1 = some (some [3,2,1]) := by decide +kernel
  obtain ⟨found,hfound,hiff,-⟩ := detectCycle_exact triangle {1,2,3,4} 1 (by decide) (by decide) (by decide) (by decide)
  cases hfound.symm.trans heq
  exact ⟨heq,hiff.mp rfl⟩

end WaitGraph
end InterchangeDb
