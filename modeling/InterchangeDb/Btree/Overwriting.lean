import InterchangeDb.Btree.Engine
import InterchangeDb.Lib.Run
import InterchangeDb.Lib.Threads

/-! Threads on one B+tree engine. Between the delete and the second insert of a put its key is out of the tree. -/
namespace InterchangeDb
open List Option

namespace EnginePhase

/-- The operation of a call that has not taken effect. -/
def pending : EnginePhase → Option EngineOp
  | .reading key => some (.get key)
  | .inserting key value | .sizing key value | .removing key value _ | .reinserting key value _ => some (.put key value)
  | .measuring key | .deleting key _ => some (.delete key)
  | _ => none

/-- The result of a call that has taken effect. -/
def result : EnginePhase → Option EngineResult
  | .counting _ | .growing _ | .shrinking _ _ | .uncounting _ | .releasing _ => some .done
  | .returning r => some r
  | _ => none

/-- The key that an overwriting put has taken out of the tree. -/
def restores : EnginePhase → Option Bytes
  | .reinserting key _ _ => some key
  | _ => none

/-- The key that the next step reads, inserts or removes for an overwriting put. -/
def touches : EnginePhase → Option Bytes
  | .reading key | .inserting key _ | .removing key _ _ => some key
  | _ => none

end EnginePhase

/-- No step reads, inserts or removes a key that an overwriting put has taken out of the tree, and the nodes fit their
pages. -/
def EngineThreads.Undisturbed (s : EngineThreads) : EngineLabel → Prop
  | .invoke _ => True
  | .advance id nodes =>
    (∀ p ∈ s.calls[id]?, ∀ k ∈ p.touches, ∀ q ∈ s.calls, q.restores ≠ some k) ∧ nodes.all TreeNode.fits = true

instance (s : EngineThreads) (a : EngineLabel) : Decidable (s.Undisturbed a) := by
  unfold EngineThreads.Undisturbed
  cases a <;> infer_instance

theorem BTreeEngine.written_fits {e engine : BTreeEngine} {tree : OrdMap Bytes Bytes} {nodes : List TreeNode}
    {p p' : EnginePhase} (hfits : nodes.all TreeNode.fits = true) (h : e.written tree nodes p = some (engine,p')) :
    engine = { e with tree } ∧ p' = p := by
  unfold written at h
  split_ifs at h
  cases h
  exact ⟨rfl,rfl⟩

/-- The tree and the map of the sequential order agree but for the keys that are out of the tree. -/
structure Windows (calls : List EnginePhase) (tree map : Engine) : Prop where
  resting : ∀ {k}, (∀ p ∈ calls, p.restores ≠ some k) → tree.get k = map.get k
  window : ∀ {p : EnginePhase} {k}, p ∈ calls → p.restores = some k → tree.get k = none
  alone : ∀ {i j : Nat} {p q : EnginePhase} {k}, calls[i]? = some p → calls[j]? = some q → p.restores = some k → q.restores = some k → i = j
  safe : EnginePhase.panicked ∉ calls

namespace Windows
variable {calls : List EnginePhase} {tree map tree' map' : Engine} {i : Nat} {p p' : EnginePhase} {k : Bytes}

theorem update (h : Windows calls tree map) (hp : calls[i]? = some p)
    (htree : ∀ x, x ≠ k → tree'.get x = tree.get x) (hmap : ∀ x, x ≠ k → map'.get x = map.get x)
    (hbefore : ∀ x, p.restores = some x → x = k) (hafter : ∀ x, p'.restores = some x → x = k)
    (hothers : ∀ j q, i ≠ j → calls[j]? = some q → q.restores = some k → tree'.get k = none ∧ p'.restores = none)
    (hout : p'.restores = some k → tree'.get k = none)
    (hin : p'.restores = none → (∀ j q, i ≠ j → calls[j]? = some q → q.restores ≠ some k) → tree'.get k = map'.get k)
    (hsafe : p' ≠ .panicked) : Windows (calls.set i p') tree' map' where
  resting {x} hx := by
    have hself := hx p' (Threads.mem_set_self hp p')
    have hrest : ∀ j q, i ≠ j → calls[j]? = some q → q.restores ≠ some x := by
      intro j q hij hq
      refine hx q (mem_iff_getElem?.mpr ⟨j,?_⟩)
      rwa [getElem?_set_ne hij]
    by_cases hxk : x = k
    · subst hxk
      refine hin ?_ hrest
      cases hr : p'.restores with
      | none => rfl
      | some y => exact (hself (by rw [hr,hafter y hr])).elim
    · rw [htree x hxk,hmap x hxk]
      refine h.resting fun q hq hr => ?_
      obtain ⟨j,hj⟩ := mem_iff_getElem?.mp hq
      by_cases hij : i = j
      · subst hij
        rw [hp] at hj
        cases hj
        exact hxk (hbefore x hr)
      · exact hrest j q hij hj hr
  window {q x} hq hr := by
    rcases Threads.mem_set_cases hq with rfl | ⟨j,hij,hj⟩
    · have hxk := hafter x hr
      subst hxk
      exact hout hr
    · by_cases hxk : x = k
      · subst hxk
        exact (hothers j q hij hj hr).1
      · rw [htree x hxk]
        exact h.window (mem_of_getElem? hj) hr
  alone {a b q r x} ha hb hq hr := by
    have hnone : ∀ {j q}, i ≠ j → calls[j]? = some q → q.restores = some x → p'.restores ≠ some x := by
      intro j q hij hj hq hp'
      have hxk := hafter x hp'
      subst hxk
      rw [(hothers j q hij hj hq).2] at hp'
      cases hp'
    rcases Threads.getElem?_set_cases hp ha with ⟨rfl,rfl⟩ | ⟨hia,ha⟩
    · rcases Threads.getElem?_set_cases hp hb with ⟨rfl,rfl⟩ | ⟨hib,hb⟩
      · rfl
      · exact (hnone hib hb hr hq).elim
    · rcases Threads.getElem?_set_cases hp hb with ⟨rfl,rfl⟩ | ⟨hib,hb⟩
      · exact (hnone hia ha hq hr).elim
      · exact h.alone ha hb hq hr
  safe hmem := by
    rcases Threads.mem_set_cases hmem with heq | ⟨j,_,hj⟩
    · exact hsafe heq.symm
    · exact h.safe (mem_of_getElem? hj)

theorem quiet (h : Windows calls tree map) (hp : calls[i]? = some p) (hbefore : p.restores = none)
    (hafter : p'.restores = none) (hsafe : p' ≠ .panicked) : Windows (calls.set i p') tree map := by
  have hothers : ∀ q ∈ calls, q.restores = some [] → tree.get [] = none := fun q hq hr => h.window hq hr
  refine h.update (k := []) hp (fun _ _ => rfl) (fun _ _ => rfl) (fun x hx => ?_) (fun x hx => ?_)
    (fun j q _ hj hr => ⟨hothers q (mem_of_getElem? hj) hr,hafter⟩) (fun hr => ?_) (fun _ hrest => ?_) hsafe
  · rw [hbefore] at hx
    cases hx
  · rw [hafter] at hx
    cases hx
  · rw [hafter] at hr
    cases hr
  · refine h.resting fun q hq hr => ?_
    obtain ⟨j,hj⟩ := mem_iff_getElem?.mp hq
    by_cases hij : i = j
    · subst hij
      rw [hp] at hj
      cases hj
      rw [hbefore] at hr
      cases hr
    · exact hrest j q hij hj hr

theorem invoke (h : Windows calls tree map) (hrest : p.restores = none) (hsafe : p ≠ .panicked) :
    Windows (calls ++ [p]) tree map where
  resting hx := h.resting fun q hq => hx q (mem_append_left _ hq)
  window hq hr := by
    rcases mem_append.mp hq with hq | hq
    · exact h.window hq hr
    · cases mem_singleton.mp hq
      rw [hrest] at hr
      cases hr
  alone {a b q r x} ha hb hq hr := by
    have hold : ∀ {j : Nat} {q : EnginePhase}, (calls ++ [p])[j]? = some q → q.restores = some x → calls[j]? = some q := by
      intro j q hj hq
      rcases Threads.getElem?_append_cases hj with ⟨_,rfl⟩ | hj
      · rw [hrest] at hq
        cases hq
      · exact hj
    exact h.alone (hold ha hq) (hold hb hr) hq hr
  safe hmem := by
    rcases mem_append.mp hmem with hmem | hmem
    · exact h.safe hmem
    · exact hsafe (mem_singleton.mp hmem).symm

end Windows

theorem EngineOp.start_cases (op : EngineOp) : (op.start.pending = some op ∧ op.start.result = none) ∨
    ∃ e, op.start = .returning (.failed e) ∧ ∀ m, op.apply m = (m,.failed e) := by
  cases op with
  | get | delete => exact .inl ⟨rfl,rfl⟩
  | put k v =>
    cases hr : BTreeEngine.reject k v with
    | none => exact .inl (by simp [EngineOp.start,hr,EnginePhase.pending,EnginePhase.result])
    | some e => exact .inr ⟨e,by simp [start,hr],fun m => by simp [apply,hr]⟩

theorem EngineOp.start_restores (op : EngineOp) : op.start.restores = none := by
  cases op with
  | get | delete => rfl
  | put k v => cases hr : BTreeEngine.reject k v <;> simp [EngineOp.start,hr,EnginePhase.restores]

theorem EngineOp.start_admitted (op : EngineOp) {k v : Bytes} (h : op.start.pending = some (.put k v)) :
    BTreeEngine.reject k v = none := by
  cases op with
  | get | delete => cases h
  | put k' v' =>
    cases hr : BTreeEngine.reject k' v' with
    | none =>
      simp only [EngineOp.start,hr,EnginePhase.pending,some.injEq,EngineOp.put.injEq] at h
      rw [← h.1,← h.2,hr]
    | some e => simp [EngineOp.start,hr,EnginePhase.pending] at h

theorem EngineOp.start_safe (op : EngineOp) : op.start ≠ .panicked := by
  cases op with
  | get | delete => simp [start]
  | put k v => cases hr : BTreeEngine.reject k v <;> simp [EngineOp.start,hr]

/-- A sequential order explains a state. A call enters it at its read, at the insert that puts its value into the
tree, or at its delete. -/
structure Explained (e₀ : Engine) (s : EngineThreads) (order : List (Placed EngineOp EngineResult)) (map : Engine) :
    Prop where
  lin : Linearizes EngineOp.apply e₀ s.history order map
  invoked : ∀ {i op}, .invoke i op ∈ s.history → i < s.calls.length
  unique : ∀ {i op op'}, .invoke i op ∈ s.history → .invoke i op' ∈ s.history → op = op'
  pending : ∀ {i : Nat} {p : EnginePhase} {op}, s.calls[i]? = some p → p.pending = some op →
    .invoke i op ∈ s.history ∧ ∀ x ∈ order, x.id ≠ i
  placed : ∀ {i : Nat} {p : EnginePhase} {r}, s.calls[i]? = some p → p.result = some r → ∃ op, ⟨i,op,r⟩ ∈ order
  admitted : ∀ {p : EnginePhase} {k v}, p ∈ s.calls → p.pending = some (.put k v) → BTreeEngine.reject k v = none
  windows : Windows s.calls s.engine.tree map

namespace Explained
variable {e₀ : Engine} {s : EngineThreads} {order : List (Placed EngineOp EngineResult)} {map : Engine}
variable {i : Nat} {p p' : EnginePhase} {engine : BTreeEngine}

theorem init (e : BTreeEngine) : Explained e.tree (.init e) [] e.tree where
  lin := .init _ _
  invoked hi := by cases hi
  unique hi := by cases hi
  pending hp := by simp [EngineThreads.init] at hp
  placed hp := by simp [EngineThreads.init] at hp
  admitted hp := by cases hp
  windows := {
    resting _ := rfl
    window hp := by cases hp
    alone hp := by simp [EngineThreads.init] at hp
    safe hp := by cases hp }

section

variable (h : Explained e₀ s order map)
include h

theorem keep (hp : s.calls[i]? = some p) (hpending : p'.pending = p.pending) (hresult : p'.result = p.result)
    (hwin : Windows (s.calls.set i p') engine.tree map) : Explained e₀ ⟨engine,s.calls.set i p',s.history⟩ order map where
  lin := h.lin
  invoked hi := by
    rw [length_set]
    exact h.invoked hi
  unique := h.unique
  pending {j q op} hq hop := by
    rcases Threads.getElem?_set_cases hp hq with ⟨rfl,rfl⟩ | ⟨_,hq⟩
    · exact h.pending hp (hpending ▸ hop)
    · exact h.pending hq hop
  placed {j q r} hq hr := by
    rcases Threads.getElem?_set_cases hp hq with ⟨rfl,rfl⟩ | ⟨_,hq⟩
    · exact h.placed hp (hresult ▸ hr)
    · exact h.placed hq hr
  admitted hq hop := by
    rcases Threads.mem_set_cases hq with rfl | ⟨j,_,hj⟩
    · exact h.admitted (mem_of_getElem? hp) (hpending ▸ hop)
    · exact h.admitted (mem_of_getElem? hj) hop
  windows := hwin

theorem place (hp : s.calls[i]? = some p) {op : EngineOp} {r : EngineResult} {map' : Engine} (hop : p.pending = some op)
    (hpending : p'.pending = none) (hresult : p'.result = some r) (happly : op.apply map = (map',r))
    (hwin : Windows (s.calls.set i p') engine.tree map') :
    Explained e₀ ⟨engine,s.calls.set i p',s.history⟩ (⟨i,op,r⟩ :: order) map' where
  lin := by
    obtain ⟨hinv,hnew⟩ := h.pending hp hop
    refine h.lin.place hinv hnew (fun r hr => ?_) happly
    obtain ⟨op',hmem⟩ := h.lin.responded hr
    exact hnew _ hmem rfl
  invoked hi := by
    rw [length_set]
    exact h.invoked hi
  unique := h.unique
  pending {j q op'} hq hop' := by
    rcases Threads.getElem?_set_cases hp hq with ⟨rfl,rfl⟩ | ⟨hij,hq⟩
    · rw [hpending] at hop'
      cases hop'
    · obtain ⟨hinv,hnew⟩ := h.pending hq hop'
      refine ⟨hinv,fun x hx => ?_⟩
      rcases mem_cons.mp hx with rfl | hx
      · exact hij
      · exact hnew x hx
  placed {j q r'} hq hr := by
    rcases Threads.getElem?_set_cases hp hq with ⟨rfl,rfl⟩ | ⟨_,hq⟩
    · rw [hresult] at hr
      cases hr
      exact ⟨op,mem_cons_self⟩
    · obtain ⟨op',hmem⟩ := h.placed hq hr
      exact ⟨op',mem_cons_of_mem _ hmem⟩
  admitted hq hop := by
    rcases Threads.mem_set_cases hq with rfl | ⟨j,_,hj⟩
    · rw [hpending] at hop
      cases hop
    · exact h.admitted (mem_of_getElem? hj) hop
  windows := hwin

theorem respond {r : EngineResult} (hp : s.calls[i]? = some (.returning r)) :
    Explained e₀ ⟨s.engine,s.calls.set i .returned,.respond i r :: s.history⟩ order map := by
  obtain ⟨op,hmem⟩ := h.placed hp rfl
  have hinv : ∀ {j op}, .invoke j op ∈ CallEvent.respond i r :: s.history → .invoke j op ∈ s.history := by
    intro j op hj
    rcases mem_cons.mp hj with heq | hj
    · cases heq
    · exact hj
  refine ⟨h.lin.respond hmem,fun hj => ?_,fun hj hj' => h.unique (hinv hj) (hinv hj'),fun {j q op'} hq hop' => ?_,fun {j q r'} hq hr => ?_,
    fun {q _ _} hq hop => ?_,h.windows.quiet hp rfl rfl (by simp)⟩
  · rw [length_set]
    exact h.invoked (hinv hj)
  · rcases Threads.getElem?_set_cases hp hq with ⟨rfl,rfl⟩ | ⟨_,hq⟩
    · cases hop'
    · obtain ⟨hinv,hnew⟩ := h.pending hq hop'
      exact ⟨mem_cons_of_mem _ hinv,hnew⟩
  · rcases Threads.getElem?_set_cases hp hq with ⟨rfl,rfl⟩ | ⟨_,hq⟩
    · cases hr
    · exact h.placed hq hr
  · rcases Threads.mem_set_cases hq with rfl | ⟨j,_,hj⟩
    · cases hop
    · exact h.admitted (mem_of_getElem? hj) hop

/-- A call is invoked; a put that is too large takes effect at once. -/
theorem invoke (op : EngineOp) :
    ∃ order', Explained e₀ ⟨s.engine,s.calls ++ [op.start],.invoke s.calls.length op :: s.history⟩ order' map := by
  have hfresh : ∀ op', .invoke s.calls.length op' ∉ s.history := fun op' hi => lt_irrefl _ (h.invoked hi)
  have hnew : ∀ x ∈ order, x.id ≠ s.calls.length := fun x hx => ne_of_lt (h.invoked (h.lin.invoked x hx))
  have hlin := h.lin.invoke hnew op
  have hopen : ∀ r, .respond s.calls.length r ∉ CallEvent.invoke s.calls.length op :: s.history := by
    intro r hr
    obtain ⟨op',hmem⟩ := hlin.responded hr
    exact hnew _ hmem rfl
  have hinvoked : ∀ {i op'}, .invoke i op' ∈ CallEvent.invoke s.calls.length op :: s.history →
      i < (s.calls ++ [op.start]).length := by
    intro i op' hi
    rw [length_append,length_singleton]
    rcases mem_cons.mp hi with heq | hi
    · cases heq
      exact Nat.lt_succ_self _
    · exact Nat.lt_succ_of_lt (h.invoked hi)
  have hunique : ∀ {i op₁ op₂}, .invoke i op₁ ∈ CallEvent.invoke s.calls.length op :: s.history →
      .invoke i op₂ ∈ CallEvent.invoke s.calls.length op :: s.history → op₁ = op₂ := by
    intro i op₁ op₂ h₁ h₂
    rcases mem_cons.mp h₁ with heq | h₁
    · cases heq
      rcases mem_cons.mp h₂ with heq | h₂
      · cases heq
        rfl
      · exact (hfresh op₂ h₂).elim
    · rcases mem_cons.mp h₂ with heq | h₂
      · cases heq
        exact (hfresh op₁ h₁).elim
      · exact h.unique h₁ h₂
  have hadmitted : ∀ {q : EnginePhase} {k v}, q ∈ s.calls ++ [op.start] → q.pending = some (.put k v) →
      BTreeEngine.reject k v = none := by
    intro q k v hq hop
    rcases mem_append.mp hq with hq | hq
    · exact h.admitted hq hop
    · cases mem_singleton.mp hq
      exact op.start_admitted hop
  rcases op.start_cases with ⟨hpending,hresult⟩ | ⟨e,hstart,happly⟩
  · refine ⟨order,hlin,hinvoked,hunique,fun {j q op'} hq hop => ?_,fun {j q r} hq hr => ?_,
      hadmitted,h.windows.invoke op.start_restores op.start_safe⟩
    · rcases Threads.getElem?_append_cases hq with ⟨rfl,rfl⟩ | hq
      · cases hpending.symm.trans hop
        exact ⟨mem_cons_self,hnew⟩
      · obtain ⟨hinv,hnot⟩ := h.pending hq hop
        exact ⟨mem_cons_of_mem _ hinv,hnot⟩
    · rcases Threads.getElem?_append_cases hq with ⟨rfl,rfl⟩ | hq
      · cases hresult.symm.trans hr
      · exact h.placed hq hr
  · refine ⟨_,hlin.place mem_cons_self hnew hopen (happly map),hinvoked,hunique,fun {j q op'} hq hop => ?_,
      fun {j q r} hq hr => ?_,hadmitted,h.windows.invoke op.start_restores op.start_safe⟩
    · rcases Threads.getElem?_append_cases hq with ⟨rfl,rfl⟩ | hq
      · rw [hstart] at hop
        cases hop
      · obtain ⟨hinv,hnot⟩ := h.pending hq hop
        refine ⟨mem_cons_of_mem _ hinv,fun x hx => ?_⟩
        rcases mem_cons.mp hx with rfl | hx
        · exact Nat.ne_of_gt (List.getElem?_eq_some_iff.mp hq).1
        · exact hnot x hx
    · rcases Threads.getElem?_append_cases hq with ⟨rfl,rfl⟩ | hq
      · rw [hstart] at hr
        cases hr
        exact ⟨op,mem_cons_self⟩
      · obtain ⟨op',hmem⟩ := h.placed hq hr
        exact ⟨op',mem_cons_of_mem _ hmem⟩

theorem next (hp : s.calls[i]? = some p)
    (hcalm : ∀ k ∈ p.touches, ∀ q ∈ s.calls, q.restores ≠ some k) {nodes : List TreeNode}
    (hfits : nodes.all TreeNode.fits = true) (hnext : s.engine.next nodes p = some (engine,p')) :
    ∃ order' map', Explained e₀ ⟨engine,s.calls.set i p',s.history⟩ order' map' := by
  have hw := h.windows
  have hadmitted : ∀ {k v}, p.pending = some (.put k v) → EngineOp.apply map (.put k v) = (map.insert k v,.done) := by
    intro k v hop
    rw [EngineOp.apply,h.admitted (mem_of_getElem? hp) hop]
    rfl
  cases p with
  | reading k =>
    cases hnext
    refine ⟨_,_,h.place hp rfl rfl rfl ?_ (hw.quiet hp rfl rfl (by simp))⟩
    rw [EngineOp.apply,hw.resting (hcalm k rfl)]
  | inserting k v =>
    have hfree := hcalm k rfl
    simp only [BTreeEngine.next,BTree.insert] at hnext
    split_ifs at hnext with hsome
    · cases hnext
      exact ⟨_,_,h.keep hp rfl rfl (hw.quiet hp rfl rfl (by simp))⟩
    · obtain ⟨rfl,rfl⟩ := BTreeEngine.written_fits hfits hnext
      refine ⟨_,_,h.place hp rfl rfl rfl (hadmitted rfl) (hw.update (k := k) hp ?_ ?_ ?_ ?_ ?_ ?_ ?_ (by simp))⟩
      · exact fun x hx => by rw [OrdMap.get_insert,if_neg hx]
      · exact fun x hx => by rw [OrdMap.get_insert,if_neg hx]
      · exact nofun
      · exact nofun
      · exact fun j q _ hj hr => (hfree q (mem_of_getElem? hj) hr).elim
      · exact nofun
      · exact fun _ _ => by rw [OrdMap.get_insert,OrdMap.get_insert,if_pos rfl,if_pos rfl]
  | counting | growing | sizing | shrinking | measuring | uncounting | releasing =>
    cases hnext
    exact ⟨_,_,h.keep hp rfl rfl (hw.quiet hp rfl rfl (by simp))⟩
  | removing k v n =>
    have hfree := hcalm k rfl
    have hdel : engine = { s.engine with tree := s.engine.tree.erase k } ∧ p' = .reinserting k v n := by
      simp only [BTreeEngine.next,BTree.delete] at hnext
      cases hsome : (s.engine.tree.get k).isSome with
      | true =>
        simp only [hsome] at hnext
        exact BTreeEngine.written_fits hfits hnext
      | false =>
        simp only [hsome] at hnext
        cases hnext
        exact ⟨rfl,rfl⟩
    obtain ⟨rfl,rfl⟩ := hdel
    refine ⟨_,_,h.keep hp rfl rfl (hw.update (k := k) hp ?_ ?_ ?_ ?_ ?_ ?_ ?_ (by simp))⟩
    · exact fun x hx => by rw [OrdMap.get_erase,if_neg hx]
    · exact fun _ _ => rfl
    · exact nofun
    · exact fun x hx => (some.inj hx).symm
    · exact fun j q _ hj hr => (hfree q (mem_of_getElem? hj) hr).elim
    · exact fun _ => by rw [OrdMap.get_erase,if_pos rfl]
    · exact nofun
  | reinserting k v n =>
    -- the key is still out of the tree
    have hnone : s.engine.tree.get k = none := hw.window (mem_of_getElem? hp) rfl
    simp only [BTreeEngine.next,BTree.insert,hnone,isSome_none,Bool.false_eq_true,if_false] at hnext
    obtain ⟨rfl,rfl⟩ := BTreeEngine.written_fits hfits hnext
    refine ⟨_,_,h.place hp rfl rfl rfl (hadmitted rfl) (hw.update (k := k) hp ?_ ?_ ?_ ?_ ?_ ?_ ?_ (by simp))⟩
    · exact fun x hx => by rw [OrdMap.get_insert,if_neg hx]
    · exact fun x hx => by rw [OrdMap.get_insert,if_neg hx]
    · exact fun x hx => (some.inj hx).symm
    · exact nofun
    · exact fun j q hij hj hr => (hij (hw.alone hp hj rfl hr)).elim
    · exact nofun
    · exact fun _ _ => by rw [OrdMap.get_insert,OrdMap.get_insert,if_pos rfl,if_pos rfl]
  | deleting k n =>
    have hdel : engine.tree = s.engine.tree.erase k ∧ p'.pending = none ∧ p'.result = some .done ∧ p'.restores = none ∧
        p' ≠ .panicked := by
      simp only [BTreeEngine.next,BTree.delete] at hnext
      cases hsome : (s.engine.tree.get k).isSome with
      | true =>
        simp only [hsome] at hnext
        obtain ⟨rfl,rfl⟩ := BTreeEngine.written_fits hfits hnext
        exact ⟨rfl,rfl,rfl,rfl,by simp⟩
      | false =>
        simp only [hsome] at hnext
        cases hnext
        exact ⟨rfl,rfl,rfl,rfl,by simp⟩
    obtain ⟨htree,hpending,hresult,hrest,hsafe⟩ := hdel
    refine ⟨_,_,h.place hp rfl hpending hresult rfl (hw.update (k := k) hp ?_ ?_ ?_ ?_ ?_ ?_ ?_ hsafe)⟩
    · exact fun x hx => by rw [htree,OrdMap.get_erase,if_neg hx]
    · exact fun x hx => by rw [Engine.delete,OrdMap.get_erase,if_neg hx]
    · exact nofun
    · intro x hx
      rw [hrest] at hx
      cases hx
    · exact fun j q _ _ _ => ⟨by rw [htree,OrdMap.get_erase,if_pos rfl],hrest⟩
    · intro hr
      rw [hrest] at hr
      cases hr
    · exact fun _ _ => by rw [htree,Engine.delete,OrdMap.get_erase,OrdMap.get_erase,if_pos rfl,if_pos rfl]
  | returning | returned | panicked => cases hnext

theorem step {a : EngineLabel} {s' : EngineThreads} (hcalm : s.Undisturbed a)
    (hstep : s.step a = some s') : ∃ order' map', Explained e₀ s' order' map' := by
  cases a with
  | invoke op =>
    cases hstep
    obtain ⟨order',h'⟩ := h.invoke op
    exact ⟨order',map,h'⟩
  | advance i nodes =>
    cases hp : s.calls[i]? with
    | none => simp [EngineThreads.step,hp] at hstep
    | some p =>
      cases p with
      | returning r =>
        simp only [EngineThreads.step,hp] at hstep
        cases hstep
        exact ⟨order,map,h.respond hp⟩
      | _ =>
        simp only [EngineThreads.step,hp] at hstep
        obtain ⟨⟨engine,p'⟩,hnext,rfl⟩ := map_eq_some_iff.mp hstep
        exact h.next hp (hcalm.1 _ hp) hcalm.2 hnext

end

end Explained

private theorem legal_present {e₀ : Engine} {k : Bytes} (hk : (e₀.get k).isSome)
    {order : List (Placed EngineOp EngineResult)} (hnot : ∀ x ∈ order, x.op ≠ .delete k) {map : Engine}
    (h : Legal EngineOp.apply e₀ order map) :
    (map.get k).isSome ∧ ∀ x ∈ order, x.op = .get k → x.result ≠ .value none := by
  induction order generalizing map with
  | nil =>
    cases h
    exact ⟨hk,nofun⟩
  | cons x order ih =>
    obtain ⟨m,hm,happly⟩ := h
    obtain ⟨hsome,hreads⟩ := ih (fun y hy => hnot y (mem_cons_of_mem _ hy)) hm
    have hx := hnot x mem_cons_self
    obtain ⟨id,op,r⟩ := x
    cases op with
    | get k' =>
      cases happly
      refine ⟨hsome,fun y hy hop hr => ?_⟩
      rcases mem_cons.mp hy with rfl | hy
      · cases hop
        simp only [EngineResult.value.injEq] at hr
        rw [hr] at hsome
        cases hsome
      · exact hreads y hy hop hr
    | put k' v =>
      refine ⟨?_,fun y hy hop => ?_⟩
      · simp only [EngineOp.apply] at happly
        split at happly
        · cases happly
          exact hsome
        · cases happly
          rw [Engine.put,OrdMap.get_insert]
          split_ifs
          · rfl
          · exact hsome
      · rcases mem_cons.mp hy with rfl | hy
        · cases hop
        · exact hreads y hy hop
    | delete k' =>
      have hne : k ≠ k' := fun heq => hx (by rw [heq])
      cases happly
      refine ⟨?_,fun y hy hop => ?_⟩
      · rw [Engine.delete,OrdMap.get_erase,if_neg hne]
        exact hsome
      · rcases mem_cons.mp hy with rfl | hy
        · cases hop
        · exact hreads y hy hop

/-- If no call reads, inserts or removes a key while an overwriting put has it out of the tree, and all nodes that are written
fit their pages, the calls are linearizable, no put panics, and a key that is only overwritten is never read as absent. -/
theorem overwriting_linearizable {e : BTreeEngine} {labels : List EngineLabel} {s : EngineThreads}
    (h : run EngineThreads.step (.init e) labels = some s)
    (hcalm : AllSteps EngineThreads.step EngineThreads.Undisturbed (.init e) labels) :
    Linearizable EngineOp.apply e.tree s.history ∧ .panicked ∉ s.calls ∧
      ∀ k, (e.tree.get k).isSome → (∀ id, .invoke id (.delete k) ∉ s.history) →
        ∀ id, .invoke id (.get k) ∈ s.history → .respond id (.value none) ∉ s.history := by
  have hkeep : ∀ s a s', (∃ order map, Explained e.tree s order map) → s.Undisturbed a → s.step a = some s' →
      ∃ order map, Explained e.tree s' order map := fun s a s' ⟨order,map,h⟩ hc hstep => h.step hc hstep
  obtain ⟨order,map,hx⟩ := run_invariant EngineThreads.Undisturbed hkeep ⟨[],e.tree,.init e⟩ hcalm h
  refine ⟨⟨order,map,hx.lin⟩,hx.windows.safe,fun k hk hnot id hinv hresp => ?_⟩
  obtain ⟨op,hmem⟩ := hx.lin.responded hresp
  have hop : op = .get k := hx.unique (hx.lin.invoked _ hmem) hinv
  have hnever : ∀ x ∈ order, x.op ≠ .delete k := by
    intro x hx' heq
    have hmem := hx.lin.invoked x hx'
    rw [heq] at hmem
    exact hnot _ hmem
  exact (legal_present hk hnever hx.lin.legal).2 _ hmem hop rfl

/-- A put overwrites a key between two reads of it. -/
theorem overwriting_linearizable_reads : ∃ s, run EngineThreads.step (.init ⟨OrdMap.empty.insert [7] [1],1,2⟩)
      ([.invoke (.get [7]),.invoke (.put [7] [2]),.advance 0,.advance 0] ++ List.replicate 3 (.advance 1) ++
        [.advance 1 [.leaf [([7],[2])] []]] ++ List.replicate 3 (.advance 1) ++
        [.invoke (.get [7]),.advance 2,.advance 2]) = some s ∧
    Linearizable EngineOp.apply (OrdMap.empty.insert [7] [1]) s.history ∧
    s.history = [.respond 2 (.value (some [2])),.invoke 2 (.get [7]),.respond 1 .done,.respond 0 (.value (some [1])),
      .invoke 1 (.put [7] [2]),.invoke 0 (.get [7])] := by
  exact exists_observed EngineThreads.history _ (by decide +kernel)
    (fun s hs hh => ⟨(overwriting_linearizable hs (by decide +kernel)).1,hh⟩)

/-- Two puts on an empty tree, whose values do not fit one leaf together. -/
private def overfull : List EngineLabel :=
  let value := List.replicate 2100 0
  [.invoke (.put [1] value),.advance 0 [.leaf [([1],value)] []],.advance 0,.advance 0,.advance 0,.invoke (.put [2] value),
    .advance 1 [.leaf [([1],value),([2],value)] []]]

/-- A read between the delete and the second insert of a put finds nothing. Of two overwriting puts one panics, and so does a
put into a leaf that gets too large for its page. -/
theorem overwriting_observed :
    (∃ s, run EngineThreads.step (.init ⟨OrdMap.empty.insert [7] [1],1,2⟩)
        [.invoke (.put [7] [2]),.invoke (.get [7]),.advance 0,.advance 0,.advance 0,.advance 1,.advance 1] = some s ∧
      s.history = [.respond 1 (.value none),.invoke 1 (.get [7]),.invoke 0 (.put [7] [2])] ∧
      ¬ Linearizable EngineOp.apply (OrdMap.empty.insert [7] [1]) s.history) ∧
    (∃ s, run EngineThreads.step (.init ⟨OrdMap.empty.insert [7] [1],1,2⟩)
        [.invoke (.put [7] [2]),.invoke (.put [7] [3]),.advance 0,.advance 0,.advance 1,.advance 1,.advance 0,.advance 1,
          .advance 0 [.leaf [([7],[2])] []],.advance 1] = some s ∧ .panicked ∈ s.calls) ∧
    ∃ s, run EngineThreads.step (.init ⟨OrdMap.empty,0,0⟩) overfull = some s ∧ .panicked ∈ s.calls := by
  refine ⟨?_,?_,?_⟩
  · refine exists_observed EngineThreads.history [.respond 1 (.value none),.invoke 1 (.get [7]),.invoke 0 (.put [7] [2])]
      (by decide +kernel) (fun s _ hh => ⟨hh,?_⟩)
    rintro ⟨order,map,hl⟩
    have hinvoked : ∀ x ∈ order, (x.id = 1 ∧ x.op = .get [7]) ∨ (x.id = 0 ∧ x.op = .put [7] [2]) := by
      intro x hx
      simpa [hh] using hl.invoked x hx
    obtain ⟨op,hmem⟩ := hl.responded (hh ▸ mem_cons_self)
    have hnever : ∀ x ∈ order, x.op ≠ .delete [7] := by
      intro x hx
      rcases hinvoked x hx with ⟨_,hop⟩ | ⟨_,hop⟩ <;> simp [hop]
    have hop : op = .get [7] := by simpa using hinvoked _ hmem
    exact (legal_present (by decide) hnever hl.legal).2 _ hmem hop rfl
  · exact exists_observed EngineThreads.calls [.shrinking 1 1,.panicked] (by decide +kernel) (fun s _ hh => by simp [hh])
  · exact exists_observed EngineThreads.calls [.returned,.panicked] (by decide +kernel) (fun s _ hh => by simp [hh])

end InterchangeDb
