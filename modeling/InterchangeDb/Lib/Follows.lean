import InterchangeDb.Lib.Stream

/-! Streams over a state that stays as it is: such a stream follows a list unless it fails on the way. -/
namespace InterchangeDb
open List InterchangeDb.Action

namespace Action
variable {S E A B : Type}

/-- An action that leaves the state as it is and, when it returns, has a property. -/
def Observes (s : S) (t : Action S E A) (P : A → Prop) : Prop := ∀ a s', t s = some (.ok (a,s')) → s' = s ∧ P a

section Observing
variable {s : S} {t : Action S E A} {P Q : A → Prop}

theorem Observes.imp (h : t.Observes s P) (himp : ∀ a, P a → Q a) : t.Observes s Q :=
  fun a s' ha => ⟨(h a s' ha).1,himp a (h a s' ha).2⟩

theorem Observes.bind {f : A → Action S E B} {R : B → Prop} (h : t.Observes s P) (hf : ∀ a, P a → (f a).Observes s R) :
    (t >>= f).Observes s R := by
  intro b s' hb
  obtain ⟨a,s₁,ha,hnext⟩ := ran_bind.mp hb
  obtain ⟨rfl,hp⟩ := h a s₁ ha
  exact hf a hp b s' hnext

theorem Observes.pure {a : A} (h : P a) : (Pure.pure a : Action S E A).Observes s P := by
  intro b s' hb
  obtain ⟨rfl,rfl⟩ := ran_pure.mp hb
  exact ⟨rfl,h⟩

theorem Observes.throw (e : E) : (throw e : Action S E A).Observes s P := nofun

theorem Observes.crash : (crash : Action S E A).Observes s P := nofun

theorem Observes.ofExcept {r : Except E A} (h : ∀ a, r = .ok a → P a) : (ofExcept r : Action S E A).Observes s P := by
  intro a s' ha
  obtain ⟨hr,rfl⟩ := ran_ofExcept.mp ha
  exact ⟨rfl,h a hr⟩

theorem Observes.ofOption {r : Option A} (h : ∀ a, r = some a → P a) : (ofOption r : Action S E A).Observes s P := by
  intro a s' ha
  obtain ⟨hr,rfl⟩ := ran_ofOption.mp ha
  exact ⟨rfl,h a hr⟩

theorem Observes.check {c : Bool} {R : Unit → Prop} (h : c = true → R ()) : (check c : Action S E Unit).Observes s R := by
  intro u s' hu
  obtain ⟨hc,rfl⟩ := ran_check.mp hu
  exact ⟨rfl,h hc⟩

theorem Observes.query {f : S → Option (Except E A)} (h : ∀ a, f s = some (.ok a) → P a) : (query f).Observes s P := by
  intro a s' ha
  obtain ⟨hf,rfl⟩ := query_eq_some ha
  exact ⟨rfl,h a hf⟩

end Observing

end Action

namespace Stream
variable {S E A B G : Type}

/-- The stream gives the values of a list, unless it fails or crashes on the way. -/
def Follows (s : S) : Stream S E A → List A → Prop
  | .done, l => l = []
  | .fail _, _ => True
  | .crash, _ => True
  | .yield a rest, l => ∃ l', l = a::l' ∧ rest.Follows s l'
  | .read next, l => (next s).Follows s l
  | .write s' rest, l => s' = s ∧ rest.Follows s l

section Following
variable {s : S} {st : Stream S E A} {l : List A}

theorem Follows.ofAction {t : Action S E B} {next : B → Stream S E A} (h : t.Observes s (fun b => (next b).Follows s l)) :
    (ofAction t next).Follows s l := by
  simp only [Stream.ofAction,Follows]
  cases ht : t s with
  | none => trivial
  | some r =>
    cases r with
    | error e => trivial
    | ok r => exact h r.1 r.2 ht

theorem Follows.ofList (l : List A) : (ofList l : Stream S E A).Follows s l := by
  induction l with
  | nil => rfl
  | cons a l ih => exact ⟨l,rfl,ih⟩

theorem Follows.filterMap {f : A → Action S E (Option B)} {g : A → Option B} (h : st.Follows s l)
    (hf : ∀ a ∈ l, (f a).Observes s (· = g a)) : (st.filterMap f).Follows s (l.filterMap g) := by
  induction st generalizing l with
  | done =>
    cases h
    rfl
  | fail | crash => trivial
  | yield a rest ih =>
    obtain ⟨l₁,rfl,h⟩ := h
    have hrest := ih h (fun b hb => hf b (mem_cons_of_mem _ hb))
    refine ofAction ((hf a mem_cons_self).imp (fun r hr => ?_))
    cases r with
    | none => rwa [filterMap_cons_none hr.symm]
    | some b =>
      rw [filterMap_cons_some hr.symm]
      exact ⟨_,rfl,hrest⟩
  | read next ih => exact ih s h hf
  | write s' rest ih => exact ⟨h.1,ih h.2 hf⟩

theorem Follows.fold {step : G → A → Action S E G} {I : List A → G → Prop} (h : st.Follows s l)
    (hstep : ∀ seen g a, I seen g → (step g a).Observes s (I (seen ++ [a]))) {seen : List A} {g : G} (hg : I seen g) :
    (st.fold step g).Observes s (I (seen ++ l)) := by
  induction st generalizing l seen g with
  | done =>
    cases h
    rw [append_nil]
    exact .pure hg
  | fail e => exact .throw e
  | crash => exact .crash
  | yield a rest ih =>
    obtain ⟨l₁,rfl,h⟩ := h
    refine (hstep seen g a hg).bind (fun g' hg' => ?_)
    have hrest := ih h hg'
    rwa [append_assoc] at hrest
  | read next ih => exact ih s h hg
  | write s' rest ih =>
    obtain ⟨rfl,h⟩ := h
    exact ih h hg

theorem collect_ofAction (t : Action S E B) (next : B → Stream S E A) :
    (Stream.ofAction t next).collect = t >>= fun b => (next b).collect := by
  funext s
  rw [bind_run]
  simp only [Stream.ofAction,Stream.collect]
  cases t s with
  | none => rfl
  | some r =>
    cases r with
    | error | ok => rfl

theorem collect_gather (step : G → A → Action S E G) (emit : G → Stream S E B) (st : Stream S E A) (g : G) :
    (st.gather step emit g).collect = st.fold step g >>= fun g' => (emit g').collect := by
  induction st generalizing g with
  | done | fail | crash => rfl
  | yield a rest ih =>
    rw [gather,collect_ofAction,fold,bind_assoc]
    exact congrArg (step g a >>= ·) (funext ih)
  | read next ih =>
    funext s
    exact congrFun (ih s g) s
  | write s' rest ih =>
    funext s
    exact congrFun (ih g) s'

end Following

section Lists

theorem append_ofList (l l' : List A) : (ofList l).append (ofList l' : Stream S E A) = ofList (l ++ l') := by
  induction l with
  | nil => rfl
  | cons a l ih => exact congrArg (yield a) ih

theorem flatMap_ofList {f : A → Stream S E B} {g : A → List B} {l : List A} (h : ∀ a ∈ l, f a = ofList (g a)) :
    (ofList l).flatMap f = ofList (l.flatMap g) := by
  induction l with
  | nil => rfl
  | cons a l ih =>
    rw [flatMap_cons,← append_ofList,← h a mem_cons_self,← ih (fun b hb => h b (mem_cons_of_mem _ hb))]
    rfl

theorem collect_ofList (l : List A) (s : S) : (ofList l : Stream S E A).collect s = some (.ok (l,s)) := by
  induction l with
  | nil => rfl
  | cons a l ih =>
    change ((a :: ·) <$> (ofList l : Stream S E A).collect) s = _
    rw [map_eq_pure_bind,bind_of_some ih]
    rfl

theorem fold_ofList {step : G → A → Action S E G} {next : G → A → G} {l : List A} {s : S}
    (h : ∀ a ∈ l, ∀ g, step g a s = some (.ok (next g a,s))) (g : G) :
    (ofList l).fold step g s = some (.ok (l.foldl next g,s)) := by
  induction l generalizing g with
  | nil => rfl
  | cons a l ih =>
    change (step g a >>= fun g => (ofList l).fold step g) s = _
    rw [bind_of_some (h a mem_cons_self g),ih (fun b hb => h b (mem_cons_of_mem _ hb)),foldl_cons]

theorem collect_filterMap_ofList {f : A → Action S E (Option B)} {g : A → Option B} {l : List A} {s : S}
    (h : ∀ a ∈ l, f a s = some (.ok (g a,s))) : ((ofList l).filterMap f).collect s = some (.ok (l.filterMap g,s)) := by
  induction l with
  | nil => rfl
  | cons a l ih =>
    have hrest := ih (fun b hb => h b (mem_cons_of_mem _ hb))
    rw [ofList,filterMap,collect_ofAction,bind_of_some (h a mem_cons_self)]
    cases hg : g a with
    | none => rw [filterMap_cons_none hg,← hrest]
    | some b =>
      rw [filterMap_cons_some hg]
      change ((b :: ·) <$> ((ofList l).filterMap f).collect) s = _
      rw [map_eq_pure_bind,bind_of_some hrest]
      rfl

end Lists

end Stream
end InterchangeDb
