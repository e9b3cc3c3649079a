import Mathlib

/-! Runs of a partial step function, conditions on every step of a run, and the
invariant rule. -/
namespace InterchangeDb

variable {S A : Type*} (step : S → A → Option S)

def run : S → List A → Option S
  | s, [] => some s
  | s, a::as =>
    match step s a with
    | none => none
    | some s' => run s' as

/-- A condition on the state before each step and on its label, along a run. -/
def AllSteps (cond : S → A → Prop) : S → List A → Prop
  | _, [] => True
  | s, a::as => cond s a ∧ ∀ s', step s a = some s' → AllSteps cond s' as

def decidableAllSteps (cond : S → A → Prop) [∀ s a, Decidable (cond s a)] :
    (s : S) → (as : List A) → Decidable (AllSteps step cond s as)
  | _, [] => .isTrue trivial
  | s, a::as =>
    match hs : step s a with
    | none => decidable_of_iff (cond s a) (by simp [AllSteps,hs])
    | some m =>
      have := decidableAllSteps cond m as
      decidable_of_iff (cond s a ∧ AllSteps step cond m as) (by simp [AllSteps,hs])

instance (cond : S → A → Prop) [∀ s a, Decidable (cond s a)] (s : S) (as : List A) :
    Decidable (AllSteps step cond s as) := decidableAllSteps step cond s as

variable {step}

theorem exists_observed {T : Type*} {o : Option S} {P : S → Prop} (f : S → T) (v : T) (h : o.map f = some v)
    (hP : ∀ s, o = some s → f s = v → P s) : ∃ s, o = some s ∧ P s := by
  obtain ⟨s,hs,hv⟩ := Option.map_eq_some_iff.mp h
  exact ⟨s,hs,hP s hs hv⟩

theorem eq_some_get {T : Type*} {o : Option (S × T)} {h : o.isSome} {v : T} (hv : (o.get h).2 = v) : o = some ((o.get h).1,v) := by
  subst hv
  exact (Option.some_get h).symm

theorem run_cons_eq_some {s s' : S} {a : A} {as : List A} (h : run step s (a::as) = some s') :
    ∃ m, step s a = some m ∧ run step m as = some s' := by
  rw [run] at h
  cases hm : step s a with
  | none => simp [hm] at h
  | some m => exact ⟨m,rfl,by simpa [hm] using h⟩

theorem run_cons {s m : S} {a : A} (h : step s a = some m) (as : List A) : run step s (a::as) = run step m as := by
  rw [run,h]

theorem run_append {s m : S} {as : List A} (h : run step s as = some m) (bs : List A) :
    run step s (as ++ bs) = run step m bs := by
  induction as generalizing s with
  | nil =>
    cases h
    rfl
  | cons a as ih =>
    obtain ⟨x,hx,hrest⟩ := run_cons_eq_some h
    rw [List.cons_append,run_cons hx]
    exact ih hrest

/-- A run over two lists of labels stops in between. -/
theorem run_append_eq_some {s s' : S} {as bs : List A} (h : run step s (as ++ bs) = some s') :
    ∃ m, run step s as = some m ∧ run step m bs = some s' := by
  induction as generalizing s with
  | nil => exact ⟨s,rfl,h⟩
  | cons a as ih =>
    obtain ⟨m,hm,hrest⟩ := run_cons_eq_some h
    obtain ⟨x,hx,hbs⟩ := ih hrest
    exact ⟨x,by rw [run,hm]; exact hx,hbs⟩

theorem AllSteps.append_right {cond : S → A → Prop} {s m : S} {as bs : List A} (h : AllSteps step cond s (as ++ bs))
    (hm : run step s as = some m) : AllSteps step cond m bs := by
  induction as generalizing s with
  | nil =>
    cases hm
    exact h
  | cons a as ih =>
    obtain ⟨x,hx,hrest⟩ := run_cons_eq_some hm
    exact ih (h.2 x hx) hrest

/-- What a state stands for at the start, and still does after every step meeting the condition, it stands for at the end
of a run whose steps all meet it. -/
theorem run_follows {E : Type*} {R : S → E → Prop} {f : E → A → E} {cond : S → A → Prop} {s s' : S} {e : E} {as : List A}
    (h : run step s as = some s') (hc : AllSteps step cond s as) (hs : R s e)
    (hstep : ∀ s e a s', R s e → cond s a → step s a = some s' → R s' (f e a)) : R s' (as.foldl f e) := by
  induction as generalizing s e with
  | nil =>
    cases h
    exact hs
  | cons a as ih =>
    obtain ⟨m,hm,hrun⟩ := run_cons_eq_some h
    exact ih hrun (hc.2 m hm) (hstep s e a m hs hc.1 hm)

/-- The rule for an invariant. -/
theorem run_invariant {Inv : S → Prop} (cond : S → A → Prop)
    (hstep : ∀ s a s', Inv s → cond s a → step s a = some s' → Inv s')
    {s s' : S} {as : List A} (hs : Inv s) (hc : AllSteps step cond s as) (h : run step s as = some s') : Inv s' :=
  run_follows (R := fun s _ => Inv s) (f := fun e _ => e) (e := ()) h hc hs (fun s _ => hstep s)

theorem allSteps_of_forall {cond : S → A → Prop} {as : List A} (h : ∀ a ∈ as, ∀ s, cond s a) (s : S) :
    AllSteps step cond s as := by
  induction as generalizing s with
  | nil => trivial
  | cons a as ih =>
    exact ⟨h a List.mem_cons_self s,fun s' _ => ih (fun x hx => h x (List.mem_cons_of_mem _ hx)) s'⟩

/-- The rule for an invariant that every label of the run keeps. -/
theorem run_keeps {P : S → Prop} {s s' : S} {as : List A} (hstep : ∀ a ∈ as, ∀ s s', P s → step s a = some s' → P s')
    (hs : P s) (h : run step s as = some s') : P s' :=
  run_invariant (fun _ a => a ∈ as) (fun s a s' hi ha => hstep a ha s s' hi) hs (allSteps_of_forall (fun _ ha _ => ha) s) h

theorem allSteps_invariant {Inv : S → Prop} (hstep : ∀ s a s', Inv s → step s a = some s' → Inv s') {s : S} (hs : Inv s)
    {as : List A} : AllSteps step (fun s _ => Inv s) s as := by
  induction as generalizing s with
  | nil => trivial
  | cons a as ih => exact ⟨hs,fun s' h => ih (hstep s a s' hs h)⟩

theorem AllSteps.imp {c d : S → A → Prop} (h : ∀ s a, c s a → d s a) {s : S} {as : List A} (hc : AllSteps step c s as) :
    AllSteps step d s as := by
  induction as generalizing s with
  | nil => trivial
  | cons a as ih => exact ⟨h s a hc.1,fun s' hs => ih (hc.2 s' hs)⟩

theorem AllSteps.and {c d : S → A → Prop} {s : S} {as : List A} (hc : AllSteps step c s as)
    (hd : AllSteps step d s as) : AllSteps step (fun s a => c s a ∧ d s a) s as := by
  induction as generalizing s with
  | nil => trivial
  | cons a as ih => exact ⟨⟨hc.1,hd.1⟩,fun s' hs => ih (hc.2 s' hs) (hd.2 s' hs)⟩

/-- Two runs over the same labels stay related, and fail together. -/
theorem run_rel {T : Type*} {step' : T → A → Option T} {R : S → T → Prop} {as : List A}
    (hstep : ∀ a ∈ as, ∀ s t, R s t → Option.Rel R (step s a) (step' t a)) {s : S} {t : T} (h : R s t) :
    Option.Rel R (run step s as) (run step' t as) := by
  induction as generalizing s t with
  | nil => exact .some h
  | cons a as ih =>
    have ha := hstep a List.mem_cons_self s t h
    simp only [run]
    generalize step s a = x at ha
    generalize step' t a = y at ha
    cases ha with
    | none => exact .none
    | some hr => exact ih (fun a' hmem => hstep a' (List.mem_cons_of_mem _ hmem)) hr

end InterchangeDb
