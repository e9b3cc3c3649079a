import Mathlib

/-! Sequences produced on demand over a state; each request may read and write it, fail or crash. -/
namespace InterchangeDb
open List

/-- A computation over a state; none for a crash. -/
def Action (S E A : Type) := S → Option (Except E (A × S))

namespace Action
variable {S E A B C : Type}

protected def pure (a : A) : Action S E A := fun s => some (.ok (a,s))

protected def bind (t : Action S E A) (f : A → Action S E B) : Action S E B := fun s =>
  match t s with
  | none => none
  | some (.error e) => some (.error e)
  | some (.ok (a,s')) => f a s'

instance : Monad (Action S E) where
  pure := Action.pure
  bind := Action.bind

def throw (e : E) : Action S E A := fun _ => some (.error e)

def crash : Action S E A := fun _ => none

def ofExcept : Except E A → Action S E A
  | .ok a => Action.pure a
  | .error e => throw e

/-- A value that may be missing by a crash. -/
def ofOption : Option A → Action S E A
  | some a => Action.pure a
  | none => crash

/-- Crash unless a condition holds. -/
def check (c : Bool) : Action S E Unit := if c then Action.pure () else crash

/-- A result computed from the state alone. -/
def query (f : S → Option (Except E A)) : Action S E A := fun s => (f s).map (fun r => r.map (fun a => (a,s)))

/-- What a computation gives that has no state to look at. -/
def outcome (t : Action Unit E A) : Option (Except E A) := (t ()).map (fun r => r.map Prod.fst)

/-- A computation without a state among others. -/
def lift (t : Action Unit E A) : Action S E A := query (fun _ => t.outcome)

theorem bind_run (t : Action S E A) (f : A → Action S E B) (s : S) :
    (t >>= f) s = match t s with
      | none => none
      | some (.error e) => some (.error e)
      | some (.ok (a,s')) => f a s' :=
  rfl

theorem ran_bind {t : Action S E A} {f : A → Action S E B} {s s' : S} {b : B} :
    (t >>= f) s = some (.ok (b,s')) ↔ ∃ a s₁, t s = some (.ok (a,s₁)) ∧ f a s₁ = some (.ok (b,s')) := by
  rw [bind_run]
  rcases t s with _ | (_ | ⟨a,s₁⟩) <;> simp

theorem bind_congr {t t' : Action S E A} {f f' : A → Action S E B} {s : S} (ht : t s = t' s)
    (hf : ∀ a s', t s = some (.ok (a,s')) → f a s' = f' a s') : (t >>= f) s = (t' >>= f') s := by
  rw [bind_run,bind_run,← ht]
  split
  · rfl
  · rfl
  · exact hf _ _ ‹_›

theorem bind_of_some {t : Action S E A} {s s₁ : S} {a : A} (h : t s = some (.ok (a,s₁))) (f : A → Action S E B) :
    (t >>= f) s = f a s₁ := by
  rw [bind_run,h]

protected theorem bind_assoc (t : Action S E A) (f : A → Action S E B) (g : B → Action S E C) :
    (t.bind f).bind g = t.bind (fun a => (f a).bind g) := by
  funext s
  unfold Action.bind
  cases t s with
  | none => rfl
  | some r =>
    cases r with
    | error | ok => rfl

protected theorem bind_pure (t : Action S E A) : t.bind Action.pure = t := by
  funext s
  unfold Action.bind
  cases t s with
  | none => rfl
  | some r =>
    cases r with
    | error | ok => rfl

instance : LawfulMonad (Action S E) :=
  LawfulMonad.mk' (Action S E) Action.bind_pure (fun _ _ => rfl) Action.bind_assoc

theorem ran_pure {a b : A} {s s' : S} : (pure a : Action S E A) s = some (.ok (b,s')) ↔ a = b ∧ s = s' := by
  change some (Except.ok (a,s)) = _ ↔ _
  simp

theorem map_eq_some {t : Action S E A} {f : A → B} {s s' : S} {b : B} (h : (f <$> t) s = some (.ok (b,s'))) :
    ∃ a, t s = some (.ok (a,s')) ∧ f a = b := by
  rw [map_eq_pure_bind] at h
  obtain ⟨a,s₁,ht,hpure⟩ := ran_bind.mp h
  obtain ⟨hb,rfl⟩ := ran_pure.mp hpure
  exact ⟨a,ht,hb⟩

theorem ran_ofExcept {r : Except E A} {a : A} {s s' : S} :
    (ofExcept r : Action S E A) s = some (.ok (a,s')) ↔ r = .ok a ∧ s = s' := by
  cases r <;> simp [ofExcept,throw,Action.pure]

theorem ran_ofOption {r : Option A} {a : A} {s s' : S} :
    (ofOption r : Action S E A) s = some (.ok (a,s')) ↔ r = some a ∧ s = s' := by
  cases r <;> simp [ofOption,crash,Action.pure]

theorem ran_check {c : Bool} {u : Unit} {s s' : S} : (check c : Action S E Unit) s = some (.ok (u,s')) ↔ c = true ∧ s = s' := by
  cases c <;> simp [check,crash,Action.pure]

theorem outcome_eq_some {t : Action Unit E A} {a : A} (h : t.outcome = some (.ok a)) : t () = some (.ok (a,())) := by
  unfold outcome at h
  obtain ⟨r,hr,h⟩ := Option.map_eq_some_iff.mp h
  cases r with
  | error e => cases h
  | ok r =>
    cases h
    exact hr

theorem outcome_of_eq_some {t : Action Unit E A} {a : A} {u : Unit} (h : t () = some (.ok (a,u))) :
    t.outcome = some (.ok a) := by
  unfold outcome
  rw [h]
  rfl

theorem query_eq_some {f : S → Option (Except E A)} {a : A} {s s' : S} (h : query f s = some (.ok (a,s'))) :
    f s = some (.ok a) ∧ s = s' := by
  unfold query at h
  rcases hf : f s with _ | (_ | b) <;> rw [hf] at h <;> cases h
  exact ⟨rfl,rfl⟩

theorem ran_lift {t : Action Unit E A} {a : A} {s s' : S} :
    (lift t : Action S E A) s = some (.ok (a,s')) ↔ t () = some (.ok (a,())) ∧ s = s' := by
  unfold lift query outcome
  rcases t () with _ | (_ | ⟨b,u⟩) <;> simp [Except.map]

theorem mapM_forall₂ {f : A → Action S E B} {l : List A} {s s' : S} {r : List B} (h : l.mapM f s = some (.ok (r,s'))) :
    List.Forall₂ (fun a b => ∃ s s', f a s = some (.ok (b,s'))) l r := by
  induction l generalizing s r with
  | nil =>
    rw [mapM_nil] at h
    obtain ⟨rfl,-⟩ := ran_pure.mp h
    exact .nil
  | cons a l ih =>
    rw [mapM_cons] at h
    obtain ⟨b,s₁,hb,h⟩ := ran_bind.mp h
    obtain ⟨r',s₂,hr,h⟩ := ran_bind.mp h
    obtain ⟨rfl,rfl⟩ := ran_pure.mp h
    exact .cons ⟨s,s₁,hb⟩ (ih hr)

theorem mapM_mem {f : A → Action S E B} {l : List A} {s s' : S} {r : List B} (h : l.mapM f s = some (.ok (r,s'))) {b : B}
    (hb : b ∈ r) : ∃ a ∈ l, ∃ s s', f a s = some (.ok (b,s')) := by
  have hall := mapM_forall₂ h
  clear h
  induction hall with
  | nil => cases hb
  | @cons a _ l _ ha _ ih =>
    rcases mem_cons.mp hb with rfl | hb
    · exact ⟨a,mem_cons_self,ha⟩
    · obtain ⟨a',ha',hf⟩ := ih hb
      exact ⟨a',mem_cons_of_mem _ ha',hf⟩

end Action

inductive Stream (S E A : Type) where
  | done
  | fail (e : E)
  | crash
  | yield (a : A) (rest : Stream S E A)
  | read (next : S → Stream S E A)
  | write (s : S) (rest : Stream S E A)

namespace Stream
variable {S E A B C G : Type}

section Operations

/-- Run an action on the next request, then go on with its result. -/
def ofAction (t : Action S E B) (next : B → Stream S E A) : Stream S E A :=
  .read (fun s =>
    match t s with
    | none => .crash
    | some (.error e) => .fail e
    | some (.ok (b,s')) => .write s' (next b))

def ofList : List A → Stream S E A
  | [] => .done
  | a::as => .yield a (ofList as)

/-- Values up to the first error. -/
def ofExcepts : List (Except E A) → Stream S E A
  | [] => .done
  | .ok a::as => .yield a (ofExcepts as)
  | .error e::_ => .fail e

/-- Values as they turn out, up to the first error or crash. -/
def ofOutcomes : List (Option (Except E A)) → Stream S E A
  | [] => .done
  | some (.ok a)::as => .yield a (ofOutcomes as)
  | some (.error e)::_ => .fail e
  | none::_ => .crash

/-- All values, or none if there is an error or a crash. -/
def ofOutcome : Option (Except E (List A)) → Stream S E A
  | some (.ok l) => ofList l
  | some (.error e) => .fail e
  | none => .crash

def append : Stream S E A → Stream S E A → Stream S E A
  | .done, st => st
  | .fail e, _ => .fail e
  | .crash, _ => .crash
  | .yield a rest, st => .yield a (rest.append st)
  | .read next, st => .read (fun s => (next s).append st)
  | .write s rest, st => .write s (rest.append st)

def flatMap (f : A → Stream S E B) : Stream S E A → Stream S E B
  | .done => .done
  | .fail e => .fail e
  | .crash => .crash
  | .yield a rest => (f a).append (rest.flatMap f)
  | .read next => .read (fun s => (next s).flatMap f)
  | .write s rest => .write s (rest.flatMap f)

def filterMap (f : A → Action S E (Option B)) : Stream S E A → Stream S E B
  | .done => .done
  | .fail e => .fail e
  | .crash => .crash
  | .yield a rest => ofAction (f a) (fun
      | none => rest.filterMap f
      | some b => .yield b (rest.filterMap f))
  | .read next => .read (fun s => (next s).filterMap f)
  | .write s rest => .write s (rest.filterMap f)

/-- The first values; once they are given, nothing more is requested. -/
def take : Nat → Stream S E A → Stream S E A
  | 0, _ => .done
  | _+1, .done => .done
  | _+1, .fail e => .fail e
  | _+1, .crash => .crash
  | n+1, .yield a rest => .yield a (rest.take n)
  | n+1, .read next => .read (fun s => (next s).take (n+1))
  | n+1, .write s rest => .write s (rest.take (n+1))

/-- Take in everything on the first request, one value after the other, then go on with what was gathered. -/
def gather (step : G → A → Action S E G) (emit : G → Stream S E B) : Stream S E A → G → Stream S E B
  | .done, g => emit g
  | .fail e, _ => .fail e
  | .crash, _ => .crash
  | .yield a rest, g => ofAction (step g a) (fun g => gather step emit rest g)
  | .read next, g => .read (fun s => gather step emit (next s) g)
  | .write s rest, g => .write s (gather step emit rest g)

@[simp] theorem take_zero (st : Stream S E A) : st.take 0 = .done := by
  cases st <;> rfl

/-- Request everything, one value after the other, and fold it up. -/
def fold (step : G → A → Action S E G) : Stream S E A → G → Action S E G
  | .done, g => pure g
  | .fail e, _ => .throw e
  | .crash, _ => .crash
  | .yield a rest, g => do
    let g ← step g a
    fold step rest g
  | .read next, g => fun s => fold step (next s) g s
  | .write s rest, g => fun _ => fold step rest g s

def collect : Stream S E A → Action S E (List A)
  | .done => pure []
  | .fail e => .throw e
  | .crash => .crash
  | .yield a rest => (a :: ·) <$> rest.collect
  | .read next => fun s => (next s).collect s
  | .write s rest => fun _ => rest.collect s

end Operations

section Everywhere

/-- All values that can come have a property. -/
def All (P : A → Prop) : Stream S E A → Prop
  | .done => True
  | .fail _ => True
  | .crash => True
  | .yield a rest => P a ∧ rest.All P
  | .read next => ∀ s, (next s).All P
  | .write _ rest => rest.All P

variable {P : A → Prop} {Q : B → Prop}

theorem All.ofAction {t : Action S E B} {next : B → Stream S E A} (hnext : ∀ s b s', t s = some (.ok (b,s')) → (next b).All P) :
    (ofAction t next).All P := by
  intro s
  dsimp only
  cases ht : t s with
  | none => trivial
  | some r =>
    cases r with
    | error e => trivial
    | ok r => exact hnext s r.1 r.2 ht

theorem All.ofList {l : List A} (h : ∀ a ∈ l, P a) : (ofList l : Stream S E A).All P := by
  induction l with
  | nil => trivial
  | cons a l ih => exact ⟨h a mem_cons_self,ih (fun b hb => h b (mem_cons_of_mem _ hb))⟩

theorem All.ofOutcome {r : Option (Except E (List A))} (h : ∀ l, r = some (.ok l) → ∀ a ∈ l, P a) :
    (ofOutcome r : Stream S E A).All P := by
  cases r with
  | none => trivial
  | some r =>
    cases r with
    | error e => trivial
    | ok l => exact ofList (h l rfl)

theorem All.append {st st' : Stream S E A} (h : st.All P) (h' : st'.All P) : (st.append st').All P := by
  induction st with
  | done => exact h'
  | fail | crash => trivial
  | yield a rest ih => exact ⟨h.1,ih h.2⟩
  | read next ih => exact fun s => ih s (h s)
  | write s rest ih => exact ih h

theorem All.flatMap {f : A → Stream S E B} {st : Stream S E A} (h : st.All P) (hf : ∀ a, P a → (f a).All Q) :
    (st.flatMap f).All Q := by
  induction st with
  | done | fail | crash => trivial
  | yield a rest ih => exact (hf a h.1).append (ih h.2)
  | read next ih => exact fun s => ih s (h s)
  | write s rest ih => exact ih h

theorem All.filterMap {f : A → Action S E (Option B)} {st : Stream S E A} (h : st.All P)
    (hf : ∀ a s b s', P a → f a s = some (.ok (some b,s')) → Q b) : (st.filterMap f).All Q := by
  induction st with
  | done | fail | crash => trivial
  | yield a rest ih =>
    refine ofAction (fun s r s' hr => ?_)
    cases r with
    | none => exact ih h.2
    | some b => exact ⟨hf a s b s' h.1 hr,ih h.2⟩
  | read next ih => exact fun s => ih s (h s)
  | write s rest ih => exact ih h

theorem All.take {st : Stream S E A} (h : st.All P) (n : Nat) : (st.take n).All P := by
  induction st generalizing n with
  | done | fail | crash => cases n <;> trivial
  | yield a rest ih =>
    cases n with
    | zero => trivial
    | succ n => exact ⟨h.1,ih h.2 n⟩
  | read next ih =>
    cases n with
    | zero => trivial
    | succ n => exact fun s => ih s (h s) (n+1)
  | write s rest ih =>
    cases n with
    | zero => trivial
    | succ n => exact ih h (n+1)

section Gathering

variable {step : G → A → Action S E G} {I : G → Prop} {st : Stream S E A} (h : st.All P)
  (hstep : ∀ g a s g' s', I g → P a → step g a s = some (.ok (g',s')) → I g')
include h hstep

theorem All.gather_congr {emit emit' : G → Stream S E B} (hemit : ∀ g, I g → emit g = emit' g) {g : G} (hg : I g) :
    st.gather step emit g = st.gather step emit' g := by
  induction st generalizing g with
  | done => exact hemit g hg
  | fail | crash => rfl
  | yield a rest ih =>
    rw [Stream.gather,Stream.gather,Stream.ofAction,Stream.ofAction]
    congr 1
    funext s
    cases ht : step g a s with
    | none => rfl
    | some r =>
      cases r with
      | error e => rfl
      | ok r => exact congrArg _ (ih h.2 (hstep g a s r.1 r.2 hg h.1 ht))
  | read next ih => exact congrArg _ (funext (fun s => ih s (h s) hg))
  | write s rest ih => exact congrArg _ (ih h hg)

theorem All.gather {emit : G → Stream S E B} (hemit : ∀ g, I g → (emit g).All Q) {g : G} (hg : I g) : (st.gather step emit g).All Q := by
  induction st generalizing g with
  | done => exact hemit g hg
  | fail | crash => trivial
  | yield a rest ih => exact ofAction (fun s g' s' hr => ih h.2 (hstep g a s g' s' hg h.1 hr))
  | read next ih => exact fun s => ih s (h s) hg
  | write s rest ih => exact ih h hg

theorem All.fold {g g' : G} {s s' : S} (hg : I g) (hr : st.fold step g s = some (.ok (g',s'))) : I g' := by
  induction st generalizing g s with
  | done =>
    obtain ⟨rfl,-⟩ := Action.ran_pure.mp hr
    exact hg
  | fail | crash => cases hr
  | yield a rest ih =>
    obtain ⟨g₁,s₁,hg₁,hr⟩ := Action.ran_bind.mp hr
    exact ih h.2 (hstep g a s g₁ s₁ hg h.1 hg₁) hr
  | read next ih => exact ih s (h s) hg hr
  | write s₁ rest ih => exact ih h hg hr

end Gathering

theorem All.collect {st : Stream S E A} (h : st.All P) {s s' : S} {l : List A} (hl : st.collect s = some (.ok (l,s'))) :
    ∀ a ∈ l, P a := by
  induction st generalizing s l with
  | done =>
    obtain ⟨rfl,-⟩ := Action.ran_pure.mp hl
    intro a ha
    cases ha
  | fail | crash => cases hl
  | yield a rest ih =>
    obtain ⟨l',hl',rfl⟩ := Action.map_eq_some hl
    exact forall_mem_cons.mpr ⟨h.1,ih h.2 hl'⟩
  | read next ih => exact ih s (h s) hl
  | write s₁ rest ih => exact ih h hl

end Everywhere

section Order

/-- The other stream gives the same values and goes on where this one fails or crashes. -/
inductive Le : Stream S E A → Stream S E A → Prop where
  | done : Le .done .done
  | fail (e : E) (st : Stream S E A) : Le (.fail e) st
  | crash (st : Stream S E A) : Le .crash st
  | yield (a : A) {st st' : Stream S E A} : Le st st' → Le (.yield a st) (.yield a st')
  | read {f g : S → Stream S E A} : (∀ s, Le (f s) (g s)) → Le (.read f) (.read g)
  | write (s : S) {st st' : Stream S E A} : Le st st' → Le (.write s st) (.write s st')

theorem Le.refl (st : Stream S E A) : Le st st := by
  induction st with
  | done => exact .done
  | fail e => exact .fail e _
  | crash => exact .crash _
  | yield a rest ih => exact .yield a ih
  | read next ih => exact .read ih
  | write s rest ih => exact .write s ih

theorem Le.ofAction {t : Action S E B} {f g : B → Stream S E A} (h : ∀ b, Le (f b) (g b)) : Le (ofAction t f) (ofAction t g) := by
  refine .read (fun s => ?_)
  cases t s with
  | none => exact .crash _
  | some r =>
    cases r with
    | error e => exact .fail e _
    | ok r => exact .write _ (h r.1)

theorem Le.ofOutcome {f : B → Action Unit E A} (l : List B) :
    Le (ofOutcome (Action.outcome (l.mapM f)) : Stream S E A) (ofOutcomes (l.map (fun b => (f b).outcome))) := by
  cases hl : Action.outcome (l.mapM f) with
  | none => exact .crash _
  | some r =>
    cases r with
    | error e => exact .fail e _
    | ok r =>
      have heq : (ofOutcomes (l.map (fun b => (f b).outcome)) : Stream S E A) = ofList r := by
        have hr := Action.outcome_eq_some hl
        clear hl
        induction l generalizing r with
        | nil =>
          obtain ⟨rfl,-⟩ := Action.ran_pure.mp hr
          rfl
        | cons b l ih =>
          rw [mapM_cons] at hr
          obtain ⟨a,u,ha,hr⟩ := Action.ran_bind.mp hr
          obtain ⟨as,u',has,hr⟩ := Action.ran_bind.mp hr
          obtain ⟨rfl,-⟩ := Action.ran_pure.mp hr
          rw [map_cons,Action.outcome_of_eq_some ha,ofOutcomes,ih as has]
          rfl
      rw [heq]
      exact refl _

theorem Le.filterMap {f : A → Action S E (Option B)} {st st' : Stream S E A} (h : Le st st') :
    Le (st.filterMap f) (st'.filterMap f) := by
  induction h with
  | done => exact .done
  | fail e st => exact .fail e _
  | crash st => exact .crash _
  | yield a _ ih =>
    refine ofAction (fun r => ?_)
    cases r with
    | none => exact ih
    | some b => exact .yield b ih
  | read _ ih => exact .read ih
  | write s _ ih => exact .write s ih

theorem Le.take {st st' : Stream S E A} (h : Le st st') (n : Nat) : Le (st.take n) (st'.take n) := by
  induction h generalizing n with
  | done => exact refl _
  | fail e st =>
    cases n with
    | zero =>
      rw [take_zero,take_zero]
      exact .done
    | succ n => exact .fail e _
  | crash st =>
    cases n with
    | zero =>
      rw [take_zero,take_zero]
      exact .done
    | succ n => exact .crash _
  | yield a _ ih =>
    cases n with
    | zero => exact .done
    | succ n => exact .yield a (ih n)
  | read _ ih =>
    cases n with
    | zero => exact .done
    | succ n => exact .read (fun s => ih s (n+1))
  | write s _ ih =>
    cases n with
    | zero => exact .done
    | succ n => exact .write s (ih (n+1))

theorem Le.gather {step : G → A → Action S E G} {emit emit' : G → Stream S E B} (hemit : ∀ g, Le (emit g) (emit' g))
    {st st' : Stream S E A} (h : Le st st') (g : G) : Le (st.gather step emit g) (st'.gather step emit' g) := by
  induction h generalizing g with
  | done => exact hemit g
  | fail e st => exact .fail e _
  | crash st => exact .crash _
  | yield a _ ih => exact ofAction ih
  | read _ ih => exact .read (fun s => ih s g)
  | write s _ ih => exact .write s (ih g)

theorem Le.collect {st st' : Stream S E A} (h : Le st st') {s s' : S} {l : List A}
    (hl : st.collect s = some (.ok (l,s'))) : st'.collect s = some (.ok (l,s')) := by
  induction h generalizing s l with
  | done => exact hl
  | fail | crash => cases hl
  | yield a _ ih =>
    obtain ⟨l',hl',rfl⟩ := Action.map_eq_some hl
    change ((a :: ·) <$> _ : Action S E (List A)) s = _
    rw [map_eq_pure_bind,Action.bind_of_some (ih hl')]
    rfl
  | read _ ih => exact ih s hl
  | write s₁ _ ih => exact ih hl

end Order

section Feed

inductive Flow where
  | continue
  | stop
  deriving DecidableEq, Repr

variable {K K' : Type}

/-- Hand each value on as it comes, until there are no more or the receiver has had enough; then tell it. -/
def feed (push : K → A → Action S E (Flow × K)) (finish : K → Action S E K) : Stream S E A → K → Action S E K
  | .done, k => finish k
  | .fail e, _ => .throw e
  | .crash, _ => .crash
  | .yield a rest, k => do
    match ← push k a with
    | (.continue,k) => feed push finish rest k
    | (.stop,k) => finish k
  | .read next, k => fun s => feed push finish (next s) k s
  | .write s rest, k => fun _ => feed push finish rest k s

variable {push : K → A → Action S E (Flow × K)} {finish : K → Action S E K} {push' : K' → B → Action S E (Flow × K')}
  {finish' : K' → Action S E K'}

theorem feed_ofAction (t : Action S E C) (next : C → Stream S E A) (k : K) :
    feed push finish (ofAction t next) k = t >>= fun c => feed push finish (next c) k := by
  funext s
  rw [Action.bind_run]
  change feed push finish (match t s with | none => _ | some (.error e) => _ | some (.ok (b,s')) => _) k s = _
  cases t s with
  | none => rfl
  | some r =>
    cases r with
    | error | ok => rfl

/-- A receiver that changes and drops values is a change of the stream. -/
theorem feed_filterMap {f : A → Action S E (Option B)} {wrap : K' → K} (hpush : ∀ k a, push (wrap k) a = (do
      match ← f a with
      | none => return (.continue,wrap k)
      | some b => (fun r => (r.1,wrap r.2)) <$> push' k b))
    (hfinish : ∀ k, finish (wrap k) = wrap <$> finish' k) (st : Stream S E A) (k : K') :
    feed push finish st (wrap k) = wrap <$> feed push' finish' (st.filterMap f) k := by
  induction st generalizing k with
  | done => exact hfinish k
  | fail | crash => rfl
  | yield a rest ih =>
    rw [filterMap,feed_ofAction,feed,hpush]
    simp only [bind_assoc,map_bind]
    congr 1
    funext r
    cases r with
    | none => simp only [pure_bind,ih]
    | some b =>
      simp only [feed,map_bind,bind_map_left]
      congr 1
      funext r
      obtain ⟨flow,k⟩ := r
      cases flow with
      | «continue» => exact ih k
      | stop => exact hfinish k
  | read next ih =>
    funext s
    exact congrFun (ih s k) s
  | write s rest ih =>
    funext _
    exact congrFun (ih k) s

/-- A receiver that counts down from a positive number takes the first values: it says stop with the last of them. -/
theorem feed_take {wrap : Nat → K' → K} {push' : K' → A → Action S E (Flow × K')} (hpush : ∀ n k a, push (wrap (n+1) k) a =
      (fun r => (if n = 0 then .stop else r.1,wrap n r.2)) <$> push' k a)
    (hfinish : ∀ n k, finish (wrap n k) = wrap n <$> finish' k) (st : Stream S E A) {n : Nat} {k : K'} {s s' : S} {r : K}
    (h : feed push finish st (wrap (n+1) k) s = some (.ok (r,s'))) :
    ∃ m k', r = wrap m k' ∧ feed push' finish' (st.take (n+1)) k s = some (.ok (k',s')) := by
  induction st generalizing n k s with
  | done =>
    rw [feed,hfinish] at h
    obtain ⟨k',hk,rfl⟩ := Action.map_eq_some h
    exact ⟨n+1,k',rfl,hk⟩
  | fail | crash => cases h
  | yield a rest ih =>
    rw [feed,hpush,bind_map_left] at h
    obtain ⟨⟨flow,k₁⟩,s₁,hk₁,h⟩ := Action.ran_bind.mp h
    rw [take,feed,Action.bind_of_some hk₁]
    cases n with
    | zero =>
      simp only [if_true,hfinish] at h
      obtain ⟨k',hk',rfl⟩ := Action.map_eq_some h
      rw [take_zero]
      cases flow <;> exact ⟨0,k',rfl,hk'⟩
    | succ n =>
      simp only [Nat.add_one_ne_zero,if_false] at h
      cases flow with
      | «continue» => exact ih h
      | stop =>
        simp only [hfinish] at h
        obtain ⟨k',hk',rfl⟩ := Action.map_eq_some h
        exact ⟨n+1,k',rfl,hk'⟩
  | read next ih => exact ih s h
  | write s₁ rest ih => exact ih h

/-- A receiver that wants nothing is told the end, in whatever state the first value or the end of the stream comes. -/
theorem feed_take_zero {wrap : K' → K} (hpush : ∀ k a, push (wrap k) a = pure (.stop,wrap k))
    (hfinish : ∀ k, finish (wrap k) = wrap <$> finish' k) (st : Stream S E A) {k : K'} {s s' : S} {r : K}
    (h : feed push finish st (wrap k) s = some (.ok (r,s'))) :
    ∃ s₁ k', r = wrap k' ∧ finish' k s₁ = some (.ok (k',s')) := by
  induction st generalizing s with
  | done =>
    rw [feed,hfinish] at h
    obtain ⟨k',hk,rfl⟩ := Action.map_eq_some h
    exact ⟨s,k',rfl,hk⟩
  | fail | crash => cases h
  | yield a rest ih =>
    rw [feed,hpush,pure_bind] at h
    simp only [hfinish] at h
    obtain ⟨k',hk,rfl⟩ := Action.map_eq_some h
    exact ⟨s,k',rfl,hk⟩
  | read next ih => exact ih s h
  | write s₁ rest ih => exact ih h

/-- A receiver that gathers takes in the whole stream and gives out at the end. -/
theorem feed_gather {step : G → A → Action S E G} {emit : G → Stream S E B} {wrap : G → K' → K} {g₀ : G}
    (hpush : ∀ g k a, push (wrap g k) a = (fun g => (.continue,wrap g k)) <$> step g a)
    (hfinish : ∀ g k, finish (wrap g k) = wrap g₀ <$> feed push' finish' (emit g) k) (st : Stream S E A) (g : G) (k : K') :
    feed push finish st (wrap g k) = wrap g₀ <$> feed push' finish' (st.gather step emit g) k := by
  induction st generalizing g with
  | done => exact hfinish g k
  | fail | crash => rfl
  | yield a rest ih =>
    rw [gather,feed_ofAction,feed,hpush,bind_map_left,map_bind]
    congr 1
    funext g
    exact ih g
  | read next ih =>
    funext s
    exact congrFun (ih s g) s
  | write s rest ih =>
    funext _
    exact congrFun (ih g) s

theorem feed_collect {wrap : List A → K} (hpush : ∀ l a, push (wrap l) a = pure (.continue,wrap (l ++ [a])))
    (hfinish : ∀ l, finish (wrap l) = pure (wrap l)) (st : Stream S E A) (l : List A) :
    feed push finish st (wrap l) = (fun l' => wrap (l ++ l')) <$> st.collect := by
  induction st generalizing l with
  | done => simp only [feed,hfinish,collect,map_pure,append_nil]
  | fail | crash => rfl
  | yield a rest ih =>
    rw [feed,hpush,pure_bind,collect]
    simp [ih,append_assoc,cons_append,nil_append,Functor.map_map]
  | read next ih =>
    funext s
    exact congrFun (ih s l) s
  | write s rest ih =>
    funext _
    exact congrFun (ih l) s

end Feed

end Stream
end InterchangeDb
