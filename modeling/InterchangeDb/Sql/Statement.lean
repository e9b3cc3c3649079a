import InterchangeDb.Sql.Schema

/-! Statements as programs of calls. An error of a call ends the statement. -/
namespace InterchangeDb

inductive Statement (R : Type) where
  | done (result : Except Error R)
  | lockForWrite (key : Bytes) (next : Statement R)
  | get (key : Bytes) (next : Option Bytes → Statement R)
  | put (key value : Bytes) (next : Statement R)
  | delete (key : Bytes) (next : Statement R)
  | scan (lo hi : Bound Bytes) (next : List (Bytes × Bytes) → Statement R)
  | indexScan (index : Nat) (lo hi : Bound Bytes) (next : List (Bytes × Bytes) → Statement R)
  | indexPut (index : Nat) (key : Bytes) (next : Statement R)
  | indexDelete (index : Nat) (key : Bytes) (next : Statement R)
  | createIndex (definition : IndexDef) (next : Nat → Statement R)

namespace Statement
variable {R S : Type}

protected def bind (p : Statement R) (f : R → Statement S) : Statement S :=
  match p with
  | .done (.ok r) => f r
  | .done (.error e) => .done (.error e)
  | .lockForWrite key next => .lockForWrite key (next.bind f)
  | .get key next => .get key (fun v => (next v).bind f)
  | .put key value next => .put key value (next.bind f)
  | .delete key next => .delete key (next.bind f)
  | .scan lo hi next => .scan lo hi (fun rows => (next rows).bind f)
  | .indexScan index lo hi next => .indexScan index lo hi (fun rows => (next rows).bind f)
  | .indexPut index key next => .indexPut index key (next.bind f)
  | .indexDelete index key next => .indexDelete index key (next.bind f)
  | .createIndex definition next => .createIndex definition (fun index => (next index).bind f)

instance : Monad Statement where
  pure r := .done (.ok r)
  bind := Statement.bind

protected theorem bind_assoc {T : Type} (p : Statement R) (f : R → Statement S) (g : S → Statement T) :
    (p.bind f).bind g = p.bind (fun r => (f r).bind g) := by
  induction p with
  | done result => cases result <;> rfl
  | lockForWrite _ _ ih | delete _ _ ih | put _ _ _ ih | indexPut _ _ _ ih | indexDelete _ _ _ ih | get _ _ ih
  | createIndex _ _ ih | scan _ _ _ ih | indexScan _ _ _ _ ih =>
    simp only [Statement.bind,ih]

protected theorem bind_done (p : Statement R) : p.bind (fun r => .done (.ok r)) = p := by
  induction p with
  | done result => cases result <;> rfl
  | lockForWrite _ _ ih | delete _ _ ih | put _ _ _ ih | indexPut _ _ _ ih | indexDelete _ _ _ ih | get _ _ ih
  | createIndex _ _ ih | scan _ _ _ ih | indexScan _ _ _ _ ih =>
    simp only [Statement.bind,ih]

instance : LawfulMonad Statement :=
  LawfulMonad.mk' Statement Statement.bind_done (fun _ _ => rfl) Statement.bind_assoc

def throw (e : Error) : Statement R := .done (.error e)

def ofExcept (r : Except Error R) : Statement R := .done r

def ReadOnly : Statement R → Prop
  | .done _ => True
  | .get _ next => ∀ v, (next v).ReadOnly
  | .scan _ _ next => ∀ rows, (next rows).ReadOnly
  | .indexScan _ _ _ next => ∀ rows, (next rows).ReadOnly
  | _ => False

theorem ReadOnly.bind {p : Statement R} {f : R → Statement S} (hp : p.ReadOnly) (hf : ∀ r, (f r).ReadOnly) :
    (p >>= f).ReadOnly := by
  change (p.bind f).ReadOnly
  induction p with
  | done result =>
    cases result with
    | error e => trivial
    | ok r => exact hf r
  | get _ _ ih | scan _ _ _ ih | indexScan _ _ _ _ ih => exact fun v => ih v (hp v)
  | lockForWrite | put | delete | indexPut | indexDelete | createIndex => exact hp.elim

end Statement
end InterchangeDb
