import InterchangeDb.Lib.Bytes
import InterchangeDb.Lib.OrdMap

/-! Identifiers, error values and the storage engine as an ordered map. A failed assertion is none, and ends a run. -/
namespace InterchangeDb
variable {A B : Type} {x : Except Error A} {f : A → Except Error B} {l : List A}

def u16Max : Nat := 65535
def u32Max : Nat := 4294967295
def u64Max : Nat := 18446744073709551615

def wrapAdd (a b : Nat) : Nat := (a + b) % 2^64
def wrapSub (a b : Nat) : Nat := (a + (2^64 - b % 2^64)) % 2^64

/-- Reserved for operations outside an explicit transaction. -/
def TxnId.autoCommit : Nat := 0

/-- The sentinel of a log sequence number. -/
def Lsn.invalid : Nat := u64Max

def Lsn.isValid (l : Nat) : Bool := l != Lsn.invalid

/-- Types of columns; lengths are of 16 bits, and no decimal has more than 18 digits behind the point. -/
inductive ColumnType where
  | int32
  | int64
  | varchar (n : Fin 65536)
  | char (n : Fin 65536)
  | bytes (n : Fin 65536)
  | decimal (precision : Fin 256) (scale : Fin 19)
  | timestamp
  | boolean
  | date
  deriving DecidableEq, Repr

def ColumnType.debug : ColumnType → String
  | .int32 => "Int32"
  | .int64 => "Int64"
  | .varchar n => s!"Varchar({n.val})"
  | .char n => s!"Char({n.val})"
  | .bytes n => s!"Bytes({n.val})"
  | .decimal precision scale => s!"Decimal \x7b precision: {precision.val}, scale: {scale.val} \x7d"
  | .timestamp => "Timestamp"
  | .boolean => "Boolean"
  | .date => "Date"

inductive ConstraintRule where
  | notNull
  | typeMismatch (expected : ColumnType) (actual : Option ColumnType)
  | varcharTooLong (max : Nat)
  | charTooLong (max : Nat)
  | bytesTooLong (max : Nat)
  | decimalScaleMismatch (expected actual : Nat)
  | decimalPrecisionExceeded (max : Nat)
  | pkNotNull
  | arity (expected actual : Nat)
  deriving DecidableEq, Repr

def ConstraintRule.display : ConstraintRule → String
  | .notNull => "NOT NULL violated"
  | .typeMismatch expected none => s!"type mismatch: expected {expected.debug}, got None"
  | .typeMismatch expected (some actual) => s!"type mismatch: expected {expected.debug}, got Some({actual.debug})"
  | .varcharTooLong max => s!"value exceeds Varchar({max}) length"
  | .charTooLong max => s!"value exceeds Char({max}) length"
  | .bytesTooLong max => s!"value exceeds Bytes({max}) length"
  | .decimalScaleMismatch expected actual => s!"decimal scale {actual} doesn't match column scale {expected}"
  | .decimalPrecisionExceeded max => s!"decimal value exceeds precision {max}"
  | .pkNotNull => "PK column cannot be NULL"
  | .arity expected actual => s!"arity mismatch: schema has {expected} columns, got {actual}"

inductive Error where
  | io (message : String)
  | pageNotFound (page : Nat)
  | noFreeFrames
  | pageNotPinned (page : Nat)
  | storageCorrupted (message : String)
  | valueTooLarge (size : Nat)
  | txnNotActive (id : Nat)
  | txnLimit (limit : Nat)
  | lockTimeout
  | deadlock (id : Nat)
  | txnReadOnly (id : Nat)
  | writeConflict (writer : Nat)
  | constraintViolation (column : String) (rule : ConstraintRule)
  | rowNotFound (table : String)
  | duplicateKey (table : String)
  | uniqueViolation (index : String)
  | indexAlreadyExists (name : String)
  | indexNotFound (name : String)
  | indexLookupArity (index : String) (expected actual : Nat)
  | sqlParse (message : String)
  | decimalArithmetic (message : String)
  | numericOverflow (message : String)
  | internal (message : String)
  | tableNotFound (name : String)
  deriving DecidableEq, Repr

/-- The text a user sees. -/
def Error.display : Error → String
  | .io msg => s!"I/O error: {msg}"
  | .pageNotFound page => s!"Page {page} not found"
  | .noFreeFrames => "No free frames available in buffer pool"
  | .pageNotPinned page => s!"Page {page} is not pinned"
  | .storageCorrupted msg => s!"Storage corrupted: {msg}"
  | .valueTooLarge size => s!"Value too large: {size} bytes"
  | .txnNotActive id => s!"Transaction {id} is not active"
  | .txnLimit limit => s!"Too many active transactions (limit: {limit})"
  | .lockTimeout => "Lock acquisition timed out"
  | .deadlock id => s!"Deadlock detected: transaction {id} aborted"
  | .txnReadOnly id => s!"Transaction {id} is read-only"
  | .writeConflict writer => s!"write-write conflict: transaction {writer} committed a newer version"
  | .constraintViolation column rule => s!"constraint violation on column '{column}': {rule.display}"
  | .rowNotFound table => s!"row not found in {table}"
  | .duplicateKey table => s!"duplicate key in table '{table}'"
  | .uniqueViolation index => s!"unique index '{index}' violation: duplicate value"
  | .indexAlreadyExists name => s!"index '{name}' already exists"
  | .indexNotFound name => s!"index '{name}' not found"
  | .indexLookupArity index expected actual =>
    s!"index '{index}' lookup arity mismatch: index has {expected} indexed columns, got {actual} prefix components"
  | .sqlParse msg => s!"SQL parse error: {msg}"
  | .decimalArithmetic msg => s!"Decimal arithmetic error: {msg}"
  | .numericOverflow msg => s!"Numeric overflow: {msg}"
  | .internal msg => s!"Internal invariant violation: {msg}"
  | .tableNotFound name => s!"table '{name}' not found"

theorem bind_eq_ok {b : B} (h : (x >>= f) = .ok b) :
    ∃ a, x = .ok a ∧ f a = .ok b := by
  cases x with
  | error e => cases h
  | ok a => exact ⟨a,rfl,h⟩

theorem map_eq_ok {f : A → B} {b : B} (h : x.map f = .ok b) :
    ∃ a, x = .ok a ∧ f a = b := by
  cases x with
  | error e => cases h
  | ok a => exact ⟨a,rfl,Except.ok.inj h⟩

theorem eq_some_ok {o : Option (Except Error A)} {a : A} (h : o.bind Except.toOption = some a) : o = some (.ok a) := by
  obtain ⟨x,rfl,hx⟩ := Option.bind_eq_some_iff.mp h
  cases x with
  | error e => cases hx
  | ok a' => rw [Option.some.inj hx]

theorem mapM_eq_ok {g : A → B} (h : ∀ a ∈ l, f a = .ok (g a)) :
    l.mapM f = .ok (l.map g) := by
  induction l with
  | nil => rfl
  | cons a l ih =>
    rw [List.mapM_cons,h a List.mem_cons_self,ih (fun b hb => h b (List.mem_cons_of_mem _ hb))]
    rfl

theorem mapM_ok_forall₂ {r : List B} (h : l.mapM f = .ok r) :
    List.Forall₂ (fun a b => f a = .ok b) l r := by
  induction l generalizing r with
  | nil =>
    cases h
    exact .nil
  | cons a l ih =>
    rw [List.mapM_cons] at h
    obtain ⟨b,hb,h⟩ := bind_eq_ok h
    obtain ⟨r,hr,h⟩ := bind_eq_ok h
    cases h
    exact .cons hb (ih hr)

theorem mapM_eq_some_iff {f : A → Option B} {r : List B} :
    l.mapM f = some r ↔ List.Forall₂ (fun a b => f a = some b) l r := by
  induction l generalizing r with
  | nil => simp [eq_comm]
  | cons a l ih => simp [List.forall₂_cons_left_iff,Option.bind_eq_some_iff,ih,@eq_comm _ r]

/-- A key-value store: every engine is used through its ordered-map interface. -/
abbrev Engine := OrdMap Bytes Bytes

namespace Engine

def put (e : Engine) (key value : Bytes) : Engine := OrdMap.insert e key value
def delete (e : Engine) (key : Bytes) : Engine := OrdMap.erase e key
def scan (e : Engine) (lo hi : Bound Bytes) : List (Bytes × Bytes) := OrdMap.range e lo hi

end Engine

end InterchangeDb
