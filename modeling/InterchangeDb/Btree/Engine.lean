import InterchangeDb.Common
import InterchangeDb.Lib.Linear

/-! The B+tree as a storage engine. Its insert leaves an existing key as it is, so an overwriting put deletes first. -/
namespace InterchangeDb

def leafBudget : Nat := 4096 - 33 - 8 * 2 - 4

structure BTreeEngine where
  tree : OrdMap Bytes Bytes
  keyCount : Nat
  dataSize : Nat

def BTreeEngine.reject (key value : Bytes) : Option Error :=
  if key.length + value.length > leafBudget then some (.valueTooLarge value.length) else none

/-- Insert into the tree; false if the key exists. -/
def BTree.insert (t : OrdMap Bytes Bytes) (key value : Bytes) : OrdMap Bytes Bytes × Bool :=
  if (t.get key).isSome then (t,false) else (t.insert key value,true)

/-- Delete from the tree; false if there is no such key. -/
def BTree.delete (t : OrdMap Bytes Bytes) (key : Bytes) : OrdMap Bytes Bytes × Bool := (t.erase key,(t.get key).isSome)

/-- A node as it is written to its page. Removed entries may stay in a leaf, with a tombstone each. -/
inductive TreeNode where
  | leaf (entries removed : List (Bytes × Bytes))
  | internal (keys : List Bytes)
  deriving DecidableEq, Repr

namespace TreeNode

def entries : TreeNode → List (Bytes × Bytes)
  | .leaf entries _ => entries
  | .internal _ => []

/-- The number of bytes that the encoder writes. -/
def encodedSize : TreeNode → Nat
  | .leaf entries removed =>
    33 + 2 * min removed.length 8 + ((entries ++ removed).map (fun e => 2 + e.1.length + 2 + e.2.length)).sum
  | .internal keys => 25 + (keys.map (fun key => 2 + key.length + 4)).sum

def fits (n : TreeNode) : Bool := decide (n.encodedSize ≤ 4096)

end TreeNode

inductive EngineOp where
  | get (key : Bytes)
  | put (key value : Bytes)
  | delete (key : Bytes)
  deriving DecidableEq, Repr

inductive EngineResult where
  | value (v : Option Bytes)
  | done
  | failed (error : Error)
  deriving DecidableEq, Repr

/-- The meaning of a whole call on an ordered map. -/
def EngineOp.apply (e : Engine) : EngineOp → Engine × EngineResult
  | .get key => (e,.value (e.get key))
  | .put key value =>
    match BTreeEngine.reject key value with
    | some error => (e,.failed error)
    | none => (e.put key value,.done)
  | .delete key => (e.delete key,.done)

/-- Where a call stands: the step it does next. -/
inductive EnginePhase where
  | reading (key : Bytes)
  | inserting (key value : Bytes)
  | counting (size : Nat)
  | growing (size : Nat)
  /-- The key exists: read the old size, delete, insert again. -/
  | sizing (key value : Bytes)
  | removing (key value : Bytes) (oldSize : Nat)
  | reinserting (key value : Bytes) (oldSize : Nat)
  | shrinking (oldSize newSize : Nat)
  | measuring (key : Bytes)
  | deleting (key : Bytes) (size : Nat)
  | uncounting (size : Nat)
  | releasing (size : Nat)
  | returning (result : EngineResult)
  | returned
  | panicked
  deriving DecidableEq, Repr

/-- The first step of a call. A put checks its size before it comes to the tree. -/
def EngineOp.start : EngineOp → EnginePhase
  | .get key => .reading key
  | .put key value =>
    match BTreeEngine.reject key value with
    | some error => .returning (.failed error)
    | none => .inserting key value
  | .delete key => .measuring key

namespace BTreeEngine

/-- A changed tree, on any nodes that hold its entries. The encoder panics at a node that does not fit its page. -/
def written (e : BTreeEngine) (tree : OrdMap Bytes Bytes) (nodes : List TreeNode) (p : EnginePhase) :
    Option (BTreeEngine × EnginePhase) :=
  if nodes.flatMap TreeNode.entries ≠ tree.entries then none
  else if nodes.all TreeNode.fits then some ({ e with tree },p)
  else some (e,.panicked)

/-- The next step of a call, and the nodes of the tree after it if it changes the tree. -/
def next (e : BTreeEngine) (nodes : List TreeNode) : EnginePhase → Option (BTreeEngine × EnginePhase)
  | .reading key => some (e,.returning (.value (e.tree.get key)))
  | .inserting key value =>
    match BTree.insert e.tree key value with
    | (tree,true) => e.written tree nodes (.counting (key.length + value.length))
    | (tree,false) => some ({ e with tree },.sizing key value)
  | .counting size => some ({ e with keyCount := wrapAdd e.keyCount 1 },.growing size)
  | .growing size => some ({ e with dataSize := wrapAdd e.dataSize size },.returning .done)
  | .sizing key value => some (e,.removing key value (((e.tree.get key).map List.length).getD 0))
  | .removing key value oldSize =>
    match BTree.delete e.tree key with
    | (tree,true) => e.written tree nodes (.reinserting key value oldSize)
    | (tree,false) => some ({ e with tree },.reinserting key value oldSize)
  | .reinserting key value oldSize =>
    match BTree.insert e.tree key value with
    | (tree,true) => e.written tree nodes (.shrinking oldSize value.length)
    | (tree,false) => some ({ e with tree },.panicked)
  | .shrinking oldSize newSize => some ({ e with dataSize := wrapSub e.dataSize oldSize },.growing newSize)
  | .measuring key => some (e,.deleting key (((e.tree.get key).map (fun v => key.length + v.length)).getD 0))
  | .deleting key size =>
    match BTree.delete e.tree key with
    | (tree,true) => e.written tree nodes (.uncounting size)
    | (tree,false) => some ({ e with tree },.returning .done)
  | .uncounting size => some ({ e with keyCount := wrapSub e.keyCount 1 },.releasing size)
  | .releasing size => some ({ e with dataSize := wrapSub e.dataSize size },.returning .done)
  | .returning _ | .returned | .panicked => none

end BTreeEngine

/-- An engine, the calls on it and what their callers have seen. -/
structure EngineThreads where
  engine : BTreeEngine
  calls : List EnginePhase
  history : List (CallEvent EngineOp EngineResult)

inductive EngineLabel where
  | invoke (op : EngineOp)
  | advance (id : Nat) (nodes : List TreeNode := [])
  deriving DecidableEq, Repr

namespace EngineThreads

def init (e : BTreeEngine) : EngineThreads := ⟨e,[],[]⟩

def step (s : EngineThreads) : EngineLabel → Option EngineThreads
  | .invoke op => some ⟨s.engine,s.calls ++ [op.start],.invoke s.calls.length op :: s.history⟩
  | .advance id nodes =>
    match s.calls[id]? with
    | none => none
    | some (.returning r) => some ⟨s.engine,s.calls.set id .returned,.respond id r :: s.history⟩
    | some p => (s.engine.next nodes p).map (fun (engine,p') => ⟨engine,s.calls.set id p',s.history⟩)

end EngineThreads
end InterchangeDb
