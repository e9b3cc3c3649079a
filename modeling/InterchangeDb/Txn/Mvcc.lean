import InterchangeDb.Common

/-! Version keys and values, visibility of a version, and the newest visible
version of a user key. -/
namespace InterchangeDb

/-- The layout of a version key: length prefix, user key, inverted timestamp. -/
def mvccKey (userKey : Bytes) (ts : Nat) : Bytes :=
  toBeBytes 4 userKey.length ++ userKey ++ toBeBytes 8 (u64Max - ts)

/-- Oversized user keys fail the assertion. -/
def encodeMvccKey (userKey : Bytes) (ts : Nat) : Option Bytes :=
  if userKey.length ≤ u32Max then some (mvccKey userKey ts) else none

def decodeMvccKey (encoded : Bytes) : Except Error (Bytes × Nat) :=
  if encoded.length < 12 then .error (.storageCorrupted "mvcc key too short")
  else
    let keyLen := fromBeBytes (encoded.take 4)
    if encoded.length ≠ 4 + keyLen + 8 then
      .error (.storageCorrupted "mvcc key length mismatch")
    else
      let userKey := (encoded.drop 4).take keyLen
      let invertedTs := fromBeBytes ((encoded.drop (4 + keyLen)).take 8)
      .ok (userKey, u64Max - invertedTs)

/-- The first possible key of a user key's versions. -/
def encodeMvccKeyStart (userKey : Bytes) : Option Bytes := encodeMvccKey userKey u64Max

/-- The last possible key of a user key's versions. -/
def encodeMvccKeyEnd (userKey : Bytes) : Option Bytes := encodeMvccKey userKey 0

inductive MvccValue where
  | value (txnId : Nat) (data : Bytes)
  | tombstone (txnId : Nat)
  deriving DecidableEq, Repr

namespace MvccValue

def txnId : MvccValue → Nat
  | .value t _ => t
  | .tombstone t => t

/-- What a reader gets from a version. -/
def data : MvccValue → Option Bytes
  | .value _ d => some d
  | .tombstone _ => none

theorem ext {v w : MvccValue} (ht : v.txnId = w.txnId) (hd : v.data = w.data) : v = w := by
  cases v <;> cases w <;> simp_all [txnId,data]

theorem exists_eq (t : Nat) (d : Option Bytes) : ∃ v : MvccValue, v.txnId = t ∧ v.data = d := by
  cases d with
  | none => exact ⟨.tombstone t,rfl,rfl⟩
  | some d => exact ⟨.value t d,rfl,rfl⟩

end MvccValue

def encodeMvccValue : MvccValue → Bytes
  | .value txnId data => 1 :: (toLeBytes 8 txnId ++ toLeBytes 4 data.length ++ data)
  | .tombstone txnId => 0 :: toLeBytes 8 txnId

def decodeMvccValue : Bytes → Except Error MvccValue
  | [] => .error (.storageCorrupted "empty mvcc value")
  | tag::rest =>
    if tag = 1 then
      if rest.length < 12 then
        .error (.storageCorrupted "mvcc value too short for Value")
      else
        let txnId := fromLeBytes (rest.take 8)
        let dataLen := fromLeBytes ((rest.drop 8).take 4)
        if rest.length ≠ 12 + dataLen then
          .error (.storageCorrupted "mvcc value data length mismatch")
        else .ok (.value txnId ((rest.drop 12).take dataLen))
    else if tag = 0 then
      if rest.length < 8 then
        .error (.storageCorrupted "mvcc value too short for Tombstone")
      else .ok (.tombstone (fromLeBytes (rest.take 8)))
    else .error (.storageCorrupted s!"invalid mvcc value tag: {tag.val}")

/-- A frozen view: versions committed at or before the read timestamp. -/
structure Snapshot where
  readTs : Nat
  deriving DecidableEq, Repr

abbrev CommittedTxns := AList (fun _ : Nat => Nat)

def isVisible (versionTxnId : Nat) (versionTs : Nat) (myTxnId : Nat)
    (snapshot : Snapshot) (committedTxns : CommittedTxns) (checkpointTs : Nat)
    (knownUncommitted : Finset Nat) : Bool :=
  if versionTxnId = myTxnId then true
  else match committedTxns.lookup versionTxnId with
    | some commitTs => decide (commitTs ≤ snapshot.readTs)
    | none =>
      -- the commit record may have been truncated by a checkpoint
      if versionTs ≤ checkpointTs ∧ versionTxnId ∉ knownUncommitted then
        decide (versionTs ≤ snapshot.readTs)
      else false

/-- The loop of the read path over the entries of one user key, newest first. -/
def firstVisible (userKey : Bytes) (visible : Nat → Nat → Bool) :
    List (Bytes × Bytes) → Except Error (Option (Nat × MvccValue))
  | [] => .ok none
  | (encodedKey,encodedValue)::rest =>
    match decodeMvccKey encodedKey with
    | .error e => .error e
    | .ok (foundKey,versionTs) =>
      if foundKey ≠ userKey then .ok none
      else match decodeMvccValue encodedValue with
        | .error e => .error e
        | .ok v =>
          if visible v.txnId versionTs then .ok (some (versionTs,v))
          else firstVisible userKey visible rest

/-- The entries of one user key, as the read path and the write check scan them. -/
def scanUserKey (engine : Engine) (userKey : Bytes) : Option (List (Bytes × Bytes)) := do
  let start ← encodeMvccKeyStart userKey
  let stop ← encodeMvccKeyEnd userKey
  return engine.scan (.included start) (.included stop)

def mvccFind (engine : Engine) (userKey : Bytes) (visible : Nat → Nat → Bool) :
    Option (Except Error (Option (Nat × MvccValue))) :=
  (scanUserKey engine userKey).map (firstVisible userKey visible)

/-- The data of the newest visible version; a tombstone reads as absent. -/
def mvccGet (engine : Engine) (userKey : Bytes) (visible : Nat → Nat → Bool) :
    Option (Except Error (Option Bytes)) :=
  (mvccFind engine userKey visible).map (fun r => r.map (fun found => found.bind (·.2.data)))

end InterchangeDb
