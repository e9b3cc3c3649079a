import InterchangeDb.Txn.Mvcc

/-! Scans of a range of user keys go from one occupied key length to the next. -/
namespace InterchangeDb

/-- Add one to a key from its last byte on; true if the carry leaves the key. -/
def carryKey : Bytes → Bytes × Bool
  | [] => ([],true)
  | b::bs =>
    match carryKey bs with
    | (bs',false) => (b::bs',false)
    | (bs',true) => if b = 255 then (0::bs',true) else ((b + 1)::bs',false)

/-- Take one from a key from its last byte on; true if the borrow leaves the key. -/
def borrowKey : Bytes → Bytes × Bool
  | [] => ([],true)
  | b::bs =>
    match borrowKey bs with
    | (bs',false) => (b::bs',false)
    | (bs',true) => if b = 0 then (255::bs',true) else ((b - 1)::bs',false)

/-- The smallest user key of a length that is not below the start. -/
def minUserKeyAtLengthGe (start : Bytes) (l : Nat) : Option Bytes :=
  if start.length ≤ l then some (start ++ List.replicate (l - start.length) 0)
  else
    match carryKey (start.take l) with
    | (uk,false) => some uk
    | (_,true) => none

/-- The largest user key of a length that is not above the end. -/
def maxUserKeyAtLengthLe (stop : Bytes) (l : Nat) : Option Bytes :=
  if l ≤ stop.length then some (stop.take l)
  else
    match borrowKey stop with
    | (keyPrefix,false) => some (keyPrefix ++ List.replicate (l - stop.length) 255)
    | (_,true) => none

/-- The entries of one length, newest first for each user key: the first visible version of a key decides. -/
def resolveVersions (visible : Nat → Nat → Bool) :
    Option Bytes → Bool → List (Bytes × Bytes) → Except Error (List (Bytes × Bytes))
  | _, _, [] => .ok []
  | current, found, (encodedKey,encodedValue)::rest =>
    match decodeMvccKey encodedKey with
    | .error e => .error e
    | .ok (userKey,versionTs) =>
      if current = some userKey ∧ found = true then resolveVersions visible (some userKey) true rest
      else
        match decodeMvccValue encodedValue with
        | .error e => .error e
        | .ok v =>
          if visible v.txnId versionTs then
            match v with
            | .value _ data => (resolveVersions visible (some userKey) true rest).map ((userKey,data) :: ·)
            | .tombstone _ => resolveVersions visible (some userKey) true rest
          else resolveVersions visible (some userKey) false rest

/-- The part of one length between the bounds. The length comes from a prefix of four bytes, so the assertion of the
key encoder holds. -/
def scanBucket (engine : Engine) (startKey endKey : Bytes) (visible : Nat → Nat → Bool) (l : Nat) :
    Except Error (List (Bytes × Bytes)) :=
  match minUserKeyAtLengthGe startKey l, maxUserKeyAtLengthLe endKey l with
  | some lo, some hi =>
    if lo ≤ hi then
      resolveVersions visible none false (engine.scan (.included (mvccKey lo u64Max)) (.included (mvccKey hi 0)))
    else .ok []
  | _, _ => .ok []

/-- The lengths one after the other, from a probe on. Each round passes an entry of the engine. -/
def scanBuckets (engine : Engine) (startKey endKey : Bytes) (visible : Nat → Nat → Bool) :
    Nat → Bytes → Except Error (List (Bytes × Bytes))
  | 0, _ => .ok []
  | fuel+1, probePos =>
    match (engine.scan (.included probePos) .unbounded).head? with
    | none => .ok []
    | some (probeKey,_) =>
      if probeKey.length < 4 then .ok []
      else
        let bucketLen := fromBeBytes (probeKey.take 4)
        if probeKey.length ≠ 4 + bucketLen + 8 then .ok []
        else do
          let rows ← scanBucket engine startKey endKey visible bucketLen
          if bucketLen + 1 ≤ u32Max then
            let rest ← scanBuckets engine startKey endKey visible fuel (toBeBytes 4 (bucketLen + 1))
            return rows ++ rest
          else return rows

/-- The newest visible version of each user key between two keys, both included. -/
def mvccScan (engine : Engine) (startKey endKey : Bytes) (visible : Nat → Nat → Bool) :
    Except Error (List (Bytes × Bytes)) :=
  scanBuckets engine startKey endKey visible engine.entries.length (List.replicate 12 0)

end InterchangeDb
