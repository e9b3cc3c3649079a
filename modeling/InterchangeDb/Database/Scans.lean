import InterchangeDb.Database.Refine
import InterchangeDb.Txn.ScanSpec

/-! Scans through the engine handle of a transaction return what the reads of the keys in their range return. -/
namespace InterchangeDb

/-- The first user key of a scan. -/
def scanStart : Bound Bytes → Bytes
  | .included key => key
  | .excluded key => key ++ [0]
  | .unbounded => []

/-- The last user key of a scan; an excluded bound is taken as included. -/
def scanEnd : Bound Bytes → Bytes
  | .included key => key
  | .excluded key => key
  | .unbounded => List.replicate 32 255

/-- A scan over an engine under a visibility rule. -/
def scanRange (engine : Engine) (visible : Nat → Nat → Bool) (lo hi : Bound Bytes) : Except Error (List (Bytes × Bytes)) :=
  mvccScan engine (scanStart lo) (scanEnd hi) visible

section

variable {e : Engine} {visible : Nat → Nat → Bool} {lo hi : Bound Bytes}

theorem scanRange_spec (he : e.Versioned) (visible : Nat → Nat → Bool) (lo hi : Bound Bytes) :
    ∃ rows, scanRange e visible lo hi = .ok rows ∧ rows.Pairwise (fun a b => KeyBefore a.1 b.1) ∧
      ∀ k d, (k,d) ∈ rows ↔ scanStart lo ≤ k ∧ k ≤ scanEnd hi ∧ mvccGet e k visible = some (.ok (some d)) := by
  simp only [mvccGet_eq_some_iff he]
  exact mvccScan_spec he (scanStart lo) (scanEnd hi) visible

private theorem append_zero_le_iff (a k : Bytes) : a ++ [0] ≤ k ↔ a < k := by
  induction a generalizing k with
  | nil =>
    cases k with
    | nil => decide
    | cons b k =>
      have hb : 0 < b ∨ 0 = b := (Fin.zero_le b).lt_or_eq
      simpa [Bytes.cons_le_iff,Bytes.nil_le] using hb
  | cons x a ih =>
    cases k with
    | nil => simp
    | cons b k => rw [List.cons_append,Bytes.cons_le_iff,ih,List.cons_lt_cons_iff]

theorem scanStart_le_iff (lo : Bound Bytes) (k : Bytes) : scanStart lo ≤ k ↔ lo.above k = true := by
  cases lo with
  | included a => simp [scanStart,Bound.above]
  | excluded a => simp [scanStart,Bound.above,append_zero_le_iff]
  | unbounded => simp [scanStart,Bound.above,Bytes.nil_le]

/-- The keys between the bounds that read as a value, each once and in ascending order. -/
def HonoursBounds (e : Engine) (visible : Nat → Nat → Bool) (lo hi : Bound Bytes) : Prop :=
  ∃ rows, scanRange e visible lo hi = .ok rows ∧ rows.Pairwise (fun a b => a.1 < b.1) ∧
    ∀ k d, (k,d) ∈ rows ↔ lo.above k = true ∧ hi.below k = true ∧ mvccGet e k visible = some (.ok (some d))

def Reads (e : Engine) (visible : Nat → Nat → Bool) (k : Bytes) : Prop := ∃ d, mvccGet e k visible = some (.ok (some d))

/-- What the keys that read as a value must be like for a scan of them. -/
structure Scannable (e : Engine) (visible : Nat → Nat → Bool) (lo hi : Bound Bytes) : Prop where
  excluded : ∀ k, hi = .excluded k → lo.above k = true → ¬Reads e visible k
  unbounded : hi = .unbounded → ∀ k, lo.above k = true → Reads e visible k → k ≤ List.replicate 32 255
  shorter : ∀ k k', lo.above k = true → hi.below k = true → Reads e visible k → lo.above k' = true → hi.below k' = true →
    Reads e visible k' → k.length < k'.length → k < k'

/-- The range of the scan is the one asked for, as far as there is something to read. -/
theorem Scannable.le_scanEnd_iff (h : Scannable e visible lo hi) {k : Bytes} (hlo : lo.above k = true)
    (hk : Reads e visible k) : k ≤ scanEnd hi ↔ hi.below k = true := by
  cases hi with
  | included b => simp [scanEnd,Bound.below]
  | excluded b =>
    have hne : k ≠ b := by
      rintro rfl
      exact h.excluded k rfl hlo hk
    simp [scanEnd,Bound.below,le_iff_lt_or_eq,hne]
  | unbounded => exact iff_of_true (h.unbounded rfl k hlo hk) rfl

private theorem lt_of_shorter {rows : List (Bytes × Bytes)} (hshort : rows.Pairwise (fun a b => KeyBefore a.1 b.1))
    (hlt : rows.Pairwise (fun a b => a.1 < b.1)) {x y : Bytes × Bytes} (hx : x ∈ rows) (hy : y ∈ rows)
    (hlen : x.1.length < y.1.length) : x.1 < y.1 := by
  have hbefore : rows.Pairwise (fun a b => a.1.length < b.1.length → a.1 < b.1) :=
    hlt.imp fun {a b} h (_ : a.1.length < b.1.length) => h
  have hafter : rows.Pairwise (flip fun a b => a.1.length < b.1.length → a.1 < b.1) := by
    refine hshort.imp fun {a b} hab hba => ?_
    rcases keyBefore_iff.mp hab with h | h
    · exact absurd hba (by omega)
    · exact absurd hba (by omega)
  exact List.Pairwise.forall_of_forall_of_flip (fun a _ h => absurd h (lt_irrefl _)) hbefore hafter hx hy hlen

/-- A scan honours its bounds and the order of the keys exactly if an excluded end is not readable, nothing is readable
beyond the 32 bytes that stand for an unbounded end, and no readable key is above a longer one. -/
theorem scan_honours_bounds_iff (he : e.Versioned) (visible : Nat → Nat → Bool) (lo hi : Bound Bytes) :
    HonoursBounds e visible lo hi ↔ Scannable e visible lo hi := by
  obtain ⟨rows,hscan,hshort,hmem⟩ := scanRange_spec he visible lo hi
  simp only [scanStart_le_iff] at hmem
  constructor
  · rintro ⟨rows',hscan',hlt,hmem'⟩
    obtain rfl : rows' = rows := Except.ok.inj (hscan'.symm.trans hscan)
    refine ⟨?_,?_,?_⟩
    · rintro k rfl hlo ⟨d,hd⟩
      have hbelow := ((hmem' k d).mp ((hmem k d).mpr ⟨hlo,le_rfl,hd⟩)).2.1
      simp [Bound.below] at hbelow
    · rintro rfl k hlo ⟨d,hd⟩
      exact ((hmem k d).mp ((hmem' k d).mpr ⟨hlo,rfl,hd⟩)).2.1
    · rintro k k' hlo hhi ⟨d,hd⟩ hlo' hhi' ⟨d',hd'⟩ hlen
      exact lt_of_shorter hshort hlt ((hmem' k d).mpr ⟨hlo,hhi,hd⟩) ((hmem' k' d').mpr ⟨hlo',hhi',hd'⟩) hlen
  · intro h
    have hrows : ∀ k d, (k,d) ∈ rows ↔ lo.above k = true ∧ hi.below k = true ∧ mvccGet e k visible = some (.ok (some d)) := by
      intro k d
      rw [hmem]
      refine and_congr_right fun hlo => and_congr_left fun hd => h.le_scanEnd_iff hlo ⟨d,hd⟩
    refine ⟨rows,hscan,hshort.imp_of_mem fun {a b} ha hb hab => ?_,hrows⟩
    obtain ⟨hlo,hhi,hd⟩ := (hrows a.1 a.2).mp ha
    obtain ⟨hlo',hhi',hd'⟩ := (hrows b.1 b.2).mp hb
    rcases keyBefore_iff.mp hab with hlen | ⟨-,hlt⟩
    · exact h.shorter _ _ hlo hhi ⟨_,hd⟩ hlo' hhi' ⟨_,hd'⟩ hlen
    · exact hlt

end

private def everyVersion : Nat → Nat → Bool := fun _ _ => true

private def stored (e : Engine) (key : Bytes) : Engine := e.put (mvccKey key 1) (encodeMvccValue (.value 1 [7]))

theorem scan_honours_bounds_ordered :
    HonoursBounds (stored (stored OrdMap.empty [2]) [3,0]) everyVersion .unbounded .unbounded := by
  have hfits : (MvccValue.value 1 [7]).Encodable := by simp [MvccValue.Encodable,MvccValue.txnId,MvccValue.data,u64Max,u32Max]
  have hone : (stored OrdMap.empty [2]).Versioned := Engine.versioned_empty.put (by decide) (by decide) hfits
  have htwo : (stored (stored OrdMap.empty [2]) [3,0]).Versioned := hone.put (by decide) (by decide) hfits
  have hkeys : ∀ k, Reads (stored (stored OrdMap.empty [2]) [3,0]) everyVersion k → k = [3,0] ∨ k = [2] := by
    rintro k ⟨d,hd⟩
    obtain ⟨r,hnew,hr⟩ := (mvccGet_eq_some_iff htwo).mp hd
    obtain ⟨x,rfl,-⟩ := Option.bind_eq_some_iff.mp hr
    have hv := hnew.1
    rw [stored,Engine.version_put _ (by decide) (by decide) hfits,stored,
      Engine.version_put _ (by decide) (by decide) hfits,Engine.version_empty] at hv
    split_ifs at hv with h₁ h₂
    · exact .inl h₁.1
    · exact .inr h₂.1
  refine (scan_honours_bounds_iff htwo everyVersion .unbounded .unbounded).mpr ⟨by simp,fun _ k _ hk => ?_,?_⟩
  · rcases hkeys k hk with rfl | rfl <;> decide
  · intro k k' _ _ hk _ _ hk' hlen
    rcases hkeys k hk with rfl | rfl <;> rcases hkeys k' hk' with rfl | rfl <;> revert hlen <;> decide

/-- The excluded end is returned, a key above 32 bytes of 255 is not, and the key 2 comes before the key 1 0. -/
theorem scan_breaks_bounds :
    (scanRange (stored OrdMap.empty [5]) everyVersion .unbounded (.excluded [5])).toOption = some [([5],[7])] ∧
    (scanRange (stored OrdMap.empty (List.replicate 33 255)) everyVersion .unbounded .unbounded).toOption = some [] ∧
    (scanRange (stored (stored OrdMap.empty [2]) [1,0]) everyVersion .unbounded .unbounded).toOption =
      some [([2],[7]),([1,0],[7])] := by
  decide +kernel

namespace Database

def txnScan (db : Database) (txnId : Nat) (lo hi : Bound Bytes) : Except Error (List (Bytes × Bytes)) :=
  match db.mgr.readView txnId with
  | .error e => .error e
  | .ok snapshot => mvccScan db.engine (scanStart lo) (scanEnd hi) (db.mgr.visible txnId snapshot)

def scan (db : Database) (lo hi : Bound Bytes) : Except Error (List (Bytes × Bytes)) := db.txnScan TxnId.autoCommit lo hi

theorem txnScan_spec {db : Database} (hs : db.Sound) {t readTs : Nat} (hr : db.mgr.readView t = .ok ⟨readTs⟩)
    (lo hi : Bound Bytes) :
    ∃ rows, db.txnScan t lo hi = .ok rows ∧ rows.Pairwise (fun a b => KeyBefore a.1 b.1) ∧
      ∀ k d, (k,d) ∈ rows ↔ scanStart lo ≤ k ∧ k ≤ scanEnd hi ∧ db.txnGet t k = some (.ok (some d)) := by
  simp only [txnScan,txnGet,hr]
  exact scanRange_spec hs.versioned _ lo hi

end Database
end InterchangeDb
