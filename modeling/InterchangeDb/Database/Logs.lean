import InterchangeDb.Txn.Stored
import InterchangeDb.Wal.RecoverySpec

/-! A log and the history it describes: one record for each event, in order, and the checkpoints. -/
namespace InterchangeDb
open List
variable {h base : History} {e : Event} {log : List LogRecord} {committed : Nat → Bool}

/-- The record a call logs for an event. -/
inductive Describes (h : History) : Event → LogRecord → Prop where
  | began {t b : Nat} {r : LogRecord} (id : r.txnId = t) (payload : r.payload = .begin) : Describes h (.began t b) r
  | wrote {t b : Nat} {k : Bytes} {v : MvccValue} {r : LogRecord} (id : r.txnId = t) (began : .began t b ∈ h)
      (own : v.txnId = t) (key : k.length ≤ u32Max) (ts : b ≤ u64Max) (value : v.Encodable)
      (payload : r.payload = .txnPut (mvccKey k b) (encodeMvccValue v) none) : Describes h (.wrote t k v.data) r
  | committed {t c : Nat} {r : LogRecord} (id : r.txnId = t) (payload : r.payload = .commit c) :
      Describes h (.committed t c) r
  | aborted {t : Nat} {r : LogRecord} (id : r.txnId = t) (payload : r.payload = .abort) : Describes h (.aborted t) r

/-- Events that need no record: those of transactions that write nothing. -/
inductive Unlogged (h : History) : Event → Prop where
  | began {t b : Nat} : Unlogged h (.began t b)
  | committed {t c : Nat} (reads : ∀ k, lastWrite h t k = none) : Unlogged h (.committed t c)

/-- The whole log of a run with its history. -/
inductive Logs : History → List LogRecord → Prop where
  | nil : Logs [] []
  | logged {h : History} {log : List LogRecord} {e : Event} {r : LogRecord} (rest : Logs h log)
      (describes : Describes h e r) : Logs (e::h) (log ++ [r])
  | unlogged {h : History} {log : List LogRecord} {e : Event} (rest : Logs h log) (reads : Unlogged h e) :
      Logs (e::h) log
  | checkpoint {h : History} {log : List LogRecord} {r : LogRecord} (rest : Logs h log) (id : r.txnId = 0)
      (payload : r.payload.recordType = .checkpoint) : Logs h (log ++ [r])

theorem Logs.of_prefix {log' : List LogRecord} (hl : Logs h log) (hp : log' <+: log) :
    ∃ h', h' <:+ h ∧ Logs h' log' := by
  induction hl with
  | nil =>
    rw [prefix_nil.mp hp]
    exact ⟨[],suffix_rfl,.nil⟩
  | logged rest hd ih =>
    rcases prefix_concat_iff.mp hp with rfl | hp
    · exact ⟨_,suffix_rfl,.logged rest hd⟩
    · obtain ⟨h',hs,hl'⟩ := ih hp
      exact ⟨h',hs.trans (suffix_cons _ _),hl'⟩
  | unlogged rest _ ih =>
    obtain ⟨h',hs,hl'⟩ := ih hp
    exact ⟨h',hs.trans (suffix_cons _ _),hl'⟩
  | checkpoint rest hid hpay ih =>
    rcases prefix_concat_iff.mp hp with rfl | hp
    · exact ⟨_,suffix_rfl,.checkpoint rest hid hpay⟩
    · exact ih hp

/-- Begin timestamps tell transactions apart. -/
structure Separate (h : History) : Prop where
  unique : ∀ {t b b'}, .began t b ∈ h → .began t b' ∈ h → b = b'
  inj : ∀ {t t' b}, .began t b ∈ h → .began t' b ∈ h → t = t'

theorem Separate.of_cons (hs : Separate (e::h)) : Separate h :=
  ⟨fun hb hb' => hs.unique (mem_cons_of_mem _ hb) (mem_cons_of_mem _ hb'),
    fun hb hb' => hs.inj (mem_cons_of_mem _ hb) (mem_cons_of_mem _ hb')⟩

/-- The log of the part of a run that starts with a history. -/
inductive LogsSince (base : History) : History → List LogRecord → Prop where
  | nil : LogsSince base [] []
  | logged {h : History} {log : List LogRecord} {e : Event} {r : LogRecord} (rest : LogsSince base h log)
      (describes : Describes (h ++ base) e r) : LogsSince base (e::h) (log ++ [r])
  | unlogged {h : History} {log : List LogRecord} {e : Event} (rest : LogsSince base h log)
      (reads : Unlogged (h ++ base) e) : LogsSince base (e::h) log
  | checkpoint {h : History} {log : List LogRecord} {r : LogRecord} (rest : LogsSince base h log) (id : r.txnId = 0)
      (payload : r.payload.recordType = .checkpoint) : LogsSince base h (log ++ [r])

theorem LogsSince.single {base : History} {e : Event} {r : LogRecord} (h : Describes base e r) : LogsSince base [e] [r] :=
  .logged .nil h

theorem Logs.since (hl : Logs h log) : LogsSince [] h log := by
  induction hl with
  | nil => exact .nil
  | @logged h _ _ _ _ hd ih => exact .logged ih ((append_nil h).symm ▸ hd)
  | @unlogged h _ _ _ hu ih => exact .unlogged ih ((append_nil h).symm ▸ hu)
  | checkpoint _ id payload ih => exact .checkpoint ih id payload

theorem Logs.extend {ev : History} {added : List LogRecord} (hl : Logs base log) (hs : LogsSince base ev added) :
    Logs (ev ++ base) (log ++ added) := by
  induction hs with
  | nil => rwa [append_nil]
  | logged _ hd ih =>
    rw [← append_assoc]
    exact .logged ih hd
  | unlogged _ hu ih => exact .unlogged ih hu
  | checkpoint _ id payload ih =>
    rw [← append_assoc]
    exact .checkpoint ih id payload

namespace LogsSince
variable {base h : History} {log : List LogRecord}
variable {t c : Nat}

section

variable (hl : LogsSince base h log)
include hl

theorem append {h' : History} {log' : List LogRecord}
    (hl' : LogsSince (h ++ base) h' log') : LogsSince base (h' ++ h) (log ++ log') := by
  induction hl' with
  | nil => rwa [append_nil]
  | logged _ hd ih =>
    rw [← append_assoc]
    exact .logged ih (append_assoc _ _ _ ▸ hd)
  | unlogged _ hu ih => exact .unlogged ih (append_assoc _ _ _ ▸ hu)
  | checkpoint _ id payload ih =>
    rw [← append_assoc]
    exact .checkpoint ih id payload

theorem written_began {k : Bytes} (hw : lastWrite h t k ≠ none) :
    ∃ b, .began t b ∈ h ++ base := by
  induction hl with
  | nil => simp [lastWrite] at hw
  | logged rest hd ih =>
    cases hd with
    | wrote _ hb own =>
      rw [lastWrite_wrote] at hw
      split_ifs at hw with hc
      · exact ⟨_,mem_cons_of_mem _ (hc.1 ▸ hb)⟩
      · exact (ih hw).imp fun b hb' => mem_cons_of_mem _ hb'
    | began | committed | aborted => exact (ih (by simpa using hw)).imp fun b hb' => mem_cons_of_mem _ hb'
  | unlogged rest hu ih =>
    cases hu <;> exact (ih (by simpa using hw)).imp fun b hb' => mem_cons_of_mem _ hb'
  | checkpoint rest _ _ ih => exact ih hw

theorem describes_of_mem {r : LogRecord} (hr : r ∈ log) :
    (∃ e ∈ h, ∃ h', Describes h' e r) ∨ r.txnId = 0 ∧ r.payload.recordType = .checkpoint := by
  induction hl with
  | nil => cases hr
  | logged rest hd ih =>
    rcases mem_append.mp hr with hr | hr
    · exact (ih hr).imp_left fun ⟨e,he,hd⟩ => ⟨e,mem_cons_of_mem _ he,hd⟩
    · exact .inl ⟨_,mem_cons_self,_,mem_singleton.mp hr ▸ hd⟩
  | unlogged rest hu ih => exact (ih hr).imp_left fun ⟨e,he,hd⟩ => ⟨e,mem_cons_of_mem _ he,hd⟩
  | checkpoint rest id payload ih =>
    rcases mem_append.mp hr with hr | hr
    · exact ih hr
    · exact .inr (mem_singleton.mp hr ▸ ⟨id,payload⟩)

theorem committed_of_mem {r : LogRecord} (hr : r ∈ log) (hp : r.payload = .commit c) : .committed r.txnId c ∈ h := by
  rcases hl.describes_of_mem hr with ⟨e,he,h',hd⟩ | ⟨-,hpay⟩
  · cases hd <;> simp_all
  · simp [hp,LogPayload.recordType] at hpay

theorem event_of_mem {r : LogRecord} (hr : r ∈ log) (hid : r.txnId ≠ 0) : ∃ e ∈ h, e.txnId = r.txnId := by
  rcases hl.describes_of_mem hr with ⟨e,he,h',hd⟩ | ⟨hzero,-⟩
  · cases hd with
    | began id | wrote id | committed id | aborted id => exact ⟨_,he,id.symm⟩
  · exact (hid hzero).elim

theorem commit_logged (hlast : CommitsLast (h ++ base)) {k : Bytes}
    (hc : .committed t c ∈ h) (hw : lastWrite (h ++ base) t k ≠ none) : ∃ r ∈ log, r.txnId = t ∧ r.payload = .commit c := by
  induction hl with
  | nil => cases hc
  | @logged h log e r rest hd ih =>
    obtain ⟨hafter,hlast⟩ := pairwise_cons.mp hlast
    rcases mem_cons.mp hc with rfl | hc
    · cases hd with
      | committed id payload => exact ⟨r,by simp,id,payload⟩
    · rw [cons_append,lastWrite_cons_ne (hafter _ (mem_append_left _ hc) t c rfl)] at hw
      exact (ih hlast hc hw).imp fun r hr => ⟨mem_append_left _ hr.1,hr.2⟩
  | @unlogged h log e rest hu ih =>
    obtain ⟨hafter,hlast⟩ := pairwise_cons.mp hlast
    rcases mem_cons.mp hc with rfl | hc
    · cases hu with
      | committed reads => exact (hw (reads k)).elim
    · rw [cons_append,lastWrite_cons_ne (hafter _ (mem_append_left _ hc) t c rfl)] at hw
      exact ih hlast hc hw
  | checkpoint rest _ _ ih => exact (ih hlast hc hw).imp fun r hr => ⟨mem_append_left _ hr.1,hr.2⟩

end

end LogsSince

theorem Logs.ownVersion (hl : Logs h log) : ∀ r ∈ log, r.OwnVersion := by
  intro r hr
  unfold LogRecord.OwnVersion
  rcases hl.since.describes_of_mem hr with ⟨e,he,h',hd⟩ | ⟨-,hpay⟩
  · cases hd with
    | wrote id _ own key ts value payload =>
      simp only [payload]
      exact ⟨_,_,_,key,ts,value,own.trans id.symm,rfl,rfl⟩
    | began _ payload | committed _ payload | aborted _ payload => simp [payload]
  · cases hp : r.payload <;> simp_all [LogPayload.recordType]

theorem Logs.committed_of_mem (hl : Logs h log) {r : LogRecord} {c : Nat}
    (hr : r ∈ log) (hp : r.payload = .commit c) : .committed r.txnId c ∈ h := hl.since.committed_of_mem hr hp

/-- The last write since a history of a replayed transaction to a key, as a version. -/
def ReplayedSince (base h : History) (committed : Nat → Bool) (k : Bytes) (ts : Nat) (v : MvccValue) : Prop :=
  committed v.txnId = true ∧ .began v.txnId ts ∈ h ++ base ∧ lastWrite h v.txnId k = some v.data

private theorem replayed_cons (hl : LogsSince base h log)
    (hs : Separate (e::h ++ base)) (hquiet : ∀ t k, lastWrite (e::h) t k = lastWrite h t k) (committed : Nat → Bool)
    (k : Bytes) (ts : Nat) (v : MvccValue) :
    ReplayedSince base (e::h) committed k ts v ↔ ReplayedSince base h committed k ts v := by
  unfold ReplayedSince
  rw [hquiet]
  refine and_congr_right fun _ => ⟨?_,fun ⟨hb,hw⟩ => ⟨mem_cons_of_mem _ hb,hw⟩⟩
  rintro ⟨hb,hw⟩
  obtain ⟨b,hb'⟩ := hl.written_began (t := v.txnId) (k := k) (by simp [hw])
  rw [hs.unique hb (mem_cons_of_mem _ hb')]
  exact ⟨hb',hw⟩

private theorem replayed_wrote (hs : Separate (h ++ base)) {b : Nat} {k₀ : Bytes} {v₀ : MvccValue}
    (hb : .began v₀.txnId b ∈ h ++ base) (hc : committed v₀.txnId = true) (k : Bytes) (ts : Nat) (v : MvccValue) :
    ReplayedSince base (.wrote v₀.txnId k₀ v₀.data :: h) committed k ts v ↔
      if k = k₀ ∧ ts = b then v = v₀ else ReplayedSince base h committed k ts v := by
  simp only [ReplayedSince,lastWrite_wrote,cons_append,mem_cons,reduceCtorEq,false_or]
  by_cases hid : v₀.txnId = v.txnId
  · split_ifs with hhere hplace hplace
    · rw [← hid]
      refine ⟨fun ⟨_,_,hd⟩ => MvccValue.ext hid.symm (Option.some.inj hd).symm,?_⟩
      rintro rfl
      exact ⟨hc,hplace.2 ▸ hb,rfl⟩
    · refine iff_of_false ?_ ?_
      · rintro ⟨_,hbv,_⟩
        exact hplace ⟨hhere.2.symm,hs.unique hbv (hid ▸ hb)⟩
      · rintro ⟨_,hbv,_⟩
        exact hplace ⟨hhere.2.symm,hs.unique hbv (hid ▸ hb)⟩
    · exact absurd ⟨hid,hplace.1.symm⟩ hhere
    · rfl
  · rw [if_neg (fun hhere => hid hhere.1)]
    split_ifs with hplace
    · refine iff_of_false ?_ (fun heq => hid (heq ▸ rfl))
      rintro ⟨_,hbv,_⟩
      exact hid (hs.inj hb (hplace.2 ▸ hbv))
    · rfl

private theorem replayed_wrote_ne {t : Nat} {k₀ : Bytes} {d : Option Bytes}
    (hc : committed t = false) (k : Bytes) (ts : Nat) (v : MvccValue) :
    ReplayedSince base (.wrote t k₀ d :: h) committed k ts v ↔ ReplayedSince base h committed k ts v := by
  simp only [ReplayedSince,lastWrite_wrote,cons_append,mem_cons,reduceCtorEq,false_or]
  refine and_congr_right fun hv => and_congr_right fun _ => ?_
  rw [if_neg]
  rintro ⟨rfl,_⟩
  rw [hc] at hv
  cases hv

/-- After replay a version is a replayed write, or stood in the engine before
and nothing was replayed over it. -/
theorem LogsSince.redo_version (hl : LogsSince base h log)
    (hs : Separate (h ++ base)) (engine : Engine) (committed : Nat → Bool) (k : Bytes) (ts : Nat) (v : MvccValue) :
    (redoCommitted engine log committed).1.version k ts = some v ↔ ReplayedSince base h committed k ts v ∨
      (engine.version k ts = some v ∧ ∀ v', ¬ ReplayedSince base h committed k ts v') := by
  induction hl generalizing k ts v with
  | nil =>
    have hnone : ∀ v', ¬ ReplayedSince base [] committed k ts v' := fun v' hr => by simpa [lastWrite] using hr.2.2
    simp [hnone,redoCommitted]
  | unlogged rest hu ih =>
    have hquiet := replayed_cons rest hs (fun t k => by cases hu <;> rfl) committed k ts
    simp only [hquiet]
    exact ih hs.of_cons k ts v
  | @checkpoint h log r rest _ hpay ih =>
    rw [redoCommitted,foldl_concat]
    have hsame : redoRecord committed (redoCommitted engine log committed) r = redoCommitted engine log committed := by
      unfold redoRecord
      cases hp : r.payload <;> simp_all [LogPayload.recordType]
    exact hsame ▸ ih hs k ts v
  | @logged h log e r rest hd ih =>
    rw [redoCommitted,foldl_concat]
    change (redoRecord committed (redoCommitted engine log committed) r).1.version k ts = some v ↔ _
    unfold redoRecord
    cases hd with
    | began _ hp | committed _ hp | aborted _ hp =>
      have hquiet := replayed_cons rest hs (fun t k => by simp) committed k ts
      simp only [hquiet,hp]
      exact ih hs.of_cons k ts v
    | @wrote t b k₀ v₀ _ hid hb hown hkey hts henc hp =>
      subst hown
      have hold := ih hs.of_cons k ts
      simp only [hp,hid]
      by_cases hc : committed v₀.txnId = true
      · simp only [replayed_wrote hs.of_cons hb hc,if_pos hc,Engine.version_put _ hkey hts henc]
        split_ifs with hplace
        · simp [eq_comm]
        · exact hold v
      · simp only [replayed_wrote_ne (Bool.not_eq_true _ ▸ hc),if_neg hc]
        exact hold v

/-- The last write of a replayed transaction to a key, as a version. -/
def Replayed (h : History) (committed : Nat → Bool) (k : Bytes) (ts : Nat) (v : MvccValue) : Prop :=
  committed v.txnId = true ∧ .began v.txnId ts ∈ h ∧ lastWrite h v.txnId k = some v.data

theorem Logs.redo_version (hl : Logs h log) (hs : Separate h)
    (engine : Engine) (committed : Nat → Bool) (k : Bytes) (ts : Nat) (v : MvccValue) :
    (redoCommitted engine log committed).1.version k ts = some v ↔ Replayed h committed k ts v ∨
      (engine.version k ts = some v ∧ ∀ v', ¬ Replayed h committed k ts v') := by
  have hsince : ∀ v', ReplayedSince [] h committed k ts v' ↔ Replayed h committed k ts v' := by
    simp [ReplayedSince,Replayed]
  simpa only [hsince] using hl.since.redo_version (by rwa [append_nil]) engine committed k ts v

end InterchangeDb
