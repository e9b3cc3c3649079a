import InterchangeDb.Sql.ServerSpec

/-! What a statement writes satisfies the schema and stands under its own key, with two kinds of UPDATE excepted. -/
namespace InterchangeDb
open List Option

/-- A valid row under the key of its own primary key. -/
def Schema.Stored (s : Schema) (key blob : Bytes) : Prop :=
  ∃ row pk, Tuple.decode s.columnTypes blob = .ok row ∧ s.Valid row ∧ (∀ v ∈ s.pkValues row, v ≠ .null) ∧
    KeyEnc.encodeKeyComponents (s.pkValues row) s.pkTypes = .ok pk ∧ key = makeRowKey s.tableId pk

/-- What is stored is a row of one of the tables. -/
def RowOf (tables : List Schema) (key blob : Bytes) : Prop := ∃ s ∈ tables, s.Stored key blob

/-- Tables of a catalog: no two have one id, and a null is no default where none is allowed. -/
structure Declared (tables : List Schema) : Prop where
  distinct : ∀ s ∈ tables, ∀ s' ∈ tables, s.tableId = s'.tableId → s = s'
  default : ∀ s ∈ tables, ∀ col ∈ s.columns, col.nullable = false → col.default ≠ some .null

theorem makeRowKey_inj {t t' : Fin 4294967296} {pk pk' : Bytes} (h : makeRowKey t pk = makeRowKey t' pk') :
    t = t' ∧ pk = pk' := by
  obtain ⟨hid,hpk⟩ := append_inj h (by simp)
  exact ⟨Fin.ext (toBeBytes_inj t.isLt t'.isLt hid),hpk⟩

private theorem encodeOne_ne_nil {v : Value} {ty : ColumnType} {bs : Bytes} (h : KeyEnc.encodeOne v ty = .ok bs) :
    bs ≠ [] := by
  cases v with
  | char s =>
    cases ty with
    | char n =>
      obtain ⟨raw,-,rfl⟩ := map_eq_ok h
      simp
    | _ => cases h
  | null =>
    cases h
    simp
  | int32 | int64 | varchar | bytes | decimal | timestamp | boolean | date =>
    cases ty <;> cases h
    simp

theorem Schema.encodePk_ne_nil (s : Schema) {row : Row} {pk : Bytes}
    (h : KeyEnc.encodeKeyComponents (s.pkValues row) s.pkTypes = .ok pk) : pk ≠ [] := by
  have hkeyed := s.keyed
  unfold pkValues pkTypes at h
  cases hp : s.primaryKey with
  | nil => exact absurd hp hkeyed
  | cons i is =>
    rw [hp,KeyEnc.encodeKeyComponents,if_neg (by simp)] at h
    obtain ⟨b,rest,hb,-,rfl⟩ := KeyEnc.encodeAll_cons h
    exact fun hnil => encodeOne_ne_nil hb (append_eq_nil_iff.mp hnil).1

theorem tableId_of_range {t t' next : Fin 4294967296} (hnext : TableId.next t = .ok next) {pk : Bytes} (hpk : pk ≠ [])
    (hlo : makeRowKey t [] ≤ makeRowKey t' pk) (hhi : makeRowKey t' pk ≤ makeRowKey next []) : t' = t := by
  have hbound : ∀ n : Fin 4294967296, n.val < 256^4 := fun n => n.isLt
  have hval : next.val = t.val + 1 := by
    unfold TableId.next at hnext
    split_ifs at hnext with hmax
    cases hnext
    have hlt := t.isLt
    rw [Fin.val_add]
    unfold u32Max at hmax
    exact Nat.mod_eq_of_lt (by simp; omega)
  have h1 := not_lt.mpr hlo
  have h2 := not_lt.mpr hhi
  unfold makeRowKey at h1 h2
  rw [append_lt_append_iff (by simp),toBeBytes_lt_iff (hbound _) (hbound _)] at h1 h2
  have hne : next.val ≠ t'.val := by
    intro heq
    refine h2 (.inr ⟨by rw [heq],?_⟩)
    cases pk with
    | nil => exact absurd rfl hpk
    | cons b bs => exact nil_lt_cons b bs
  refine Fin.ext ?_
  have h3 : ¬t'.val < t.val := fun hlt => h1 (.inl hlt)
  have h4 : ¬next.val < t'.val := fun hlt => h2 (.inl hlt)
  omega

theorem RowOf.own {tables : List Schema} (hd : Declared tables) {s : Schema} (hs : s ∈ tables) {pk blob : Bytes} {row : Row}
    (h : RowOf tables (makeRowKey s.tableId pk) blob) (hrow : Tuple.decode s.columnTypes blob = .ok row) :
    s.Valid row ∧ KeyEnc.encodeKeyComponents (s.pkValues row) s.pkTypes = .ok pk := by
  obtain ⟨s',hs',row',pk',hrow',hvalid,-,hpk,hkey⟩ := h
  obtain ⟨hid,rfl⟩ := makeRowKey_inj hkey
  obtain rfl := hd.distinct s hs s' hs' hid
  obtain rfl : row' = row := Except.ok.inj (hrow'.symm.trans hrow)
  exact ⟨hvalid,hpk⟩

namespace Table
variable {row : Row}

/-- Values that an UPDATE may set: none of the key, and each one its column may hold. -/
def Settable (s : Schema) (changes : List (Fin s.columns.length × Value)) : Prop :=
  ∀ c ∈ changes, c.1 ∉ s.primaryKey ∧ ((s.columns.get c.1).nullable = false → c.2 ≠ .null)

instance {s : Schema} (changes : List (Fin s.columns.length × Value)) : Decidable (Settable s changes) :=
  inferInstanceAs (Decidable (∀ c ∈ changes, c.1 ∉ s.primaryKey ∧ ((s.columns.get c.1).nullable = false → c.2 ≠ .null)))

theorem forall₂_set {A B : Type} {P : A → B → Prop} {as : List A} {bs : List B} (h : List.Forall₂ P as bs) {i : Nat}
    {a : A} (ha : ∀ b, bs[i]? = some b → P a b) : List.Forall₂ P (as.set i a) bs := by
  induction h generalizing i with
  | nil => exact .nil
  | cons hp htail ih =>
    cases i with
    | zero => exact .cons (ha _ rfl) htail
    | succ i => exact .cons hp (ih (fun b hb => ha b (by simpa using hb)))

theorem mergeChanges_valid {s : Schema} {changes : List (Fin s.columns.length × Value)}
    (hset : Settable s changes) (hchecked : checkChanges s changes = .ok ()) (hvalid : s.Valid row) :
    s.Valid (mergeChanges row (changes.map (fun c => (c.1.val,c.2)))) ∧
      s.pkValues (mergeChanges row (changes.map (fun c => (c.1.val,c.2)))) = s.pkValues row := by
  induction changes generalizing row with
  | nil => exact ⟨hvalid,rfl⟩
  | cons c changes ih =>
    obtain ⟨⟨hkey,hnull⟩,hset⟩ := forall_mem_cons.mp hset
    obtain ⟨_,hc,hchecked⟩ := bind_eq_ok hchecked
    obtain ⟨_,htype,hbounds⟩ := bind_eq_ok hc
    have hstep : s.Valid (row.set c.1.val c.2) := by
      refine forall₂_set hvalid fun col hcol => ?_
      obtain rfl : s.columns.get c.1 = col := by
        rw [getElem?_eq_getElem c.1.isLt] at hcol
        exact some.inj hcol
      exact ⟨admits_of_checked htype hbounds,hnull⟩
    obtain ⟨hv,hpk⟩ := ih hset hchecked hstep
    refine ⟨hv,hpk.trans (map_congr_left fun i hi => ?_)⟩
    have hne : c.1.val ≠ i.val := fun heq => hkey (Fin.ext heq ▸ hi)
    rw [getD_eq_getElem?_getD,getD_eq_getElem?_getD,getElem?_set_ne hne]

end Table

/-- A statement writes to tables of the catalog. -/
def Sql.Respects (tables : List Schema) : Sql → Prop
  | .select _ | .createIndex _ _ _ _ => True
  | .insert schema _ | .update schema _ _ _ | .delete schema _ _ => schema ∈ tables

/-- Of a row that an UPDATE reads and its WHERE accepts, it sets no column of the key, nor a null where none is allowed. -/
def Sql.settles : Sql → Bytes → Bool
  | .update schema _ filter setExprs, blob =>
    match Tuple.decode schema.columnTypes blob with
    | .ok row => !filter row || decide (Table.Settable schema (setExprs.map (fun e => (e.1,e.2 row))))
    | .error _ => true
  | _, _ => true

/-- A statement reads good values, which its UPDATE may set as it does, and writes good ones. -/
def Sql.terms (good : Bytes → Bytes → Prop) (sql : Sql) : Terms where
  reads k b := good k b ∧ sql.settles b = true
  scans lo hi k b := (scanStart lo ≤ k ∧ k ≤ scanEnd hi) ∧ good k b ∧ sql.settles b = true
  good := good

/-- The rest of a statement stores what is good. -/
def Sql.Stores (good : Bytes → Bytes → Prop) (sql : Sql) (p : Statement (List Row)) : Prop :=
  p.Keeps (sql.terms good) (fun _ => True) (fun _ => True)

/-- A statement that respects the tables stores rows of the tables. -/
theorem Sql.meets_terms {tables : List Schema} (hd : Declared tables) {sql : Sql} (h : sql.Respects tables) :
    sql.Meets (sql.terms (RowOf tables)) := by
  cases sql with
  | select | delete | createIndex => trivial
  | insert schema rows =>
    intro values row pk blob hrow hpk hblob
    have hvalid := validateAndDefault_valid (hd.default _ h) hrow
    exact ⟨schema,h,row,pk,Tuple.decode_encode hvalid.fits hblob,hvalid,hvalid.pkValues_ne_null,hpk,rfl⟩
  | update schema access filter setExprs =>
    intro found hfound hfilter pk old row blob hchecked hold hrow hblob
    have hset : Table.Settable schema (setExprs.map (fun e => (e.1,e.2 found))) := by
      obtain ⟨b,hdecode,⟨_,-,hsettles⟩ | ⟨_,_,-,-,-,hsettles⟩⟩ := hfound <;>
        simpa [settles,hdecode,hfilter] using hsettles
    obtain ⟨hvalid,hpk⟩ := RowOf.own hd h hold.1 hrow
    obtain ⟨hvalid',hkey⟩ := Table.mergeChanges_valid hset hchecked hvalid
    exact ⟨schema,h,_,pk,Tuple.decode_encode hvalid'.fits hblob,hvalid',hvalid'.pkValues_ne_null,hkey.symm ▸ hpk,rfl⟩

theorem MvccStep.version_of {rules : Rules} {s s' : MvccState} {ev : List Event} (h : MvccStep rules s ev s')
    (hno : ∀ t k d, .wrote t k d ∉ ev) {k : Bytes} {ts : Nat} {v : MvccValue} (hv : s'.version k ts = some v) :
    s.version k ts = some v := by
  cases h with
  | quiet | begin | commit | abort | checkpoint => exact hv
  | write t b k' v' => exact absurd mem_cons_self (hno t k' v'.data)
  | gc lwm version aborted allowed le oldest kept forgotten => exact ((kept k ts v).mp hv).1

section

variable [Crc32]

namespace Database

omit [Crc32] in
theorem txnGet_version {db : Database} (hs : db.Sound) {t : Nat} {k b : Bytes} (h : db.txnGet t k = some (.ok (some b))) :
    ∃ ts v, db.view.version k ts = some v ∧ v.data = some b := by
  cases hr : db.mgr.readView t with
  | error e =>
    rw [txnGet,hr] at h
    cases h
  | ok snapshot =>
    rw [txnGet,hr] at h
    obtain ⟨r,hnew,hd⟩ := (mvccGet_eq_some_iff hs.versioned).mp h
    obtain ⟨⟨ts,v⟩,rfl,hv⟩ := bind_eq_some_iff.mp hd
    exact ⟨ts,v,hnew.1,hv⟩

end Database

namespace Server

/-- The rows that the next call of a statement reads. -/
def reads (s : Server) (r : Running) : List Bytes :=
  match r.program with
  | .get key _ =>
    match s.session.db.txnGet r.txnId key with
    | some (.ok (some blob)) => [blob]
    | _ => []
  | .scan lo hi _ =>
    match s.session.db.txnScan r.txnId lo hi with
    | .ok rows => rows.map (·.2)
    | .error _ => []
  | _ => []

/-- What the UPDATE that makes the next call reads, it may set as it does. -/
def settles (s : Server) : SqlLabel → Bool
  | .call c =>
    match (s.clients c).running with
    | some r => (s.reads r).all r.sql.settles
    | none => true
  | _ => true

/-- Every stored value is good, and the statements on their way keep it so. -/
structure Stores (good : Bytes → Bytes → Prop) (s : Server) : Prop where
  sound : s.session.db.Sound
  stored : ∀ {k ts v b}, s.session.db.view.version k ts = some v → v.data = some b → good k b
  running : ∀ {c r}, (s.clients c).running = some r → r.sql.Stores good r.program

namespace Stores
variable {good : Bytes → Bytes → Prop} {s s' : Server}
variable {σ : Session} {c : Nat}

section

variable (hi : s.Stores good)
include hi

theorem performed {op : Op} {session : Session} {out : Outcome}
    (h : s.session.perform op = some (session,out)) (hput : ∀ t k v, op ≠ .put t k v) (hdelete : ∀ t k, op ≠ .delete t k) :
    session.db.Sound ∧ ∀ {k ts v b}, session.db.view.version k ts = some v → v.data = some b → good k b := by
  obtain ⟨db,hstep,rfl⟩ := Session.perform_eq_some h
  have hrefines : db.Sound ∧ _ ∧ MvccStep ⟨False,True,True⟩ s.session.db.view (s.session.db.events op out) db.view :=
    Database.step_refines hi.sound False.elim (fun _ => trivial) (fun _ => trivial) hstep
  obtain ⟨hs,-,hm⟩ := hrefines
  refine ⟨hs,fun hv hb => hi.stored (hm.version_of ?_ hv) hb⟩
  intro t k d hmem
  cases op <;> cases out <;> simp [Database.events] at hmem
  · exact hput _ _ _ rfl
  · exact hdelete _ _ rfl

section

variable (hs : σ.db.Sound) (hstored : ∀ {k ts v b}, σ.db.view.version k ts = some v → v.data = some b → good k b)
include hs hstored

omit [Crc32] in
theorem update (catalog : Catalog) (engines : Nat → Engine) {cl : Client}
    (hcl : ∀ r, cl.running = some r → r.sql.Stores good r.program) :
    Stores good (setClient ⟨σ,catalog,engines,s.clients⟩ c cl) := by
  refine ⟨hs,hstored,fun {c' r} hr => ?_⟩
  exact forall_setClient (P := fun cl => ∀ r, cl.running = some r → r.sql.Stores good r.program) hcl
    (fun c' r hr => hi.running hr) c' r hr

omit [Crc32] in
theorem resumed (catalog : Catalog) (engines : Nat → Engine) (c : Nat) (r : Running) {p : Statement (List Row)}
    (hp : r.sql.Stores good p) :
    Stores good (setClient ⟨σ,catalog,engines,s.clients⟩ c { s.clients c with running := some { r with program := p } }) :=
  hi.update hs hstored catalog engines (by rintro _ ⟨⟩; exact hp)

end

theorem written {t : Nat} {k : Bytes} {v : MvccValue} (hown : v.txnId = t)
    (hgood : ∀ b, v.data = some b → good k b) {res : Except Error Unit} (h : s.session.write t k v = some (σ,res)) :
    σ.db.Sound ∧ ∀ {k ts v b}, σ.db.view.version k ts = some v → v.data = some b → good k b := by
  rcases Database.write_view hi.sound hown (Session.db_of_write h) with ⟨e,-,hdb⟩ | ⟨b,-,-,hs,-,-,hview⟩
  · exact hdb ▸ ⟨hi.sound,hi.stored⟩
  · refine ⟨hs,fun {k' ts v' b'} hv hb => ?_⟩
    rw [hview] at hv
    dsimp only at hv
    split_ifs at hv with hat
    · cases hv
      exact hat.1 ▸ hgood b' hb
    · exact hi.stored hv hb

theorem called {r : Running} (hr : (s.clients c).running = some r) {catalog : Catalog}
    {engines : Nat → Engine} {p : Statement (List Row)} (hreads : ∀ b ∈ s.reads r, r.sql.settles b = true)
    (hans : s.Answer .none r.txnId r.program σ catalog engines p) :
    Stores good (setClient ⟨σ,catalog,engines,s.clients⟩ c { s.clients c with running := some { r with program := p } }) := by
  have hk := hi.running hr
  simp only [reads] at hreads
  generalize r.program = program at hans hk hreads
  cases hans with
  | lock key next =>
    have hs : (⟨(s.session.db.lockForWrite r.txnId key).1,s.session.history⟩ : Session).db.Sound :=
      Database.locked_sound hi.sound r.txnId key
    exact hi.resumed hs hi.stored _ _ _ _ (.resume fun _ _ => .mono hk (fun _ => id) (fun _ _ => trivial))
  | get key next hget =>
    refine hi.resumed hi.sound hi.stored _ _ _ _ (.resume fun v hv => hk v fun b hb => ?_)
    subst hv hb
    obtain ⟨ts,v,hver,hdata⟩ := Database.txnGet_version hi.sound hget
    simp only [hget,mem_singleton,forall_eq] at hreads
    exact ⟨hi.stored hver hdata,hreads⟩
  | put key value next hw =>
    obtain ⟨hs,hstored⟩ := hi.written (v := .value r.txnId value) rfl (by rintro _ ⟨⟩; exact hk.1.2) hw
    exact hi.resumed hs hstored _ _ _ _ (.resume fun _ _ => hk.2)
  | delete key next hw =>
    obtain ⟨hs,hstored⟩ := hi.written (v := .tombstone r.txnId) rfl (by rintro _ ⟨⟩) hw
    exact hi.resumed hs hstored _ _ _ _ (.resume fun _ _ => hk.2)
  | scan lo hi' next =>
    refine hi.resumed hi.sound hi.stored _ _ _ _ (.resume fun rows hrows => hk rows fun k b hmem => ?_)
    cases hview : s.session.db.mgr.readView r.txnId with
    | error e =>
      rw [Database.txnScan,hview] at hrows
      cases hrows
    | ok snapshot =>
      obtain ⟨readTs⟩ := snapshot
      obtain ⟨rows',hscan,-,hiff⟩ := Database.txnScan_spec hi.sound hview lo hi'
      obtain rfl : rows' = rows := Except.ok.inj (hscan.symm.trans hrows)
      obtain ⟨hlo,hhi,hget⟩ := (hiff k b).mp hmem
      obtain ⟨ts,v,hver,hdata⟩ := Database.txnGet_version hi.sound hget
      simp only [hrows] at hreads
      exact ⟨⟨hlo,hhi⟩,hi.stored hver hdata,hreads b (mem_map.mpr ⟨(k,b),hmem,rfl⟩)⟩
  | indexScan | createIndex => exact hi.resumed hi.sound hi.stored _ _ _ _ (hk _)
  | indexPut index key next | indexDelete index key next => exact hi.resumed hi.sound hi.stored _ _ _ _ hk
  | nameTaken definition next => exact hi.resumed hi.sound hi.stored _ _ _ _ trivial
  | failed _ fault => simp [Faults.Has] at fault

/-- Every step keeps the store good, if the statements that start do. -/
theorem step {a : SqlLabel} (hsettles : s.settles a = true)
    (hstart : ∀ c sql, a = .execute c sql → sql.Stores good (sql.program s.catalog)) (h : s.step a = some s') :
    s'.Stores good := by
  cases Stepped.of_step h with
  | told client current running =>
    exact hi.update hi.sound hi.stored _ _ fun r hr => by rw [running] at hr; cases hr
  | started label => exact hi.update hi.sound hi.stored _ _ (by rintro _ ⟨⟩; exact hstart _ _ label)
  | performed client call put delete mine commit current running =>
    obtain ⟨hs,hstored⟩ := hi.performed call put delete
    refine hi.update hs hstored _ _ fun r hr => ?_
    obtain ⟨label,hprog,-⟩ := running r hr
    exact hprog ▸ hstart _ _ label
  | resumed label running answer =>
    subst label
    simp only [settles,running] at hsettles
    exact hi.called running (List.all_eq_true.mp hsettles) answer
  | maintained client kind call =>
    obtain ⟨hs,hstored⟩ := hi.performed call (by rcases kind with rfl | rfl <;> simp) (by rcases kind with rfl | rfl <;> simp)
    exact ⟨hs,hstored,hi.running⟩

end

end Stores

/-- In every run whose statements respect the tables, and whose UPDATEs may set the rows they read as they do, every stored
row satisfies its schema and stands under its own key. -/
theorem stored_rows_valid {tables : List Schema} (hd : Declared tables) {policy : IsolationPolicy} {labels : List SqlLabel}
    (hrespects : ∀ c sql, .execute c sql ∈ labels → sql.Respects tables)
    (hsettles : AllSteps Server.step (fun s a => s.settles a = true) (Server.init policy) labels) {s : Server}
    (hrun : run Server.step (Server.init policy) labels = some s) {k : Bytes} {ts : Nat} {v : MvccValue} {blob : Bytes}
    (hv : s.session.db.engine.version k ts = some v) (hblob : v.data = some blob) :
    ∃ schema ∈ tables, schema.Stored k blob := by
  have hinit : (init policy).Stores (RowOf tables) := by
    refine ⟨(Session.inv_init policy ⟨False,True,True⟩).sound,fun {k ts v b} hv => ?_,nofun⟩
    have hempty : (Server.init policy).session.db.view.version k ts = none := Engine.version_empty k ts
    rw [hempty] at hv
    cases hv
  have hkeep : ∀ (x : Server) (a : SqlLabel) (x' : Server), x.Stores (RowOf tables) →
      (x.settles a = true ∧ ∀ c sql, a = .execute c sql → sql.Respects tables) → x.step a = some x' →
      x'.Stores (RowOf tables) :=
    fun x a x' hx ha h => hx.step ha.1 (fun c sql heq => Sql.program_keeps (Sql.meets_terms hd (ha.2 c sql heq)) x.catalog _) h
  have hall : AllSteps step (fun _ a => ∀ c sql, a = .execute c sql → sql.Respects tables)
      (init policy) labels :=
    allSteps_of_forall (by rintro _ ha _ c sql rfl; exact hrespects c sql ha) _
  exact (run_invariant _ hkeep hinit (hsettles.and hall) hrun).stored hv hblob

end Server

end

namespace Server

private def people : Schema where
  name := "people"
  tableId := 1
  columns := [⟨"id",.int32,false,none⟩,⟨"age",.int32,false,none⟩]
  primaryKey := [⟨0,by decide⟩]
  keyed := by decide
  keyNotNull := by decide

/-- Two rows, and an UPDATE of the first. -/
private def updatePerson (column : Fin people.columns.length) (value : Row → Value) : List SqlLabel :=
  .execute 0 (.insert people [[.int32 1,.int32 5],[.int32 2,.int32 9]]) :: List.replicate 7 (.call 0) ++
    .execute 0 (.update people (.pkLookup [.int32 1]) (fun _ => true) [(column,value)]) :: List.replicate 5 (.call 0)

private def personKey : Bytes := makeRowKey 1 [1,128,0,0,1]

private theorem people_declared : Declared [people] := by
  constructor
  · intro s hs s' hs' _
    rw [mem_singleton.mp hs,mem_singleton.mp hs']
  · decide

private def afterUpdate (column : Fin people.columns.length) (value : Row → Value) :
    Option (Option (List Row) × Option MvccValue) :=
  (run Server.step (Server.init .snapshotIsolation) (updatePerson column value)).map (fun s =>
    ((s.clients 0).result.bind (·.toOption),s.session.db.engine.version personKey 3))

/-- NULLIF(age, 9) -/
private def ageUnlessNine (row : Row) : Value := if row.getD 1 .null = .int32 9 then .null else row.getD 1 .null

/-- An UPDATE of the age stores a valid row. Of the other row it would have made an invalid one. -/
theorem stored_rows_valid_updated :
    afterUpdate ⟨1,by decide⟩ ageUnlessNine = some (some [[.int64 1]],some (.value 2 [0,1,0,0,0,5,0,0,0])) ∧
      ∃ schema ∈ [people], schema.Stored personKey [0,1,0,0,0,5,0,0,0] := by
  have hafter : afterUpdate ⟨1,by decide⟩ ageUnlessNine =
      some (some [[.int64 1]],some (.value 2 [0,1,0,0,0,5,0,0,0])) := by decide +kernel
  refine ⟨hafter,?_⟩
  obtain ⟨s,hrun,heq⟩ := map_eq_some_iff.mp hafter
  refine stored_rows_valid people_declared (fun c sql hmem => ?_) (by decide +kernel) hrun (Prod.mk.inj heq).2 rfl
  simp [updatePerson,List.replicate] at hmem
  rcases hmem with ⟨-,rfl⟩ | ⟨-,rfl⟩ <;> exact mem_cons_self

/-- An UPDATE stores a null where none is allowed, and another one stores a row under the key of another row. -/
theorem update_stores_invalid_rows :
    (∃ blob, afterUpdate ⟨1,by decide⟩ (fun _ => .null) = some (some [[.int64 1]],some (.value 2 blob)) ∧
      Tuple.decode people.columnTypes blob = .ok [.int32 1,.null] ∧ ¬people.Stored personKey blob) ∧
    ∃ blob, afterUpdate ⟨0,by decide⟩ (fun _ => .int32 2) = some (some [[.int64 1]],some (.value 2 blob)) ∧
      Tuple.decode people.columnTypes blob = .ok [.int32 2,.int32 5] ∧ ¬people.Stored personKey blob := by
  refine ⟨⟨[2,1,0,0,0],by decide +kernel,rfl,?_⟩,⟨[0,2,0,0,0,5,0,0,0],by decide +kernel,rfl,?_⟩⟩
  · rintro ⟨row,pk,hrow,hvalid,-⟩
    cases hrow
    cases hvalid with
    | cons _ htail =>
      cases htail with
      | cons hage _ => exact hage.2 rfl rfl
  · rintro ⟨row,pk,hrow,-,-,hpk,hkey⟩
    cases hrow
    cases hpk
    exact absurd hkey (by decide)

end Server

end InterchangeDb
