import InterchangeDb.Buffer.Pool

/-! Who owns a frame: the free list, the page table, or a thread that loads, evicts or deletes. -/
namespace InterchangeDb
open List Option AList Function

open EvictionPolicy LawfulEvictionPolicy Threads

namespace Task
variable {x : Task} {pf : PageId × FrameId}

/-- The frames a thread keeps pinned. -/
def pinned : Task → List FrameId
  | commit _ _ _ f _ => [f]
  | flushCheck f _ (.evict _ _ _) => [f]
  | flushWrite f _ (.evict _ _ _) => [f]
  | flushClear f _ (.evict _ _ _) => [f]
  | publish _ _ f => [f]
  | lost .unpin _ _ f winner => [f, winner]
  | lost _ _ _ _ winner => [winner]
  | record _ f => [f]
  | latch _ _ f => [f]
  | holding _ _ f => [f]
  | markDirty _ f => [f]
  | unpin _ f => [f]
  | _ => []

/-- The frame a thread has for itself. -/
def owned : Task → List FrameId
  | granted _ _ f => [f]
  | copy _ _ f _ => [f]
  | name _ _ f => [f]
  | pin _ _ f => [f]
  | publish _ _ f => [f]
  | lost _ _ _ f _ => [f]
  | deleting _ f => [f]
  | _ => []

/-- The page and frame a thread relies on being mapped. -/
def mapped : Task → List (PageId × FrameId)
  | commit _ _ _ f (some q) => [(q, f)]
  | flushCheck f q (.evict _ _ _) => [(q, f)]
  | flushWrite f q (.evict _ _ _) => [(q, f)]
  | flushClear f q (.evict _ _ _) => [(q, f)]
  | lost _ p _ _ winner => [(p, winner)]
  | record p f => [(p, f)]
  | latch p _ f => [(p, f)]
  | holding p _ f => [(p, f)]
  | markDirty p f => [(p, f)]
  | unpin p f => [(p, f)]
  | _ => []

/-- The name a thread has given to its own frame. -/
def labels : Task → List (PageId × FrameId)
  | pin p _ f => [(p, f)]
  | publish p _ f => [(p, f)]
  | _ => []

/-- An eviction knows the page of its victim. -/
def anchored : Task → Bool
  | commit _ _ _ _ none => false
  | _ => true

/-- Keeps the frame out of the replacer's sight, or is about to show it. -/
def reserves (g : FrameId) : Task → Bool
  | commit _ _ _ f _ => f == g
  | flushCheck f _ (.evict _ _ _) => f == g
  | flushWrite f _ (.evict _ _ _) => f == g
  | flushClear f _ (.evict _ _ _) => f == g
  | record _ f => f == g
  | _ => false

/-- Has released the last pin and is about to tell the replacer. -/
def settles (g : FrameId) : Task → Bool
  | settle f => f == g
  | _ => false

/-- Has unmapped the frame but not yet removed it from the replacer. -/
def unmaps (g : FrameId) : Task → Bool
  | deleting .unname f => f == g
  | deleting .clean f => f == g
  | deleting .untrack f => f == g
  | _ => false

theorem length_pinned_le (x : Task) : x.pinned.length ≤ 2 := by
  fun_cases pinned x <;> simp

theorem mem_pinned_of_mapped (h : pf ∈ x.mapped) : pf.2 ∈ x.pinned := by
  fun_cases mapped x <;> simp_all [mapped,pinned]
  next stage _ _ _ _ => cases stage <;> simp

theorem mem_owned_of_labels (h : pf ∈ x.labels) : pf.2 ∈ x.owned := by
  fun_cases labels x <;> simp_all [labels,owned]

theorem mem_pinned_of_reserves {g : FrameId} (h : x.reserves g = true) : g ∈ x.pinned := by
  fun_cases reserves g x <;> simp_all [reserves,pinned]

theorem mem_owned_of_unmaps {g : FrameId} (h : x.unmaps g = true) : g ∈ x.owned := by
  fun_cases unmaps g x <;> simp_all [unmaps,owned]

/-- What a thread is about to tell the replacer of a frame, it still is after it has moved on. -/
def Tells (a b : Task) (g : FrameId) : Prop :=
  (a.unmaps g = true → b.unmaps g = true) ∧ (a.reserves g = true → b.reserves g = true) ∧
    (a.settles g = true → b.settles g = true)

/-- A thread has moved on without changing what it holds. -/
structure Quiet (a b : Task) : Prop where
  owned : b.owned = a.owned
  pinned : b.pinned = a.pinned
  mapped : b.mapped ⊆ a.mapped
  labels : b.labels ⊆ a.labels
  anchored : b.anchored = true
  tells : ∀ g, a.Tells b g

theorem Quiet.same {a b : Task} (h : (b.owned,b.pinned,b.mapped,b.labels) = (a.owned,a.pinned,a.mapped,a.labels))
    (hb : b.anchored = true)
    (hg : ∀ g, (b.reserves g,b.settles g,b.unmaps g) = (a.reserves g,a.settles g,a.unmaps g)) : a.Quiet b := by
  simp only [Prod.mk.injEq] at h hg
  obtain ⟨howned,hpinned,hmapped,hlabels⟩ := h
  refine ⟨howned,hpinned,hmapped ▸ List.Subset.refl _,hlabels ▸ List.Subset.refl _,hb,fun g => ?_⟩
  rw [Tells,(hg g).1,(hg g).2.1,(hg g).2.2]
  exact ⟨id,id,id⟩

end Task

namespace BufferPool
variable {P : Type} [EvictionPolicy P]

def owners (c : BufferPool P) (f : FrameId) : Nat :=
  c.freeList.count f + (values c.pageTable).count f + total (fun x => x.owned.count f) c.tasks

def pins (c : BufferPool P) (f : FrameId) : Nat := total (fun x => x.pinned.count f) c.tasks

variable {n : Nat} [LawfulEvictionPolicy P n]

variable (n) in
/-- The replacer tracks a frame that is mapped and may evict it without a pin, up to what threads are about to tell it. -/
structure Tracks (c : BufferPool P) (f : FrameId) : Prop where
  tracked_mapped : tracked n c.replacer f = true → f ∈ values c.pageTable ∨ ∃ x ∈ c.tasks, x.unmaps f = true
  evictable_unpinned : evictable n c.replacer f = true → (c.frames f).pinCount = 0
  mapped_tracked : f ∈ values c.pageTable → tracked n c.replacer f = true ∨ ∃ x ∈ c.tasks, x.reserves f = true
  unpinned_evictable : f ∈ values c.pageTable → (c.frames f).pinCount = 0 →
    evictable n c.replacer f = true ∨ ∃ x ∈ c.tasks, x.settles f = true

variable (n) in
structure Tracking (c : BufferPool P) : Prop where
  valid : Valid n c.replacer
  frames : ∀ f, c.Tracks n f

variable (n) in
/-- What holds in every state of a pool of n frames. A full pool has not lost a frame. -/
structure Inv (full : Prop) (c : BufferPool P) : Prop where
  threads : 2 * c.tasks.length + 1 < 2^32
  size : ∀ f, 0 < c.owners f → f < n
  own : ∀ f, c.owners f ≤ 1
  owned : full → ∀ f < n, 1 ≤ c.owners f
  named : ∀ p f, c.pageTable.lookup p = some f → (c.frames f).pageId = some p
  pinned : ∀ f, (c.frames f).pinCount = c.pins f
  mapped : ∀ x ∈ c.tasks, ∀ pf ∈ x.mapped, c.pageTable.lookup pf.1 = some pf.2
  labels : ∀ x ∈ c.tasks, ∀ pf ∈ x.labels, (c.frames pf.2).pageId = some pf.1
  anchored : ∀ x ∈ c.tasks, x.anchored = true
  tracking : c.Tracking n

section Facts
variable {full : Prop} {c c' : BufferPool P} {t : Nat} {a b : Task} {f g : FrameId} {p : PageId}
variable {x : Task}

omit [EvictionPolicy P] in
theorem owners_set (ha : c.tasks[t]? = some a) (htasks : c'.tasks = c.tasks.set t b) (f : FrameId) :
    c'.owners f + (c.freeList.count f + (values c.pageTable).count f + a.owned.count f) =
      c.owners f + (c'.freeList.count f + (values c'.pageTable).count f + b.owned.count f) := by
  have hset := total_set (·.owned.count f) ha b
  rw [owners,owners,htasks]
  omega

omit [EvictionPolicy P] in
theorem pins_set (ha : c.tasks[t]? = some a) (htasks : c'.tasks = c.tasks.set t b) (f : FrameId) :
    c'.pins f + a.pinned.count f = c.pins f + b.pinned.count f := by
  rw [pins,pins,htasks]
  exact total_set (·.pinned.count f) ha b

omit [EvictionPolicy P] in
theorem le_pins (hx : x ∈ c.tasks) (f : FrameId) : x.pinned.count f ≤ c.pins f :=
  le_total (·.pinned.count f) hx

omit [EvictionPolicy P] in
theorem pins_pos (hx : x ∈ c.tasks) (hf : f ∈ x.pinned) : 0 < c.pins f :=
  (count_pos_iff.mpr hf).trans_le (le_pins hx f)

omit [EvictionPolicy P] in
theorem mem_tasks (ha : c.tasks[t]? = some a) : a ∈ c.tasks := mem_of_getElem? ha

omit [EvictionPolicy P] in
theorem owners_pos_of_lookup (h : c.pageTable.lookup p = some f) : 0 < c.owners f := by
  have hmem : f ∈ values c.pageTable := mem_values_iff.mpr ⟨p,h⟩
  have hcount := count_pos_iff.mpr hmem
  rw [owners]
  omega

omit [EvictionPolicy P] in
theorem owners_pos_of_owned (hx : x ∈ c.tasks) (hf : f ∈ x.owned) : 0 < c.owners f := by
  have hle := le_total (·.owned.count f) hx
  have hcount := count_pos_iff.mpr hf
  rw [owners]
  omega

namespace Inv
variable (h : c.Inv n full)
include h

theorem pin_lt (f : FrameId) : (c.frames f).pinCount + 1 < 2^32 := by
  have hle : c.pins f ≤ 2 * c.tasks.length :=
    total_le (fun x => (count_le_length).trans x.length_pinned_le) c.tasks
  have := h.threads
  rw [h.pinned]
  omega

theorem pin_eq (f : FrameId) : (c.frames f).pin.pinCount = (c.frames f).pinCount + 1 :=
  Nat.mod_eq_of_lt (h.pin_lt f)

theorem unpin_eq (hx : x ∈ c.tasks) (hf : f ∈ x.pinned) :
    0 < (c.frames f).pinCount ∧ (c.frames f).unpin = some { c.frames f with pinCount := (c.frames f).pinCount - 1 } := by
  have hpos : 0 < (c.frames f).pinCount := by
    rw [h.pinned]
    exact pins_pos hx hf
  exact ⟨hpos,if_pos hpos⟩

theorem notMem_of_owned (hx : x ∈ c.tasks) (hf : f ∈ x.owned) : f ∉ values c.pageTable := by
  intro hmem
  have hle := le_total (·.owned.count f) hx
  have hcount := count_pos_iff.mpr hf
  have hvalues := count_pos_iff.mpr hmem
  have hown := h.own f
  rw [owners] at hown
  omega

theorem owned_total (f : FrameId) : total (fun x => x.owned.count f) c.tasks ≤ 1 := by
  have hown := h.own f
  rw [owners] at hown
  omega

theorem notMem_owned {j : Nat} (ha : c.tasks[t]? = some a) (hx : c.tasks[j]? = some x) (hne : t ≠ j)
    (hf : f ∈ x.owned) : f ∉ a.owned := by
  intro hfa
  have hle := add_le_total (fun x : Task => x.owned.count f) ha hx hne
  have hcount := count_pos_iff.mpr hf
  have hcount' := count_pos_iff.mpr hfa
  have htotal := h.owned_total f
  omega

theorem lookup_inj {q : PageId} (hp : c.pageTable.lookup p = some f) (hq : c.pageTable.lookup q = some f) :
    p = q := by
  have hn := h.named p f hp
  rw [h.named q f hq] at hn
  exact (some.inj hn).symm

theorem not_tracked_of_owned (ha : c.tasks[t]? = some a) (hf : f ∈ a.owned) (hu : a.unmaps f = false) :
    tracked n c.replacer f = false := by
  by_contra htr
  rcases (h.tracking.frames f).tracked_mapped (Bool.eq_true_of_not_eq_false htr) with hmem | ⟨x,hx,hxf⟩
  · exact h.notMem_of_owned (mem_tasks ha) hf hmem
  · -- the deleting thread is another one, and it owns the frame too
    obtain ⟨j,hj⟩ := mem_iff_getElem?.mp hx
    have hne : t ≠ j := by
      rintro rfl
      rw [ha] at hj
      cases hj
      rw [hu] at hxf
      cases hxf
    exact h.notMem_owned ha hj hne (Task.mem_owned_of_unmaps hxf) hf

theorem mem_values_erase (hp : c.pageTable.lookup p = some f) :
    g ∈ values (c.pageTable.erase p) ↔ g ∈ values c.pageTable ∧ g ≠ f := by
  have hcount := count_values_erase hp g
  have hown := h.own g
  rw [owners] at hown
  rw [← count_pos_iff,← count_pos_iff]
  split_ifs at hcount with hfg
  · subst hfg
    constructor
    · intro hpos
      omega
    · rintro ⟨-,hne⟩
      exact (hne rfl).elim
  · constructor
    · intro hpos
      exact ⟨by omega,fun heq => hfg heq.symm⟩
    · rintro ⟨hpos,-⟩
      omega

end Inv
end Facts

section Steps
variable {full : Prop} {c c' : BufferPool P} {t : Nat} {a b : Task} {f : FrameId} {p : PageId}

section

variable (h : c.Inv n full) (ha : c.tasks[t]? = some a) (htasks : c'.tasks = c.tasks.set t b)
include h ha htasks

theorem Inv.move (hown : ∀ f, c'.freeList.count f + (values c'.pageTable).count f + b.owned.count f =
      c.freeList.count f + (values c.pageTable).count f + a.owned.count f)
    (hpins : ∀ f, (c'.frames f).pinCount + a.pinned.count f = (c.frames f).pinCount + b.pinned.count f)
    (hnamed : ∀ p f, c'.pageTable.lookup p = some f → (c'.frames f).pageId = some p)
    (hkept : ∀ p f, c.pageTable.lookup p = some f → 0 < (c'.frames f).pinCount → c'.pageTable.lookup p = some f)
    (hb : ∀ pf ∈ b.mapped, c'.pageTable.lookup pf.1 = some pf.2) (hanchored : b.anchored = true)
    (hnames : ∀ f, f ∉ values c.pageTable → f ∉ a.owned → (c'.frames f).pageId = (c.frames f).pageId)
    (hlabels : ∀ pf ∈ b.labels, (c'.frames pf.2).pageId = some pf.1) (htracking : c'.Tracking n) : c'.Inv n full := by
  have heq : ∀ f, c'.owners f = c.owners f := by
    intro f
    have hset := owners_set ha htasks f
    have hold := hown f
    omega
  have hpinned : ∀ f, (c'.frames f).pinCount = c'.pins f := by
    intro f
    have hset := pins_set ha htasks f
    have hold := h.pinned f
    have hnew := hpins f
    omega
  refine ⟨?_,fun f hf => h.size f (heq f ▸ hf),fun f => heq f ▸ h.own f,fun hfull f hf => heq f ▸ h.owned hfull f hf,hnamed,
    hpinned,?_,?_,?_,htracking⟩
  · rw [htasks,length_set]
    exact h.threads
  · intro x hx pf hpf
    -- the threads that have not moved keep their frames pinned
    have hpos : 0 < (c'.frames pf.2).pinCount := by
      rw [hpinned]
      exact pins_pos hx (Task.mem_pinned_of_mapped hpf)
    rw [htasks] at hx
    rcases mem_or_eq_of_mem_set hx with hx | rfl
    · exact hkept _ _ (h.mapped x hx pf hpf) hpos
    · exact hb pf hpf
  · intro x hx pf hpf
    rw [htasks] at hx
    rcases mem_set_cases hx with rfl | ⟨j,hne,hj⟩
    · exact hlabels pf hpf
    · have hown := Task.mem_owned_of_labels hpf
      rw [hnames pf.2 (h.notMem_of_owned (mem_of_getElem? hj) hown) (h.notMem_owned ha hj hne hown)]
      exact h.labels x (mem_of_getElem? hj) pf hpf
  · rw [htasks]
    exact forall_set h.anchored hanchored

theorem Inv.hold (hpt : c'.pageTable = c.pageTable) (hnames : ∀ f, (c'.frames f).pageId = (c.frames f).pageId)
    (hown : ∀ f, c'.freeList.count f + b.owned.count f = c.freeList.count f + a.owned.count f)
    (hpins : ∀ f, (c'.frames f).pinCount + a.pinned.count f = (c.frames f).pinCount + b.pinned.count f)
    (hb : ∀ pf ∈ b.mapped, c.pageTable.lookup pf.1 = some pf.2) (hanchored : b.anchored = true) (hlabels : b.labels ⊆ a.labels)
    (htracking : c'.Tracking n) : c'.Inv n full := by
  refine h.move ha htasks (fun f => ?_) hpins (fun p f hp => ?_) (fun p f hp _ => ?_) ?_ hanchored (fun f _ _ => hnames f)
    (fun pf hpf => ?_) htracking
  · have := hown f
    rw [hpt]
    omega
  · rw [hpt] at hp
    rw [hnames,h.named p f hp]
  · rwa [hpt]
  · rwa [hpt]
  · rw [hnames,h.labels a (mem_tasks ha) pf (hlabels hpf)]

end

section

variable (ha : c.tasks[t]? = some a) (htasks : c'.tasks = c.tasks.set t b)
include ha htasks

theorem Tracks.kept {g : FrameId} (h : c.Tracks n g)
    (hview : tracked n c'.replacer g = tracked n c.replacer g ∧ evictable n c'.replacer g = evictable n c.replacer g)
    (hpt : g ∈ values c'.pageTable ↔ g ∈ values c.pageTable) (hpins : (c'.frames g).pinCount = (c.frames g).pinCount)
    (htells : a.Tells b g) : c'.Tracks n g := by
  obtain ⟨hunmaps,hreserves,hsettles⟩ := htells
  constructor
  · rw [hview.1,hpt,htasks]
    exact fun hg => (h.tracked_mapped hg).imp_right (exists_set · ha hunmaps)
  · rw [hview.2,hpins]
    exact h.evictable_unpinned
  · rw [hview.1,hpt,htasks]
    exact fun hg => (h.mapped_tracked hg).imp_right (exists_set · ha hreserves)
  · rw [hview.2,hpt,hpins,htasks]
    exact fun hg hzero => (h.unpinned_evictable hg hzero).imp_right (exists_set · ha hsettles)

theorem Tracking.quiet (h : c.Tracking n) (hpt : c'.pageTable = c.pageTable) (hreplacer : c'.replacer = c.replacer)
    (hpins : ∀ f, (c'.frames f).pinCount = (c.frames f).pinCount) (htells : ∀ g, a.Tells b g) : c'.Tracking n := by
  refine ⟨hreplacer ▸ h.valid,fun g => (h.frames g).kept ha htasks ?_ (by rw [hpt]) (hpins g) (htells g)⟩
  rw [hreplacer]
  exact ⟨rfl,rfl⟩

/-- A step that changes what the replacer is to know of one frame. -/
theorem Tracking.change (f : FrameId) (h : c.Tracking n) (hvalid : Valid n c'.replacer)
    (hview : ∀ g, g ≠ f → tracked n c'.replacer g = tracked n c.replacer g ∧ evictable n c'.replacer g = evictable n c.replacer g)
    (hpt : ∀ g, g ≠ f → (g ∈ values c'.pageTable ↔ g ∈ values c.pageTable))
    (hpins : ∀ g, g ≠ f → (c'.frames g).pinCount = (c.frames g).pinCount) (htells : ∀ g, g ≠ f → a.Tells b g)
    (hself : c'.Tracks n f) : c'.Tracking n := by
  refine ⟨hvalid,fun g => ?_⟩
  by_cases hg : g = f
  · exact hg ▸ hself
  · exact (h.frames g).kept ha htasks (hview g hg) (hpt g hg) (hpins g hg) (htells g hg)

end

theorem Inv.quiet (h : c.Inv n full) (ha : c.tasks[t]? = some a) (htasks : c'.tasks = c.tasks.set t b) (hab : a.Quiet b)
    (hpt : c'.pageTable = c.pageTable) (hfree : c'.freeList = c.freeList) (hreplacer : c'.replacer = c.replacer)
    (hpins : ∀ f, (c'.frames f).pinCount = (c.frames f).pinCount)
    (hnames : ∀ f, f ∉ a.owned ∨ f ∈ b.labels.map Prod.snd → (c'.frames f).pageId = (c.frames f).pageId) : c'.Inv n full := by
  refine h.move ha htasks ?_ ?_ ?_ ?_ ?_ hab.anchored (fun f _ hf => hnames f (.inl hf)) ?_ ?_
  · intro f
    rw [hfree,hpt,hab.owned]
  · intro f
    rw [hpins,hab.pinned]
  · intro p f hp
    rw [hpt] at hp
    rw [hnames f (.inl (fun hf => h.notMem_of_owned (mem_tasks ha) hf (mem_values_iff.mpr ⟨p,hp⟩)))]
    exact h.named p f hp
  · intro p f hp _
    rw [hpt]
    exact hp
  · intro pf hpf
    rw [hpt]
    exact h.mapped a (mem_tasks ha) pf (hab.mapped hpf)
  · intro pf hpf
    rw [hnames pf.2 (.inr (mem_map_of_mem hpf))]
    exact h.labels a (mem_tasks ha) pf (hab.labels hpf)
  · exact h.tracking.quiet ha htasks hpt hreplacer hpins hab.tells

theorem Inv.retask (h : c.Inv n full) (ha : c.tasks[t]? = some a) (hab : a.Quiet b) : (c.setTask t b).Inv n full :=
  h.quiet ha rfl hab rfl rfl rfl (fun _ => rfl) (fun _ _ => rfl)

theorem update_field {A : Type} (field : Frame → A) {frames : FrameId → Frame} {f : FrameId} {x : Frame}
    (hx : field x = field (frames f)) (g : FrameId) : field (Function.update frames f x g) = field (frames g) := by
  by_cases hg : g = f
  · subst hg
    rw [update_self,hx]
  · rw [update_of_ne hg]

section

variable (h : c.Inv n full) (ha : c.tasks[t]? = some a)
include h ha

theorem Inv.refill (hab : a.Quiet b) {x : Frame}
    (hpin : x.pinCount = (c.frames f).pinCount) (hname : x.pageId = (c.frames f).pageId) :
    ((c.setFrame f x).setTask t b).Inv n full :=
  h.quiet ha rfl hab rfl rfl rfl (update_field Frame.pinCount hpin) (fun g _ => update_field Frame.pageId hname g)

theorem Inv.unname (hab : a.Quiet b) (hf : f ∈ a.owned) (hb : b.labels = []) :
    ((c.setFrame f { c.frames f with pageId := none }).setTask t b).Inv n full := by
  refine h.quiet ha rfl hab rfl rfl rfl (update_field Frame.pinCount rfl) (fun g hg => ?_)
  have hgf : g ≠ f := by
    rintro rfl
    rcases hg with hg | hg
    · exact hg hf
    · rw [hb] at hg
      cases hg
  change (update c.frames f _ g).pageId = _
  rw [update_of_ne hgf]

theorem Inv.leak (hfull : ¬full) (hpinned : a.pinned = []) (e : Error) (htells : ∀ g, a.Tells (.failed e) g) :
    (c.setTask t (.failed e)).Inv n full := by
  have hle : ∀ f, (c.setTask t (.failed e)).owners f ≤ c.owners f := by
    intro f
    have hset := owners_set ha (rfl : (c.setTask t (.failed e)).tasks = _) f
    have hfailed : (Task.failed e).owned.count f = 0 := rfl
    simp only [setTask] at hset ⊢
    omega
  refine ⟨?_,fun f hf => h.size f (hf.trans_le (hle f)),fun f => (hle f).trans (h.own f),fun hf => (hfull hf).elim,h.named,?_,?_,?_,?_,?_⟩
  · rw [setTask,length_set]
    exact h.threads
  · intro f
    have hset := pins_set ha (rfl : (c.setTask t (.failed e)).tasks = _) f
    have hfailed : (Task.failed e).pinned.count f = 0 := rfl
    have hcount : a.pinned.count f = 0 := by rw [hpinned]; rfl
    have hold := h.pinned f
    simp only [setTask] at hset ⊢
    omega
  · exact forall_set h.mapped (forall_mem_nil _)
  · exact forall_set h.labels (forall_mem_nil _)
  · exact forall_set h.anchored rfl
  · exact h.tracking.quiet ha rfl rfl rfl (fun _ => rfl) htells

end

theorem recordSet_spec (env : PolicyEnv) {r : P} (h : Valid n r) (hf : f < n) (p : PageId) (b : Bool) :
    Valid n (setEvictable (recordAccess env r f p) f b) ∧ ∀ g,
      tracked n (setEvictable (recordAccess env r f p) f b) g = (decide (g = f) || tracked n r g) ∧
      evictable n (setEvictable (recordAccess env r f p) f b) g = if g = f then b else evictable n r g := by
  obtain ⟨hrecord,hview⟩ : Valid n (recordAccess env r f p) ∧ _ := recordAccess_spec h hf
  obtain ⟨hset,hboth⟩ := setEvictable_spec (f := f) (b := b) hrecord
  refine ⟨hset,fun g => ⟨by rw [(hboth g).1,(hview g).1],?_⟩⟩
  rw [(hboth g).2,(hview g).2,(hview f).1]
  simp

theorem Tracking.touch {env : PolicyEnv} (h : c.Tracking n) (ha : c.tasks[t]? = some a) (htasks : c'.tasks = c.tasks.set t b)
    (hf : f < n) (hmem : f ∈ values c'.pageTable) (hpin : 0 < (c'.frames f).pinCount)
    (hpt : ∀ g, g ≠ f → (g ∈ values c'.pageTable ↔ g ∈ values c.pageTable))
    (hreplacer : c'.replacer = touch env c.replacer f p)
    (hpins : ∀ g, g ≠ f → (c'.frames g).pinCount = (c.frames g).pinCount) (htells : ∀ g, g ≠ f → a.Tells b g) :
    c'.Tracking n := by
  obtain ⟨hvalid,hview⟩ := recordSet_spec env h.valid hf p false
  rw [BufferPool.touch] at hreplacer
  rw [← hreplacer] at hvalid hview
  refine h.change ha htasks f hvalid (fun g hg => ?_) hpt hpins htells
    ⟨fun _ => .inl hmem,fun hev => ?_,fun _ => .inl ?_,fun _ hzero => ?_⟩
  · rw [(hview g).1,(hview g).2]
    simp [hg]
  · simp [(hview f).2] at hev
  · simp [(hview f).1]
  · omega

theorem Inv.tracking_own (h : c.Inv n full) (ha : c.tasks[t]? = some a) (htasks : c'.tasks = c.tasks.set t b) (hf : f ∈ a.owned)
    (hpt : c'.pageTable = c.pageTable) (hreplacer : c'.replacer = c.replacer)
    (hpins : ∀ g, g ≠ f → (c'.frames g).pinCount = (c.frames g).pinCount)
    (hflags : ∀ g, a.unmaps g = false ∧ a.reserves g = false ∧ a.settles g = false) : c'.Tracking n := by
  have hmem := h.notMem_of_owned (mem_tasks ha) hf
  have htr := h.not_tracked_of_owned ha hf (hflags f).1
  refine h.tracking.change ha htasks f (hreplacer ▸ h.tracking.valid) (fun g hg => by rw [hreplacer]; exact ⟨rfl,rfl⟩)
    (fun g hg => by rw [hpt]) hpins (fun g hg => ?_)
    ⟨fun hft => ?_,fun hev => ?_,fun hft => (hmem (hpt ▸ hft)).elim,fun hft => (hmem (hpt ▸ hft)).elim⟩
  · simp [Task.Tells,hflags g]
  · rw [hreplacer,htr] at hft
    cases hft
  · rw [hreplacer] at hev
    cases htr.symm.trans (tracked_of_evictable h.tracking.valid hev)

end Steps

section Calls
variable {full : Prop} {c c' : BufferPool P} {t : Nat} {f : FrameId} {p : PageId}
variable {access : Access} {use : FrameUse}

private theorem update_ne {frames : FrameId → Frame} (x : Frame) {g : FrameId} (hg : g ≠ f) :
    (Function.update frames f x g).pinCount = (frames g).pinCount := by
  rw [update_of_ne hg]

omit [EvictionPolicy P] in
private theorem update_unpin (x : Frame) (hpos : 0 < (c.frames f).pinCount) (hx : x.pinCount = (c.frames f).pinCount - 1)
    (g : FrameId) : (Function.update c.frames f x g).pinCount + [f].count g = (c.frames g).pinCount := by
  by_cases hg : g = f
  · subst hg
    rw [update_self,count_singleton_self]
    omega
  · rw [update_of_ne hg,count_eq_zero_of_not_mem (by simpa using hg)]
    rfl

private theorem mem_values_insert {pt : AList (fun _ : PageId => FrameId)} (hp : pt.lookup p = none) (f g : FrameId) :
    g ∈ values (pt.insert p f) ↔ g = f ∨ g ∈ values pt := by
  have hcount := count_values_insert hp f g
  rw [← count_pos_iff,← count_pos_iff,hcount]
  split_ifs with hfg
  · exact ⟨fun _ => .inl hfg.symm,fun _ => Nat.succ_pos _⟩
  · exact ⟨fun hpos => .inr hpos,fun hor => hor.resolve_left (fun heq => hfg heq.symm)⟩

private theorem register_spec (env : PolicyEnv) (pin : FrameId → Nat) {es : List (Sigma (fun _ : PageId => FrameId))}
    (hes : ∀ x ∈ es, x.2 < n) {r : P} (hr : Valid n r) :
    Valid n (es.foldl (fun r x => setEvictable (recordAccess env r x.2 x.1) x.2 (pin x.2 == 0)) r) ∧ ∀ g,
      tracked n (es.foldl (fun r x => setEvictable (recordAccess env r x.2 x.1) x.2 (pin x.2 == 0)) r) g =
        (decide (g ∈ es.map (fun x => x.2)) || tracked n r g) ∧
      evictable n (es.foldl (fun r x => setEvictable (recordAccess env r x.2 x.1) x.2 (pin x.2 == 0)) r) g =
        if g ∈ es.map (fun x => x.2) then pin g == 0 else evictable n r g := by
  induction es generalizing r with
  | nil => exact ⟨hr,fun g => ⟨by simp,by simp⟩⟩
  | cons x es ih =>
    obtain ⟨hset,hview⟩ := recordSet_spec env hr (hes x mem_cons_self) x.1 (pin x.2 == 0)
    obtain ⟨hvalid,hrest⟩ := ih (fun y hy => hes y (mem_cons_of_mem _ hy)) hset
    refine ⟨hvalid,fun g => ⟨?_,?_⟩⟩
    · rw [foldl_cons,(hrest g).1,(hview g).1]
      by_cases hg : g = x.2
      · simp [hg]
      · simp only [map_cons,mem_cons,hg,false_or,decide_false,Bool.false_or]
    · rw [foldl_cons,(hrest g).2,(hview g).2]
      by_cases hg : g = x.2
      · simp [hg]
      · simp only [map_cons,mem_cons,hg,false_or,if_false]

variable (h : c.Inv n full)
include h

private theorem update_pin (f g : FrameId) : (Function.update c.frames f (c.frames f).pin g).pinCount =
    (c.frames g).pinCount + [f].count g := by
  by_cases hg : g = f
  · subst hg
    rw [update_self,h.pin_eq,count_singleton_self]
  · rw [update_of_ne hg,count_eq_zero_of_not_mem (by simpa using hg)]
    rfl

theorem Inv.lookup (ha : c.tasks[t]? = some (.lookup p access)) (env : PolicyEnv) :
    (c.lookup env t p access).Inv n full := by
  unfold BufferPool.lookup
  split
  · next f hf =>
    have hmem : f ∈ values c.pageTable := mem_values_iff.mpr ⟨p,hf⟩
    have hsize := h.size f (owners_pos_of_lookup hf)
    refine h.hold ha rfl rfl (update_field Frame.pageId rfl) (fun _ => rfl) (update_pin h f)
      (forall_mem_singleton.mpr hf) rfl (nil_subset _) ?_
    · refine h.tracking.touch ha rfl hsize hmem ?_ (fun g _ => .rfl) rfl ?_ (fun _ _ => ⟨nofun,nofun,nofun⟩)
      · rw [update_pin h,count_singleton_self]
        omega
      · exact fun g hg => update_ne _ hg
  · exact h.retask ha (.same rfl rfl (fun _ => rfl))

theorem Inv.getFreeFrame (ha : c.tasks[t]? = some (.needFrame p use)) :
    (c.getFreeFrame t p use).Inv n full := by
  unfold BufferPool.getFreeFrame
  split
  · next f rest hfree =>
    refine h.hold ha rfl rfl (fun _ => rfl) (fun g => ?_) (fun _ => rfl) (forall_mem_nil _) rfl (nil_subset _) ?_
    · rw [hfree,count_cons]
      simp only [Task.owned,count_cons,count_nil]
      omega
    · exact h.tracking.quiet ha rfl rfl rfl (fun _ => rfl) (fun _ => ⟨id,id,id⟩)
  · exact h.retask ha (.same rfl rfl (fun _ => rfl))

theorem Inv.evict {tries : Nat} (ha : c.tasks[t]? = some (.evict p use tries)) (env : PolicyEnv)
    (hvictim : ∀ f, (evictForPage env c.replacer p).1 = some f → ∀ x ∈ c.tasks, x.unmaps f = false) :
    (c.evict env t p use tries).Inv n full := by
  cases tries with
  | zero =>
    exact h.retask ha (.same rfl rfl (fun _ => rfl))
  | succ tries =>
    rw [BufferPool.evict]
    split
    · next r hnone =>
      have hfst : (evictForPage env c.replacer p).1 = none := by rw [hnone]
      obtain ⟨hvalid,hview⟩ := evictForPage_none h.tracking.valid hfst
      rw [hnone] at hvalid hview
      refine h.hold ha rfl rfl (fun _ => rfl) (fun _ => rfl) (fun _ => rfl) (forall_mem_nil _) rfl (nil_subset _) ?_
      refine ⟨hvalid,fun g => (h.tracking.frames g).kept ha rfl ⟨(hview g).2.1,?_⟩ .rfl rfl ⟨nofun,nofun,nofun⟩⟩
      exact (hview g).2.2.trans (hview g).1.symm
    · next f r hsome =>
      have hfst : (evictForPage env c.replacer p).1 = some f := by rw [hsome]
      obtain ⟨hev,hvalid,hview⟩ := evictForPage_some h.tracking.valid hfst
      rw [hsome] at hvalid hview
      have hzero := (h.tracking.frames f).evictable_unpinned hev
      -- an evictable frame is mapped, since nobody is deleting it
      have hmem : f ∈ values c.pageTable := by
        rcases (h.tracking.frames f).tracked_mapped (tracked_of_evictable h.tracking.valid hev) with hmem | ⟨x,hx,hxf⟩
        · exact hmem
        · rw [hvictim f hfst x hx] at hxf
          cases hxf
      obtain ⟨q,hq⟩ := mem_values_iff.mp hmem
      rw [if_neg (by omega),h.named q f hq]
      refine h.hold ha rfl rfl (update_field Frame.pageId rfl) (fun _ => rfl) (update_pin h f)
        (forall_mem_singleton.mpr hq) rfl (nil_subset _) ?_
      · refine h.tracking.change ha rfl f hvalid (fun g hg => ?_) (fun _ _ => .rfl) (fun g hg => update_ne _ hg)
          (fun _ _ => ⟨nofun,nofun,nofun⟩) ⟨fun _ => .inl hmem,fun hg => ?_,
            fun _ => .inr ⟨_,mem_set_self ha _,by simp [Task.reserves]⟩,fun _ hpin => ?_⟩
        · rw [(hview g).1,(hview g).2]
          simp [hg]
        · simp [(hview f).2] at hg
        · rw [update_pin h,count_singleton_self] at hpin
          omega

theorem Inv.commit {tries : Nat} {old : Option PageId} (ha : c.tasks[t]? = some (.commit p use tries f old))
    {env : PolicyEnv} (hstep : c.commit env t p use tries f old = some c') : c'.Inv n full := by
  obtain ⟨hpos,hunpin⟩ := h.unpin_eq (mem_tasks ha) mem_cons_self
  cases old with
  | none => exact absurd (h.anchored _ (mem_tasks ha)) Bool.false_ne_true
  | some q =>
    have hq : c.pageTable.lookup q = some f := h.mapped _ (mem_tasks ha) (q,f) mem_cons_self
    have hmem : f ∈ values c.pageTable := mem_values_iff.mpr ⟨q,hq⟩
    have hsize := h.size f (owners_pos_of_lookup hq)
    rw [BufferPool.commit,hunpin,map_some,some.injEq] at hstep
    split_ifs at hstep with hused
    · subst hstep
      refine h.hold ha rfl rfl (update_field Frame.pageId rfl) (fun _ => rfl)
        (update_unpin _ hpos rfl) (forall_mem_nil _) rfl (nil_subset _) ?_
      · obtain ⟨hset,hs⟩ := recordSet_spec env h.tracking.valid hsize q ((c.frames f).pinCount - 1 == 0)
        refine h.tracking.change ha rfl f hset (fun g hg => ?_) (fun _ _ => .rfl) (fun g hg => update_ne _ hg)
          (fun g hg => ⟨nofun,fun hres => absurd (beq_iff_eq.mp hres).symm hg,nofun⟩)
          ⟨fun _ => .inl hmem,fun hg => ?_,fun _ => .inl ?_,fun _ hzero => .inl ?_⟩
        · rw [(hs g).1,(hs g).2]
          simp [hg]
        · rw [(hs f).2,if_pos rfl,beq_iff_eq] at hg
          change (update c.frames f _ f).pinCount = 0
          rw [update_self]
          exact hg
        · simp [(hs f).1]
        · change (update c.frames f _ f).pinCount = 0 at hzero
          rw [update_self] at hzero
          rw [(hs f).2,if_pos rfl]
          simpa using hzero
    · subst hstep
      simp only [Bool.or_eq_true,decide_eq_true_eq,not_or,not_lt,Nat.le_zero] at hused
      have hframes : ∀ g, (update c.frames f { c.frames f with pinCount := (c.frames f).pinCount - 1, pageId := none } g).pinCount
          + [f].count g = (c.frames g).pinCount := update_unpin _ hpos rfl
      refine h.move ha rfl ?_ hframes ?_ ?_ (forall_mem_nil _) rfl ?_ (forall_mem_nil _) ?_
      · intro g
        have hcount := count_values_erase hq g
        simp only [Task.owned,count_cons,count_nil,beq_iff_eq]
        omega
      · intro q' g hq'
        obtain ⟨hne,hold⟩ := lookup_erase_cases hq'
        have hgf : g ≠ f := by
          rintro rfl
          exact hne (h.lookup_inj hold hq)
        change (update c.frames f _ g).pageId = some q'
        rw [update_of_ne hgf]
        exact h.named q' g hold
      · -- the frame has no pin left, so no other thread relies on the entry that is removed
        intro q' g hq' hpin
        have hgf : g ≠ f := by
          rintro rfl
          change 0 < (update c.frames g _ g).pinCount at hpin
          rw [update_self] at hpin
          dsimp only at hpin
          omega
        have hne : q' ≠ q := by
          rintro rfl
          rw [hq] at hq'
          exact hgf (some.inj hq').symm
        dsimp only
        rw [lookup_erase_ne hne]
        exact hq'
      · intro g hg _
        have hgf : g ≠ f := fun heq => hg (heq ▸ hmem)
        change (update c.frames f _ g).pageId = _
        rw [update_of_ne hgf]
      · obtain ⟨hvalid,hview⟩ : Valid n (remove c.replacer f) ∧ _ := remove_spec h.tracking.valid
        have hgone : f ∉ values (c.pageTable.erase q) := fun hf => ((h.mem_values_erase hq).mp hf).2 rfl
        refine h.tracking.change ha rfl f hvalid (fun g hg => ?_) (fun g hg => (h.mem_values_erase hq).trans (and_iff_left hg))
          (fun g hg => update_ne _ hg)
          (fun g hg => ⟨nofun,fun hres => absurd (beq_iff_eq.mp hres).symm hg,nofun⟩)
          ⟨fun hg => ?_,fun hg => ?_,fun hf => (hgone hf).elim,fun hf => (hgone hf).elim⟩
        · rw [(hview g).1,(hview g).2]
          simp [hg]
        · simp [(hview f).1] at hg
        · simp [(hview f).2] at hg

theorem Inv.name (ha : c.tasks[t]? = some (.name p use f)) :
    ((c.setFrame f { c.frames f with pageId := some p }).setTask t (.pin p use f)).Inv n full := by
  have hmem : f ∉ values c.pageTable := h.notMem_of_owned (mem_tasks ha) mem_cons_self
  have hpins : ∀ g, (update c.frames f { c.frames f with pageId := some p } g).pinCount = (c.frames g).pinCount :=
    update_field Frame.pinCount rfl
  have hnames : ∀ g, g ≠ f → (update c.frames f { c.frames f with pageId := some p } g).pageId = (c.frames g).pageId :=
    fun g hg => by rw [update_of_ne hg]
  refine h.move ha rfl (fun _ => rfl) (fun g => ?_) ?_ (fun q g hq _ => hq) (forall_mem_nil _) rfl ?_ ?_ ?_
  · exact congrArg (fun k => k + 0) (hpins g)
  · intro q g hq
    exact (hnames g (fun heq => hmem (heq ▸ mem_values_iff.mpr ⟨q,hq⟩))).trans (h.named q g hq)
  · exact fun g _ hg => hnames g (fun heq => hg (heq ▸ mem_cons_self))
  · intro pf hpf
    cases mem_singleton.mp hpf
    change (update c.frames f _ f).pageId = some p
    rw [update_self]
  · exact h.tracking.quiet ha rfl rfl rfl hpins (fun _ => ⟨id,id,id⟩)

theorem Inv.pin (ha : c.tasks[t]? = some (.pin p use f)) :
    ((c.setFrame f (c.frames f).pin).setTask t (.publish p use f)).Inv n full := by
  refine h.hold ha rfl rfl (update_field Frame.pageId rfl) (fun _ => rfl) (update_pin h f) (forall_mem_nil _) rfl
    (.refl _) ?_
  exact h.tracking_own ha rfl mem_cons_self rfl rfl (fun g hg => update_ne _ hg) (fun _ => ⟨rfl,rfl,rfl⟩)

theorem Inv.publish (ha : c.tasks[t]? = some (.publish p use f)) (env : PolicyEnv)
    (hfree : use = .create → c.pageTable.lookup p = none) : (c.publish env t p f use).Inv n full := by
  have hmem : f ∉ values c.pageTable := h.notMem_of_owned (mem_tasks ha) mem_cons_self
  have hsize := h.size f (owners_pos_of_owned (mem_tasks ha) mem_cons_self)
  have hpin := (h.unpin_eq (f := f) (mem_tasks ha) mem_cons_self).1
  have hlabel : (c.frames f).pageId = some p := h.labels _ (mem_tasks ha) (p,f) mem_cons_self
  -- inserting the page of the frame under a name that is not taken
  have hown : c.pageTable.lookup p = none → ∀ g, c.freeList.count g + (values (c.pageTable.insert p f)).count g + 0 =
      c.freeList.count g + (values c.pageTable).count g + [f].count g := by
    intro hp g
    rw [count_values_insert hp]
    simp only [count_cons,count_nil,beq_iff_eq]
    omega
  have hnamed : ∀ q g, (c.pageTable.insert p f).lookup q = some g → (c.frames g).pageId = some q := by
    intro q g hq
    rcases lookup_insert_cases hq with ⟨rfl,rfl⟩ | ⟨-,hq⟩
    · exact hlabel
    · exact h.named q g hq
  have hkept : c.pageTable.lookup p = none → ∀ q g, c.pageTable.lookup q = some g → 0 < (c.frames g).pinCount →
      (c.pageTable.insert p f).lookup q = some g := by
    intro hp q g hq _
    have hqp : q ≠ p := by
      rintro rfl
      rw [hp] at hq
      cases hq
    rw [lookup_insert_ne hqp]
    exact hq
  cases use with
  | load access =>
    rw [publish]
    split
    · next winner hwinner =>
      have hwmem : winner ∈ values c.pageTable := mem_values_iff.mpr ⟨p,hwinner⟩
      refine h.hold ha rfl rfl (update_field Frame.pageId rfl) (fun _ => rfl) (fun g => ?_)
        (forall_mem_singleton.mpr hwinner) rfl (nil_subset _) ?_
      · have hupdate := update_pin h winner g
        simp only [Task.pinned,count_cons,count_nil] at hupdate ⊢
        omega
      · refine h.tracking.touch ha rfl (h.size _ (owners_pos_of_lookup hwinner)) hwmem ?_ (fun g _ => .rfl) rfl
          (fun g hg => update_ne _ hg) (fun _ _ => ⟨nofun,nofun,nofun⟩)
        rw [update_pin h,count_singleton_self]
        omega
    · next hp =>
      refine h.move ha rfl (hown hp) (fun _ => rfl) hnamed (hkept hp) (forall_mem_singleton.mpr (lookup_insert _)) rfl
        (fun _ _ _ => rfl) (forall_mem_nil _) ?_
      · refine h.tracking.touch ha rfl hsize ((mem_values_insert hp f f).mpr (.inl rfl)) hpin ?_ rfl (fun _ _ => rfl)
          (fun _ _ => ⟨nofun,nofun,nofun⟩)
        exact fun g hg => (mem_values_insert hp f g).trans (or_iff_right hg)
  | create =>
    have hp := hfree rfl
    refine h.move ha rfl (hown hp) (fun _ => rfl) hnamed (hkept hp) (forall_mem_singleton.mpr (lookup_insert _)) rfl
      (fun _ _ _ => rfl) (forall_mem_nil _) ?_
    · refine h.tracking.change ha rfl f h.tracking.valid (fun _ _ => ⟨rfl,rfl⟩)
        (fun g hg => (mem_values_insert hp f g).trans (or_iff_right hg)) (fun _ _ => rfl)
        (fun _ _ => ⟨nofun,nofun,nofun⟩)
        ⟨fun _ => .inl ((mem_values_insert hp f f).mpr (.inl rfl)),(h.tracking.frames f).evictable_unpinned,
          fun _ => .inr ⟨_,mem_set_self ha _,beq_self_eq_true f⟩,fun _ hzero => ?_⟩
      change (c.frames f).pinCount = 0 at hzero
      omega

theorem Inv.record (ha : c.tasks[t]? = some (.record p f)) (env : PolicyEnv) :
    BufferPool.Inv n full { c with replacer := touch env c.replacer f p, tasks := c.tasks.set t (.latch p .write f) } := by
  have hp : c.pageTable.lookup p = some f := h.mapped _ (mem_tasks ha) (p,f) mem_cons_self
  have hpin := (h.unpin_eq (f := f) (mem_tasks ha) mem_cons_self).1
  refine h.hold ha rfl rfl (fun _ => rfl) (fun _ => rfl) (fun _ => rfl) (forall_mem_singleton.mpr hp) rfl (nil_subset _) ?_
  · refine h.tracking.touch ha rfl (h.size f (owners_pos_of_lookup hp)) (mem_values_iff.mpr ⟨p,hp⟩) hpin (fun g _ => .rfl) rfl
      (fun _ _ => rfl) (fun g hg => ⟨nofun,fun hres => absurd (beq_iff_eq.mp hres).symm hg,nofun⟩)

theorem Inv.unpinPage (ha : c.tasks[t]? = some (.unpin p f)) (hstep : c.unpinPage t f = some c') :
    c'.Inv n full := by
  obtain ⟨hpos,hunpin⟩ := h.unpin_eq (mem_tasks ha) mem_cons_self
  rw [BufferPool.unpinPage,hunpin,map_some,some.injEq] at hstep
  subst hstep
  have hpins := update_unpin (c := c) (f := f) { c.frames f with pinCount := (c.frames f).pinCount - 1 } hpos rfl
  have hb : ∀ q : Prop, ∀ [Decidable q], (if q then Task.settle f else Task.idle).pinned = [] ∧
      (if q then Task.settle f else Task.idle).owned = [] ∧ (if q then Task.settle f else Task.idle).mapped = [] ∧
      (if q then Task.settle f else Task.idle).labels = [] ∧ (if q then Task.settle f else Task.idle).anchored = true := by
    intro q _
    split_ifs <;> exact ⟨rfl,rfl,rfl,rfl,rfl⟩
  obtain ⟨hbp,hbo,hbm,hbl,hba⟩ := hb ((c.frames f).pinCount - 1 = 0)
  refine h.hold ha rfl rfl (update_field Frame.pageId rfl) (fun g => hbo ▸ rfl) (fun g => hbp ▸ hpins g) (hbm ▸ forall_mem_nil _) hba (hbl ▸ nil_subset _) ?_
  · have hmapped : c.pageTable.lookup p = some f := h.mapped _ (mem_tasks ha) (p,f) mem_cons_self
    refine h.tracking.change ha rfl f h.tracking.valid (fun _ _ => ⟨rfl,rfl⟩) (fun _ _ => .rfl) (fun g hg => update_ne _ hg)
      (fun _ _ => ⟨nofun,nofun,nofun⟩) ⟨fun _ => .inl (mem_values_iff.mpr ⟨p,hmapped⟩),fun hev => ?_,
        fun hf => ?_,fun _ hzero => .inr ⟨_,mem_set_self ha _,?_⟩⟩
    · have := (h.tracking.frames f).evictable_unpinned hev
      omega
    · exact ((h.tracking.frames f).mapped_tracked hf).imp_right (fun hx => exists_set hx ha nofun)
    · change (update c.frames f _ f).pinCount = 0 at hzero
      rw [update_self] at hzero
      rw [if_pos hzero]
      exact beq_self_eq_true f

theorem Inv.settle (ha : c.tasks[t]? = some (.settle f)) : (c.settle t f).Inv n full := by
  obtain ⟨hvalid,hview⟩ : Valid n (setEvictable c.replacer f ((c.frames f).pinCount == 0)) ∧ _ :=
    setEvictable_spec h.tracking.valid
  refine h.hold ha rfl rfl (fun _ => rfl) (fun _ => rfl) (fun _ => rfl) (forall_mem_nil _) rfl (nil_subset _) ?_
  have hkeep : ∀ q : Task → Bool, q (.settle f) = false → (∃ x ∈ c.tasks, q x = true) → ∃ x ∈ (c.settle t f).tasks, q x = true :=
    fun q hq hx => exists_set hx ha (fun h => by rw [hq] at h; cases h)
  refine h.tracking.change ha rfl f hvalid (fun g hg => ?_) (fun _ _ => .rfl) (fun _ _ => rfl)
    (fun g hg => ⟨nofun,nofun,fun hs => absurd (beq_iff_eq.mp hs).symm hg⟩)
    ⟨fun htr => ?_,fun hev => ?_,fun hf => ?_,fun hf hzero => .inl ?_⟩
  · rw [BufferPool.settle,(hview g).1,(hview g).2,if_neg hg]
    exact ⟨rfl,rfl⟩
  · rw [BufferPool.settle,(hview f).1] at htr
    exact ((h.tracking.frames f).tracked_mapped htr).imp_right (hkeep _ rfl)
  · rw [BufferPool.settle,(hview f).2,if_pos rfl,Bool.and_eq_true,beq_iff_eq] at hev
    exact hev.1
  · rw [BufferPool.settle,(hview f).1]
    exact ((h.tracking.frames f).mapped_tracked hf).imp_right (hkeep _ rfl)
  · change (c.frames f).pinCount = 0 at hzero
    rw [BufferPool.settle,(hview f).2,if_pos rfl]
    -- no thread reserves a frame without pins, so it is tracked
    rcases (h.tracking.frames f).mapped_tracked hf with htr | ⟨x,hx,hxf⟩
    · rw [htr,hzero]
      rfl
    · have hpos := pins_pos hx (Task.mem_pinned_of_reserves hxf)
      rw [h.pinned] at hzero
      omega

theorem Inv.lost {stage : LostStage} {winner : FrameId}
    (ha : c.tasks[t]? = some (.lost stage p access f winner)) (hstep : c.lost t p access f winner stage = some c') :
    c'.Inv n full := by
  have hmapped := h.mapped _ (mem_tasks ha)
  cases stage with
  | unpin =>
    obtain ⟨hpos,hunpin⟩ := h.unpin_eq (mem_tasks ha) mem_cons_self
    rw [BufferPool.lost,hunpin,map_some,some.injEq] at hstep
    subst hstep
    have hpins := update_unpin (c := c) (f := f) { c.frames f with pinCount := (c.frames f).pinCount - 1 } hpos rfl
    refine h.hold ha rfl rfl (update_field Frame.pageId rfl) (fun _ => rfl) (fun g => ?_) hmapped rfl (nil_subset _) ?_
    · have hupdate := hpins g
      change (update c.frames f _ g).pinCount + _ = _
      simp only [Task.pinned,count_cons,count_nil] at hupdate ⊢
      omega
    · exact h.tracking_own ha rfl mem_cons_self rfl rfl (fun g hg => update_ne _ hg) (fun _ => ⟨rfl,rfl,rfl⟩)
  | unname =>
    cases hstep
    exact h.unname ha (.same rfl rfl (fun _ => rfl)) mem_cons_self rfl
  | clean =>
    cases hstep
    exact h.refill (b := .lost .free p access f winner) ha (.same rfl rfl (fun _ => rfl)) rfl rfl
  | free =>
    cases hstep
    refine h.hold ha rfl rfl (fun _ => rfl) (fun g => ?_) (fun _ => rfl) hmapped rfl (nil_subset _) ?_
    · simp only [Task.owned,count_cons,count_nil]
      omega
    · exact h.tracking.quiet ha rfl rfl rfl (fun _ => rfl) (fun _ => ⟨id,id,id⟩)

theorem Inv.delete (ha : c.tasks[t]? = some (.delete p)) : (c.delete t p).Inv n full := by
  unfold BufferPool.delete
  split
  · exact h.retask ha (.same rfl rfl (fun _ => rfl))
  · next f hf =>
    split_ifs with hpin
    · exact h.retask ha (.same rfl rfl (fun _ => rfl))
    · refine h.move ha rfl ?_ (fun _ => rfl) ?_ ?_ (forall_mem_nil _) rfl (fun _ _ _ => rfl) (forall_mem_nil _) ?_
      · intro g
        have hcount := count_values_erase hf g
        simp only [Task.owned,count_cons,count_nil,beq_iff_eq]
        omega
      · exact fun q g hq => h.named q g (lookup_erase_cases hq).2
      · intro q g hq hpos
        have hqp : q ≠ p := by
          rintro rfl
          rw [hf] at hq
          cases hq
          exact hpin hpos
        dsimp only
        rw [lookup_erase_ne hqp]
        exact hq
      · have hgone : f ∉ values (c.pageTable.erase p) := fun hmem => ((h.mem_values_erase hf).mp hmem).2 rfl
        exact h.tracking.change ha rfl f h.tracking.valid (fun _ _ => ⟨rfl,rfl⟩)
          (fun g hg => (h.mem_values_erase hf).trans (and_iff_left hg)) (fun _ _ => rfl) (fun _ _ => ⟨nofun,nofun,nofun⟩)
          ⟨fun _ => .inr ⟨_,mem_set_self ha _,beq_self_eq_true f⟩,(h.tracking.frames f).evictable_unpinned,
            fun hmem => (hgone hmem).elim,fun hmem => (hgone hmem).elim⟩

theorem Inv.deleting {stage : DeleteStage} (ha : c.tasks[t]? = some (.deleting stage f)) :
    (c.deleting t f stage).Inv n full := by
  have hmem : f ∉ values c.pageTable := h.notMem_of_owned (mem_tasks ha) mem_cons_self
  cases stage with
  | unname =>
    exact h.unname ha (.same rfl rfl (fun _ => rfl)) mem_cons_self rfl
  | clean =>
    exact h.refill (b := .deleting .untrack f) ha (.same rfl rfl (fun _ => rfl)) rfl rfl
  | untrack =>
    obtain ⟨hvalid,hview⟩ : Valid n (remove c.replacer f) ∧ _ := remove_spec h.tracking.valid
    refine h.hold ha rfl rfl (fun _ => rfl) (fun _ => rfl) (fun _ => rfl) (forall_mem_nil _) rfl (nil_subset _) ?_
    refine h.tracking.change ha rfl f hvalid (fun g hg => ?_) (fun _ _ => .rfl) (fun _ _ => rfl)
      (fun g hg => ⟨fun hu => absurd (beq_iff_eq.mp hu).symm hg,nofun,nofun⟩)
      ⟨fun htr => ?_,fun hev => ?_,fun hf => (hmem hf).elim,fun hf => (hmem hf).elim⟩
    · rw [BufferPool.deleting,(hview g).1,(hview g).2]
      simp [hg]
    · rw [BufferPool.deleting,(hview f).1] at htr
      simp at htr
    · rw [BufferPool.deleting,(hview f).2] at hev
      simp at hev
  | free =>
    refine h.hold ha rfl rfl (fun _ => rfl) (fun g => ?_) (fun _ => rfl) (forall_mem_nil _) rfl (nil_subset _) ?_
    · simp only [BufferPool.deleting,Task.owned,count_cons,count_nil]
      omega
    · exact h.tracking.quiet ha rfl rfl rfl (fun _ => rfl) (fun _ => ⟨id,id,id⟩)

theorem Inv.swapPolicy (env : PolicyEnv) {newPolicy : P} (hfresh : Fresh n newPolicy) (mode : SwapMode) :
    (c.swapPolicy env newPolicy mode).Inv n full := by
  have hsize : ∀ x ∈ c.pageTable.entries, x.2 < n := by
    intro x hx
    exact h.size x.2 (owners_pos_of_lookup (p := x.1) (mem_lookup_iff.mpr hx))
  -- what the old policy knew does not make the new one track a frame
  obtain ⟨r,hr,hrep⟩ : ∃ r, Fresh n r ∧ (c.swapPolicy env newPolicy mode).replacer =
      c.pageTable.entries.foldl (fun r x => setEvictable (recordAccess env r x.2 x.1) x.2 ((c.frames x.2).pinCount == 0)) r := by
    cases mode with
    | cold => exact ⟨newPolicy,hfresh,rfl⟩
    | warm =>
      obtain ⟨hvalid,hview⟩ : Valid n (importState newPolicy (exportState env c.replacer)) ∧ _ := importState_spec hfresh.1
      exact ⟨_,⟨hvalid,fun g => (hview g).1.trans (hfresh.2 g)⟩,rfl⟩
  obtain ⟨hvalid,hview⟩ := register_spec env (fun f => (c.frames f).pinCount) hsize hr.1
  refine ⟨h.threads,h.size,h.own,h.owned,h.named,h.pinned,h.mapped,h.labels,h.anchored,hrep ▸ hvalid,fun g => ⟨fun hg => ?_,fun hg => ?_,fun hg => .inl ?_,fun hg hzero => .inl ?_⟩⟩
  · rw [hrep,(hview g).1,hr.2,Bool.or_false,decide_eq_true_eq] at hg
    exact .inl hg
  · rw [hrep,(hview g).2] at hg
    split_ifs at hg
    · exact beq_iff_eq.mp hg
    · have htr := tracked_of_evictable hr.1 hg
      rw [hr.2] at htr
      cases htr
  · change g ∈ c.pageTable.entries.map (·.2) at hg
    rw [hrep,(hview g).1,decide_eq_true hg]
    rfl
  · change g ∈ c.pageTable.entries.map (·.2) at hg
    rw [hrep,(hview g).2,if_pos hg]
    exact beq_iff_eq.mpr hzero

end Calls

end BufferPool
end InterchangeDb
