import InterchangeDb.Buffer.Policy
import InterchangeDb.Lib.Run
import InterchangeDb.Lib.Threads

/-! The buffer pool with any number of threads. A step is one lock section or one atomic operation of a call. -/
namespace InterchangeDb

def pageSize : Nat := 4096

abbrev Page := Fin pageSize → Byte

structure Frame where
  page : Page
  pageId : Option PageId
  pinCount : Nat
  isDirty : Bool

namespace Frame

def new : Frame := ⟨0, none, 0, false⟩

/-- The counter has 32 bits and wraps around. -/
def pin (x : Frame) : Frame := { x with pinCount := (x.pinCount + 1) % 2^32 }

/-- Asserts that the frame was pinned. -/
def unpin (x : Frame) : Option Frame := if 0 < x.pinCount then some { x with pinCount := x.pinCount - 1 } else none

end Frame

inductive Access where
  | read
  | write
  deriving DecidableEq, Repr

/-- What a frame is taken for: a page to load, or a page just allocated. -/
inductive FrameUse where
  | load (access : Access)
  | create
  deriving DecidableEq, Repr

/-- Who called flush_frame. -/
inductive FlushFor where
  | evict (page : PageId) (use : FrameUse) (tries : Nat)
  | page
  | all (rest : List (PageId × FrameId))
  deriving DecidableEq, Repr

/-- A loader that lost the race for its page gives its own frame back. -/
inductive LostStage where
  | unpin
  | unname
  | clean
  | free
  deriving DecidableEq, Repr

inductive DeleteStage where
  | unname
  | clean
  | untrack
  | free
  deriving DecidableEq, Repr

/-- Where a thread stands: the step it takes next. -/
inductive Task where
  | idle
  | failed (error : Error)
  -- fetch_page_internal
  | lookup (p : PageId) (access : Access)
  | needFrame (p : PageId) (use : FrameUse)
  -- evict_page: phase 1, and phase 3 with the reserved frame and its page
  | evict (p : PageId) (use : FrameUse) (tries : Nat)
  | commit (p : PageId) (use : FrameUse) (tries : Nat) (f : FrameId) (old : Option PageId)
  -- handle_cache_miss and fetch_page_write_new, with their frame
  | granted (p : PageId) (use : FrameUse) (f : FrameId)
  | copy (p : PageId) (access : Access) (f : FrameId) (data : Page)
  | name (p : PageId) (use : FrameUse) (f : FrameId)
  | pin (p : PageId) (use : FrameUse) (f : FrameId)
  | publish (p : PageId) (use : FrameUse) (f : FrameId)
  | lost (stage : LostStage) (p : PageId) (access : Access) (f winner : FrameId)
  | record (p : PageId) (f : FrameId)
  | latch (p : PageId) (access : Access) (f : FrameId)
  -- a live guard, and its drop
  | holding (p : PageId) (access : Access) (f : FrameId)
  | markDirty (p : PageId) (f : FrameId)
  | unpin (p : PageId) (f : FrameId)
  | settle (f : FrameId)
  | allocate
  | flushLookup (p : PageId)
  | flushAllLookup
  | flushCheck (f : FrameId) (q : PageId) (caller : FlushFor)
  | flushWrite (f : FrameId) (q : PageId) (caller : FlushFor)
  | flushClear (f : FrameId) (q : PageId) (caller : FlushFor)
  | delete (p : PageId)
  | deleting (stage : DeleteStage) (f : FrameId)

inductive PoolCall where
  | fetch (p : PageId) (access : Access)
  | newPage
  | flushPage (p : PageId)
  | flushAllPages
  | deletePage (p : PageId)
  deriving DecidableEq, Repr

def PoolCall.task : PoolCall → Task
  | .fetch p access => .lookup p access
  | .newPage => .allocate
  | .flushPage p => .flushLookup p
  | .flushAllPages => .flushAllLookup
  | .deletePage p => .delete p

inductive SwapMode where
  | cold
  | warm
  deriving DecidableEq, Repr

/-- What a step takes from outside: the policy's surroundings, and whether the disk fails; a write
that fails leaves any contents behind. -/
structure StepEnv where
  policy : PolicyEnv
  fails : Bool
  torn : Page

inductive PoolLabel (P : Type) where
  | start (thread : Nat) (call : PoolCall)
  | next (thread : Nat) (env : StepEnv)
  /-- Through a live write guard. -/
  | write (thread : Nat) (page : Page)
  | drop (thread : Nat)
  | swapPolicy (env : PolicyEnv) (newPolicy : P) (mode : SwapMode)

structure BufferPool (P : Type) where
  poolSize : Nat
  frames : FrameId → Frame
  pageTable : AList (fun _ : PageId => FrameId)
  /-- The top of the stack first. -/
  freeList : List FrameId
  replacer : P
  disk : List Page
  tasks : List Task

namespace Task

/-- Holds the page lock of the frame for writing. -/
def writes (g : FrameId) : Task → Bool
  | holding _ .write f => f == g
  | _ => false

def holds (g : FrameId) : Task → Bool
  | holding _ _ f => f == g
  | _ => false

/-- No call is running in the thread. -/
def atRest : Task → Bool
  | idle => true
  | failed _ => true
  | holding _ _ _ => true
  | _ => false

end Task

namespace BufferPool
variable {P : Type} [EvictionPolicy P]
open EvictionPolicy

omit [EvictionPolicy P] in
def new (poolSize : Nat) (replacer : P) (disk : List Page) (threads : Nat) : BufferPool P :=
  ⟨poolSize, fun _ => .new, ∅, (List.range poolSize).reverse, replacer, disk, List.replicate threads .idle⟩

variable (c : BufferPool P)

def setTask (t : Nat) (x : Task) : BufferPool P := { c with tasks := c.tasks.set t x }

def setFrame (f : FrameId) (x : Frame) : BufferPool P := { c with frames := Function.update c.frames f x }

/-- Nobody holds the page lock, or nobody holds it for writing. -/
def latchFree (access : Access) (f : FrameId) : Bool :=
  match access with
  | .read => c.tasks.all (fun x => !x.writes f)
  | .write => c.tasks.all (fun x => !x.holds f)

variable (env : PolicyEnv)

/-- The replacer section of a hit. -/
def touch (r : P) (f : FrameId) (p : PageId) : P := setEvictable (recordAccess env r f p) f false

def lookup (env : PolicyEnv) (c : BufferPool P) (t : Nat) (p : PageId) (access : Access) : BufferPool P :=
  match c.pageTable.lookup p with
  | some f => { c with
      frames := Function.update c.frames f (c.frames f).pin
      replacer := touch env c.replacer f p
      tasks := c.tasks.set t (.latch p access f) }
  | none => c.setTask t (.needFrame p (.load access))

def maxEvictRetries : Nat := 64

def getFreeFrame (t : Nat) (p : PageId) (use : FrameUse) : BufferPool P :=
  match c.freeList with
  | f::rest => { c with freeList := rest, tasks := c.tasks.set t (.granted p use f) }
  | [] => c.setTask t (.evict p use maxEvictRetries)

/-- Select and reserve a victim. -/
def evict (env : PolicyEnv) (c : BufferPool P) (t : Nat) (p : PageId) (use : FrameUse) : Nat → BufferPool P
  | 0 => c.setTask t (.failed .noFreeFrames)
  | tries+1 =>
    match evictForPage env c.replacer p with
    | (none, r) => { c with replacer := r, tasks := c.tasks.set t (.failed .noFreeFrames) }
    | (some f, r) =>
      if 0 < (c.frames f).pinCount then { c with replacer := r, tasks := c.tasks.set t (.evict p use tries) }
      else { c with
        frames := Function.update c.frames f (c.frames f).pin
        replacer := r
        tasks := c.tasks.set t (match (c.frames f).pageId with
          | some q => .flushCheck f q (.evict p use tries)
          | none => .commit p use tries f none) }

/-- Drop the reservation; keep the frame if it was used or written meanwhile, else unmap it. -/
def commit (c : BufferPool P) (t : Nat) (p : PageId) (use : FrameUse) (tries : Nat) (f : FrameId)
    (old : Option PageId) : Option (BufferPool P) :=
  (c.frames f).unpin.map (fun x =>
    if 0 < x.pinCount || x.isDirty then { c with
      frames := Function.update c.frames f x
      replacer := match old with
        | some q => setEvictable (recordAccess env c.replacer f q) f (x.pinCount == 0)
        | none => c.replacer
      tasks := c.tasks.set t (.evict p use tries) }
    else { c with
      frames := Function.update c.frames f { x with pageId := none }
      replacer := remove c.replacer f
      pageTable := match old with
        | some q => c.pageTable.erase q
        | none => c.pageTable
      tasks := c.tasks.set t (.granted p use f) })

/-- A page to load is read from disk; a new page is zeroed. A failed read returns at once. -/
def granted (env : StepEnv) (c : BufferPool P) (t : Nat) (p : PageId) (f : FrameId) : FrameUse → Option (BufferPool P)
  | .load access =>
    some (if env.fails then c.setTask t (.failed (.io "read failed"))
    else match c.disk[p]? with
      | none => c.setTask t (.failed (.pageNotFound p))
      | some data => c.setTask t (.copy p access f data))
  | .create =>
    if c.latchFree .write f then
      some ((c.setFrame f { c.frames f with page := 0 }).setTask t (.name p .create f))
    else none

/-- Publish the frame, or adopt the frame of a faster loader. A new page is inserted without asking. -/
def publish (c : BufferPool P) (t : Nat) (p : PageId) (f : FrameId) : FrameUse → BufferPool P
  | .load access =>
    match c.pageTable.lookup p with
    | some winner => { c with
        frames := Function.update c.frames winner (c.frames winner).pin
        replacer := touch env c.replacer winner p
        tasks := c.tasks.set t (.lost .unpin p access f winner) }
    | none => { c with
        pageTable := c.pageTable.insert p f
        replacer := touch env c.replacer f p
        tasks := c.tasks.set t (.latch p access f) }
  | .create => { c with
      pageTable := c.pageTable.insert p f
      tasks := c.tasks.set t (.record p f) }

def lost (c : BufferPool P) (t : Nat) (p : PageId) (access : Access) (f winner : FrameId) : LostStage → Option (BufferPool P)
  | .unpin => (c.frames f).unpin.map (fun x => (c.setFrame f x).setTask t (.lost .unname p access f winner))
  | .unname => some ((c.setFrame f { c.frames f with pageId := none }).setTask t (.lost .clean p access f winner))
  | .clean => some ((c.setFrame f { c.frames f with isDirty := false }).setTask t (.lost .free p access f winner))
  | .free => some { c with freeList := f :: c.freeList, tasks := c.tasks.set t (.latch p access winner) }

def unpinPage (t : Nat) (f : FrameId) : Option (BufferPool P) :=
  (c.frames f).unpin.map (fun x => (c.setFrame f x).setTask t (if x.pinCount = 0 then .settle f else .idle))

/-- The pin count is read inside the replacer's lock. -/
def settle (t : Nat) (f : FrameId) : BufferPool P :=
  { c with
    replacer := setEvictable c.replacer f ((c.frames f).pinCount == 0)
    tasks := c.tasks.set t .idle }

def afterFlush (f : FrameId) (q : PageId) : FlushFor → Task
  | .evict p use tries => .commit p use tries f (some q)
  | .page => .idle
  | .all [] => .idle
  | .all ((q, f)::rest) => .flushCheck f q (.all rest)

def flushWrite (env : StepEnv) (c : BufferPool P) (t : Nat) (f : FrameId) (q : PageId) (caller : FlushFor) :
    Option (BufferPool P) :=
  if c.latchFree .read f then
    some (if env.fails then
      { c with disk := c.disk.set q env.torn, tasks := c.tasks.set t (.failed (.io "write failed")) }
    else if c.disk.length ≤ q then c.setTask t (.failed (.pageNotFound q))
    else { c with disk := c.disk.set q (c.frames f).page, tasks := c.tasks.set t (.flushClear f q caller) })
  else none

def delete (t : Nat) (p : PageId) : BufferPool P :=
  match c.pageTable.lookup p with
  | none => c.setTask t .idle
  | some f =>
    if 0 < (c.frames f).pinCount then c.setTask t (.failed (.pageNotPinned p))
    else { c with pageTable := c.pageTable.erase p, tasks := c.tasks.set t (.deleting .unname f) }

def deleting (c : BufferPool P) (t : Nat) (f : FrameId) : DeleteStage → BufferPool P
  | .unname => (c.setFrame f { c.frames f with pageId := none }).setTask t (.deleting .clean f)
  | .clean => (c.setFrame f { c.frames f with isDirty := false }).setTask t (.deleting .untrack f)
  | .untrack => { c with replacer := remove c.replacer f, tasks := c.tasks.set t (.deleting .free f) }
  | .free => { c with freeList := f :: c.freeList, tasks := c.tasks.set t .idle }

/-- The disk grows by a zeroed page; its number has 32 bits. -/
def allocate (env : StepEnv) (c : BufferPool P) (t : Nat) : Option (BufferPool P) :=
  if env.fails then some (c.setTask t (.failed (.io "allocate failed")))
  else if c.disk.length < u32Max then
    some { c with disk := c.disk ++ [0], tasks := c.tasks.set t (.needFrame c.disk.length .create) }
  else none

/-- The next step of a thread; none when it waits for a lock or an assertion fails. -/
def next (env : StepEnv) (c : BufferPool P) (t : Nat) : Task → Option (BufferPool P)
  | .idle | .failed _ | .holding _ _ _ => none
  | .lookup p access => some (c.lookup env.policy t p access)
  | .needFrame p use => some (c.getFreeFrame t p use)
  | .evict p use tries => some (c.evict env.policy t p use tries)
  | .commit p use tries f old => c.commit env.policy t p use tries f old
  | .granted p use f => c.granted env t p f use
  | .copy p access f data =>
    if c.latchFree .write f then
      some ((c.setFrame f { c.frames f with page := data }).setTask t (.name p (.load access) f))
    else none
  | .name p use f => some ((c.setFrame f { c.frames f with pageId := some p }).setTask t (.pin p use f))
  | .pin p use f => some ((c.setFrame f (c.frames f).pin).setTask t (.publish p use f))
  | .publish p use f => some (c.publish env.policy t p f use)
  | .lost stage p access f winner => c.lost t p access f winner stage
  | .record p f => some { c with replacer := touch env.policy c.replacer f p, tasks := c.tasks.set t (.latch p .write f) }
  | .latch p access f => if c.latchFree access f then some (c.setTask t (.holding p access f)) else none
  | .markDirty p f => some ((c.setFrame f { c.frames f with isDirty := true }).setTask t (.unpin p f))
  | .unpin _ f => c.unpinPage t f
  | .settle f => some (c.settle t f)
  | .allocate => c.allocate env t
  | .flushLookup p =>
    some (c.setTask t (match c.pageTable.lookup p with
      | none => .idle
      | some f => .flushCheck f p .page))
  | .flushAllLookup => some (c.setTask t (afterFlush 0 0 (.all (c.pageTable.entries.map (fun x => (x.1, x.2))))))
  | .flushCheck f q caller =>
    some (c.setTask t (if (c.frames f).isDirty then .flushWrite f q caller else afterFlush f q caller))
  | .flushWrite f q caller => c.flushWrite env t f q caller
  | .flushClear f q caller => some ((c.setFrame f { c.frames f with isDirty := false }).setTask t (afterFlush f q caller))
  | .delete p => some (c.delete t p)
  | .deleting stage f => some (c.deleting t f stage)

/-- The frames of the page table are registered with the new policy. -/
def swapPolicy (c : BufferPool P) (newPolicy : P) (mode : SwapMode) : BufferPool P :=
  let r := match mode with
    | .cold => newPolicy
    | .warm => importState newPolicy (exportState env c.replacer)
  { c with replacer := c.pageTable.entries.foldl (fun r x =>
      setEvictable (recordAccess env r x.2 x.1) x.2 ((c.frames x.2).pinCount == 0)) r }

def step : PoolLabel P → Option (BufferPool P)
  | .start t call =>
    match c.tasks[t]? with
    | some .idle | some (.failed _) => some (c.setTask t call.task)
    | _ => none
  | .next t env => c.tasks[t]?.bind (c.next env t)
  | .write t page =>
    match c.tasks[t]? with
    | some (.holding _ .write f) => some (c.setFrame f { c.frames f with page := page })
    | _ => none
  | .drop t =>
    match c.tasks[t]? with
    | some (.holding p .read f) => some (c.setTask t (.unpin p f))
    | some (.holding p .write f) => some (c.setTask t (.markDirty p f))
    | _ => none
  | .swapPolicy env newPolicy mode => some (c.swapPolicy env newPolicy mode)

end BufferPool
end InterchangeDb
