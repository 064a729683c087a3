import FishStore.Layout
import FishStore.Runs

/-!
# The log allocator

The log is kept in a circular buffer of page frames. A thread that finds the tail
page full moves the tail on, if there is room and the next frame is ready. It then
shifts the read-only address, so that pages are flushed, and the head address, so
that flushed pages are closed, cleared and opened again. Both take effect by epoch
actions. A page may be flushed twice, in part by `ShiftReadOnlyToTail` and again
when it is full; the callbacks of the writes share the status word of the frame
with the action that closes the page.

Each step is one atomic access. `MonotonicUpdate` and the loops that change one
half of a status word are one step, that of their last access. An epoch action may
run at any time after it was registered, on any thread, and a write may complete at
any time after it was issued; a callback that runs inside another call counts as a
thread of its own. The constructor allocates all frames, so that `AllocatePage` is
not called later. What the epochs guarantee of the sessions is that they store only
at or above the safe read-only address.

As history the state keeps the writes that have completed, each with the safe
read-only address when it was issued.
-/

namespace FishStore.PersistentMemoryMalloc

open Layout Runs
open Function (update)

/-- `kNumHeadPages`. -/
def kNumHeadPages : ℕ := 4

/-- `num_mutable_pages_`. -/
def numMutablePages : ℕ := 2

/-- `FlushStatus`. -/
inductive FlushStatus
  | flushed
  | inProgress
  deriving DecidableEq

/-- `CloseStatus`. -/
inductive CloseStatus
  | closed
  | opened
  deriving DecidableEq

/-- `FlushCloseStatus`. -/
structure FlushCloseStatus where
  /-- Whether the frame's page is being written. -/
  flush : FlushStatus
  /-- Whether the frame's page was closed and not cleared yet. -/
  close : CloseStatus
  deriving DecidableEq

/-- `FlushCloseStatus::Ready()`. -/
def FlushCloseStatus.ready (x : FlushCloseStatus) : Bool := decide (x = ⟨.flushed, .opened⟩)

/-- A write that `AsyncFlushPages` has issued. -/
structure Write where
  /-- The page; all of its frame is written. -/
  page : ℕ
  /-- `until_address` of the callback's context. -/
  untilAddress : ℕ
  /-- History: the safe read-only address when it was issued. -/
  readOnly : ℕ
  deriving DecidableEq

/-- An epoch action. -/
inductive Action
  | onPagesClosed (newSafeHeadAddress : ℕ)
  | onPagesMarkedReadOnly (newSafeReadOnlyAddress : ℕ)
  deriving DecidableEq

/-- What a thread is doing. -/
inductive Pc
  | idle
  /-- `Allocate` has found the page full. -/
  | full (page : ℕ)
  /-- `NewPage` is about to load the safe head address. -/
  | newPageHead (oldPage : ℕ)
  /-- About to load the status of the next page's frame. -/
  | newPageStatus (oldPage : ℕ)
  /-- About to load the tail. -/
  | newPageTail (oldPage : ℕ)
  /-- About to swap the tail. -/
  | newPageSwap (oldPage : ℕ) (expected : PageOffset)
  /-- About to update the read-only address for the next page as tail page. -/
  | shiftReadOnly (oldPage : ℕ)
  /-- About to register the action of the read-only address. -/
  | bumpReadOnly (desired oldPage : ℕ)
  /-- About to load the flushed-until address. -/
  | shiftHead (oldPage : ℕ)
  /-- About to update the head address. -/
  | updateHead (desired oldPage : ℕ)
  /-- About to register the action of the head address. -/
  | bumpHead (desired oldPage : ℕ)
  /-- `ShiftReadOnlyToTail` is about to update the read-only address. -/
  | shiftToTail (tailAddress : ℕ)
  /-- About to register its action. -/
  | bumpToTail (tailAddress : ℕ)
  /-- `OnPagesClosed` is about to update the safe head address. -/
  | close (new : ℕ)
  /-- About to close page `idx`, of the pages below `last`. -/
  | closeStatus (idx last : ℕ)
  /-- About to clear its frame. -/
  | closeClear (idx last : ℕ)
  /-- About to open it again. -/
  | closeReopen (idx last : ℕ)
  /-- `OnPagesMarkedReadOnly` is about to update the safe read-only address. -/
  | markReadOnly (new : ℕ)
  /-- `AsyncFlushPages` is about to mark a page as being written, of those below `last`. -/
  | flushStatus (page last untilAddress : ℕ)
  /-- About to reset its last flushed address. -/
  | flushReset (page last untilAddress : ℕ)
  /-- About to issue the write. -/
  | flushWrite (page last untilAddress : ℕ)
  /-- The callback of a write is about to store the last flushed address. -/
  | writeDone (w : Write)
  /-- About to mark the page as written. -/
  | writeStatus (page : ℕ)
  /-- About to clear its frame. -/
  | writeClear (page : ℕ)
  /-- About to open it again. -/
  | writeReopen (page : ℕ)
  /-- `ShiftFlushedUntilAddress` is about to load the flushed-until address. -/
  | flushedLoad
  /-- About to load the last flushed address of a page. -/
  | flushedNext (current page : ℕ) (update : Bool)
  /-- About to update the flushed-until address. -/
  | flushedUpdate (current : ℕ)
  deriving DecidableEq

/-- The allocator, the threads and history. -/
structure State where
  /-- `tail_page_offset_`. -/
  tail : PageOffset
  /-- `read_only_address`. -/
  readOnlyAddress : ℕ
  /-- `safe_read_only_address`. -/
  safeReadOnlyAddress : ℕ
  /-- `head_address`. -/
  headAddress : ℕ
  /-- `safe_head_address`. -/
  safeHeadAddress : ℕ
  /-- `flushed_until_address`. -/
  flushedUntilAddress : ℕ
  /-- `page_status_[frame].status`. -/
  status : ℕ → FlushCloseStatus
  /-- `page_status_[frame].LastFlushedUntilAddress`. -/
  lastFlushed : ℕ → ℕ
  /-- The bytes of `pages_[frame]`. -/
  frames : ℕ → ℕ → ℕ
  /-- The registered epoch actions that have not begun. -/
  actions : List Action
  /-- The writes that were issued and have not completed. -/
  pending : List Write
  /-- What each thread is doing. -/
  pc : ℕ → Pc
  /-- History: the writes that have completed. -/
  completed : List Write

/-- The thread moves on. -/
def State.goto (s : State) (t : ℕ) (pc : Pc) : State := { s with pc := update s.pc t pc }

/-- Store the status of a frame. -/
def State.setStatus (s : State) (frame : ℕ) (x : FlushCloseStatus) : State :=
  { s with status := update s.status frame x }

/-- Clear a frame, `memset`. -/
def State.clear (s : State) (frame : ℕ) : State :=
  { s with frames := update s.frames frame fun _ => 0 }

/-- `GetTailAddress`; the offset is cast to 32 bits. -/
def State.getTailAddress (s : State) : ℕ :=
  Layout.address s.tail.page (min kMaxOffset (s.tail.offset % 2 ^ 32))

/-- Store a byte of a frame. -/
def State.setByte (s : State) (frame offset byte : ℕ) : State :=
  { s with frames := update s.frames frame (update (s.frames frame) offset byte) }

/-- The loop of `OnPagesClosed` at page `idx`. -/
def closeFrom (idx last : ℕ) : Pc := if idx < last then .closeStatus idx last else .idle

/-- The loop of `AsyncFlushPages` at a page. -/
def flushFrom (page last untilAddress : ℕ) : Pc :=
  if page < last then .flushStatus page last untilAddress else .idle

/-- The page behind the last one that `AsyncFlushPages` writes. -/
def flushLast (untilAddress : ℕ) : ℕ :=
  if 0 < Layout.offset untilAddress then Layout.page untilAddress + 1 else Layout.page untilAddress

/-- The head address that `PageAlignedShiftHeadAddress` wants. -/
def desiredHead (bufferSize tailPage flushedUntil : ℕ) : ℕ :=
  if flushedUntil < Layout.address (tailPage - (bufferSize - kNumHeadPages)) 0 then
    Layout.address (Layout.page flushedUntil) 0
  else Layout.address (tailPage - (bufferSize - kNumHeadPages)) 0

/-- One step of the call that the thread is in. -/
def callStep (bufferSize : ℕ) (s : State) (t : ℕ) : Pc → Option State
  | .idle => none
  | .full _ => none
  | .newPageHead old =>
    if old + 2 ≥ Layout.page s.safeHeadAddress + bufferSize then some (s.goto t (.shiftReadOnly old))
    else some (s.goto t (.newPageStatus old))
  | .newPageStatus old =>
    if (s.status ((old + 1) % bufferSize)).ready then some (s.goto t (.newPageTail old))
    else some (s.goto t (.shiftReadOnly old))
  | .newPageTail old =>
    if old ≠ s.tail.page then some (s.goto t .idle) else some (s.goto t (.newPageSwap old s.tail))
  | .newPageSwap old expected =>
    -- The thread that wins the swap returns false too, and its caller tries again.
    if s.tail = expected then some ({ s with tail := ⟨old + 1, 0⟩ }.goto t (.shiftReadOnly old))
    else some (s.goto t (if old < s.tail.page then .idle else .full old))
  | .shiftReadOnly old =>
    if old + 1 ≤ numMutablePages then some (s.goto t (.shiftHead old))
    else if s.readOnlyAddress < Layout.address (old + 1 - numMutablePages) 0 then
      some ({ s with readOnlyAddress := Layout.address (old + 1 - numMutablePages) 0 }.goto t
        (.bumpReadOnly (Layout.address (old + 1 - numMutablePages) 0) old))
    else some (s.goto t (.shiftHead old))
  | .bumpReadOnly desired old =>
    some ({ s with actions := .onPagesMarkedReadOnly desired :: s.actions }.goto t (.shiftHead old))
  | .shiftHead old =>
    if old + 1 ≤ bufferSize - kNumHeadPages then some (s.goto t (.full old))
    else some (s.goto t (.updateHead (desiredHead bufferSize (old + 1) s.flushedUntilAddress) old))
  | .updateHead desired old =>
    if s.headAddress < desired then
      some ({ s with headAddress := desired }.goto t (.bumpHead desired old))
    else some (s.goto t (.full old))
  | .bumpHead desired old =>
    some ({ s with actions := .onPagesClosed desired :: s.actions }.goto t (.full old))
  | .shiftToTail tailAddress =>
    if s.readOnlyAddress < tailAddress then
      some ({ s with readOnlyAddress := tailAddress }.goto t (.bumpToTail tailAddress))
    else some (s.goto t .idle)
  | .bumpToTail tailAddress =>
    some ({ s with actions := .onPagesMarkedReadOnly tailAddress :: s.actions }.goto t .idle)
  | .close new =>
    if s.safeHeadAddress < new then
      some ({ s with safeHeadAddress := new }.goto t
        (closeFrom (Layout.page s.safeHeadAddress) (Layout.page new)))
    else some (s.goto t .idle)
  | .closeStatus idx last =>
    let old := s.status (idx % bufferSize)
    some ((s.setStatus (idx % bufferSize) ⟨old.flush, .closed⟩).goto t
      (if old.flush = .flushed then .closeClear idx last else closeFrom (idx + 1) last))
  | .closeClear idx last => some ((s.clear (idx % bufferSize)).goto t (.closeReopen idx last))
  | .closeReopen idx last =>
    some ((s.setStatus (idx % bufferSize) ⟨.flushed, .opened⟩).goto t (closeFrom (idx + 1) last))
  | .markReadOnly new =>
    if s.safeReadOnlyAddress < new then
      some ({ s with safeReadOnlyAddress := new }.goto t
        (flushFrom (Layout.page s.safeReadOnlyAddress) (flushLast new) new))
    else some (s.goto t .idle)
  | .flushStatus page last until' =>
    some ((s.setStatus (page % bufferSize) ⟨.inProgress, (s.status (page % bufferSize)).close⟩).goto t
      (.flushReset page last until'))
  | .flushReset page last until' =>
    some ({ s with lastFlushed := update s.lastFlushed (page % bufferSize) 0 }.goto t
      (.flushWrite page last until'))
  | .flushWrite page last until' =>
    some ({ s with pending := ⟨page, min (Layout.address (page + 1) 0) until',
      s.safeReadOnlyAddress⟩ :: s.pending }.goto t (flushFrom (page + 1) last until'))
  | .writeDone w =>
    some ({ s with lastFlushed := update s.lastFlushed (w.page % bufferSize) w.untilAddress }.goto t
      (.writeStatus w.page))
  | .writeStatus page =>
    let old := s.status (page % bufferSize)
    some ((s.setStatus (page % bufferSize) ⟨.flushed, old.close⟩).goto t
      (if old.close = .closed then .writeClear page else .flushedLoad))
  | .writeClear page => some ((s.clear (page % bufferSize)).goto t (.writeReopen page))
  | .writeReopen page =>
    some ((s.setStatus (page % bufferSize) ⟨.flushed, .opened⟩).goto t .flushedLoad)
  | .flushedLoad =>
    some (s.goto t (.flushedNext s.flushedUntilAddress (Layout.page s.flushedUntilAddress) false))
  | .flushedNext current page update =>
    if current ≤ s.lastFlushed (page % bufferSize) then
      some (s.goto t (.flushedNext (s.lastFlushed (page % bufferSize)) (page + 1) true))
    else some (s.goto t (if update then .flushedUpdate current else .idle))
  | .flushedUpdate current =>
    some ({ s with flushedUntilAddress := max s.flushedUntilAddress current }.goto t .idle)

/-- What a thread may do next. -/
inductive Act
  /-- Call `Allocate`. -/
  | allocate (numSlots : ℕ)
  /-- Call `NewPage` for the page that `Allocate` found full. -/
  | newPage
  | shiftReadOnlyToTail
  /-- Begin an epoch action. -/
  | runAction (action : Action)
  /-- Begin the callback of a write that has completed. -/
  | complete (w : Write)
  /-- A step of the call that the thread is in. -/
  | step
  deriving DecidableEq

/-- A step of a thread, or a session stores a byte. -/
inductive Label
  | thread (t : ℕ) (act : Act)
  | store (address byte : ℕ)
  deriving DecidableEq

/-- A step of a thread. -/
def threadStep (bufferSize : ℕ) (s : State) (t : ℕ) : Act → Option State
  | .allocate n =>
    if s.pc t = .idle ∧ n ≤ kMaxOffset then
      some ({ s with tail := s.tail.reserve n }.goto t
        (if (s.tail.allocated n).isSome then .idle else .full s.tail.page))
    else none
  | .newPage =>
    match s.pc t with
    | .full page => some (s.goto t (.newPageHead page))
    | _ => none
  | .shiftReadOnlyToTail =>
    if s.pc t = .idle then some (s.goto t (.shiftToTail s.getTailAddress)) else none
  | .runAction a =>
    if s.pc t = .idle ∧ a ∈ s.actions then
      some ({ s with actions := s.actions.erase a }.goto t
        (match a with
        | .onPagesClosed new => .close new
        | .onPagesMarkedReadOnly new => .markReadOnly new))
    else none
  | .complete w =>
    if s.pc t = .idle ∧ w ∈ s.pending then
      some ({ s with pending := s.pending.erase w, completed := w :: s.completed }.goto t (.writeDone w))
    else none
  | .step => callStep bufferSize s t (s.pc t)

/-- One step of an execution. -/
def step (bufferSize : ℕ) (s : State) : Label → Option State
  | .thread t act => threadStep bufferSize s t act
  | .store a byte =>
    if s.safeReadOnlyAddress ≤ a ∧ a < s.tail.limit then
      some (s.setByte (Layout.page a % bufferSize) (Layout.offset a) byte)
    else none

/-- `Constants::kCacheLineBytes`. -/
def kCacheLineBytes : ℕ := 64

/-- The allocator after its constructor: one cache line is allocated, and the
flushed-until address is still zero. -/
def initial : State where
  tail := ⟨0, kCacheLineBytes⟩
  readOnlyAddress := kCacheLineBytes
  safeReadOnlyAddress := kCacheLineBytes
  headAddress := kCacheLineBytes
  safeHeadAddress := kCacheLineBytes
  flushedUntilAddress := 0
  status := fun _ => ⟨.flushed, .opened⟩
  lastFlushed := fun _ => 0
  frames := fun _ _ => 0
  actions := []
  pending := []
  pc := fun _ => .idle
  completed := []

/-- The executions of an allocator with the given number of frames; the constructor
refuses fewer than two that are not head pages. -/
def machine (bufferSize : ℕ) : Machine State Label :=
  ⟨fun s => s = initial ∧ kNumHeadPages + 1 < bufferSize, step bufferSize⟩

end FishStore.PersistentMemoryMalloc
