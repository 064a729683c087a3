import FishStore.Runs

/-!
# Epoch protection

`LightEpoch` keeps a table of the epochs that threads have announced, a global
epoch, and a list of actions to be executed once an epoch is safe to reclaim.
Every load, store and compare-and-swap of these is a step. The safe epoch is
found by scanning the entries 1 to 96 of the table, while threads have the
identifiers 0 to 95.

As history the state keeps which threads still owe a move for an epoch: those
that were protected at or below it when the epoch was bumped, and have neither
announced a later epoch nor left since.
-/

namespace FishStore.LightEpoch

open Runs

/-- `Thread::kMaxNumThreads`, also the number of entries of the epoch table. -/
def kMaxNumThreads : ℕ := 96

/-- `LightEpoch::kDrainListSize`. -/
def kDrainListSize : ℕ := 256

/-- The epoch field of a drain list entry: `kFree`, `kLocked`, or an epoch. -/
inductive ActionEpoch
  | free
  | locked
  | at (epoch : ℕ)
  deriving DecidableEq

/-- `EpochAction`: the callback is named by the epoch it was registered with. -/
structure EpochAction where
  /-- The atomic epoch field. -/
  epoch : ActionEpoch
  /-- The callback with its context, or the null pointer. -/
  callback : Option ℕ
  deriving DecidableEq

/-- Where a call of a thread stands. In calls that drain, `prior` is the epoch
with which the caller is going to register its action afterwards, if any. -/
inductive Pc
  | idle
  /-- `Protect` has loaded the current epoch. -/
  | protectStore (epoch : ℕ) (drain : Bool)
  /-- About to load `drain_count_`, to drain for `next`. -/
  | loadCount (next : ℕ) (prior : Option ℕ)
  /-- `ComputeNewSafeToReclaimEpoch` is about to read entry `idx`. -/
  | compute (oldest idx : ℕ) (prior : Option ℕ)
  /-- `Drain` is about to load the epoch of slot `i`. -/
  | drainLoad (i : ℕ) (prior : Option ℕ)
  /-- About to compare that epoch with the safe epoch. -/
  | drainCheck (i epoch : ℕ) (prior : Option ℕ)
  /-- `TryPop` is about to lock slot `i`. -/
  | tryPop (i epoch : ℕ) (prior : Option ℕ)
  /-- `TryPop` is about to take the callback of the locked slot. -/
  | popTake (i : ℕ) (prior : Option ℕ)
  /-- `TryPop` is about to free the slot. -/
  | popFree (i : ℕ) (callback : Option ℕ) (prior : Option ℕ)
  /-- `TryPop` is about to execute the action. -/
  | popRun (i : ℕ) (callback : Option ℕ) (prior : Option ℕ)
  /-- About to decrement `drain_count_`. -/
  | popCount (i : ℕ) (prior : Option ℕ)
  /-- `BumpCurrentEpoch` is about to load the epoch of slot `i`. -/
  | pushLoad (i prior : ℕ)
  /-- About to compare that epoch with the safe epoch. -/
  | pushCheck (i epoch prior : ℕ)
  /-- `TryPush` is about to lock slot `i`. -/
  | tryPush (i prior : ℕ)
  /-- `TryPush` is about to write the callback. -/
  | pushWrite (i prior : ℕ)
  /-- `TryPush` is about to publish the epoch. -/
  | pushStore (i prior : ℕ)
  /-- About to increment `drain_count_`. -/
  | pushCount
  /-- `TrySwap` is about to lock slot `i`. -/
  | trySwap (i epoch prior : ℕ)
  /-- `TrySwap` is about to exchange the callbacks. -/
  | swapTake (i prior : ℕ)
  /-- `TrySwap` is about to publish the epoch of the new callback. -/
  | swapStore (i prior : ℕ) (callback : Option ℕ)
  /-- `TrySwap` is about to execute the former action. -/
  | swapRun (callback : Option ℕ)

/-- The epoch manager, the threads, and history. -/
structure State where
  /-- `current_epoch`. -/
  currentEpoch : ℕ
  /-- `safe_to_reclaim_epoch`. -/
  safeToReclaimEpoch : ℕ
  /-- `local_current_epoch` of each entry of the table, zero if unprotected. -/
  table : ℕ → ℕ
  /-- `drain_list_`. -/
  drainList : ℕ → EpochAction
  /-- `drain_count_`, without the wrap of its 32 bits. An action may be popped
  before its count was added; the count is then below zero, which the code
  reads as a positive number. -/
  drainCount : ℤ
  /-- What each thread is doing. -/
  pc : ℕ → Pc
  /-- History: the thread was protected at or below the epoch when it was
  bumped, and has not moved on since. -/
  owed : ℕ → ℕ → Bool

/-- The state after `Initialize`. -/
def State.initial : State :=
  ⟨1, 0, fun _ => 0, fun _ => ⟨.free, none⟩, 0, fun _ => .idle, fun _ _ => false⟩

/-- The thread moves on. -/
def State.goto (s : State) (t : ℕ) (pc : Pc) : State := { s with pc := Function.update s.pc t pc }

/-- Write a slot of the drain list. -/
def State.setAction (s : State) (i : ℕ) (a : EpochAction) : State :=
  { s with drainList := Function.update s.drainList i a }

/-- Write the epoch that a thread announces; it no longer owes a move for the
epochs below. -/
def State.announce (s : State) (t epoch : ℕ) : State :=
  { s with
    table := Function.update s.table t epoch
    owed := fun e u => s.owed e u && (decide (u ≠ t) || (decide (epoch ≠ 0) && decide (epoch ≤ e))) }

/-- Increment the current epoch; threads protected at or below it owe a move. -/
def State.bump (s : State) : State :=
  { s with
    currentEpoch := s.currentEpoch + 1
    owed := fun e u => if e = s.currentEpoch then
        decide (s.table u ≠ 0) && decide (s.table u ≤ e) else s.owed e u }

/-- After draining: return, or register the action. -/
def resume : Option ℕ → Pc
  | none => .idle
  | some prior => .pushLoad 0 prior

/-- The next slot that `Drain` looks at. -/
def drainFrom (i : ℕ) (prior : Option ℕ) : Pc :=
  if i < kDrainListSize then .drainLoad i prior else resume prior

/-- The next slot that `BumpCurrentEpoch` tries. -/
def pushNext (i prior : ℕ) : Pc := .pushLoad ((i + 1) % kDrainListSize) prior

/-- What a thread may do next. -/
inductive Act
  | protect
  | protectAndDrain
  | unprotect
  /-- `BumpCurrentEpoch()`. -/
  | bumpCurrentEpoch
  /-- `BumpCurrentEpoch(callback, context)`. -/
  | bumpCurrentEpochWith
  /-- The next step of the current call. -/
  | step

/-- A step of the thread with the given identifier. -/
structure Label where
  /-- `Thread::id()`. -/
  thread : ℕ
  /-- What it does. -/
  act : Act

/-- The next step of a call. -/
def callStep (s : State) (t : ℕ) : Pc → Option State
  | .idle => none
  | .protectStore epoch drain =>
    some ((s.announce t epoch).goto t (if drain then .loadCount epoch none else .idle))
  | .loadCount next prior =>
    some (s.goto t (if s.drainCount ≠ 0 then .compute next 1 prior else resume prior))
  | .compute oldest idx prior =>
    if idx ≤ kMaxNumThreads then
      let entryEpoch := s.table idx
      some (s.goto t (.compute
        (if entryEpoch ≠ 0 ∧ entryEpoch < oldest then entryEpoch else oldest) (idx + 1) prior))
    else some ({ s with safeToReclaimEpoch := oldest - 1 }.goto t (drainFrom 0 prior))
  | .drainLoad i prior =>
    match (s.drainList i).epoch with
    | .at epoch => some (s.goto t (.drainCheck i epoch prior))
    | _ => some (s.goto t (drainFrom (i + 1) prior))
  | .drainCheck i epoch prior =>
    some (s.goto t (if epoch ≤ s.safeToReclaimEpoch then .tryPop i epoch prior
      else drainFrom (i + 1) prior))
  | .tryPop i epoch prior =>
    if (s.drainList i).epoch = .at epoch then
      some ((s.setAction i { s.drainList i with epoch := .locked }).goto t (.popTake i prior))
    else some (s.goto t (drainFrom (i + 1) prior))
  | .popTake i prior =>
    some ((s.setAction i { s.drainList i with callback := none }).goto t
      (.popFree i (s.drainList i).callback prior))
  | .popFree i callback prior =>
    some ((s.setAction i { s.drainList i with epoch := .free }).goto t (.popRun i callback prior))
  | .popRun i _ prior => some (s.goto t (.popCount i prior))
  | .popCount i prior =>
    some ({ s with drainCount := s.drainCount - 1 }.goto t
      (if s.drainCount - 1 = 0 then resume prior else drainFrom (i + 1) prior))
  | .pushLoad i prior =>
    match (s.drainList i).epoch with
    | .free => some (s.goto t (.tryPush i prior))
    | .at epoch => some (s.goto t (.pushCheck i epoch prior))
    | .locked => some (s.goto t (pushNext i prior))
  | .pushCheck i epoch prior =>
    some (s.goto t (if epoch ≤ s.safeToReclaimEpoch then .trySwap i epoch prior
      else pushNext i prior))
  | .tryPush i prior =>
    if (s.drainList i).epoch = .free then
      some ((s.setAction i { s.drainList i with epoch := .locked }).goto t (.pushWrite i prior))
    else some (s.goto t (pushNext i prior))
  | .pushWrite i prior =>
    some ((s.setAction i { s.drainList i with callback := some prior }).goto t (.pushStore i prior))
  | .pushStore i prior =>
    some ((s.setAction i { s.drainList i with epoch := .at prior }).goto t .pushCount)
  | .pushCount => some ({ s with drainCount := s.drainCount + 1 }.goto t .idle)
  | .trySwap i epoch prior =>
    if (s.drainList i).epoch = .at epoch then
      some ((s.setAction i { s.drainList i with epoch := .locked }).goto t (.swapTake i prior))
    else some (s.goto t (pushNext i prior))
  | .swapTake i prior =>
    some ((s.setAction i { s.drainList i with callback := some prior }).goto t
      (.swapStore i prior (s.drainList i).callback))
  | .swapStore i prior callback =>
    some ((s.setAction i { s.drainList i with epoch := .at prior }).goto t (.swapRun callback))
  | .swapRun _ => some (s.goto t .idle)

/-- The thread is in no call. -/
def Pc.isIdle : Pc → Bool
  | .idle => true
  | _ => false

/-- The start of a call, with its first access. -/
def startCall (s : State) (t : ℕ) : Act → Option State
  | .protect => some (s.goto t (.protectStore s.currentEpoch false))
  | .protectAndDrain => some (s.goto t (.protectStore s.currentEpoch true))
  | .unprotect => some ((s.announce t 0).goto t .idle)
  | .bumpCurrentEpoch => some (s.bump.goto t (.loadCount (s.currentEpoch + 1) none))
  | .bumpCurrentEpochWith =>
    some (s.bump.goto t (.loadCount (s.currentEpoch + 1) (some s.currentEpoch)))
  | .step => none

/-- One step of the system, by a thread with an identifier below the maximum. -/
def step (s : State) (label : Label) : Option State :=
  if label.thread < kMaxNumThreads then
    match label.act with
    | .step => callStep s label.thread (s.pc label.thread)
    | act => if (s.pc label.thread).isIdle then startCall s label.thread act else none
  else none

/-- Threads with the identifiers that `Thread::ReserveEntry` hands out. -/
def machine : Machine State Label := ⟨fun s => s = .initial, step⟩

/-- The action that the thread is about to execute. -/
def running : Pc → Option ℕ
  | .popRun _ callback _ => callback
  | .swapRun callback => callback
  | _ => none

/-- The slot that the thread has locked. -/
def holding : Pc → Option ℕ
  | .popTake i _ => some i
  | .popFree i _ _ => some i
  | .pushWrite i _ => some i
  | .pushStore i _ => some i
  | .swapTake i _ => some i
  | .swapStore i _ _ => some i
  | _ => none

end FishStore.LightEpoch
