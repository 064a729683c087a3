import FishStore.LightEpoch

/-!
# Actions and their phases

A store performs one action at a time: a checkpoint, a garbage collection, a
growth of the index, or a shift of the parsers. The word `system_state_` holds
the action, its phase and the checkpoint version. Sessions notice a new phase
when they refresh, do their part of the work, and acknowledge the phase in the
epoch table; the session that finds every entry acknowledged moves the word on.

Every load, store and compare-and-swap of the shared word and of the epoch table
is a step. Whether pending operations have completed, a flush is done or buckets
are left to clean is decided by the step's label.

As history the state counts the actions that were started, keeps the word that
started the latest of them, and which phases each thread has acknowledged since.
-/

namespace FishStore.Phases

open Runs LightEpoch

/-- `Action`. -/
inductive Action
  | none
  | checkpointFull
  | checkpointIndex
  | checkpointHybridLog
  | recover
  | gc
  | growIndex
  | parserShift
  deriving DecidableEq

/-- `Phase`. -/
inductive Phase
  | prepIndexChkpt
  | indexChkpt
  | prepare
  | inProgress
  | waitPending
  | waitFlush
  | rest
  | persistenceCallback
  | gcIoPending
  | gcInProgress
  | growPrepare
  | growInProgress
  | psPending
  | invalid
  deriving DecidableEq

/-- `SystemState`, the word that every session reads. -/
structure SystemState where
  /-- Action being performed. -/
  action : Action
  /-- Phase of that action currently being executed. -/
  phase : Phase
  /-- Checkpoint version. -/
  version : UInt32
  deriving DecidableEq

/-- `SystemState::GetNextState`. The combinations that the source marks as not
reached have no next state. -/
def SystemState.getNextState (w : SystemState) : Option SystemState :=
  match w.action with
  | .checkpointFull =>
    match w.phase with
    | .rest => some ⟨.checkpointFull, .prepIndexChkpt, w.version⟩
    | .prepIndexChkpt => some ⟨.checkpointFull, .indexChkpt, w.version⟩
    | .indexChkpt => some ⟨.checkpointFull, .prepare, w.version⟩
    | .prepare => some ⟨.checkpointFull, .inProgress, w.version + 1⟩
    | .inProgress => some ⟨.checkpointFull, .waitPending, w.version⟩
    | .waitPending => some ⟨.checkpointFull, .waitFlush, w.version⟩
    | .waitFlush => some ⟨.checkpointFull, .persistenceCallback, w.version⟩
    | .persistenceCallback => some ⟨.checkpointFull, .rest, w.version⟩
    | _ => Option.none
  | .checkpointIndex =>
    match w.phase with
    | .rest => some ⟨.checkpointIndex, .prepIndexChkpt, w.version⟩
    | .prepIndexChkpt => some ⟨.checkpointIndex, .indexChkpt, w.version⟩
    | .indexChkpt => some ⟨.checkpointIndex, .rest, w.version⟩
    | _ => Option.none
  | .checkpointHybridLog =>
    match w.phase with
    | .rest => some ⟨.checkpointHybridLog, .prepare, w.version⟩
    | .prepare => some ⟨.checkpointHybridLog, .inProgress, w.version + 1⟩
    | .inProgress => some ⟨.checkpointHybridLog, .waitPending, w.version⟩
    | .waitPending => some ⟨.checkpointHybridLog, .waitFlush, w.version⟩
    | .waitFlush => some ⟨.checkpointHybridLog, .persistenceCallback, w.version⟩
    | .persistenceCallback => some ⟨.checkpointHybridLog, .rest, w.version⟩
    | _ => Option.none
  | .gc =>
    match w.phase with
    | .rest => some ⟨.gc, .gcIoPending, w.version⟩
    | .gcIoPending => some ⟨.gc, .gcInProgress, w.version⟩
    | .gcInProgress => some ⟨.gc, .rest, w.version⟩
    | _ => Option.none
  | .growIndex =>
    match w.phase with
    | .rest => some ⟨.growIndex, .growPrepare, w.version⟩
    | .growPrepare => some ⟨.growIndex, .growInProgress, w.version⟩
    | .growInProgress => some ⟨.growIndex, .rest, w.version⟩
    | _ => Option.none
  | .parserShift =>
    match w.phase with
    | .rest => some ⟨.parserShift, .psPending, w.version⟩
    | .psPending => some ⟨.parserShift, .rest, w.version⟩
    | _ => Option.none
  | _ => Option.none

/-- The phase that the function starting an action publishes, for the actions
that sessions can start. -/
def Action.firstPhase : Action → Option Phase
  | .checkpointFull => some .prepIndexChkpt
  | .checkpointIndex => some .prepIndexChkpt
  | .checkpointHybridLog => some .prepare
  | .gc => some .gcIoPending
  | .growIndex => some .growPrepare
  | .parserShift => some .psPending
  | _ => Option.none

/-- The phase and version of a session's `thread_ctx()`. -/
structure Context where
  /-- `thread_ctx().phase`. -/
  phase : Phase
  /-- `thread_ctx().version`. -/
  version : UInt32
  deriving DecidableEq

/-- What the loop of `HandleSpecialPhases` does for one transition. -/
inductive Work
  /-- Nothing, or not yet. -/
  | skip
  /-- `FinishThreadPhase`, and the global move when it returns true. -/
  | finish
  /-- The global move alone. -/
  | moveOn
  /-- `SplitHashTableBuckets`. -/
  | split
  deriving DecidableEq

/-- The body of the loop of `HandleSpecialPhases`: the work that the transition
from `prev` to `cur` asks for, and the session's context after its local part.
`has` is `HasThreadFinishedPhase` for the phase of `cur`. `ready` is what the
transition waits for: the index checkpoint is no longer pending, the previous
context has no pending operations, the log is flushed, no buckets are left to
clean. -/
def phaseWork (cur prev : SystemState) (has ready : Bool) (ctx : Context) : Work × Context :=
  match cur.action with
  | .checkpointFull | .checkpointIndex | .checkpointHybridLog =>
    match cur.phase with
    | .prepIndexChkpt => (if prev.phase = .rest then .finish else .skip, ctx)
    | .indexChkpt =>
      if ready then
        if cur.action = .checkpointIndex then (.finish, { ctx with phase := .rest })
        else (.moveOn, ctx)
      else (.skip, ctx)
    | .prepare => (if prev.phase ≠ .prepare then .finish else .skip, ctx)
    | .inProgress =>
      if prev.phase = .prepare then (.finish, ⟨.inProgress, cur.version⟩) else (.skip, ctx)
    | .waitPending => (if !has && ready then .finish else .skip, ctx)
    | .waitFlush => (if !has && ready then .finish else .skip, ctx)
    | .persistenceCallback =>
      if prev.phase = .waitFlush then (.finish, { ctx with phase := .rest }) else (.skip, ctx)
    | _ => (.skip, ctx)
  | .gc =>
    match cur.phase with
    | .gcIoPending =>
      (if !has && ready then .finish else .skip,
        if prev.phase = .rest then ⟨.gcIoPending, cur.version⟩ else ctx)
    | .gcInProgress =>
      if !has && ready then (.finish, { ctx with phase := .rest }) else (.skip, ctx)
    | _ => (.skip, ctx)
  | .growIndex =>
    match cur.phase with
    | .growPrepare => (if prev.phase = .rest then .finish else .skip, ctx)
    | .growInProgress => (.split, ctx)
    | _ => (.skip, ctx)
  | .parserShift =>
    match cur.phase with
    | .psPending => (.finish, if prev.phase = .rest then { ctx with phase := .psPending } else ctx)
    | _ => (.skip, ctx)
  | _ => (.skip, ctx)

/-- The words that the loop of `HandleSpecialPhases` holds in one iteration. -/
structure Loop where
  /-- `final_state`. -/
  final : SystemState
  /-- `current_state`. -/
  cur : SystemState
  deriving DecidableEq

/-- Who called `FinishThreadPhase`: the loop of `HandleSpecialPhases`, or
`SplitHashTableBuckets`, itself called by that loop or by `HeavyEnter`. -/
inductive Return
  | loop (l : Loop)
  | split (l : Option Loop)
  deriving DecidableEq

/-- Where a call of a session stands. -/
inductive Pc
  | idle
  /-- `StartSession` is about to load the system state. -/
  | sessionLoad
  /-- `Refresh` is about to protect the thread. -/
  | refresh
  /-- `Refresh` is about to load the system state. -/
  | refreshLoad
  /-- `HandleSpecialPhases` is about to load the system state. -/
  | handleLoad
  /-- At the head of the loop of `HandleSpecialPhases`. -/
  | iterate (final prev : SystemState)
  /-- At the end of the loop's body. -/
  | leave (l : Loop)
  /-- `FinishThreadPhase(w.phase)` is about to store the phase. -/
  | ack (w : SystemState) (r : Return)
  /-- `FinishThreadPhase(w.phase)` is about to load the phase of entry `idx`. -/
  | scanPhase (w : SystemState) (idx : ℕ) (r : Return)
  /-- It has loaded `entry`, and is about to read the epoch of entry `idx`. -/
  | scanEpoch (w : SystemState) (idx : ℕ) (entry : Phase) (r : Return)
  /-- `GlobalMoveToNextState(w)` is about to swap the word. `seen` is the action
  during which `FinishThreadPhase` returned true, if it was asked. -/
  | move (w : SystemState) (seen : Option ℕ) (r : Return)
  /-- `GlobalMoveToNextState` has moved the word to `next`. -/
  | settle (next : SystemState) (r : Return)
  /-- In the loop of `SplitHashTableBuckets`. -/
  | split (l : Option Loop)
  /-- `SplitHashTableBuckets` waits for the others. -/
  | spin (l : Option Loop)
  /-- A function that starts an action is about to load the version. -/
  | startLoad (a : Action)
  /-- It is about to swap the word. -/
  | startSwap (a : Action) (version : UInt32)
  /-- `ResetPhaseFinished` is about to reset entry `idx`. -/
  | reset (a : Action) (version : UInt32) (idx : ℕ)
  /-- It is about to publish the first phase. -/
  | publish (a : Action) (version : UInt32)
  deriving DecidableEq

/-- `FinishThreadPhase` has returned true to the thread: the word that it is about
to move, and the number of the action during which this was. -/
def seenIn : Pc → Option (SystemState × ℕ)
  | .move w (some i) _ => some (w, i)
  | _ => Option.none

/-- The shared words, the sessions, and history. -/
structure State where
  /-- `system_state_`. -/
  systemState : SystemState
  /-- `local_current_epoch` of the entry is not zero. -/
  isProtected : ℕ → Bool
  /-- `phase_finished` of each entry of the epoch table. -/
  phaseFinished : ℕ → Phase
  /-- The context of each session. -/
  ctx : ℕ → Context
  /-- What each session is doing. -/
  pc : ℕ → Pc
  /-- History: the number of actions started. -/
  started : ℕ
  /-- History: the word that started the latest action. -/
  origin : SystemState
  /-- History: the phases that each thread acknowledged since. -/
  acked : ℕ → Phase → Bool

/-- The session moves on. -/
def State.goto (s : State) (t : ℕ) (pc : Pc) : State := { s with pc := Function.update s.pc t pc }

/-- Write the session's context. -/
def State.setCtx (s : State) (t : ℕ) (ctx : Context) : State :=
  { s with ctx := Function.update s.ctx t ctx }

/-- Write the thread's entry of the epoch table. -/
def State.protect (s : State) (t : ℕ) (b : Bool) : State :=
  { s with isProtected := Function.update s.isProtected t b }

/-- The thread stores the phase it has finished. -/
def State.acknowledge (s : State) (t : ℕ) (p : Phase) : State :=
  { s with
    phaseFinished := Function.update s.phaseFinished t p
    acked := fun u q => s.acked u q || (decide (u = t) && decide (q = p)) }

/-- The action `a` starts. -/
def State.start (s : State) (a : Action) (version : UInt32) : State :=
  { s with
    systemState := ⟨a, .rest, version⟩
    started := s.started + 1
    origin := ⟨a, .rest, version⟩
    acked := fun _ _ => false }

/-- After `SplitHashTableBuckets`. -/
def afterSplit : Option Loop → Pc
  | some l => .leave l
  | Option.none => .idle

/-- After the global move, and after a refused `FinishThreadPhase` of the loop. -/
def afterMove : Return → Pc
  | .loop l => .leave l
  | .split l => afterSplit l

/-- After `FinishThreadPhase` returned false. -/
def afterRefusal : Return → Pc
  | .loop l => .leave l
  | .split l => .spin l

/-- After the work of an iteration was decided. -/
def afterWork (l : Loop) : Work → Pc
  | .skip => .leave l
  | .finish => .ack l.cur (.loop l)
  | .moveOn => .move l.cur Option.none (.loop l)
  | .split => .split (some l)

/-- Continue the scan of `FinishThreadPhase` at entry `idx`; past the last entry
it returns true. -/
def scanFrom (s : State) (w : SystemState) (idx : ℕ) (r : Return) : Pc :=
  if idx ≤ kMaxNumThreads then .scanPhase w idx r else .move w (some s.started) r

/-- After an action was published: `GrowIndex` and `ApplyParserShift` refresh. -/
def afterPublish : Action → Pc
  | .growIndex => .refresh
  | .parserShift => .refresh
  | _ => .idle

/-- One step of the session `t` inside a call. -/
def callStep (s : State) (t : ℕ) (ready : Bool) : Pc → Option State
  | .idle => Option.none
  | .sessionLoad =>
    if s.systemState.phase = .rest then
      some ((s.setCtx t ⟨.rest, s.systemState.version⟩).goto t .refresh)
    else some (s.goto t .idle)
  | .refresh => some ((s.protect t true).goto t .refreshLoad)
  | .refreshLoad =>
    if (s.ctx t).phase = .rest ∧ s.systemState.phase = .rest then some (s.goto t .idle)
    else some (s.goto t .handleLoad)
  | .handleLoad =>
    if s.systemState.phase = .rest then
      some ((s.setCtx t ⟨.rest, s.systemState.version⟩).goto t .idle)
    else
      some (s.goto t (.iterate s.systemState
        ⟨s.systemState.action, (s.ctx t).phase, (s.ctx t).version⟩))
  | .iterate final prev =>
    (if prev = final then some final else prev.getNextState).map fun cur =>
      let work := phaseWork cur prev (decide (s.phaseFinished t = cur.phase)) ready (s.ctx t)
      (s.setCtx t work.2).goto t (afterWork ⟨final, cur⟩ work.1)
  | .leave l =>
    some ((s.setCtx t ⟨l.cur.phase, l.cur.version⟩).goto t
      (if l.cur = l.final then .idle else .iterate l.final l.cur))
  | .ack w r => some ((s.acknowledge t w.phase).goto t (.scanPhase w 1 r))
  | .scanPhase w idx r => some (s.goto t (.scanEpoch w idx (s.phaseFinished idx) r))
  | .scanEpoch w idx entry r =>
    if s.isProtected idx = true ∧ entry ≠ w.phase then some (s.goto t (afterRefusal r))
    else some (s.goto t (scanFrom s w (idx + 1) r))
  | .move w _ r =>
    w.getNextState.map fun next =>
      if s.systemState = w then { s with systemState := next }.goto t (.settle next r)
      else s.goto t (afterMove r)
  | .settle next r =>
    if next.phase = .rest then
      some ({ s with systemState := ⟨.none, .rest, next.version⟩ }.goto t (afterMove r))
    else some (s.goto t (afterMove r))
  | .split l =>
    some ((s.setCtx t { s.ctx t with phase := .rest }).goto t
      (.ack ⟨.growIndex, .growInProgress, (s.ctx t).version⟩ (.split l)))
  | .spin l =>
    if s.systemState.phase = .growInProgress then some s else some (s.goto t (afterSplit l))
  | .startLoad a => some (s.goto t (.startSwap a s.systemState.version))
  | .startSwap a version =>
    if s.systemState = ⟨.none, .rest, version⟩ then
      some ((s.start a version).goto t (.reset a version 1))
    else some (s.goto t .idle)
  | .reset a version idx =>
    some ({ s with phaseFinished := Function.update s.phaseFinished idx .rest }.goto t
      (if idx < kMaxNumThreads then .reset a version (idx + 1) else .publish a version))
  | .publish a version =>
    a.firstPhase.map fun p => { s with systemState := ⟨a, p, version⟩ }.goto t (afterPublish a)

/-- What a step of a call does, by where the call stands. -/
inductive Moves (s : State) (t : ℕ) (ready : Bool) : Pc → State → Prop
  | join (hrest : s.systemState.phase = .rest) :
    Moves s t ready .sessionLoad ((s.setCtx t ⟨.rest, s.systemState.version⟩).goto t .refresh)
  | reject (hne : s.systemState.phase ≠ .rest) : Moves s t ready .sessionLoad (s.goto t .idle)
  | refresh : Moves s t ready .refresh ((s.protect t true).goto t .refreshLoad)
  | resting (hrest : (s.ctx t).phase = .rest ∧ s.systemState.phase = .rest) :
    Moves s t ready .refreshLoad (s.goto t .idle)
  | special (hne : ¬((s.ctx t).phase = .rest ∧ s.systemState.phase = .rest)) :
    Moves s t ready .refreshLoad (s.goto t .handleLoad)
  | reload (hrest : s.systemState.phase = .rest) :
    Moves s t ready .handleLoad ((s.setCtx t ⟨.rest, s.systemState.version⟩).goto t .idle)
  | enter (hne : s.systemState.phase ≠ .rest) :
    Moves s t ready .handleLoad (s.goto t (.iterate s.systemState
      ⟨s.systemState.action, (s.ctx t).phase, (s.ctx t).version⟩))
  | iterate (final prev cur : SystemState)
    (hcur : (if prev = final then some final else prev.getNextState) = some cur) :
    Moves s t ready (.iterate final prev)
      ((s.setCtx t (phaseWork cur prev (decide (s.phaseFinished t = cur.phase)) ready (s.ctx t)).2).goto t
        (afterWork ⟨final, cur⟩
          (phaseWork cur prev (decide (s.phaseFinished t = cur.phase)) ready (s.ctx t)).1))
  | leave (l : Loop) : Moves s t ready (.leave l) ((s.setCtx t ⟨l.cur.phase, l.cur.version⟩).goto t
      (if l.cur = l.final then .idle else .iterate l.final l.cur))
  | ack (w : SystemState) (r : Return) :
    Moves s t ready (.ack w r) ((s.acknowledge t w.phase).goto t (.scanPhase w 1 r))
  | scanPhase (w : SystemState) (idx : ℕ) (r : Return) :
    Moves s t ready (.scanPhase w idx r) (s.goto t (.scanEpoch w idx (s.phaseFinished idx) r))
  | refuse (w : SystemState) (idx : ℕ) (entry : Phase) (r : Return)
    (hc : s.isProtected idx = true ∧ entry ≠ w.phase) :
    Moves s t ready (.scanEpoch w idx entry r) (s.goto t (afterRefusal r))
  | scanOn (w : SystemState) (idx : ℕ) (entry : Phase) (r : Return)
    (hc : ¬(s.isProtected idx = true ∧ entry ≠ w.phase)) :
    Moves s t ready (.scanEpoch w idx entry r) (s.goto t (scanFrom s w (idx + 1) r))
  | move (w : SystemState) (seen : Option ℕ) (r : Return) (next : SystemState)
    (hnext : w.getNextState = some next) (hsys : s.systemState = w) :
    Moves s t ready (.move w seen r) ({ s with systemState := next }.goto t (.settle next r))
  | overtaken (w : SystemState) (seen : Option ℕ) (r : Return) (next : SystemState)
    (hnext : w.getNextState = some next) (hsys : s.systemState ≠ w) :
    Moves s t ready (.move w seen r) (s.goto t (afterMove r))
  | close (next : SystemState) (r : Return) (hrest : next.phase = .rest) :
    Moves s t ready (.settle next r)
      ({ s with systemState := ⟨.none, .rest, next.version⟩ }.goto t (afterMove r))
  | settle (next : SystemState) (r : Return) (hne : next.phase ≠ .rest) :
    Moves s t ready (.settle next r) (s.goto t (afterMove r))
  | split (l : Option Loop) : Moves s t ready (.split l)
      ((s.setCtx t { s.ctx t with phase := .rest }).goto t
        (.ack ⟨.growIndex, .growInProgress, (s.ctx t).version⟩ (.split l)))
  | spin (l : Option Loop) (hgrow : s.systemState.phase = .growInProgress) : Moves s t ready (.spin l) s
  | leaveSpin (l : Option Loop) (hne : s.systemState.phase ≠ .growInProgress) :
    Moves s t ready (.spin l) (s.goto t (afterSplit l))
  | startLoad (a : Action) :
    Moves s t ready (.startLoad a) (s.goto t (.startSwap a s.systemState.version))
  | start (a : Action) (v : UInt32) (hsys : s.systemState = ⟨.none, .rest, v⟩) :
    Moves s t ready (.startSwap a v) ((s.start a v).goto t (.reset a v 1))
  | startLost (a : Action) (v : UInt32) (hsys : s.systemState ≠ ⟨.none, .rest, v⟩) :
    Moves s t ready (.startSwap a v) (s.goto t .idle)
  | reset (a : Action) (v : UInt32) (idx : ℕ) : Moves s t ready (.reset a v idx)
      ({ s with phaseFinished := Function.update s.phaseFinished idx .rest }.goto t
        (if idx < kMaxNumThreads then .reset a v (idx + 1) else .publish a v))
  | publish (a : Action) (v : UInt32) (p : Phase) (hfirst : a.firstPhase = some p) :
    Moves s t ready (.publish a v) ({ s with systemState := ⟨a, p, v⟩ }.goto t (afterPublish a))

theorem moves_of_callStep {s s' : State} {t : ℕ} {ready : Bool} {p : Pc}
    (hs : callStep s t ready p=some s') : Moves s t ready p s' := by
  cases p with
  | idle => cases hs
  | iterate final prev =>
    obtain ⟨cur,hcur,rfl⟩ := Option.map_eq_some_iff.mp hs
    exact .iterate final prev cur hcur
  | move w seen r =>
    obtain ⟨next,hnext,rfl⟩ := Option.map_eq_some_iff.mp hs
    split_ifs with hsys
    · exact .move w seen r next hnext hsys
    · exact .overtaken w seen r next hnext hsys
  | publish a v =>
    obtain ⟨q,hfirst,rfl⟩ := Option.map_eq_some_iff.mp hs
    exact .publish a v q hfirst
  | _ =>
    simp only [callStep] at hs
    first
    | cases hs
      constructor
    | split_ifs at hs with hif <;> cases hs <;> constructor <;> exact hif

/-- What a session may do next. -/
inductive Act
  | startSession
  | stopSession
  | refresh
  /-- One turn of the loop of `HeavyEnter`. -/
  | heavyEnter
  /-- `Checkpoint`, `CheckpointIndex`, `CheckpointHybridLog`, `ShiftBeginAddress`,
  `GrowIndex` or `ApplyParserShift`. -/
  | start (a : Action)
  /-- A step of the call that the session is in. -/
  | step (ready : Bool)
  deriving DecidableEq

/-- A step of an execution. -/
structure Label where
  /-- The thread that moves. -/
  thread : ℕ
  /-- What it does. -/
  act : Act
  deriving DecidableEq

/-- Turn of `HeavyEnter` of a session that is between operations. -/
def heavyEnter : Phase → Pc
  | .growPrepare => .refresh
  | .growInProgress => .split Option.none
  | _ => .idle

/-- The session `t` calls a function. -/
def startCall (s : State) (t : ℕ) : Act → Option State
  | .startSession => if s.isProtected t = false then some (s.goto t .sessionLoad) else Option.none
  | .stopSession =>
    if s.isProtected t = true ∧ (s.ctx t).phase = .rest then some (s.protect t false) else Option.none
  | .refresh => if s.isProtected t = true then some (s.goto t .refresh) else Option.none
  | .heavyEnter =>
    if s.isProtected t = true then some (s.goto t (heavyEnter (s.ctx t).phase)) else Option.none
  | .start a =>
    if s.isProtected t = true ∧ a.firstPhase.isSome then some (s.goto t (.startLoad a)) else Option.none
  | .step _ => Option.none

/-- What a call of a function does. -/
inductive Starts (s : State) (t : ℕ) : Act → State → Prop
  | startSession (hoff : s.isProtected t = false) : Starts s t .startSession (s.goto t .sessionLoad)
  | stopSession (hon : s.isProtected t = true ∧ (s.ctx t).phase = .rest) :
    Starts s t .stopSession (s.protect t false)
  | refresh (hon : s.isProtected t = true) : Starts s t .refresh (s.goto t .refresh)
  | heavyEnter (hon : s.isProtected t = true) :
    Starts s t .heavyEnter (s.goto t (heavyEnter (s.ctx t).phase))
  | start (a : Action) (hon : s.isProtected t = true ∧ a.firstPhase.isSome) :
    Starts s t (.start a) (s.goto t (.startLoad a))

theorem starts_of_startCall {s s' : State} {t : ℕ} {act : Act} (hs : startCall s t act=some s') : Starts s t act s' := by
  cases act with
  | step ready => cases hs
  | _ =>
    obtain ⟨hif,rfl⟩ := of_guard hs
    constructor
    exact hif

/-- One step of an execution. -/
def step (s : State) (label : Label) : Option State :=
  if label.thread < kMaxNumThreads then
    match label.act with
    | .step ready => callStep s label.thread ready (s.pc label.thread)
    | act => if s.pc label.thread = .idle then startCall s label.thread act else Option.none
  else Option.none

/-- No action is in progress and no session is inside a call; the sessions, what
they remember and what the epoch table holds from earlier actions are arbitrary. -/
def Quiescent (s : State) : Prop :=
  s.systemState.action = .none ∧ s.systemState.phase = .rest ∧ (∀ t, s.pc t = .idle) ∧ s.started = 0

/-- The executions of the phase protocol. -/
def machine : Machine State Label := ⟨Quiescent, step⟩

end FishStore.Phases
