import FishStore.DurablePrefix
import FishStore.PendingIo
import FishStore.PhaseAcks
import FishStore.Recovery

/-!
# Checkpoints and their files

The phase protocol, with what its steps do beyond it during a checkpoint. In the prepare
phase each session enters itself in the metadata of the log; when it moves to the next
version it keeps its old context; when the log is flushed it writes that context to a file;
and it is called back in the last phase. The session that moves the system state issues the
writes of the index, fixes the final address and writes the metadata.

Every file operation may fail, and so may every write of the log and of the index: the
outcome is part of the step's label. `GetTailAddress` and the file that is written in a
transition count as one step with it, and the log takes its own steps in between. The
snapshot files of `fold_over_snapshot = false` are left out, as the flag is never cleared.
The token of a checkpoint is the number of its action.
-/

namespace FishStore.CheckpointFiles

open Layout Runs Recovery Phases
open PendingIo (nextWord)
open PersistentMemoryMalloc (Write)
open Function (update)

/-- What a session's context keeps, but for its version. -/
structure Session where
  guid : Guid
  serialNum : ℕ
  offset : ℕ
  deriving DecidableEq

/-- The files of an index checkpoint that are written in pieces. -/
inductive IndexFile
  /-- `ht.dat`, in chunks. -/
  | table
  /-- `ofb.dat`, in pages. -/
  | overflow
  deriving DecidableEq

/-- A piece of one of them. -/
abbrev IndexWrite := IndexFile × ℕ

/-- The checkpoint state of the hash table and of the overflow allocator. -/
structure IndexCheckpoint where
  /-- `index_checkpoint_started`. -/
  started : Bool
  /-- The writes that were issued and have not completed. -/
  pending : List IndexWrite
  /-- `checkpoint_failed_` of each file. -/
  failed : IndexFile → Bool

/-- No index checkpoint has begun. -/
def IndexCheckpoint.idle : IndexCheckpoint := ⟨false, [], fun _ => false⟩

/-- `checkpoint_pending_` of a file. -/
def IndexCheckpoint.busy (c : IndexCheckpoint) (f : IndexFile) : Bool := c.pending.any fun w => decide (w.1 = f)

/-- `CheckpointComplete` of a file. -/
def IndexCheckpoint.complete (c : IndexCheckpoint) (f : IndexFile) : Status :=
  if c.busy f then .pending else if c.failed f then .ioError else .ok

/-- `CheckpointFuzzyIndexComplete`. -/
def IndexCheckpoint.result (c : IndexCheckpoint) : Status :=
  if !c.started then .pending
  else if c.complete .table ≠ .ok then c.complete .table
  else c.complete .overflow

/-- The callback of a write: its outcome, and that of closing the file after the last one. -/
def IndexCheckpoint.done (c : IndexCheckpoint) (w : IndexWrite) (ok closed : Bool) : IndexCheckpoint :=
  let pending := c.pending.erase w
  let last := !pending.any fun x => decide (x.1 = w.1)
  { c with
    pending
    failed := update c.failed w.1 (c.failed w.1 || !ok || (last && !closed)) }

/-- The pieces of an index checkpoint whose overflow buckets fill some pages. -/
def indexWrites (pages : ℕ) : List IndexWrite :=
  (List.range kNumMergeChunks).map (Prod.mk .table) ++ (List.range pages).map (Prod.mk .overflow)

/-- A callback with `Status::Ok`. -/
inductive Report
  /-- `index_persistence_callback`. -/
  | index (token : Guid)
  /-- `hybrid_log_persistence_callback`, of a session. -/
  | hybridLog (token guid : Guid)
  deriving DecidableEq

/-- The store, its sessions and files. -/
structure State where
  /-- The shared words and the phase and version of each session. -/
  base : Phases.State
  /-- `hlog`. -/
  log : PersistentMemoryMalloc.State
  /-- `thread_ctx()` of each session. -/
  own : ℕ → Session
  /-- `prev_thread_ctx()` of each session. -/
  prev : ℕ → PersistentExecContext
  /-- `checkpoint_`. -/
  checkpoint : CheckpointState
  /-- The index checkpoint. -/
  index : IndexCheckpoint
  /-- The files, by token. -/
  files : Files
  /-- History: the writes of the log that have failed. -/
  lost : List Write
  /-- History: the writes of each index checkpoint that were issued. -/
  issued : Guid → List IndexWrite
  /-- History: those that have succeeded. -/
  written : Guid → List IndexWrite
  /-- History: the serial number and offset at which a session moved to the next version. -/
  point : Guid → Guid → Option (ℕ × ℕ)
  /-- History: the log checkpoints that are complete. -/
  completed : List Guid
  /-- History: the callbacks. -/
  reports : List Report

/-- What a step of the phase protocol does beyond it. -/
inductive Event
  | quiet
  /-- A session joins. -/
  | join
  /-- A session enters itself in the metadata. -/
  | register
  /-- A session swaps its contexts, in a checkpoint or a garbage collection. -/
  | swap (checkpoint : Bool)
  /-- `WriteCprContext`. -/
  | writeCprContext
  /-- `hybrid_log_persistence_callback`. -/
  | persistenceCallback
  /-- The result of the index checkpoint is looked at. -/
  | indexResult
  /-- The checkpoint state is initialised. -/
  | init (a : Action)
  /-- `CheckpointFuzzyIndex`. -/
  | checkpointFuzzyIndex
  /-- `WriteIndexMetadata` and `index_persistence_callback`; in an index checkpoint
  `CheckpointDone` in between. -/
  | indexDone (last : Bool)
  /-- The final address is fixed, and `WriteCprMetadata`. -/
  | writeCprMetadata
  /-- The system state moves to the end of a log checkpoint. -/
  | complete
  /-- `CheckpointDone`. -/
  | checkpointDone
  deriving DecidableEq

/-- The action is a checkpoint. -/
def isCheckpoint : Action → Bool
  | .checkpointFull | .checkpointIndex | .checkpointHybridLog => true
  | _ => false

/-- The transition from `prev` to `cur` in the loop of `HandleSpecialPhases`. -/
def loopEvent (cur prev : SystemState) (has ready : Bool) : Event :=
  match cur.phase with
  | .indexChkpt => if isCheckpoint cur.action then .indexResult else .quiet
  | .prepare => if isCheckpoint cur.action && decide (prev.phase ≠ .prepare) then .register else .quiet
  | .inProgress => if isCheckpoint cur.action && decide (prev.phase = .prepare) then .swap true else .quiet
  | .waitFlush => if isCheckpoint cur.action && (!has && ready) then .writeCprContext else .quiet
  | .persistenceCallback =>
    if isCheckpoint cur.action && decide (prev.phase = .waitFlush) then .persistenceCallback else .quiet
  | .gcIoPending => if decide (cur.action = .gc) && decide (prev.phase = .rest) then .swap false else .quiet
  | _ => .quiet

/-- `GlobalMoveToNextState` after the word was moved to `next`. -/
def settleEvent (next : SystemState) : Event :=
  if isCheckpoint next.action then
    match next.phase with
    | .indexChkpt => .checkpointFuzzyIndex
    | .prepare => .indexDone false
    | .waitFlush => .writeCprMetadata
    | .rest => if next.action = .checkpointIndex then .indexDone true else .checkpointDone
    | _ => .quiet
  else .quiet

/-- The word is moved from `w`, and its log checkpoint is over. -/
def completes (w : SystemState) : Bool :=
  (isCheckpoint w.action && decide (w.action ≠ .checkpointIndex)) && w.getNextState.any fun n => decide (n.phase = .rest)

/-- What the thread does beyond the phase protocol where it stands. -/
def event (b : Phases.State) (t : ℕ) (ready : Bool) : Pc → Event
  | .sessionLoad => if b.systemState.phase = .rest then .join else .quiet
  | .iterate final prev =>
    match nextWord final prev with
    | some cur => loopEvent cur prev (decide (b.phaseFinished t = cur.phase)) ready
    | none => .quiet
  | .move w _ _ => if b.systemState = w ∧ completes w = true then .complete else .quiet
  | .settle next _ => settleEvent next
  | .publish a _ => if isCheckpoint a then .init a else .quiet
  | _ => .quiet

/-- What the environment decides in a step. -/
structure Choice where
  /-- The session that joins, new or continued. -/
  session : Session
  /-- The file of the step is written. -/
  writeOk : Bool
  /-- The pages of the overflow buckets. -/
  pages : ℕ
  /-- The number of writes after which `CheckpointFuzzyIndex` fails, if it does. -/
  refused : Option ℕ
  /-- The metadata with which an index checkpoint begins. -/
  indexMetadata : IndexMetadata
  deriving DecidableEq

/-- `InitializeCheckpoint`, `InitializeIndexCheckpoint` or `InitializeHybridLogCheckpoint`. -/
def initCheckpoint (a : Action) (token : Guid) (version : UInt32) (m : IndexMetadata) : CheckpointState where
  failed := false
  indexToken := if a = .checkpointHybridLog then 0 else token
  hybridLogToken := if a = .checkpointIndex then 0 else token
  indexMetadata := if a = .checkpointHybridLog then .reset else m
  logMetadata := if a = .checkpointIndex then .reset else .init false version kInvalidAddress
  continueTokens := []

/-- The session enters itself in the metadata. -/
def registerIn (m : LogMetadata) (t : ℕ) (guid : Guid) : LogMetadata :=
  { m with numThreads := m.numThreads + 1, guids := m.guids.set t guid }

/-- `CheckpointDone`. -/
def checkpointDone (c : CheckpointState) : CheckpointState :=
  { c with indexMetadata := .reset, logMetadata := .reset }

/-- The context that a session leaves. -/
def State.left (s : State) (t : ℕ) : PersistentExecContext :=
  ⟨(s.own t).serialNum, (s.own t).offset, (s.base.ctx t).version, (s.own t).guid⟩

/-- The metadata with the final address. -/
def State.finalMetadata (s : State) : LogMetadata :=
  { s.checkpoint.logMetadata with finalAddress := s.log.getTailAddress }

/-- The step of thread `t` does what the event says. -/
def State.apply (s : State) (t : ℕ) (x : Choice) : Event → State
  | .quiet => s
  | .join => { s with own := update s.own t x.session }
  | .register =>
    { s with
      checkpoint := { s.checkpoint with
        logMetadata := registerIn s.checkpoint.logMetadata t (s.own t).guid } }
  | .swap false => { s with prev := update s.prev t (s.left t) }
  | .swap true =>
    { s with
      prev := update s.prev t (s.left t)
      point := update s.point s.checkpoint.hybridLogToken
        (update (s.point s.checkpoint.hybridLogToken) (s.own t).guid
          (some ((s.own t).serialNum, (s.own t).offset))) }
  | .writeCprContext =>
    if x.writeOk then
      { s with
        files := { s.files with
          cprContext := update s.files.cprContext s.checkpoint.hybridLogToken
            (update (s.files.cprContext s.checkpoint.hybridLogToken) (s.prev t).guid
              (some (s.prev t))) } }
    else s
  | .persistenceCallback =>
    { s with reports := .hybridLog s.checkpoint.hybridLogToken (s.prev t).guid :: s.reports }
  | .indexResult =>
    if s.index.result ≠ .pending ∧ s.index.result ≠ .ok then
      { s with checkpoint := { s.checkpoint with failed := true } }
    else s
  | .init a =>
    { s with
      checkpoint := initCheckpoint a s.base.started s.base.systemState.version x.indexMetadata
      index := .idle }
  | .checkpointFuzzyIndex =>
    match x.refused with
    | none =>
      { s with
        index := ⟨true, indexWrites x.pages, fun _ => false⟩
        issued := update s.issued s.checkpoint.indexToken (indexWrites x.pages) }
    | some n =>
      { s with
        checkpoint := { s.checkpoint with failed := true }
        index := ⟨false, (indexWrites x.pages).take n, fun _ => false⟩
        issued := update s.issued s.checkpoint.indexToken ((indexWrites x.pages).take n) }
  | .indexDone last =>
    let checkpoint := { s.checkpoint with failed := s.checkpoint.failed || !x.writeOk }
    { s with
      checkpoint := if last then checkpointDone checkpoint else checkpoint
      files := if x.writeOk then
          { s.files with
            indexInfo := update s.files.indexInfo s.checkpoint.indexToken
              (some s.checkpoint.indexMetadata) }
        else s.files
      reports := .index s.checkpoint.indexToken :: s.reports }
  | .writeCprMetadata =>
    { s with
      checkpoint := { s.checkpoint with
        failed := s.checkpoint.failed || !x.writeOk
        logMetadata := s.finalMetadata }
      files := if x.writeOk then
          { s.files with
            cprInfo := update s.files.cprInfo s.checkpoint.hybridLogToken (some s.finalMetadata) }
        else s.files }
  | .complete => { s with completed := s.checkpoint.hybridLogToken :: s.completed }
  | .checkpointDone => { s with checkpoint := checkpointDone s.checkpoint }

/-- What the transition of the loop waits for: the index checkpoint, or the flushed log. The
rest is decided by the label. -/
def State.ready (s : State) (ready : Bool) : Pc → Bool
  | .iterate final prev =>
    match nextWord final prev with
    | some cur =>
      if cur.phase = .indexChkpt then decide (s.index.result ≠ .pending)
      else if cur.phase = .waitFlush then
        decide (s.checkpoint.logMetadata.finalAddress ≤ s.log.flushedUntilAddress)
      else ready
    | none => ready
  | _ => ready

/-- The label of the phase protocol's step. -/
def State.label (s : State) (l : Phases.Label) : Phases.Label :=
  match l.act with
  | .step ready => ⟨l.thread, .step (s.ready ready (s.base.pc l.thread))⟩
  | _ => l

/-- What the step does beyond the phase protocol. -/
def State.eventOf (s : State) (l : Phases.Label) : Event :=
  match l.act with
  | .step ready => event s.base l.thread (s.ready ready (s.base.pc l.thread)) (s.base.pc l.thread)
  | _ => .quiet

/-- A session that `StartSession` or `ContinueSession` can make. -/
def State.Admits (s : State) (x : Session) : Prop :=
  x.serialNum = 0 ∧ x.offset = 0 ∨ (x.guid, x.serialNum, x.offset) ∈ s.checkpoint.continueTokens

instance (s : State) (x : Session) : Decidable (s.Admits x) := inferInstanceAs (Decidable (_ ∨ _))

/-- A step of an execution. -/
inductive Label
  /-- A session calls a function of the phase protocol, or goes on in its call. -/
  | phase (l : Phases.Label) (x : Choice)
  /-- A step of the log; `ok` is the outcome where a write completes. -/
  | log (l : PersistentMemoryMalloc.Label) (ok : Bool)
  /-- A write of the index completes, and its file is closed after the last one. -/
  | indexWrite (w : IndexWrite) (ok closed : Bool)
  /-- An operation of a session. -/
  | operate (t serialNum offset : ℕ)
  deriving DecidableEq

/-- The write of the log that completes. -/
def completing : PersistentMemoryMalloc.Label → Option Write
  | .thread _ (.complete w) => some w
  | _ => none

/-- One step of an execution. -/
def step (bufferSize : ℕ) (s : State) : Label → Option State
  | .phase l x =>
    if s.eventOf l = .join ∧ ¬s.Admits x.session then none
    else (Phases.step s.base (s.label l)).map fun base =>
      { s.apply l.thread x (s.eventOf l) with base }
  | .log l ok =>
    (PersistentMemoryMalloc.step bufferSize s.log l).map fun log =>
      { s with log, lost := if ok then s.lost else (completing l).toList ++ s.lost }
  | .indexWrite w ok closed =>
    if w ∈ s.index.pending then
      some { s with
        index := s.index.done w ok closed
        written := if ok then
            update s.written s.checkpoint.indexToken (w :: s.written s.checkpoint.indexToken)
          else s.written }
    else none
  | .operate t serialNum offset =>
    if s.base.isProtected t = true ∧ s.base.pc t = .idle then
      some { s with own := update s.own t { s.own t with serialNum, offset } }
    else none

/-- A store without sessions, new or recovered; there are no files for its next tokens. -/
structure Fresh (bufferSize : ℕ) (s : State) : Prop where
  quiescent : Phases.Quiescent s.base
  unprotected : ∀ t, s.base.isProtected t = false
  /-- What is flushed of the log was written. -/
  log : DurablePrefix.Inv bufferSize s.log
  index : s.index = .idle
  frames : PersistentMemoryMalloc.kNumHeadPages + 1 < bufferSize
  info : ∀ n, s.files.cprInfo n = none
  lost : s.lost = []
  completed : s.completed = []
  reports : s.reports = []

/-- The executions of a store whose log has the given number of frames. -/
def machine (bufferSize : ℕ) : Machine State Label := ⟨Fresh bufferSize, step bufferSize⟩

end FishStore.CheckpointFiles
