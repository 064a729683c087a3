import FishStore.DiskCallbacks
import FishStore.PhaseWalk

/-!
# Pending operations of a session

A session has two execution contexts, one of which is current. An operation that has to
read from disk is counted by `pending_io_cnt` of the current context, and a read or scan
of a chain is entered in its `pending_ios` too, but a full scan is not. The last callback
of the operation hands a response to the queue of that context. `CompletePending` takes
responses from the queue and calls the user's callback. Phases of a checkpoint and of a
garbage collection swap the contexts, and clear the one that becomes current.

The other sessions are seen through `system_state_` only: they move it on when this
session has acknowledged a phase, if they wait for it, which they do not for the thread
with id 0. An index checkpoint inside a full checkpoint is not acknowledged. The short
times when the word is in its rest phase while an action is set are passed over, and
`SplitHashTableBuckets` counts as one acknowledgement. A call that issues an operation, a
callback, and the handling of one response are one step each. Operations are never
retried, as only insertions are.

As history the state numbers the operations that were issued, and counts the calls of
their callbacks.
-/

namespace FishStore.PendingIo

open Layout LogRecords Runs DiskCallbacks List Phases
open Function (update update_of_ne update_self)

/-- What a read and a response keep of the operation. -/
structure Tag where
  /-- History: the number of the operation. -/
  op : ℕ
  type : OperationType
  /-- The context that has issued it, to whose `io_responses` the response goes. -/
  ctx : Bool
  /-- `io_id`. -/
  ioId : ℕ
  deriving DecidableEq

/-- A read in flight, or a response. -/
structure Request where
  tag : Tag
  io : Io
  deriving DecidableEq

/-- `ExecutionContext`. -/
structure ExecutionContext where
  phase : Phase
  version : UInt32
  /-- `io_id`. -/
  ioId : ℕ
  /-- The keys of `pending_ios`. -/
  pendingIos : List ℕ
  /-- `pending_io_cnt`, an unsigned number of 32 bits. -/
  pendingIoCnt : ℕ
  /-- `io_responses`. -/
  ioResponses : List Request

/-- `ExecutionContext::Initialize`. -/
def ExecutionContext.cleared (phase : Phase) (version : UInt32) : ExecutionContext :=
  ⟨phase, version, 0, [], 0, []⟩

/-- An operation is counted, and entered unless it is a full scan. -/
def ExecutionContext.enter (x : ExecutionContext) (type : OperationType) : ExecutionContext :=
  { x with
    ioId := x.ioId + 1
    pendingIos := match type with
      | .fullScan => x.pendingIos
      | _ => x.ioId :: x.pendingIos
    pendingIoCnt := (x.pendingIoCnt + 1) % 2 ^ 32 }

/-- A response was taken from the queue. -/
def ExecutionContext.take (x : ExecutionContext) (r : Request) (rest : List Request) :
    ExecutionContext :=
  { x with
    pendingIos := x.pendingIos.erase r.tag.ioId
    pendingIoCnt := (x.pendingIoCnt + (2 ^ 32 - 1)) % 2 ^ 32
    ioResponses := rest }

/-- Who has called `CompletePending`. -/
inductive Call
  | completePending (wait : Bool)
  | stopSession
  deriving DecidableEq

/-- Who has called `Refresh`. -/
inductive Caller
  | user
  /-- `CompletePending`, after it has worked on the current context. -/
  | current (c : Call)
  /-- `CompletePending`, after it has worked on the previous context. -/
  | previous (c : Call)
  deriving DecidableEq

/-- Where the session stands. -/
inductive Pc
  | idle
  /-- At the head of the loop of `CompletePending`. -/
  | loop (c : Call)
  /-- In `CompleteIoPendingRequests(thread_ctx())`. -/
  | drain (c : Call)
  /-- About to refresh. -/
  | refresh (r : Caller)
  /-- At the head of the loop of `HandleSpecialPhases`. -/
  | iterate (final prev : SystemState) (r : Caller)
  /-- `CompletePending` has computed `done`. -/
  | done (c : Call)
  /-- In `CompleteIoPendingRequests(prev_thread_ctx())`. -/
  | drainPrev (c : Call)
  /-- At the head of the loop of `StopSession`. -/
  | stopping
  /-- `StopSession` has returned. -/
  | stopped
  deriving DecidableEq

/-- The session, its reads on disk, the word that all sessions share, and history. -/
structure State where
  /-- The two contexts of `thread_contexts_`. -/
  ctx : Bool → ExecutionContext
  /-- The one that `thread_ctx()` returns. -/
  current : Bool
  /-- The reads that were issued and have not completed. -/
  inFlight : List Request
  /-- `phase_finished` of the session's entry in the epoch table. -/
  phaseFinished : Phase
  /-- `system_state_`. -/
  systemState : SystemState
  pc : Pc
  /-- History: the word that has started the latest action. -/
  origin : SystemState
  /-- History: the number of operations issued. -/
  issued : ℕ
  /-- History: how often the callback of each operation was called. -/
  called : ℕ → ℕ

/-- `thread_ctx()`. -/
def State.threadCtx (s : State) : ExecutionContext := s.ctx s.current

/-- `prev_thread_ctx()`. -/
def State.prevThreadCtx (s : State) : ExecutionContext := s.ctx (!s.current)

/-- Write one of the contexts. -/
def State.setCtx (s : State) (b : Bool) (x : ExecutionContext) : State :=
  { s with ctx := update s.ctx b x }

/-- The disk has taken the read; otherwise `ReadAsync` has returned an error, which
nobody looks at. -/
def State.submit (s : State) (accepted : Bool) (r : Request) : State :=
  if accepted then { s with inFlight := r :: s.inFlight } else s

/-- `IssueAsyncIoRequest` and `IssueAsyncScanRequest`. -/
def State.issue (s : State) (c : Setting) (type : OperationType) (address startAddr endAddr : ℕ)
    (accepted : Bool) : State :=
  let length := match type with
    | .fullScan => kMaxOffset + 1
    | _ => minIoRequestSize
  let io := c.asyncGetFromDisk ⟨address, 0, 0, 0, 0, startAddr, endAddr⟩ address length
  { s.setCtx s.current (s.threadCtx.enter type) with issued := s.issued + 1 }.submit accepted
    ⟨⟨s.issued, type, s.current, s.threadCtx.ioId⟩, io⟩

/-- An effect of the callback of a read. -/
def State.apply (s : State) (c : Setting) (accepted : Bool) (tag : Tag) (io : Io) : Effect → State
  | .touch _ => s
  | .read address length => s.submit accepted ⟨tag, c.asyncGetFromDisk io address length⟩
  | .push =>
    s.setCtx tag.ctx { s.ctx tag.ctx with ioResponses := (s.ctx tag.ctx).ioResponses ++ [⟨tag, io⟩] }

/-- A read completes. -/
def State.complete (s : State) (c : Setting) (r : Request) (mem : Bytes) (loads : ℕ → ℕ)
    (result : Status) (accepted : Bool) : State :=
  let after := c.callback r.tag.type mem loads result r.io
  after.2.foldl (fun s e => s.apply c accepted r.tag after.1 e)
    { s with inFlight := s.inFlight.erase r }

/-- `CompleteIoPendingRequests` takes a response, and calls the user's callback. -/
def State.respond (s : State) (b : Bool) (r : Request) (rest : List Request) : State :=
  { s.setCtx b ((s.ctx b).take r rest) with
    called := update s.called r.tag.op (s.called r.tag.op + 1) }

/-- The transition swaps the contexts. -/
def swaps (cur prev : SystemState) : Bool :=
  match cur.action with
  | .checkpointFull | .checkpointHybridLog => decide (cur.phase = .inProgress ∧ prev.phase = .prepare)
  | .gc => decide (cur.phase = .gcIoPending ∧ prev.phase = .rest)
  | _ => false

/-- Swap the contexts and initialise the new one. -/
def State.swap (s : State) (cur : SystemState) : State :=
  { s.setCtx (!s.current) (.cleared cur.phase cur.version) with current := !s.current }

/-- The transition waits for the operations of the previous context. -/
def waitsForPending (cur : SystemState) : Bool :=
  decide (cur.phase = .waitPending ∨ cur.phase = .gcIoPending)

/-- The session acknowledges a phase. -/
def acknowledges : Phases.Work → Bool
  | .finish | .split => true
  | _ => false

/-- Where the caller of `Refresh` goes on. -/
def afterRefresh : Caller → Pc
  | .user => .idle
  | .current c => .done c
  | .previous (.completePending true) => .loop (.completePending true)
  | .previous (.completePending false) => .idle
  | .previous .stopSession => .stopping

/-- After the contexts were swapped, if the transition does so. -/
def State.swapped (s : State) (cur prev : SystemState) : State :=
  if swaps cur prev then s.swap cur else s

/-- The phase that the session has acknowledged after the work of the transition. -/
def State.finished (s : State) (cur prev : SystemState) (ready : Bool) : Phase :=
  let ready := if waitsForPending cur then s.prevThreadCtx.pendingIos.isEmpty else ready
  let work := phaseWork cur prev (decide (s.phaseFinished = cur.phase)) ready
    ⟨s.threadCtx.phase, s.threadCtx.version⟩
  if acknowledges work.1 then cur.phase else s.phaseFinished

/-- The body of the loop of `HandleSpecialPhases`. -/
def State.handle (s : State) (final prev cur : SystemState) (ready : Bool) (r : Caller) : State :=
  let s := s.swapped cur prev
  { s.setCtx s.current { s.threadCtx with phase := cur.phase, version := cur.version } with
    phaseFinished := s.finished cur prev ready
    pc := if cur = final then afterRefresh r else .iterate final cur r }

/-- The word that the loop of `HandleSpecialPhases` goes on to. -/
def nextWord (final prev : SystemState) : Option SystemState :=
  if prev = final then some final else prev.getNextState

/-- One step of the call that the session is in. -/
def callStep (s : State) (ready : Bool) : Pc → Option State
  | .idle => none
  | .loop c =>
    if s.threadCtx.phase ≠ .waitPending ∧ s.threadCtx.phase ≠ .inProgress then
      some { s with pc := .drain c }
    else some { s with pc := .refresh (.current c) }
  | .drain c =>
    match s.threadCtx.ioResponses with
    | [] => some { s with pc := .refresh (.current c) }
    | r :: rest => some (s.respond s.current r rest)
  | .refresh r =>
    if s.systemState.phase = .rest then
      some { s.setCtx s.current
        { s.threadCtx with
          phase := .rest
          version := if s.threadCtx.phase = .rest then s.threadCtx.version else s.systemState.version } with
        pc := afterRefresh r }
    else
      let prev : SystemState := ⟨s.systemState.action, s.threadCtx.phase, s.threadCtx.version⟩
      some { s with pc := .iterate s.systemState prev r }
  | .iterate final prev r =>
    (nextWord final prev).map fun cur => s.handle final prev cur ready r
  | .done c =>
    if s.threadCtx.phase ≠ .rest then some { s with pc := .drainPrev c }
    else if s.threadCtx.pendingIoCnt = 0 then
      -- `CompletePending` returns true.
      some { s with pc := match c with
        | .completePending _ => .idle
        | .stopSession => .stopping }
    else some { s with pc := afterRefresh (.previous c) }
  | .drainPrev c =>
    match s.prevThreadCtx.ioResponses with
    | [] => some { s with pc := .refresh (.previous c) }
    | r :: rest => some (s.respond (!s.current) r rest)
  | .stopping =>
    if s.threadCtx.phase ≠ .rest ∨ s.threadCtx.pendingIos ≠ [] then some { s with pc := .loop .stopSession }
    else some { s with pc := .stopped }
  | .stopped => none

/-- Sessions wait for each other in all phases but this one. -/
def needsAck (a : Action) (p : Phase) : Prop := ¬(a = .checkpointFull ∧ p = .indexChkpt)

instance (a : Action) (p : Phase) : Decidable (needsAck a p) := inferInstanceAs (Decidable (¬_))

/-- A step of the session, of the disk, or of the other sessions. -/
inductive Label
  /-- A call of `Read`, `Scan` or `FullScan` that returns `Pending`. -/
  | issue (type : OperationType) (address startAddr endAddr : ℕ) (accepted : Bool)
  | refresh
  | completePending (wait : Bool)
  | stopSession
  | startSession
  /-- A step of the call that the session is in. -/
  | step (ready : Bool)
  /-- A read completes with a result; its buffer shows `mem`. -/
  | complete (r : Request) (mem : Bytes) (loads : ℕ → ℕ) (result : Status) (accepted : Bool)
  /-- An action starts. -/
  | start (a : Action)
  /-- The word moves on. -/
  | move

/-- One step of an execution. `tracked` says that the other sessions wait for this one. -/
def step (c : Setting) (tracked : Bool) (s : State) : Label → Option State
  | .issue type address startAddr endAddr accepted =>
    if s.pc = .idle then some (s.issue c type address startAddr endAddr accepted) else none
  | .refresh => if s.pc = .idle then some { s with pc := .refresh .user } else none
  | .completePending wait =>
    if s.pc = .idle then some { s with pc := .loop (.completePending wait) } else none
  | .stopSession => if s.pc = .idle then some { s with pc := .stopping } else none
  | .startSession =>
    if s.pc = .stopped ∧ s.systemState.phase = .rest then
      some { s.setCtx s.current (.cleared .rest s.systemState.version) with pc := .idle }
    else none
  | .step ready => callStep s ready s.pc
  | .complete r mem loads result accepted =>
    if r ∈ s.inFlight then some (s.complete c r mem loads result accepted) else none
  | .start a =>
    if s.systemState.action = .none ∧ s.systemState.phase = .rest then
      a.firstPhase.map fun p =>
        { s with
          systemState := ⟨a, p, s.systemState.version⟩
          phaseFinished := .rest
          origin := ⟨a, .rest, s.systemState.version⟩ }
    else none
  | .move =>
    if tracked = true → s.pc ≠ .stopped → needsAck s.systemState.action s.systemState.phase →
        s.phaseFinished = s.systemState.phase then
      s.systemState.getNextState.map fun next =>
        { s with systemState := if next.phase = .rest then ⟨.none, .rest, next.version⟩ else next }
    else none

/-- After `StartSession` at a version. -/
def initial (version : UInt32) : State where
  ctx := fun b => if b then .cleared .rest version else .cleared .invalid 0
  current := true
  inFlight := []
  phaseFinished := .rest
  systemState := ⟨.none, .rest, version⟩
  pc := .idle
  origin := ⟨.none, .rest, version⟩
  issued := 0
  called := fun _ => 0

/-- The executions of a session. -/
def machine (c : Setting) (tracked : Bool) : Machine State Label :=
  ⟨fun s => ∃ version, s = initial version, step c tracked⟩

/-- What is outstanding: the reads in flight and the responses in the queues. -/
def State.tags (s : State) : List Tag :=
  s.inFlight.map Request.tag ++ (s.ctx true).ioResponses.map Request.tag ++
    (s.ctx false).ioResponses.map Request.tag

/-- The books of the session agree with what is outstanding. -/
structure Accounts (s : State) : Prop where
  /-- A response is in the queue of the context that has issued the operation. -/
  queue : ∀ b, ∀ r ∈ (s.ctx b).ioResponses, r.tag.ctx = b
  cnt : ∀ b, (s.ctx b).pendingIoCnt = s.tags.countP fun g => decide (g.ctx = b)
  small : ∀ b, (s.ctx b).pendingIoCnt < 2 ^ 32
  ios : ∀ b i, (s.ctx b).pendingIos.count i =
    s.tags.countP fun g => decide (g.ctx = b ∧ g.ioId = i ∧ g.type ≠ .fullScan)
  ids : ∀ b i, s.tags.countP (fun g => decide (g.ctx = b ∧ g.ioId = i)) ≤
    if i < (s.ctx b).ioId then 1 else 0
  ops : ∀ n, s.called n + s.tags.countP (fun g => decide (g.op = n)) = if n < s.issued then 1 else 0

section

variable {c : Setting} {tracked : Bool} {s s' : State} {label : Label}

theorem setCtx_self (s : State) (b : Bool) (x : ExecutionContext) : (s.setCtx b x).ctx b=x := update_self _ _ _

theorem setCtx_of_ne {b d : Bool} (x : ExecutionContext) (h : d ≠ b) : (s.setCtx b x).ctx d=s.ctx d := update_of_ne h _ _

/-- What is outstanding, with the queue of one context put last. -/
theorem tags_perm (s : State) (b : Bool) : s.tags.Perm
    (s.inFlight.map Request.tag ++ (s.ctx !b).ioResponses.map Request.tag ++
      (s.ctx b).ioResponses.map Request.tag) := by
  unfold State.tags
  cases b with
  | true =>
    rw [append_assoc,append_assoc]
    exact List.Perm.append_left _ perm_append_comm
  | false => exact List.Perm.refl _

theorem tags_congr (hctx : ∀ b, (s'.ctx b).ioResponses=(s.ctx b).ioResponses)
    (hflight : s'.inFlight=s.inFlight) : s'.tags=s.tags := by
  unfold State.tags
  rw [hctx,hctx,hflight]

/-- The books of a context. -/
structure SameBooks (x y : ExecutionContext) : Prop where
  ioId : x.ioId = y.ioId
  pendingIos : x.pendingIos = y.pendingIos
  pendingIoCnt : x.pendingIoCnt = y.pendingIoCnt

/-- A step that moves requests only between the disk and the queues. -/
theorem Accounts.of_perm (h : Accounts s) (hperm : s'.tags.Perm s.tags)
    (hqueue : ∀ b, ∀ r ∈ (s'.ctx b).ioResponses, r.tag.ctx=b)
    (hbooks : ∀ b, SameBooks (s'.ctx b) (s.ctx b)) (hissued : s'.issued=s.issued)
    (hcalled : s'.called=s.called) : Accounts s' := by
  refine ⟨hqueue,fun b => ?_,fun b => ?_,fun b i => ?_,fun b i => ?_,fun n => ?_⟩
  · rw [(hbooks b).pendingIoCnt,hperm.countP_eq]
    exact h.cnt b
  · rw [(hbooks b).pendingIoCnt]
    exact h.small b
  · rw [(hbooks b).pendingIos,hperm.countP_eq]
    exact h.ios b i
  · rw [(hbooks b).ioId,hperm.countP_eq]
    exact h.ids b i
  · rw [hissued,hcalled,hperm.countP_eq]
    exact h.ops n

/-- A step that leaves the reads, the queues and the books. -/
theorem Accounts.of_eq (h : Accounts s) (hflight : s'.inFlight=s.inFlight)
    (hctx : ∀ b, (s'.ctx b).ioResponses=(s.ctx b).ioResponses ∧ SameBooks (s'.ctx b) (s.ctx b))
    (hissued : s'.issued=s.issued) (hcalled : s'.called=s.called) : Accounts s' := by
  refine h.of_perm ?_ ?_ (fun b => (hctx b).2) hissued hcalled
  · rw [tags_congr (fun b => (hctx b).1) hflight]
  · intro b r hr
    rw [(hctx b).1] at hr
    exact h.queue b r hr

/-- The phase of a context is written. -/
theorem Accounts.setPhase (h : Accounts s) (b : Bool) (p : Phase) (v : UInt32) (pc : Pc) (f : Phase) :
    Accounts { s.setCtx b { s.ctx b with phase := p, version := v } with pc := pc, phaseFinished := f } := by
  refine h.of_eq rfl (fun d => ?_) rfl rfl
  by_cases hd : d=b
  · rw [hd]
    change (update s.ctx b _ b).ioResponses=_ ∧ SameBooks (update s.ctx b _ b) _
    rw [update_self]
    exact ⟨rfl,rfl,rfl,rfl⟩
  · change (update s.ctx b _ d).ioResponses=_ ∧ SameBooks (update s.ctx b _ d) _
    rw [update_of_ne hd]
    exact ⟨rfl,rfl,rfl,rfl⟩

/-- A step that writes one context: what is outstanding for the other one has not changed. -/
theorem Accounts.write (h : Accounts s) {b : Bool} {x : ExecutionContext} (hctx : s'.ctx=update s.ctx b x)
    (hother : ∀ q : Tag → Prop, ∀ _ : DecidablePred q, (∀ g, q g → g.ctx ≠ b) →
      s'.tags.countP (fun g => decide (q g))=s.tags.countP fun g => decide (q g))
    (hqueue : ∀ r ∈ x.ioResponses, r.tag.ctx=b) (hcnt : x.pendingIoCnt=s'.tags.countP fun g => decide (g.ctx=b))
    (hsmall : x.pendingIoCnt<2^32)
    (hios : ∀ i, x.pendingIos.count i = s'.tags.countP fun g => decide (g.ctx=b ∧ g.ioId=i ∧ g.type ≠ .fullScan))
    (hids : ∀ i, s'.tags.countP (fun g => decide (g.ctx=b ∧ g.ioId=i)) ≤ if i<x.ioId then 1 else 0)
    (hops : ∀ n, s'.called n+s'.tags.countP (fun g => decide (g.op=n)) = if n<s'.issued then 1 else 0) : Accounts s' := by
  have hself : s'.ctx b=x := by rw [hctx,update_self]
  have hne : ∀ d, d ≠ b → s'.ctx d=s.ctx d := by
    intro d hd
    rw [hctx,update_of_ne hd]
  refine ⟨fun d => ?_,fun d => ?_,fun d => ?_,fun d => ?_,fun d => ?_,hops⟩ <;>
    by_cases hd : d=b
  · rw [hd,hself]
    exact hqueue
  · rw [hne d hd]
    exact h.queue d
  · rw [hd,hself]
    exact hcnt
  · rw [hne d hd,hother (fun g => g.ctx=d) _ fun g hg => hg ▸ hd]
    exact h.cnt d
  · rw [hd,hself]
    exact hsmall
  · rw [hne d hd]
    exact h.small d
  · rw [hd,hself]
    exact hios
  · intro i
    rw [hne d hd,hother (fun g => g.ctx=d ∧ g.ioId=i ∧ g.type ≠ .fullScan) _ fun g hg => hg.1 ▸ hd]
    exact h.ios d i
  · rw [hd,hself]
    exact hids
  · intro i
    rw [hne d hd,hother (fun g => g.ctx=d ∧ g.ioId=i) _ fun g hg => hg.1 ▸ hd]
    exact h.ids d i

theorem countP_cons_eq (q : Tag → Prop) [DecidablePred q] (g : Tag) (l : List Tag) :
    (g::l).countP (fun x => decide (q x))=l.countP (fun x => decide (q x))+if q g then 1 else 0 := by
  rw [countP_cons]
  simp only [decide_eq_true_eq]

/-- The queue of a context is written. -/
theorem tags_setCtx (s : State) (b : Bool) (x : ExecutionContext) : (s.setCtx b x).tags.Perm
    (s.inFlight.map Request.tag ++ (s.ctx !b).ioResponses.map Request.tag ++ x.ioResponses.map Request.tag) := by
  have hperm := tags_perm (s.setCtx b x) b
  rw [setCtx_self,setCtx_of_ne x (Bool.not_ne_self b)] at hperm
  exact hperm

/-- A context with no operation outstanding is cleared. -/
theorem Accounts.clear (h : Accounts s) (b : Bool) (hzero : (s.ctx b).pendingIoCnt=0) (p : Phase)
    (v : UInt32) : Accounts (s.setCtx b (.cleared p v)) := by
  have hnone : ∀ g ∈ s.tags, g.ctx ≠ b := by
    have hcnt := h.cnt b
    rw [hzero] at hcnt
    intro g hg
    simpa using countP_eq_zero.mp hcnt.symm g hg
  have hempty : (s.ctx b).ioResponses=[] := by
    refine eq_nil_iff_forall_not_mem.mpr fun r hr => hnone r.tag ?_ (h.queue b r hr)
    refine (tags_perm s b).mem_iff.mpr (mem_append_right _ ?_)
    exact mem_map_of_mem hr
  have hperm : (s.setCtx b (.cleared p v)).tags.Perm s.tags := by
    refine (tags_setCtx s b _).trans (List.Perm.trans ?_ (tags_perm s b).symm)
    rw [hempty]
    exact List.Perm.refl _
  have hcount : ∀ q : Tag → Prop, ∀ _ : DecidablePred q, (∀ g, q g → g.ctx=b) →
      (s.setCtx b (.cleared p v)).tags.countP (fun g => decide (q g))=0 := by
    intro q _ hq
    rw [hperm.countP_eq]
    exact countP_eq_zero.mpr fun g hg htrue => hnone g hg (hq g (of_decide_eq_true htrue))
  refine h.write (b := b) (x := .cleared p v) ?_ (fun q _ _ => hperm.countP_eq _) ?_ ?_ (Nat.two_pow_pos 32) ?_ ?_ ?_
  · rfl
  · rintro r ⟨⟩
  · exact (hcount _ _ fun g hg => hg).symm
  · exact fun i => (hcount _ _ fun g hg => hg.1).symm
  · exact fun i => (hcount _ _ fun g hg => hg.1).le.trans (Nat.zero_le _)
  · intro n
    rw [hperm.countP_eq]
    exact h.ops n

theorem tags_issue (s : State) (c : Setting) (type : OperationType) (address startAddr endAddr : ℕ) :
    (s.issue c type address startAddr endAddr true).tags.Perm (⟨s.issued,type,s.current,s.threadCtx.ioId⟩::s.tags) :=
  List.Perm.cons _ ((tags_setCtx s s.current _).trans (tags_perm s s.current).symm)

/-- An operation is issued, and the disk takes the read. -/
theorem Accounts.issue (h : Accounts s) (hsmall : s.threadCtx.pendingIoCnt+1<2^32) (type : OperationType)
    (address startAddr endAddr : ℕ) : Accounts (s.issue c type address startAddr endAddr true) := by
  have hperm := tags_issue s c type address startAddr endAddr
  refine h.write (x := s.threadCtx.enter type) ?_ ?_ (h.queue s.current) ?_ (Nat.mod_lt _ (Nat.two_pow_pos 32)) ?_ ?_ ?_
  · rfl
  · intro q _ hq
    rw [hperm.countP_eq,countP_cons_eq,if_neg fun hnew => hq _ hnew rfl]
    rfl
  · rw [hperm.countP_eq,countP_cons_eq,if_pos rfl,←h.cnt s.current]
    exact Nat.mod_eq_of_lt hsmall
  · intro i
    rw [hperm.countP_eq,countP_cons_eq,←h.ios s.current i]
    cases type with
    | fullScan =>
      rw [if_neg fun hnew => hnew.2.2 rfl]
      rfl
    | _ =>
      change (s.threadCtx.ioId::s.threadCtx.pendingIos).count i=_
      rw [count_cons]
      simp only [beq_iff_eq,true_and,ne_eq,reduceCtorEq,not_false_eq_true,and_true]
      rfl
  · intro i
    have hle := h.ids s.current i
    rw [hperm.countP_eq,countP_cons_eq]
    change _+_ ≤ if i<(s.ctx s.current).ioId+1 then 1 else 0
    change _+(if s.current=s.current ∧ (s.ctx s.current).ioId=i then 1 else 0)≤_
    simp only [true_and]
    split_ifs at hle ⊢ <;> omega
  · intro n
    have hn := h.ops n
    rw [hperm.countP_eq,countP_cons_eq,←add_assoc]
    change s.called n+_+(if s.issued=n then 1 else 0)=if n<s.issued+1 then 1 else 0
    rw [hn]
    split_ifs <;> omega

theorem tags_respond {b : Bool} {r : Request} {rest : List Request}
    (hq : (s.ctx b).ioResponses=r::rest) : s.tags.Perm (r.tag::(s.respond b r rest).tags) := by
  refine (tags_perm s b).trans ?_
  rw [hq,map_cons]
  refine perm_middle.trans (List.Perm.cons _ ?_)
  exact (tags_setCtx s b ((s.ctx b).take r rest)).symm

/-- A response is taken from the queue, and the operation is called back. -/
theorem Accounts.respond (h : Accounts s) {b : Bool} {r : Request} {rest : List Request}
    (hq : (s.ctx b).ioResponses=r::rest) : Accounts (s.respond b r rest) := by
  have hr : r.tag.ctx=b := h.queue b r (hq ▸ mem_cons_self)
  have hperm := tags_respond hq
  have hcnt := h.cnt b
  have hsmall := h.small b
  rw [hperm.countP_eq,countP_cons_eq,if_pos hr] at hcnt
  have hpred : ((s.ctx b).pendingIoCnt+(2^32 - 1))%2^32 = (s.respond b r rest).tags.countP fun g => decide (g.ctx=b) := by
    rw [hcnt] at hsmall ⊢
    have hadd : ∀ n, n+1+(2^32 - 1)=n+2^32 := by
      intro n
      omega
    rw [hadd,Nat.add_mod_right,Nat.mod_eq_of_lt (Nat.lt_of_succ_lt hsmall)]
  refine h.write (x := (s.ctx b).take r rest) ?_ ?_ ?_ hpred (Nat.mod_lt _ (Nat.two_pow_pos 32)) ?_ ?_ ?_
  · rfl
  · intro q _ hne
    rw [hperm.countP_eq,countP_cons_eq,if_neg fun hold => hne _ hold hr]
    rfl
  · exact fun x hx => h.queue b x (hq ▸ mem_cons_of_mem _ hx)
  · intro i
    have hios := h.ios b i
    rw [hperm.countP_eq,countP_cons_eq] at hios
    change ((s.ctx b).pendingIos.erase r.tag.ioId).count i=_
    rw [count_erase,hios]
    by_cases hid : r.tag.ioId=i
    · by_cases hfull : r.tag.type=.fullScan
      · -- The ids of a context are distinct, so that no other operation is erased.
        have hids := h.ids b i
        rw [hperm.countP_eq,countP_cons_eq,if_pos ⟨hr,hid⟩] at hids
        have hzero : (s.respond b r rest).tags.countP (fun g => decide (g.ctx=b ∧ g.ioId=i))=0 := by
          split_ifs at hids <;> omega
        have hnone : (s.respond b r rest).tags.countP (fun g => decide (g.ctx=b ∧ g.ioId=i ∧ g.type ≠ .fullScan))=0 := by
          rw [countP_eq_zero] at hzero ⊢
          intro g hg htrue
          have hg' := of_decide_eq_true htrue
          exact hzero g hg (decide_eq_true ⟨hg'.1,hg'.2.1⟩)
        rw [hnone,if_neg fun hnew => hnew.2.2 hfull]
        exact Nat.zero_sub _
      · simp [hid,hr,hfull]
    · simp [hid]
  · intro i
    have hle := h.ids b i
    rw [hperm.countP_eq,countP_cons_eq] at hle
    exact (Nat.le_add_right _ _).trans hle
  · intro n
    have hn := h.ops n
    rw [hperm.countP_eq,countP_cons_eq] at hn
    change update s.called r.tag.op (s.called r.tag.op+1) n+_=if n<s.issued then 1 else 0
    rw [←hn]
    by_cases hop : r.tag.op=n
    · rw [if_pos hop,←hop,update_self]
      omega
    · rw [if_neg hop,update_of_ne (Ne.symm hop)]
      rfl

/-- The callback of a read that has succeeded ends with one read or one response. -/
theorem complete_ok (s : State) (c : Setting) (r : Request) (mem : Bytes) (loads : ℕ → ℕ)
    (accepted : Bool) : ∃ (io : Io) (e : Effect), e.settles=true ∧
      s.complete c r mem loads .ok accepted =
        { s with inFlight := s.inFlight.erase r }.apply c accepted r.tag io e := by
  obtain ⟨touched,e,heq,he⟩ := settled_callback c r.tag.type mem loads r.io
  have htouch : ∀ (l : List ℕ) (u : State) (io : Io),
      (l.map Effect.touch).foldl (fun s e => s.apply c accepted r.tag io e) u=u := by
    intro l
    induction l with
    | nil => exact fun _ _ => rfl
    | cons a l ih => exact fun u io => ih u io
  refine ⟨(c.callback r.tag.type mem loads .ok r.io).1,e,he,?_⟩
  unfold State.complete
  dsimp only
  rw [heq,foldl_append,htouch]
  rfl

/-- A request that has left the disk goes back to it, or to the queue of its context. -/
theorem tags_apply {r : Request} (hr : r ∈ s.inFlight) (io : Io) {e : Effect} (he : e.settles=true) :
    ({ s with inFlight := s.inFlight.erase r }.apply c true r.tag io e).tags.Perm s.tags := by
  have hperm : s.tags.Perm (r.tag::{ s with inFlight := s.inFlight.erase r }.tags) := by
    change (_ ++ _ ++ _ : List Tag).Perm ((r.tag::(s.inFlight.erase r).map Request.tag) ++ _ ++ _)
    refine List.Perm.append_right _ (List.Perm.append_right _ ?_)
    exact (perm_cons_erase hr).map Request.tag
  cases e with
  | touch a => cases he
  | read a n => exact hperm.symm
  | push =>
    refine (tags_setCtx _ r.tag.ctx _).trans (List.Perm.trans ?_ hperm.symm)
    rw [map_append,←append_assoc]
    refine perm_append_comm.trans (List.Perm.cons _ ?_)
    exact (tags_perm { s with inFlight := s.inFlight.erase r } r.tag.ctx).symm

theorem Accounts.apply (h : Accounts s) {r : Request} (hr : r ∈ s.inFlight) (io : Io) {e : Effect}
    (he : e.settles=true) :
    Accounts ({ s with inFlight := s.inFlight.erase r }.apply c true r.tag io e) := by
  have hperm := tags_apply (c := c) hr io he
  cases e with
  | touch a => cases he
  | read a n => exact h.of_perm hperm h.queue (fun b => ⟨rfl,rfl,rfl⟩) rfl rfl
  | push =>
    let b := r.tag.ctx
    let x : ExecutionContext := { s.ctx b with ioResponses := (s.ctx b).ioResponses ++ [⟨r.tag,io⟩] }
    refine h.of_perm hperm ?_ ?_ rfl rfl
    · intro d y hy
      change y ∈ (update s.ctx b x d).ioResponses at hy
      by_cases hd : d=b
      · rw [hd,update_self] at hy
        rcases mem_append.mp hy with hy | hy
        · rw [hd]
          exact h.queue b y hy
        · rw [mem_singleton.mp hy,hd]
      · rw [update_of_ne hd] at hy
        exact h.queue d y hy
    · intro d
      change SameBooks (update s.ctx b x d) (s.ctx d)
      by_cases hd : d=b
      · rw [hd,update_self]
        exact ⟨rfl,rfl,rfl⟩
      · rw [update_of_ne hd]
        exact ⟨rfl,rfl,rfl⟩

/-- Every read succeeds and the disk takes every read, a context has no operation
outstanding when it is cleared, and the counter does not wrap. -/
def settles : Guard State Label := fun s label =>
  match label with
  | .issue _ _ _ _ accepted => accepted = true ∧ s.threadCtx.pendingIoCnt + 1 < 2 ^ 32
  | .complete _ _ _ result accepted => result = .ok ∧ accepted = true
  | .startSession => s.threadCtx.pendingIoCnt = 0
  | .step _ => ∀ final prev r cur, s.pc = .iterate final prev r → nextWord final prev = some cur →
      swaps cur prev = true → s.prevThreadCtx.pendingIoCnt = 0
  | _ => True

/-- An iteration of `HandleSpecialPhases` leaves the books, unless it clears a context. -/
theorem Accounts.handle (h : Accounts s) {final prev cur : SystemState} {ready : Bool} {r : Caller}
    (hclear : swaps cur prev=true → s.prevThreadCtx.pendingIoCnt=0) : Accounts (s.handle final prev cur ready r) := by
  have hswap : Accounts (s.swapped cur prev) := by
    unfold State.swapped
    split_ifs with hs
    · have hcleared := h.clear (!s.current) (hclear hs) cur.phase cur.version
      exact hcleared.of_eq rfl (fun b => ⟨rfl,rfl,rfl,rfl⟩) rfl rfl
    · exact h
  exact hswap.setPhase _ _ _ _ _

/-- A step that only moves the session on. -/
theorem Accounts.goto (h : Accounts s) (pc : Pc) : Accounts { s with pc := pc } :=
  h.of_eq rfl (fun _ => ⟨rfl,rfl,rfl,rfl⟩) rfl rfl

theorem Accounts.callStep (h : Accounts s) {ready : Bool} (hguard : settles s (.step ready))
    (hs : callStep s ready s.pc=some s') : Accounts s' := by
  cases hp : s.pc with
  | idle | stopped =>
    rw [hp] at hs
    cases hs
  | loop d | done d | stopping =>
    rw [hp] at hs
    simp only [PendingIo.callStep] at hs
    split_ifs at hs <;> cases hs <;> exact h.goto _
  | drain d =>
    rw [hp] at hs
    cases hq : s.threadCtx.ioResponses with
    | nil =>
      simp only [PendingIo.callStep,hq] at hs
      cases hs
      exact h.goto _
    | cons r rest =>
      simp only [PendingIo.callStep,hq] at hs
      cases hs
      exact h.respond hq
  | refresh r =>
    rw [hp] at hs
    simp only [PendingIo.callStep] at hs
    split_ifs at hs with hrest hold
    all_goals cases hs
    · exact h.setPhase _ _ _ _ _
    · exact h.setPhase _ _ _ _ _
    · exact h.goto _
  | iterate final prev r =>
    rw [hp] at hs
    obtain ⟨cur,hcur,rfl⟩ := Option.map_eq_some_iff.mp hs
    exact h.handle fun hsw => hguard final prev r cur hp hcur hsw
  | drainPrev d =>
    rw [hp] at hs
    cases hq : s.prevThreadCtx.ioResponses with
    | nil =>
      simp only [PendingIo.callStep,hq] at hs
      cases hs
      exact h.goto _
    | cons r rest =>
      simp only [PendingIo.callStep,hq] at hs
      cases hs
      exact h.respond hq

/-- Every step that meets the condition keeps the books. -/
theorem Accounts.step (h : Accounts s) (hguard : settles s label) (hs : step c tracked s label=some s') : Accounts s' := by
  cases label with
  | issue type address startAddr endAddr accepted =>
    obtain ⟨rfl,hsmall⟩ := hguard
    obtain ⟨-,rfl⟩ := of_guard hs
    exact h.issue hsmall type address startAddr endAddr
  | startSession =>
    obtain ⟨-,rfl⟩ := of_guard hs
    exact (h.clear s.current hguard .rest s.systemState.version).goto .idle
  | step ready => exact h.callStep hguard hs
  | complete r mem loads result accepted =>
    obtain ⟨rfl,rfl⟩ := hguard
    obtain ⟨hr,rfl⟩ := of_guard hs
    obtain ⟨io,e,he,heq⟩ := complete_ok s c r mem loads true
    rw [heq]
    exact h.apply hr io he
  | start a =>
    obtain ⟨-,hs⟩ := Option.ite_none_right_eq_some.mp hs
    obtain ⟨p,-,rfl⟩ := Option.map_eq_some_iff.mp hs
    exact h.of_eq rfl (fun _ => ⟨rfl,rfl,rfl,rfl⟩) rfl rfl
  | move =>
    obtain ⟨-,hs⟩ := Option.ite_none_right_eq_some.mp hs
    obtain ⟨next,-,rfl⟩ := Option.map_eq_some_iff.mp hs
    exact h.of_eq rfl (fun _ => ⟨rfl,rfl,rfl,rfl⟩) rfl rfl
  | _ =>
    obtain ⟨-,rfl⟩ := of_guard hs
    exact h.goto _

theorem accounts_initial (version : UInt32) : Accounts (initial version) := by
  have hnone : ∀ b, ((initial version).ctx b).ioResponses=[] ∧
      ((initial version).ctx b).pendingIos=[] ∧ ((initial version).ctx b).pendingIoCnt=0 := by
    intro b
    cases b <;> exact ⟨rfl,rfl,rfl⟩
  refine ⟨fun b r hr => ?_,fun b => (hnone b).2.2,fun b => ?_,fun b i => ?_, fun b i => Nat.zero_le _,fun n => ?_⟩
  · rw [(hnone b).1] at hr
    cases hr
  · rw [(hnone b).2.2]
    exact Nat.two_pow_pos 32
  · rw [(hnone b).2.1]
    rfl
  · exact (if_neg (Nat.not_lt_zero n)).symm

/-- The reads in flight that the context has issued. -/
def State.reads (s : State) (b : Bool) : ℕ := s.inFlight.countP fun r => decide (r.tag.ctx = b)

/-- In the books, what a context has outstanding are its reads in flight and its responses. -/
theorem Accounts.pendingIoCnt_eq (h : Accounts s) (b : Bool) :
    (s.ctx b).pendingIoCnt=s.reads b+(s.ctx b).ioResponses.length := by
  have hone : ∀ d, ((s.ctx d).ioResponses.map Request.tag).countP (fun g => decide (g.ctx=b)) =
      if d=b then (s.ctx d).ioResponses.length else 0 := by
    intro d
    rw [countP_map]
    split_ifs with hd
    · refine countP_eq_length.mpr fun r hr => decide_eq_true ?_
      rw [h.queue d r hr,hd]
    · refine countP_eq_zero.mpr fun r hr htrue => hd ?_
      rw [←h.queue d r hr]
      exact of_decide_eq_true htrue
  rw [h.cnt b,(tags_perm s b).countP_eq,countP_append,countP_append,hone,hone,
    if_neg (Bool.not_ne_self b),if_pos rfl,countP_map]
  rfl

theorem reachable_accounts (hs : Reachable (machine c tracked) settles s) : Accounts s := by
  refine hs.invariant (P := Accounts) ?_ ?_
  · rintro s ⟨version,rfl⟩
    exact accounts_initial version
  · exact fun s label s' h hguard hstep => h.step hguard hstep

/-- No request is dropped: the counter of a context is the number of its reads in flight
and of its responses, and the callback of a read ends with one more read or one response. -/
theorem requests_conserved (hs : Reachable (machine c tracked) settles s) :
    (∀ b, (s.ctx b).pendingIoCnt = s.reads b + (s.ctx b).ioResponses.length) ∧
    ∀ r ∈ s.inFlight, ∀ mem loads,
      (c.callback r.tag.type mem loads .ok r.io).2.countP Effect.settles = 1 :=
  ⟨(reachable_accounts hs).pendingIoCnt_eq,
    fun r _ mem loads => (settled_callback c r.tag.type mem loads r.io).countP_eq⟩

/-- A check of the condition, for runs without phases. -/
def settleCheck (s : State) : Label → Bool
  | .issue _ _ _ _ accepted => accepted && decide (s.threadCtx.pendingIoCnt + 1 < 2 ^ 32)
  | .complete _ _ _ result accepted => decide (result = .ok) && accepted
  | .startSession => decide (s.threadCtx.pendingIoCnt = 0)
  | .step _ => false
  | _ => true

theorem settles_of_check (s : State) (label : Label) (h : settleCheck s label=true) : settles s label := by
  cases label with
  | issue | complete => simpa only [settleCheck,settles,Bool.and_eq_true,decide_eq_true_eq] using h
  | startSession => simpa only [settleCheck,settles,decide_eq_true_eq] using h
  | step ready => cases h
  | _ => trivial

/-- Nothing matches, and a sector has 512 bytes. -/
def noMatch : Setting := ⟨fun _ _ => false, fun _ => false, 5, 600, 512⟩

/-- The read of the key pointer at address 72, by the first operation. -/
def firstRead : Request := ⟨⟨0, .read, true, 0⟩, noMatch.asyncGetFromDisk ⟨72, 0, 0, 0, 0, 0, 0⟩ 72 16⟩

/-- The log shows zeros: the record does not match, and the chain ends. -/
theorem requests_conserved_one : ∃ s, Reachable (machine noMatch true) settles s ∧
    (s.ctx true).ioResponses.length = 1 ∧
    (s.ctx true).pendingIoCnt = s.reads true + (s.ctx true).ioResponses.length := by
  have hrun : (execGuarded (machine noMatch true) settleCheck (initial 0)
      [.issue .read 72 0 0 true,.complete firstRead (fun _ => 0) (fun _ => 64) .ok true]).any
      (fun s => decide ((s.ctx true).ioResponses.length=1))=true := by
    decide +kernel
  obtain ⟨s,hr,hend⟩ := exists_run_of_execGuarded settles_of_check hrun
  have hs : Reachable (machine noMatch true) settles s := ⟨_,⟨0,rfl⟩,hr⟩
  exact ⟨s,hs,of_decide_eq_true hend,(requests_conserved hs).1 true⟩

/-- A read that fails: its callback neither reads nor responds. -/
theorem request_dropped : ∃ s, Reachable (machine noMatch true) anyStep s ∧
    (s.ctx true).pendingIoCnt = 1 ∧ s.reads true = 0 ∧ (s.ctx true).ioResponses.length = 0 := by
  have hrun : (exec (machine noMatch true) (initial 0)
      [.issue .read 72 0 0 true,.complete firstRead (fun _ => 0) (fun _ => 64) .ioError true]).any
      (fun s => decide ((s.ctx true).pendingIoCnt=1 ∧ s.reads true=0 ∧
        (s.ctx true).ioResponses.length=0))=true := by
    decide +kernel
  obtain ⟨s,hr,hend⟩ := exists_run_of_exec hrun
  exact ⟨s,⟨_,⟨0,rfl⟩,hr⟩,of_decide_eq_true hend⟩

end

end FishStore.PendingIo
