import FishStore.Parsers
import FishStore.Phases

/-!
# Shifting the parsers

The store keeps two parser states and the number of the current one. `ApplyParserShift`
applies its actions to the other one, makes that one current, and publishes
`PS_PENDING`; a session that comes from the rest phase then builds its parser anew. The
session that ends the phase applies the actions to the former state, so that both states
are the same again, and calls back with the tail address of the log.

The phases are those of the phase protocol with parser shifts as the only actions. Where
a function of the protocol does something for the parsers, the session takes these steps
before it goes on. `BatchInsert` prepares the key pointers of all its records and then
inserts them one after the other; `BlockAllocate` refreshes when a page is closed.
`ContinueSession` does the same as `StartSession`.

As history the state keeps the records with their addresses, the two addresses that the
latest shift has handed out, all actions that were applied, and how far the two parser
states have come apart.
-/

namespace FishStore.ParserShift

open Layout Runs Parsers LightEpoch

/-- `GetTailAddress`; the offset is cast to 32 bits. -/
def getTailAddress (tail : PageOffset) : ℕ :=
  Layout.address tail.page (min kMaxOffset (tail.offset % 2 ^ 32))

/-- What a session does for the parsers before it goes on in the phase protocol. -/
inductive Hook
  | none
  /-- `StartSession` is about to load `system_parser_no_`. -/
  | loadNo
  /-- It is about to build its parser from that state. -/
  | rebuild (no : Bool)
  /-- `ApplyParserShift` is about to load the tail address. -/
  | tail
  /-- It is about to apply the actions to the other state. -/
  | apply
  /-- It is about to store `system_parser_no_`. -/
  | switch
  /-- `GlobalMoveToNextState` is about to apply the actions to the former state. -/
  | patch
  /-- It is about to load the tail address for the callback. -/
  | callback
  deriving DecidableEq

/-- Where `BlockAllocate` stands. -/
inductive AllocPc
  /-- About to call `Allocate`. -/
  | reserve
  /-- About to refresh, and then to call `NewPage` if the page was closed. -/
  | refresh (page : Option ℕ)
  /-- About to call `NewPage`. -/
  | newPage (page : ℕ)

/-- Where `BatchInsert` stands. -/
inductive BatchPc
  | idle
  /-- It prepares the records that are left. -/
  | prepare (todo : List Record) (done : List InsertContext)
  /-- It inserts a record, with more to come. -/
  | insert (c : InsertContext) (rest : List InsertContext) (pc : AllocPc)

/-- History: how far the two parser states have come apart. -/
inductive Stage
  /-- They hold the same PSFs. -/
  | equal
  /-- The actions were applied to the one that is not current yet. -/
  | applied
  /-- That one is current, and sessions may still use the former one. -/
  | switched
  /-- No session uses the former one. -/
  | closing
  deriving DecidableEq

/-- A record in the log. -/
structure LogEntry where
  /-- Its address. -/
  address : ℕ
  /-- What was prepared for it. -/
  context : InsertContext

/-- The store, its sessions, and history. -/
structure State (reg : Registry) where
  /-- The phase protocol. -/
  phases : Phases.State
  /-- `parser_states`. -/
  parserStates : Bool → ParserState reg
  /-- `system_parser_no_`. -/
  systemParserNo : Bool
  /-- `ps_.actions`. -/
  psActions : List ParserAction
  /-- `parser_ctx().parser_no` of each session. -/
  parserNo : ℕ → Bool
  /-- The field list that each session's parser was built from. -/
  parser : ℕ → List String
  /-- The actions that each session has passed to `ApplyParserShift`. -/
  argument : ℕ → List ParserAction
  /-- `hlog.tail_page_offset_`. -/
  tail : PageOffset
  /-- What each session does for the parsers. -/
  hook : ℕ → Hook
  /-- Where each session's batch stands. -/
  batch : ℕ → BatchPc
  /-- History: the records of the log, latest first. -/
  log : List LogEntry
  /-- History: the address that the latest shift returns. -/
  safeUnregister : Option ℕ
  /-- History: the address that the latest shift has passed to the callback. -/
  safeRegister : Option ℕ
  /-- History: the actions of the latest shift. -/
  shift : List ParserAction
  /-- History: the actions that were applied before it. -/
  before : List ParserAction
  /-- History: the actions that were applied. -/
  applied : List ParserAction
  /-- History: how far the two parser states have come apart. -/
  stage : Stage

section

variable {reg : Registry}

def State.gotoHook (s : State reg) (t : ℕ) (hook : Hook) : State reg :=
  { s with hook := Function.update s.hook t hook }

def State.gotoBatch (s : State reg) (t : ℕ) (pc : BatchPc) : State reg :=
  { s with batch := Function.update s.batch t pc }

/-- `ParserContext::RebuildParser` with the field list of a parser state. -/
def State.rebuildParser (s : State reg) (t : ℕ) (no : Bool) : State reg :=
  { s with
    parserNo := Function.update s.parserNo t no
    parser := Function.update s.parser t (s.parserStates no).mainParserFields }

/-- Store a parser state. -/
def State.setParserState (s : State reg) (no : Bool) (state : ParserState reg) : State reg :=
  { s with parserStates := Function.update s.parserStates no state }

/-- The state that is not current. -/
def State.other (s : State reg) : ParserState reg := s.parserStates (!s.systemParserNo)

/-- What a session does for the parsers. -/
def hookStep (s : State reg) (t : ℕ) (order : List ℕ) : Hook → Option (State reg)
  | .none => Option.none
  | .loadNo => some (s.gotoHook t (.rebuild s.systemParserNo))
  | .rebuild no => some ((s.rebuildParser t no).gotoHook t .none)
  | .tail => some ({ s with safeUnregister := some (getTailAddress s.tail) }.gotoHook t .apply)
  | .apply =>
    (parserStateApplyActions s.other (s.argument t) order).map fun state =>
      { s.setParserState (!s.systemParserNo) state with
        applied := s.applied ++ s.argument t
        stage := .applied }.gotoHook t .switch
  | .switch =>
    some ({ s with systemParserNo := !s.systemParserNo, stage := .switched }.gotoHook t .none)
  | .patch =>
    (parserStateApplyActions s.other s.psActions order).map fun state =>
      { s.setParserState (!s.systemParserNo) state with stage := .equal }.gotoHook t .callback
  | .callback =>
    some ({ s with safeRegister := some (getTailAddress s.tail), psActions := [] }.gotoHook t .none)

/-- One step of the phase protocol, and what it begins for the parsers. -/
def phaseStep (s : State reg) (t : ℕ) : Option (State reg) :=
  (Phases.callStep s.phases t true (s.phases.pc t)).map fun p =>
    match s.phases.pc t with
    | .sessionLoad =>
      if s.phases.systemState.phase = .rest then { s with phases := p }.gotoHook t .loadNo
      else { s with phases := p }
    | .startSwap _ version =>
      if s.phases.systemState = ⟨.none, .rest, version⟩ then
        { s with
          phases := p
          psActions := s.argument t
          shift := s.argument t
          before := s.applied
          safeUnregister := none
          safeRegister := none }
      else { s with phases := p }
    | .reset _ _ idx =>
      if idx < kMaxNumThreads then { s with phases := p } else { s with phases := p }.gotoHook t .tail
    | .iterate _ prev =>
      if prev.phase = .rest then { s with phases := p }.rebuildParser t s.systemParserNo
      else { s with phases := p }
    | .move w _ _ =>
      if s.phases.systemState = w then { s with phases := p, stage := .closing }.gotoHook t .patch
      else { s with phases := p }
    | _ => { s with phases := p }

/-- `BatchInsert` goes on with the contexts that are left. -/
def insertFrom : List InsertContext → BatchPc
  | [] => .idle
  | c :: rest => .insert c rest .reserve

/-- `BlockAllocate` goes on after a refresh. -/
def afterRefresh : Option ℕ → AllocPc
  | some page => .newPage page
  | none => .reserve

/-- One step of `BatchInsert`. `readOnly` is `hlog.read_only_address`, and `room` tells
whether `NewPage` finds the next page free and its swap succeeds. -/
def batchStep (s : State reg) (t readOnly : ℕ) (room : Bool) : BatchPc → Option (State reg)
  | .idle => none
  | .prepare [] done => some (s.gotoBatch t (insertFrom done))
  | .prepare (r :: todo) done =>
    (prepare (s.parser t) (s.parserStates (s.parserNo t)) r).map fun c =>
      s.gotoBatch t (.prepare todo (done ++ [c]))
  | .insert c rest .reserve =>
    let s' := { s with tail := s.tail.reserve c.size }
    match s.tail.allocated c.size with
    | some a =>
      if a < readOnly then some (s'.gotoBatch t (.insert c rest (.refresh none)))
      else some ({ s' with log := ⟨a, c⟩ :: s.log }.gotoBatch t (insertFrom rest))
    | none => some (s'.gotoBatch t (.insert c rest (.refresh (some s.tail.page))))
  | .insert c rest (.refresh page) =>
    (Phases.startCall s.phases t .refresh).map fun p =>
      { s with phases := p }.gotoBatch t (.insert c rest (afterRefresh page))
  | .insert c rest (.newPage page) =>
    if room then
      some ({ s with tail := s.tail.newPage page }.gotoBatch t (.insert c rest (.refresh none)))
    else some (s.gotoBatch t (.insert c rest (.refresh (some page))))

/-- What a session may do next. -/
inductive Act
  | startSession
  | stopSession
  | refresh
  | applyParserShift (actions : List ParserAction)
  | batchInsert (records : List Record)
  /-- A step of the call that the session is in. -/
  | step (order : List ℕ) (readOnly : ℕ) (room : Bool)

/-- A step of an execution. -/
structure Label where
  /-- The thread that moves. -/
  thread : ℕ
  /-- What it does. -/
  act : Act

/-- The session calls a function of the phase protocol. -/
def callPhases (s : State reg) (t : ℕ) (act : Phases.Act) : Option (State reg) :=
  (Phases.startCall s.phases t act).map fun p => { s with phases := p }

/-- The session is in a batch. -/
def BatchPc.busy : BatchPc → Bool
  | .idle => false
  | _ => true

/-- The session `t`, which is in no call, calls a function. -/
def startCall (s : State reg) (t : ℕ) : Act → Option (State reg)
  | .startSession => callPhases s t .startSession
  | .stopSession => callPhases s t .stopSession
  | .refresh => callPhases s t .refresh
  | .applyParserShift actions =>
    (callPhases s t (.start .parserShift)).map fun s' =>
      { s' with argument := Function.update s.argument t actions }
  | .batchInsert records =>
    if s.phases.isProtected t = true then some (s.gotoBatch t (.prepare records [])) else none
  | .step _ _ _ => none

/-- One step of the session `t` inside a call. -/
def callStep (s : State reg) (t : ℕ) (order : List ℕ) (readOnly : ℕ) (room : Bool) :
    Option (State reg) :=
  match s.hook t with
  | .none =>
    if s.phases.pc t = .idle then batchStep s t readOnly room (s.batch t) else phaseStep s t
  | hook => hookStep s t order hook

/-- One step of an execution. -/
def step (s : State reg) (label : Label) : Option (State reg) :=
  if label.thread < kMaxNumThreads then
    match label.act with
    | .step order readOnly room => callStep s label.thread order readOnly room
    | act =>
      if s.phases.pc label.thread = .idle ∧ s.hook label.thread = .none ∧
          (s.batch label.thread).busy = false then startCall s label.thread act
      else none
  else none

/-- No action is in progress, the sessions are in no call, on threads that the scans of
the epoch table visit, and use the current parser state; both states hold the PSFs that
earlier actions have left. -/
structure Initial (s : State reg) : Prop where
  /-- No action is in progress, and the sessions know its version. -/
  word : ∃ v, s.phases.systemState = ⟨.none, .rest, v⟩ ∧ ∀ t, s.phases.ctx t = ⟨.rest, v⟩
  /-- The sessions are in no call. -/
  idle : ∀ t, s.phases.pc t = .idle
  /-- No action was started. -/
  started : s.phases.started = 0
  /-- The threads are tracked. -/
  tracked : ∀ t, s.phases.isProtected t = true → 1 ≤ t ∧ t < kMaxNumThreads
  /-- The sessions do nothing for the parsers. -/
  hook : ∀ t, s.hook t = .none
  /-- They are in no batch. -/
  batch : ∀ t, s.batch t = .idle
  /-- They use the current parser state. -/
  parser : ∀ t, s.phases.isProtected t = true →
    s.parserNo t = s.systemParserNo ∧ s.parser t = (s.parserStates s.systemParserNo).mainParserFields
  /-- Both states hold the same PSFs. -/
  sets : ∀ no, (s.parserStates no).toPtrSets = PtrSets.empty.applyAll s.applied
  /-- They have not come apart. -/
  stage : s.stage = .equal
  /-- The tail is in its page. -/
  tail : s.tail.offset ≤ kPageSize
  /-- There are no records yet. -/
  log : s.log = []
  /-- There was no shift yet. -/
  shift : s.safeUnregister = none ∧ s.safeRegister = none ∧ s.shift = []

/-- The executions of the store whose parsers are shifted. -/
def machine (reg : Registry) : Machine (State reg) Label := ⟨Initial, step⟩

end

end FishStore.ParserShift
