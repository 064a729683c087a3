import FishStore.HashIndex
import FishStore.Naming
import FishStore.Phases

/-!
# Recover

`Recover` reads the metadata of a checkpoint, the contexts of its sessions, the hash table
with its overflow buckets and the log, until one of these steps fails. Then it reads the
naming file, whether or not a step has failed, clears the metadata, and ends the action.

What the replay of the log does to the hash table and to the log is left open, as are all
outcomes of opening files and of reading them.
-/

namespace FishStore.Recovery

open Layout HashIndex Naming TextStream
open Phases (SystemState)

/-- `Guid`, as a number. The default one is zero. -/
abbrev Guid := ℕ

/-- `IndexMetadata`. -/
structure IndexMetadata where
  version : UInt32
  tableSize : ℕ
  numHtBytes : ℕ
  numOfbBytes : ℕ
  ofbCount : ℕ
  /-- Earliest address that is valid for the log. -/
  logBeginAddress : ℕ
  /-- Address as of which this checkpoint was taken. -/
  checkpointStartAddress : ℕ
  deriving DecidableEq

/-- `IndexMetadata::Reset`. -/
def IndexMetadata.reset : IndexMetadata := ⟨0, 0, 0, 0, 0, kInvalidAddress, kInvalidAddress⟩

/-- `LogMetadata`. Its serial numbers are not used. -/
structure LogMetadata where
  useSnapshotFile : Bool
  version : UInt32
  numThreads : UInt32
  flushedAddress : ℕ
  finalAddress : ℕ
  /-- The session of each thread, zero where there is none. -/
  guids : List Guid
  deriving DecidableEq

/-- `LogMetadata::Initialize`. -/
def LogMetadata.init (useSnapshotFile : Bool) (version : UInt32) (flushedAddress : ℕ) : LogMetadata :=
  ⟨useSnapshotFile, version, 0, flushedAddress, 2 ^ 48 - 1, List.replicate LightEpoch.kMaxNumThreads 0⟩

/-- `LogMetadata::Reset`. -/
def LogMetadata.reset : LogMetadata := .init false 0xffffffff kInvalidAddress

/-- `PersistentExecContext`. -/
structure PersistentExecContext where
  serialNum : ℕ
  offset : ℕ
  version : UInt32
  guid : Guid
  deriving DecidableEq

/-- The part of `CheckpointState` that `Recover` uses. -/
structure CheckpointState where
  failed : Bool
  indexToken : Guid
  hybridLogToken : Guid
  indexMetadata : IndexMetadata
  logMetadata : LogMetadata
  /-- The serial number and offset of each session that can be continued. -/
  continueTokens : List (Guid × ℕ × ℕ)
  deriving DecidableEq

/-- `CheckpointState::InitializeRecover`. -/
def CheckpointState.initRecover (c : CheckpointState) (indexToken hybridLogToken : Guid) :
    CheckpointState := { c with failed := false, indexToken, hybridLogToken }

/-- `CheckpointState::RecoverDone`. -/
def CheckpointState.recoverDone (c : CheckpointState) : CheckpointState :=
  { c with indexMetadata := .reset, logMetadata := .reset }

/-- A file of hash buckets that is read in pieces. -/
structure BucketFile where
  /-- The entries of each bucket. -/
  entries : ℕ → ℕ → HashBucketEntry
  /-- The overflow pointer of each bucket. -/
  overflowEntry : ℕ → ℕ
  /-- What `ReadAsync` returns for a piece. -/
  issue : ℕ → Status
  /-- How the read of a piece ends. -/
  result : ℕ → Status

/-- What a checkpoint has left on disk, by its token; none where a file is missing or short. -/
structure Files where
  /-- `info.dat` of the index checkpoint. -/
  indexInfo : Guid → Option IndexMetadata
  /-- `info.dat` of the log checkpoint. -/
  cprInfo : Guid → Option LogMetadata
  /-- The context file of a session. -/
  cprContext : Guid → Guid → Option PersistentExecContext
  /-- `ht.dat`. -/
  ht : Guid → Option BucketFile
  /-- `ofb.dat`. -/
  ofb : Guid → Option BucketFile
  /-- The naming file. -/
  naming : Guid → Option Text

/-- The replay of the log and its reload into memory, for some log. -/
structure LogSteps (L : Type) where
  /-- `RecoverHybridLog`, or `RecoverHybridLogFromSnapshotFile`. -/
  recoverHybridLog : IndexMetadata → LogMetadata → Index × L → (Index × L) × Status
  /-- `RestoreHybridLog`. -/
  restoreHybridLog : LogMetadata → L → L × Status

/-- The store, with function pointers in `F` and a log in `L`. -/
structure Store (F L : Type) where
  systemState : SystemState
  checkpoint : CheckpointState
  /-- The size of the hash table. -/
  tableSize : ℕ
  /-- Its buckets and the overflow buckets. -/
  index : Index
  hlog : L
  names : Names F

/-- `Constants::kNumMergeChunks`. -/
def kNumMergeChunks : ℕ := 256

/-- Items of a page of the overflow allocator. -/
def kFixedPageSize : ℕ := 2 ^ 20

/-- `sizeof(HashBucket)`. -/
def sizeofHashBucket : ℕ := 64

/-- The number of pieces whose reads were issued, and the status of the loop over them. -/
def BucketFile.issued (f : BucketFile) (n : ℕ) : ℕ × Status :=
  match (List.range n).find? fun k => f.issue k ≠ .ok with
  | some k => (k, f.issue k)
  | none => (n, .ok)

/-- The piece was read. -/
def BucketFile.piece (f : BucketFile) (n k : ℕ) : Bool := k < (f.issued n).1 && f.result k = .ok

/-- `InternalHashTable::Recover`: the table is cleared and read in chunks. -/
def recoverTable (m : Index) (size : ℕ) (f : BucketFile) : Index × Status :=
  let read := fun b => f.piece kNumMergeChunks (b / (size / kNumMergeChunks))
  ({ m with
      entries := fun x => match x.bucket with
        | .base b => if read b then f.entries b x.idx else kInvalidEntry
        | .overflow _ => m.entries x
      overflowEntry := fun ref => match ref with
        | .base b => if read b then f.overflowEntry b else 0
        | .overflow _ => m.overflowEntry ref },
    (f.issued kNumMergeChunks).2)

/-- The number of pages of the overflow allocator that hold `n` items. -/
def fixedPages (n : ℕ) : ℕ := n / kFixedPageSize + if 0 < n % kFixedPageSize then 1 else 0

/-- `MallocFixedPageSize::Recover`: pages are read over those that are there. -/
def recoverOverflow (m : Index) (fileSize count : ℕ) (f : BucketFile) : Index × Status :=
  let levels := fixedPages (fileSize / sizeofHashBucket)
  let read := fun a => f.piece levels (a / kFixedPageSize)
  ({ m with
      count
      entries := fun x => match x.bucket with
        | .base _ => m.entries x
        | .overflow a => if read a then f.entries a x.idx else m.entries x
      overflowEntry := fun ref => match ref with
        | .base _ => m.overflowEntry ref
        | .overflow a => if read a then f.overflowEntry a else m.overflowEntry ref },
    (f.issued levels).2)

/-- `RecoverComplete` of a file all of whose reads were issued. -/
def BucketFile.complete (f : BucketFile) (n : ℕ) : Status :=
  if (List.range n).all fun k => f.result k = .ok then .ok else .ioError

/-- The bucket and those that follow it, at most `fuel` of them. -/
def chain (m : Index) : ℕ → BucketRef → List BucketRef
  | 0, _ => []
  | fuel + 1, b => b :: match m.next b with
    | some b' => chain m fuel b'
    | none => []

/-- Clear all tentative entries, along the chain of each bucket. -/
def clearTentative (m : Index) (size : ℕ) : Index :=
  let buckets := (List.range size).flatMap fun b => chain m (m.count + 1) (.base b)
  { m with
    entries := fun x =>
      if x.bucket ∈ buckets ∧ x.idx < kNumEntries ∧ (m.entries x).tentative = true then kInvalidEntry
      else m.entries x }

section

variable {F L : Type}

/-- A step of the recovery: the store after it and its status. -/
abbrev Step (F L : Type) := Store F L → Store F L × Status

/-- Steps one after the other, up to the first that fails. -/
def runSteps : List (Step F L) → Step F L
  | [], s => (s, .ok)
  | step :: steps, s =>
    let r := step s
    if r.2 = .ok then runSteps steps r.1 else r

/-- `ReadIndexMetadata`. -/
def readIndexMetadata (files : Files) (token : Guid) : Step F L := fun s =>
  match files.indexInfo token with
  | none => (s, .ioError)
  | some d => ({ s with checkpoint := { s.checkpoint with indexMetadata := d } }, .ok)

/-- `ReadCprMetadata`. -/
def readCprMetadata (files : Files) (token : Guid) : Step F L := fun s =>
  match files.cprInfo token with
  | none => (s, .ioError)
  | some d => ({ s with checkpoint := { s.checkpoint with logMetadata := d } }, .ok)

/-- Index and log checkpoints should have the same version. -/
def checkVersions : Step F L := fun s =>
  if s.checkpoint.indexMetadata.version ≠ s.checkpoint.logMetadata.version then (s, .corruption) else (s, .ok)

/-- The store takes the next version. -/
def setVersion : Step F L := fun s =>
  ({ s with systemState := ⟨.recover, .rest, s.checkpoint.logMetadata.version + 1⟩ }, .ok)

/-- The loop of `ReadCprContexts`. -/
def readContexts (files : Files) (token : Guid) :
    List Guid → List (Guid × ℕ × ℕ) → List (Guid × ℕ × ℕ) × Status
  | [], tokens => (tokens, .ok)
  | guid :: guids, tokens =>
    if guid = 0 then readContexts files token guids tokens
    else match files.cprContext token guid with
      | none => (tokens, .ioError)
      | some c => readContexts files token guids (emplace tokens (c.guid, c.serialNum, c.offset))

/-- `ReadCprContexts`. -/
def readCprContexts (files : Files) (token : Guid) : Step F L := fun s =>
  let r := readContexts files token s.checkpoint.logMetadata.guids s.checkpoint.continueTokens
  let s' := { s with checkpoint := { s.checkpoint with continueTokens := r.1 } }
  if r.2 ≠ .ok then (s', r.2)
  else if r.1.length ≠ s.checkpoint.logMetadata.numThreads.toNat then (s', .corruption)
  else (s', .ok)

/-- The first half of `RecoverFuzzyIndex`. -/
def recoverHashTable (files : Files) (token : Guid) : Step F L := fun s =>
  match files.ht token with
  | none => (s, .ioError)
  | some f =>
    let size := s.checkpoint.indexMetadata.numHtBytes / sizeofHashBucket
    let r := recoverTable s.index size f
    ({ s with tableSize := size, index := r.1 }, r.2)

/-- The second half of `RecoverFuzzyIndex`. -/
def recoverOverflowBuckets (files : Files) (token : Guid) : Step F L := fun s =>
  match files.ofb token with
  | none => (s, .ioError)
  | some f =>
    let r := recoverOverflow s.index s.checkpoint.indexMetadata.numOfbBytes
      s.checkpoint.indexMetadata.ofbCount f
    ({ s with index := r.1 }, r.2)

/-- `RecoverFuzzyIndexComplete`. -/
def recoverFuzzyIndexComplete (files : Files) (token : Guid) : Step F L := fun s =>
  match files.ht token, files.ofb token with
  | some ht, some ofb =>
    if ht.complete kNumMergeChunks ≠ .ok then (s, ht.complete kNumMergeChunks)
    else
      let levels := fixedPages (s.checkpoint.indexMetadata.numOfbBytes / sizeofHashBucket)
      if ofb.complete levels ≠ .ok then (s, ofb.complete levels)
      else ({ s with index := clearTentative s.index s.tableSize }, .ok)
  | _, _ => (s, .ioError)

/-- `RecoverHybridLog`, or `RecoverHybridLogFromSnapshotFile`. -/
def recoverLog (log : LogSteps L) : Step F L := fun s =>
  let r := log.recoverHybridLog s.checkpoint.indexMetadata s.checkpoint.logMetadata (s.index, s.hlog)
  ({ s with index := r.1.1, hlog := r.1.2 }, r.2)

/-- `RestoreHybridLog`. -/
def restoreLog (log : LogSteps L) : Step F L := fun s =>
  let r := log.restoreHybridLog s.checkpoint.logMetadata s.hlog
  ({ s with hlog := r.1 }, r.2)

/-- The steps of `Recover`. -/
def recoverSteps (log : LogSteps L) (files : Files) (indexToken hybridLogToken : Guid) : List (Step F L) :=
  [readIndexMetadata files indexToken, readCprMetadata files hybridLogToken, checkVersions, setVersion,
    readCprContexts files hybridLogToken, recoverHashTable files indexToken,
    recoverOverflowBuckets files indexToken, recoverFuzzyIndexComplete files indexToken, recoverLog log,
    restoreLog log]

/-- What `Recover` returns. -/
structure Result where
  status : Status
  version : UInt32
  sessionIds : List Guid
  deriving DecidableEq

/-- The end of `Recover`, after its steps and the naming file. -/
def finish (s : Store F L) (status : Status) (names : Names F) : Result × Store F L :=
  let checkpoint := s.checkpoint.recoverDone
  ((if status = .ok then ⟨status, s.checkpoint.logMetadata.version, s.checkpoint.continueTokens.map Prod.fst⟩
    else ⟨status, 0, []⟩),
    { s with
      names
      checkpoint
      systemState := ⟨.none, .rest, checkpoint.logMetadata.version + 1⟩ })

/-- The store when the steps of `Recover` start. -/
def started (s : Store F L) (indexToken hybridLogToken : Guid) : Store F L :=
  { s with
    systemState := ⟨.recover, .rest, s.systemState.version⟩
    checkpoint := s.checkpoint.initRecover indexToken hybridLogToken }

/-- `Recover`. There is no result where the naming file cannot be read. -/
def recover (p : Platform F) (log : LogSteps L) (files : Files) (s : Store F L)
    (indexToken hybridLogToken : Guid) : Option (Result × Store F L) :=
  if s.systemState = ⟨.none, .rest, s.systemState.version⟩ then
    let r := runSteps (recoverSteps log files indexToken hybridLogToken)
      (started s indexToken hybridLogToken)
    (r.1.names.recoverNames p (files.naming hybridLogToken)).map (finish r.1 r.2)
  else some (⟨.aborted, 0, []⟩, s)

/-- What a failed call leaves as it was: the hash tables and overflow allocators, the names
and PSF tables with the parser states, the session contexts, and the version. -/
structure Unchanged (s s' : Store F L) : Prop where
  tableSize : s'.tableSize = s.tableSize
  index : s'.index = s.index
  names : s'.names = s.names
  continueTokens : s'.checkpoint.continueTokens = s.checkpoint.continueTokens
  version : s'.systemState.version = s.systemState.version

variable {p : Platform F} {log : LogSteps L} {files : Files} {s s' : Store F L} {r : Result}
  {indexToken hybridLogToken : Guid}

/-- A call that starts while an action is in progress is refused. -/
theorem recover_busy (hbusy : s.systemState ≠ ⟨.none,.rest,s.systemState.version⟩) :
    recover p log files s indexToken hybridLogToken=some (⟨.aborted,0,[]⟩, s) :=
  if_neg hbusy

/-- The metadata are cleared before the version is taken from them. -/
theorem finish_version (s : Store F L) (status : Status) (names : Names F) :
    (finish s status names).2.systemState=⟨.none,.rest,0⟩ := by
  have hwrap : LogMetadata.reset.version+1=0 := by decide
  change SystemState.mk .none .rest (LogMetadata.reset.version+1)=_
  rw [hwrap]

/-- Every other call leaves the store with version 0. -/
theorem recover_version (hidle : s.systemState=⟨.none,.rest,s.systemState.version⟩)
    (h : recover p log files s indexToken hybridLogToken=some (r, s')) : s'.systemState=⟨.none,.rest,0⟩ := by
  unfold recover at h
  rw [if_pos hidle] at h
  obtain ⟨names,-,hfinish⟩ := Option.map_eq_some_iff.mp h
  have hs := congrArg (fun x => x.2.systemState) hfinish
  exact hs.symm.trans (finish_version _ _ names)

/-- A failed `Recover` that was called while an action is in progress leaves everything as it
was, and what a later call gives is the same as without it. A failed `Recover` that was
called when no action was in progress changes the version, unless that is 0. -/
theorem recover_failed (h : recover p log files s indexToken hybridLogToken = some (r, s'))
    (hstatus : r.status ≠ .ok) :
    (s.systemState ≠ ⟨.none, .rest, s.systemState.version⟩ → Unchanged s s' ∧
      ∀ files' indexToken' hybridLogToken', recover p log files' s' indexToken' hybridLogToken' =
        recover p log files' s indexToken' hybridLogToken') ∧
    (Unchanged s s' → s.systemState.version ≠ 0 →
      s.systemState ≠ ⟨.none, .rest, s.systemState.version⟩) := by
  refine ⟨?_,?_⟩
  · intro hbusy
    rw [recover_busy hbusy] at h
    cases h
    exact ⟨⟨rfl,rfl,rfl,rfl,rfl⟩,fun _ _ _ => rfl⟩
  · intro hsame hversion hidle
    have hzero := hsame.version
    rw [recover_version hidle h] at hzero
    exact hversion hzero.symm

end

theorem root_absolute : (['/'] : Text).head?=some '/' := rfl

/-- A system without libraries and generated code. -/
def bare : Platform ℕ where
  cwd := ['/']
  dlopen := fun _ => true
  dlsym := fun _ _ => none
  getPsf := fun _ => none
  recoverPsf := fun _ _ => none
  projection := 0
  cwd_root := root_absolute
  recover_getPsf := by rintro _ _ ⟨⟩

/-- A log whose replay and reload succeed and change nothing. -/
def quietLog : LogSteps Unit := ⟨fun _ _ x => (x, .ok), fun _ l => (l, .ok)⟩

/-- A file of empty buckets. -/
def emptyBuckets : BucketFile := ⟨fun _ _ => kInvalidEntry, fun _ => 0, fun _ => .ok, fun _ => .ok⟩

/-- The files of a checkpoint with token 1, version 1, no sessions, and one projection. -/
def oneCheckpoint : Files where
  indexInfo := fun t => if t = 1 then some ⟨1, 256, 256 * 64, 64, 1, 64, 64⟩ else none
  cprInfo := fun t => if t = 1 then some (.init false 1 kInvalidAddress) else none
  cprContext := fun _ _ => none
  ht := fun t => if t = 1 then some emptyBuckets else none
  ofb := fun t => if t = 1 then some emptyBuckets else none
  naming := fun t => if t = 1 then
    some (NamingFile.text ⟨[['a']], [], [], [⟨[0], libProjection, ['p', 'r', 'o', 'j']⟩], [], [0], []⟩) else none

/-- A new store with a table of 256 buckets, in some state of the system. -/
def newStore (w : SystemState) : Store ℕ Unit :=
  ⟨w, ⟨false, 0, 0, .reset, .reset, []⟩, 256, .empty, (), .fresh ℕ⟩

/-- What is compared below: the result, the version, and the names of the fields. -/
def outcome (x : Result × Store ℕ Unit) : Status × UInt32 × UInt32 × List Text :=
  (x.1.status, x.1.version, x.2.systemState.version, x.2.names.fieldNames)

/-- `Recover` during a garbage collection is refused, and nothing has changed. -/
theorem recover_failed_busy : ∃ r s',
    recover bare quietLog oneCheckpoint (newStore ⟨.gc, .gcIoPending, 1⟩) 1 1 = some (r, s') ∧
      r.status = .aborted ∧ Unchanged (newStore ⟨.gc, .gcIoPending, 1⟩) s' := by
  have hbusy : recover bare quietLog oneCheckpoint (newStore ⟨.gc,.gcIoPending,1⟩) 1 1 =
      some (⟨.aborted,0,[]⟩, newStore ⟨.gc,.gcIoPending,1⟩) := recover_busy (by decide)
  exact ⟨_,_,hbusy,rfl,((recover_failed hbusy (by decide)).1 (by decide)).1⟩

/-- A new store of version 1: `Recover` with an index token that does not exist fails at its
first step, but the names were read and the version is 0. After that the valid tokens give
the names twice, where a new store has them once. -/
theorem recover_failed_changes : ∃ r s', recover bare quietLog oneCheckpoint (newStore ⟨.none, .rest, 1⟩) 2 1 =
      some (r, s') ∧ outcome (r, s') = (.ioError, 0, 0, [['a']]) ∧
    (recover bare quietLog oneCheckpoint s' 1 1).map outcome = some (.ok, 1, 0, [['a'], ['a']]) ∧
    (recover bare quietLog oneCheckpoint (newStore ⟨.none, .rest, 1⟩) 1 1).map outcome =
      some (.ok, 1, 0, [['a']]) := by
  have hfirst : ((recover bare quietLog oneCheckpoint (newStore ⟨.none,.rest,1⟩) 2 1).any fun x =>
      outcome x=(.ioError, 0, 0, [['a']]) && (recover bare quietLog oneCheckpoint x.2 1 1).map outcome =
        some (.ok, 1, 0, [['a'],['a']]))=true := by decide +kernel
  obtain ⟨⟨r,s'⟩,hrec,hcheck⟩ := (Option.any_eq_true _ _).mp hfirst
  rw [Bool.and_eq_true,decide_eq_true_eq,decide_eq_true_eq] at hcheck
  exact ⟨r,s',hrec,hcheck.1,hcheck.2,by decide +kernel⟩

end FishStore.Recovery
