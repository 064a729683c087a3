import FishStore.InternalInsert
import FishStore.Phases

/-!
# Growing the hash index

`GrowIndex` initialises a table of twice the size beside the current one. When
every session has acknowledged this, `resize_info_.version` is switched and the
sessions split the buckets of the old table, chunk by chunk; the session that
ends the last chunk frees the old table. Operations enter through `HeavyEnter`,
which keeps them out while a growth is going on, and `InternalInsert` may refresh
inside `BlockAllocate`, after it has looked up its bucket entries.

The phases are those of the phase protocol with the growth as the only action;
insertions take the steps of `InternalInsert` on the table of the version that
they loaded. A chunk belongs to the session that took it, so that the split of
one entry is one step: it loads the entry, follows its chain and adds entries to
new buckets that nobody else writes.

As history the state keeps a generation of each table, which tells a table from
an earlier one of the same version, and which chunks have been split.
-/

namespace FishStore.Grow

open Layout HashIndex Runs LightEpoch InternalInsert
open Function (update)

/-- `kGrowHashTableChunkSize`. -/
def kGrowHashTableChunkSize : ℕ := 16384

/-- `GrowState`. -/
structure GrowState where
  /-- `old_version`; the new version is the other one. -/
  oldVersion : Bool
  /-- `num_chunks`. -/
  numChunks : ℕ
  /-- `num_pending_chunks`. -/
  numPendingChunks : ℕ
  /-- `next_chunk`. -/
  nextChunk : ℕ
  deriving DecidableEq

/-- `new_version`. -/
def GrowState.newVersion (g : GrowState) : Bool := !g.oldVersion

/-- A hash table with its overflow buckets, `state_[version]`. -/
structure Table where
  /-- Number of buckets. -/
  size : ℕ
  /-- Buckets and overflow buckets. -/
  index : Index
  /-- The buckets are allocated. -/
  isInitialized : Bool
  /-- History: how often the version was initialised. -/
  generation : ℕ

/-- Where `AddHashEntry` writes next: `bucket` and `next_idx`. -/
structure Cursor where
  /-- The last bucket of the chain. -/
  bucket : BucketRef
  /-- Its first unused entry. -/
  nextIdx : ℕ
  deriving DecidableEq

/-- Where the loop of `SplitHashTableBuckets` stands. -/
inductive SplitPc
  /-- About to load the head and the begin address. -/
  | load
  /-- About to take the next chunk. -/
  | fetch
  /-- About to load entry `i` of the bucket `b` of the old chain with index `idx`
  of the chunk, or its overflow pointer; `dst` are the two new chains. -/
  | entry (chunk idx : ℕ) (b : BucketRef) (i : ℕ) (dst : Bool → Cursor)
  /-- About to count the chunk as done. -/
  | finish (chunk : ℕ)
  /-- About to free the old table. -/
  | free
  /-- The loop has ended. -/
  | done

/-- The store with its two tables, the sessions, and history. -/
structure State where
  /-- The phase protocol. -/
  phases : Phases.State
  /-- `resize_info_.version`. -/
  version : Bool
  /-- `grow_`. -/
  grow : GrowState
  /-- `state_`. -/
  table : Bool → Table
  /-- The log, the operations and their history. Its own table is not used. -/
  store : InternalInsert.State
  /-- The hash of the key pointer at an address, `get_hash()`. -/
  hashes : ℕ → KeyHash
  /-- `hlog.head_address`. -/
  headAddress : ℕ
  /-- Version and generation of the table that a session's operation works on. -/
  held : ℕ → Bool × ℕ
  /-- Where each session's call of `SplitHashTableBuckets` stands. -/
  split : ℕ → SplitPc
  /-- The head and the begin address that it has loaded. -/
  bounds : ℕ → ℕ × ℕ
  /-- History: the chunks of this growth that were split. -/
  splitDone : ℕ → Bool

/-- The table that operations load. -/
def State.current (s : State) : Table := s.table s.version

/-- The table that is split. -/
def State.old (s : State) : Table := s.table s.grow.oldVersion

/-- The table that it is split into. -/
def State.new (s : State) : Table := s.table s.grow.newVersion

/-- `AddHashEntry`. -/
def addHashEntry (t : ℕ) (e : HashBucketEntry) (m : Index) (cur : Cursor) : Index × Cursor :=
  if cur.nextIdx = kNumEntries then
    let n := (m.allocate t).1
    ((((m.allocate t).2).setOverflow cur.bucket n).setEntry ⟨.overflow n, 0⟩ e, ⟨.overflow n, 1⟩)
  else (m.setEntry ⟨cur.bucket, cur.nextIdx⟩ e, ⟨cur.bucket, cur.nextIdx + 1⟩)

/-- `AddHashEntry` to the new chain of one side. -/
def addTo (t : ℕ) (side : Bool) (e : HashBucketEntry) (r : Index × (Bool → Cursor)) :
    Index × (Bool → Cursor) :=
  let a := addHashEntry t e r.1 (r.2 side)
  (a.1, update r.2 side a.2)

/-- The side of the new table that a hash belongs to: `idx(new_size)` is not below
`old_size`. -/
def sideOf (oldSize newSize : ℕ) (hash : KeyHash) : Bool := decide (oldSize ≤ hash.idx newSize)

/-- `TraceBackForOtherChainStart`: the first key pointer that belongs to the other
side, or the first address below `minAddress`. -/
def traceBackForOtherChainStart (hashes : ℕ → KeyHash) (prev : ℕ → ℕ)
    (oldSize newSize minAddress : ℕ) (side : Bool) : ℕ → ℕ → ℕ
  | 0, start => start
  | fuel + 1, start =>
    if minAddress ≤ start then
      if sideOf oldSize newSize (hashes start) ≠ side then start
      else traceBackForOtherChainStart hashes prev oldSize newSize minAddress side fuel (prev start)
    else start

/-- What `SplitHashTableBuckets` does with the entry that it has loaded. -/
def splitEntry (s : State) (t : ℕ) (e : HashBucketEntry) (r : Index × (Bool → Cursor)) :
    Index × (Bool → Cursor) :=
  if e.unused then r
  else if e.address < (s.bounds t).1 then addTo t true e (addTo t false e r)
  else
    let side := sideOf s.old.size s.new.size (s.hashes e.address)
    let prev := (s.store.kpts e.address).prevAddress
    -- Chains go down, so that the search ends before its fuel does.
    let other := traceBackForOtherChainStart s.hashes (fun k => (s.store.kpts k).prevAddress)
      s.old.size s.new.size (s.bounds t).1 side (prev + 1) prev
    if (s.bounds t).2 ≤ other then addTo t (!side) ⟨other, e.tag, false⟩ (addTo t side e r)
    else addTo t side e r

/-- The number of buckets of a chunk. -/
def upperBound (s : State) (chunk : ℕ) : ℕ :=
  if chunk + 1 < s.grow.numChunks then kGrowHashTableChunkSize
  else s.old.size - chunk * kGrowHashTableChunkSize

/-- The loop over the buckets of a chunk, for index `idx`. -/
def bucketFrom (s : State) (chunk idx : ℕ) : SplitPc :=
  if idx < upperBound s chunk then
    .entry chunk idx (.base (chunk * kGrowHashTableChunkSize + idx)) 0 fun side =>
      ⟨.base ((if side then s.old.size else 0) + chunk * kGrowHashTableChunkSize + idx), 0⟩
  else .finish chunk

/-- The session's split moves on. -/
def State.gotoSplit (s : State) (t : ℕ) (pc : SplitPc) : State :=
  { s with split := update s.split t pc }

/-- Store the buckets of a table. -/
def State.setIndex (s : State) (v : Bool) (m : Index) : State :=
  { s with table := update s.table v { s.table v with index := m } }

/-- One step of the loop of `SplitHashTableBuckets`. -/
def splitStep (s : State) (t : ℕ) : SplitPc → State
  | .load =>
    { s with bounds := update s.bounds t (s.headAddress, s.store.beginAddress) }.gotoSplit t
      .fetch
  | .fetch =>
    { s with grow := { s.grow with nextChunk := s.grow.nextChunk + 1 } }.gotoSplit t
      (if s.grow.nextChunk < s.grow.numChunks then bucketFrom s s.grow.nextChunk 0 else .done)
  | .entry chunk idx b i dst =>
    if i < kNumEntries then
      let r := splitEntry s t (s.old.index.entries ⟨b, i⟩) (s.new.index, dst)
      (s.setIndex s.grow.newVersion r.1).gotoSplit t (.entry chunk idx b (i + 1) r.2)
    else
      match s.old.index.next b with
      | some c => s.gotoSplit t (.entry chunk idx c 0 dst)
      | none => s.gotoSplit t (bucketFrom s chunk (idx + 1))
  | .finish chunk =>
    { s with
      grow := { s.grow with numPendingChunks := s.grow.numPendingChunks - 1 }
      splitDone := update s.splitDone chunk true }.gotoSplit t
      (if s.grow.numPendingChunks - 1 = 0 then .free else .fetch)
  | .free =>
    { s with
      table := update s.table s.grow.oldVersion
        { s.old with size := 0, isInitialized := false } }.gotoSplit t .done
  | .done => s

/-- `GrowIndex` initialises `grow_` and the next version of the table. -/
def State.initializeGrow (s : State) : State :=
  { s with
    grow := ⟨s.version, max (s.current.size / kGrowHashTableChunkSize) 1,
      max (s.current.size / kGrowHashTableChunkSize) 1, 0⟩
    table := update s.table (!s.version)
      ⟨s.current.size * 2, .empty, true, (s.table (!s.version)).generation + 1⟩
    splitDone := fun _ => false }

/-- One step of the phase protocol. `GrowIndex` initialises after the last entry
was reset, the global move to `GROW_IN_PROGRESS` switches the version, and the
loop of `HandleSpecialPhases` may enter `SplitHashTableBuckets`. -/
def phaseStep (s : State) (t : ℕ) : Option State :=
  (Phases.callStep s.phases t true (s.phases.pc t)).map fun p =>
    match s.phases.pc t with
    | .reset _ _ idx =>
      if idx < kMaxNumThreads then { s with phases := p } else { s with phases := p }.initializeGrow
    | .settle next _ =>
      if next.phase = .growInProgress then { s with phases := p, version := s.grow.newVersion }
      else { s with phases := p }
    | .iterate _ _ => { s with phases := p }.gotoSplit t .load
    | _ => { s with phases := p }

/-- The store as an operation sees it that works on a version of the table. -/
def State.view (s : State) (v : Bool) : InternalInsert.State :=
  { s.store with index := (s.table v).index }

/-- The hash that the construction of a key pointer makes readable. -/
def constructed (hashes : ℕ → KeyHash) : InternalInsert.Pc → ℕ → KeyHash
  | .insert ctx _ (.construct a i) => update hashes (kptAddress a i) (ctx.hash i)
  | _ => hashes

/-- One step of the session's operation. After `FindEntry` a scan loads the entry
and goes on in the log. -/
def opStep (s : State) (t readOnly : ℕ) : Option State :=
  match s.store.pc t with
  | .found _ _ => some { s with store := s.store.goto t .idle }
  | pc =>
    (InternalInsert.callStep (s.table (s.held t).1).size t readOnly (s.view (s.held t).1) pc).map
      fun st => { s with store := st, hashes := constructed s.hashes pc }.setIndex (s.held t).1 st.index

/-- The session is in an operation on the hash table. -/
def inOperation : InternalInsert.Pc → Bool
  | .idle => false
  | _ => true

/-- `Refresh` is called between operations, and by `BlockAllocate`. -/
def mayRefresh : InternalInsert.Pc → Bool
  | .idle => true
  | .insert _ _ .reserve => true
  | .insert _ _ (.newPage _) => true
  | _ => false

/-- `HeavyEnter` lets an operation go on. -/
def mayEnter : Phases.Phase → Bool
  | .growPrepare => false
  | .growInProgress => false
  | _ => true

/-- What a session may do next. -/
inductive Act
  | stopSession
  | refresh
  /-- One turn of the loop of `HeavyEnter`. -/
  | heavyEnter
  | growIndex
  /-- `InternalInsert` goes on after `HeavyEnter`. -/
  | internalInsert (ctx : InsertContext)
  /-- `InternalScan` goes on after `HeavyEnter`. -/
  | internalScan (hash : KeyHash)
  /-- A step of the call that the session is in. -/
  | step (readOnly : ℕ)

/-- A step of a session, or the head address moves on. -/
inductive Label
  | thread (t : ℕ) (act : Act)
  | shiftHead (address : ℕ)

/-- The session calls a function of the phase protocol. -/
def callPhases (s : State) (t : ℕ) (act : Phases.Act) : Option State :=
  if s.phases.pc t = .idle then
    (Phases.startCall s.phases t act).map fun p => { s with phases := p }
  else none

/-- The session's operation loads the version and begins. -/
def begin (s : State) (t : ℕ) (act : InternalInsert.Act) : Option State :=
  if s.phases.pc t = .idle ∧ s.phases.isProtected t = true ∧ inOperation (s.store.pc t) = false ∧
      mayEnter (s.phases.ctx t).phase = true then
    (InternalInsert.startCall s.current.size (s.view s.version) act).map fun pc =>
      { s with
        store := s.store.goto t pc
        held := update s.held t (s.version, s.current.generation) }
  else none

/-- One step of a session. -/
def threadStep (s : State) (t : ℕ) : Act → Option State
  | .stopSession => if inOperation (s.store.pc t) then none else callPhases s t .stopSession
  | .refresh => if mayRefresh (s.store.pc t) then callPhases s t .refresh else none
  | .heavyEnter =>
    if inOperation (s.store.pc t) then none
    else (callPhases s t .heavyEnter).map fun s' => s'.gotoSplit t .load
  | .growIndex => if inOperation (s.store.pc t) then none else callPhases s t (.start .growIndex)
  | .internalInsert ctx => begin s t (.internalInsert ctx)
  | .internalScan hash => begin s t (.findEntry hash)
  | .step readOnly =>
    match s.phases.pc t with
    | .idle => opStep s t readOnly
    | .split _ =>
      match s.split t with
      | .done => phaseStep s t
      | pc => some (splitStep s t pc)
    | _ => phaseStep s t

/-- One step of an execution. -/
def step (s : State) : Label → Option State
  | .thread t act => if t < kMaxNumThreads then threadStep s t act else none
  | .shiftHead address => if s.headAddress ≤ address then some { s with headAddress := address } else none

/-- A fresh store with a table whose size is a power of two, no growth so far, and
sessions in the rest phase on threads that the scans of the epoch table visit. -/
structure Initial (s : State) : Prop where
  /-- No action is in progress, and the sessions know its version. -/
  word : ∃ v, s.phases.systemState = ⟨.none, .rest, v⟩ ∧ ∀ t, s.phases.ctx t = ⟨.rest, v⟩
  /-- The sessions are in no call. -/
  idle : ∀ t, s.phases.pc t = .idle
  /-- No action was started. -/
  started : s.phases.started = 0
  /-- Nothing was acknowledged. -/
  acked : ∀ t p, s.phases.acked t p = false
  /-- The threads are tracked. -/
  tracked : ∀ t, s.phases.isProtected t = true → 1 ≤ t ∧ t < kMaxNumThreads
  /-- The fields of `grow_` are not read before they are initialised. -/
  grow : s.grow = ⟨!s.version, 0, 0, 0⟩
  /-- No chunk was split. -/
  splitDone : ∀ c, s.splitDone c = false
  /-- The table is empty. -/
  table : ∃ k g, s.current = ⟨2 ^ k, .empty, true, g⟩
  /-- The log is empty. -/
  store : s.store = .empty
  /-- The head address is the log's first address. -/
  head : s.headAddress = firstAddress

/-- The executions of the store that grows. -/
def machine : Machine State Label := ⟨Initial, step⟩

end FishStore.Grow
