import FishStore.Runs
import FishStore.EntryInvariant

/-!
# Insertion and garbage collection of hash chains

`InternalInsert` looks up the bucket entry of each of its key pointers,
allocates the record at the tail of the log and links the key pointers one by
one: it tries to swap the bucket entry, retries while the entry's address is
below its own, and otherwise splices the key pointer into the middle of the
chain. `CleanHashTableBuckets` clears entries whose address is below the begin
address. Threads run these and the two lookups one atomic access at a time. The
cleaner that a session runs in `Refresh` inside its own `BlockAllocate` is one
more thread that moves while the session does not.

The state keeps, as history, the key pointers whose linking swap succeeded and
the records whose insertion returned.
-/

namespace FishStore.InternalInsert

open Layout Chains HashIndex Runs

/-- What `InternalInsert` reads of its context: the hashes of the key
pointers, field-based ones first, and the sizes of payload and options. -/
structure InsertContext where
  /-- Hashes of the key pointers, `kpts()`. -/
  kpts : List KeyHash
  /-- `n_general_pts()`. -/
  nGeneralPts : ℕ
  /-- `payload_size()`. -/
  payloadSize : ℕ
  /-- `optional_size()`. -/
  optionalSize : ℕ
  /-- The field-based key pointers are a part of all. -/
  general_le : nGeneralPts ≤ kpts.length
  /-- The size of the record is a 32-bit number. -/
  size_lt : padAlignment (sizeofRecordInfo + sizeofKeyPointer * kpts.length + payloadSize +
    optionalSize) sizeofRecordInfo < 2 ^ 32

/-- Hash of the key pointer with index `i`. -/
def InsertContext.hash (ctx : InsertContext) (i : ℕ) : KeyHash := ctx.kpts.getD i ⟨0⟩

/-- The size that `InternalInsert` allocates. -/
def InsertContext.size (ctx : InsertContext) : ℕ :=
  recordSize ctx.kpts.length ctx.payloadSize ctx.optionalSize

/-- `HashBucketCASHelper`. -/
structure HashBucketCASHelper where
  /-- The slot that `FindOrCreateEntry` returned. -/
  atomicEntry : Slot
  /-- The entry that it found there. -/
  expectedEntry : HashBucketEntry

/-- Where a call of `InternalInsert` stands. -/
inductive InsertPc
  /-- In `FindOrCreateEntry` for key pointer `i`. -/
  | lookup (i : ℕ) (pc : LookupPc)
  /-- `BlockAllocate` is about to reserve space in the tail page. -/
  | reserve
  /-- The page was full; about to move the tail to the next page. -/
  | newPage (page : ℕ)
  /-- Space was reserved; about to compare it with the read-only address. -/
  | reserved (a : ℕ)
  /-- About to construct key pointer `i` of the record at `a`. -/
  | construct (a i : ℕ)
  /-- About to swap the bucket entry of key pointer `i`. -/
  | casEntry (a i : ℕ) (expected : HashBucketEntry)
  /-- About to point key pointer `i` to the address seen in the entry. -/
  | setPrev (a i : ℕ) (expected : HashBucketEntry)
  /-- About to load the control word of the key pointer at `kpt`. -/
  | loadKpt (a i kpt : ℕ)
  /-- About to point key pointer `i` behind the key pointer at `kpt`. -/
  | setKptPrev (a i kpt : ℕ) (cas : KptWord)
  /-- About to `alter` the key pointer at `kpt`. -/
  | alter (a i kpt : ℕ) (cas : KptWord)
  /-- All key pointers are linked; about to return. -/
  | finish (a : ℕ)

/-- What a thread is doing. -/
inductive Pc
  | idle
  /-- In a call of `FindOrCreateEntry`. -/
  | create (hash : KeyHash) (pc : LookupPc)
  /-- That call has returned the slot and the expected entry. -/
  | created (hash : KeyHash) (x : Slot) (expected : HashBucketEntry)
  /-- In a call of `FindEntry`. -/
  | find (hash : KeyHash) (b : BucketRef) (i : ℕ)
  /-- That call has returned the slot or the null pointer. -/
  | found (hash : KeyHash) (x : Option Slot)
  /-- In a call of `InternalInsert`. -/
  | insert (ctx : InsertContext) (helpers : ℕ → HashBucketCASHelper) (pc : InsertPc)
  /-- In `CleanHashTableBuckets` for the buckets up to `last`, about to load
  entry `i` of the bucket `b` of chain `idx`, or its overflow pointer. -/
  | clean (begin last idx : ℕ) (b : BucketRef) (i : ℕ)
  /-- About to clear that entry. -/
  | cleanCas (begin last idx : ℕ) (b : BucketRef) (i : ℕ) (expected : HashBucketEntry)

/-- A key pointer whose linking swap succeeded, with its bits then. -/
structure Link where
  /-- Log address of the key pointer. -/
  address : ℕ
  /-- Hash of the key pointer. -/
  hash : KeyHash
  /-- The bucket entry of its chain. -/
  slot : Slot
  /-- Mode bit. -/
  mode : Bool
  /-- Index of the key pointer in its record. -/
  ptrOffset : ℕ

/-- Shared memory, the threads, and history. -/
structure State where
  /-- The hash index. -/
  index : Index
  /-- Control words of key pointers, by log address. -/
  kpts : ℕ → KptWord
  /-- Tail of the log. -/
  tail : PageOffset
  /-- `hlog.begin_address`. -/
  beginAddress : ℕ
  /-- What each thread is doing. -/
  pc : ℕ → Pc
  /-- History: the key pointers linked so far. -/
  linked : List Link
  /-- History: the insertions that returned `SUCCESS`, with their addresses. -/
  completed : List (ℕ × InsertContext)

/-- The log's first address after the constructor reserved a cache line. -/
def firstAddress : ℕ := 64

/-- An empty store. -/
def State.empty : State :=
  ⟨.empty, fun _ => ⟨false, 0, 0⟩, ⟨0, firstAddress⟩, firstAddress, fun _ => .idle, [], []⟩

/-- The thread moves on. -/
def State.goto (s : State) (t : ℕ) (pc : Pc) : State := { s with pc := Function.update s.pc t pc }

/-- Write the control word of a key pointer. -/
def State.setKpt (s : State) (k : ℕ) (w : KptWord) : State :=
  { s with kpts := Function.update s.kpts k w }

/-- Write the previous address of a key pointer. -/
def State.setPrev (s : State) (k prev : ℕ) : State :=
  s.setKpt k { s.kpts k with prevAddress := prev }

/-- The mode bit with which key pointer `i` is constructed. -/
def InsertContext.mode (ctx : InsertContext) (i : ℕ) : Bool := decide (ctx.nGeneralPts ≤ i)

/-- The control word with which key pointer `i` is constructed; its index
has 15 bits. -/
def InsertContext.word (ctx : InsertContext) (i prev : ℕ) : KptWord :=
  ⟨ctx.mode i, i % 2 ^ 15, prev⟩

/-- Record in the history that key pointer `i` was linked. -/
def State.link (s : State) (ctx : InsertContext) (a i : ℕ) (x : Slot) : State :=
  { s with linked := ⟨kptAddress a i, ctx.hash i, x, ctx.mode i, i % 2 ^ 15⟩ :: s.linked }

/-- The first loop of `InternalInsert` for a 16-bit index: look up key pointer
`i`, or allocate when the loop is over. -/
def lookupFrom (size : ℕ) (ctx : InsertContext) (i : ℕ) : InsertPc :=
  if i < ctx.kpts.length then .lookup i (.scan (.base ((ctx.hash i).idx size)) 0 none)
  else .reserve

/-- The loops that link for index `i`. They run only when the first loop has
ended, so that the index does not wrap. -/
def linkFrom (ctx : InsertContext) (a i : ℕ) : InsertPc :=
  if i < ctx.kpts.length then .construct a i else .finish a

/-- The search for the key pointer to splice behind, with the control word of
the current one just read. -/
def spliceFrom (a i kpt : ℕ) (cas : KptWord) : InsertPc :=
  if cas.prevAddress > kptAddress a i then .loadKpt a i cas.prevAddress
  else .setKptPrev a i kpt cas

/-- One atomic step of `InternalInsert`; `readOnly` is the read-only address
where the step loads it. -/
def insertStep (size t readOnly : ℕ) (s : State) (ctx : InsertContext)
    (helpers : ℕ → HashBucketCASHelper) : InsertPc → State
  | .lookup i pc =>
    let r := lookupStep ((ctx.hash i).idx size) (ctx.hash i).tag t s.index pc
    match r.2 with
    | .more pc' => { s with index := r.1 }.goto t (.insert ctx helpers (.lookup i pc'))
    | .done x e => { s with index := r.1 }.goto t
        (.insert ctx (Function.update helpers i ⟨x, e⟩) (lookupFrom size ctx ((i + 1) % 2 ^ 16)))
  | .reserve =>
    let s' := { s with tail := s.tail.reserve ctx.size }
    match s.tail.allocated ctx.size with
    | some a => s'.goto t (.insert ctx helpers (.reserved a))
    | none => s'.goto t (.insert ctx helpers (.newPage s.tail.page))
  | .newPage page =>
    { s with tail := s.tail.newPage page }.goto t (.insert ctx helpers .reserve)
  | .reserved a =>
    if a < readOnly then s.goto t (.insert ctx helpers .reserve)
    else s.goto t (.insert ctx helpers (linkFrom ctx a 0))
  | .construct a i =>
    let e := (helpers i).expectedEntry
    (s.setKpt (kptAddress a i) (ctx.word i e.address)).goto t (.insert ctx helpers (.casEntry a i e))
  | .casEntry a i expected =>
    let x := (helpers i).atomicEntry
    let entry := s.index.entries x
    if entry = expected then
      (({ s with index := s.index.setEntry x ⟨kptAddress a i, (ctx.hash i).tag, false⟩ }).link
        ctx a i x).goto t (.insert ctx helpers (linkFrom ctx a (i + 1)))
    else if entry.address < kptAddress a i then
      s.goto t (.insert ctx helpers (.setPrev a i entry))
    else s.goto t (.insert ctx helpers (.loadKpt a i entry.address))
  | .setPrev a i expected =>
    (s.setPrev (kptAddress a i) expected.address).goto t
      (.insert ctx helpers (.casEntry a i expected))
  | .loadKpt a i kpt => s.goto t (.insert ctx helpers (spliceFrom a i kpt (s.kpts kpt)))
  | .setKptPrev a i kpt cas =>
    (s.setPrev (kptAddress a i) cas.prevAddress).goto t (.insert ctx helpers (.alter a i kpt cas))
  | .alter a i kpt cas =>
    if s.kpts kpt = cas then
      ((s.setKpt kpt { cas with prevAddress := kptAddress a i }).link ctx a i
        (helpers i).atomicEntry).goto t (.insert ctx helpers (linkFrom ctx a (i + 1)))
    else s.goto t (.insert ctx helpers (spliceFrom a i kpt (s.kpts kpt)))
  | .finish a => { s with completed := (a, ctx) :: s.completed }.goto t .idle

/-- One atomic step of `CleanHashTableBuckets` that reads. -/
def cleanStep (m : Index) (begin last idx : ℕ) (b : BucketRef) (i : ℕ) : Pc :=
  if i < kNumEntries then
    let entry := m.entries ⟨b, i⟩
    if entry.unused = false ∧ entry.address ≠ kInvalidAddress ∧ entry.address < begin then
      .cleanCas begin last idx b i entry
    else .clean begin last idx b (i + 1)
  else
    match m.next b with
    | some c => .clean begin last idx c 0
    | none => if idx + 1 < last then .clean begin last (idx + 1) (.base (idx + 1)) 0 else .idle

/-- What a thread may do next. -/
inductive Act
  /-- Call `FindOrCreateEntry`. -/
  | findOrCreateEntry (hash : KeyHash)
  /-- Call `FindEntry`. -/
  | findEntry (hash : KeyHash)
  /-- Call `InternalInsert`. -/
  | internalInsert (ctx : InsertContext)
  /-- Return `CPR_SHIFT_DETECTED` from `InternalInsert` after its lookups. -/
  | cprShift
  /-- Call `CleanHashTableBuckets` for a chunk of buckets. -/
  | cleanHashTableBuckets (first last : ℕ)
  /-- The next atomic step of the current call. -/
  | step (readOnly : ℕ)

/-- A step of a thread, or `ShiftBeginAddress` storing the begin address. -/
inductive Label
  | thread (t : ℕ) (act : Act)
  | shiftBegin (address : ℕ)

/-- The thread is in no call. -/
def Pc.resting : Pc → Bool
  | .idle => true
  | .created _ _ _ => true
  | .found _ _ => true
  | _ => false

/-- The start of a call by a thread that is in no call. -/
def startCall (size : ℕ) (s : State) : Act → Option Pc
  | .findOrCreateEntry hash => some (.create hash (.scan (.base (hash.idx size)) 0 none))
  | .findEntry hash => some (.find hash (.base (hash.idx size)) 0)
  | .internalInsert ctx =>
    some (.insert ctx (fun _ => ⟨⟨.base 0, 0⟩, kInvalidEntry⟩) (lookupFrom size ctx 0))
  | .cleanHashTableBuckets first last =>
    some (if first < last then .clean s.beginAddress last first (.base first) 0 else .idle)
  | .cprShift => none
  | .step _ => none

/-- The next atomic step of a thread's current call. -/
def callStep (size t readOnly : ℕ) (s : State) : Pc → Option State
  | .create hash pc =>
    let r := lookupStep (hash.idx size) hash.tag t s.index pc
    match r.2 with
    | .more pc' => some ({ s with index := r.1 }.goto t (.create hash pc'))
    | .done x e => some ({ s with index := r.1 }.goto t (.created hash x e))
  | .find hash b i =>
    match findStep hash.tag s.index b i with
    | .more c j => some (s.goto t (.find hash c j))
    | .done x => some (s.goto t (.found hash x))
  | .insert ctx helpers pc => some (insertStep size t readOnly s ctx helpers pc)
  | .clean begin last idx b i => some (s.goto t (cleanStep s.index begin last idx b i))
  | .cleanCas begin last idx b i expected =>
    let s' := if s.index.entries ⟨b, i⟩ = expected then
      { s with index := s.index.setEntry ⟨b, i⟩ kInvalidEntry } else s
    some (s'.goto t (.clean begin last idx b (i + 1)))
  | .idle => none
  | .created _ _ _ => none
  | .found _ _ => none

/-- One step of the system. -/
def step (size : ℕ) (s : State) : Label → Option State
  | .shiftBegin address => some { s with beginAddress := address }
  | .thread t (.step readOnly) => callStep size t readOnly s (s.pc t)
  | .thread t .cprShift =>
    match s.pc t with
    | .insert _ _ .reserve => some (s.goto t .idle)
    | _ => none
  | .thread t act => if (s.pc t).resting then (startCall size s act).map (s.goto t) else none

/-- The system on a hash table with the given number of buckets. -/
def machine (size : ℕ) : Machine State Label := ⟨fun s => s = .empty, step size⟩

end FishStore.InternalInsert
