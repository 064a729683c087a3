import FishStore.Layout
import FishStore.Chains

/-!
# Hash index lookups

The hash table is an array of buckets of seven entries; each bucket may lead
to an overflow bucket of the fixed-page allocator. `FindEntry` and
`FindOrCreateEntry` are modelled one atomic access at a time: every load,
compare-and-swap and store of an entry or of an overflow pointer is a step, so
that any number of calls can be interleaved. Overflow buckets that lose the
race for an overflow pointer go to the free list of the thread that allocated
them and are handed out again.
-/

namespace FishStore.HashIndex

open Layout Chains

/-- A hash bucket: one of the table, by its index, or an overflow bucket, by
its address in the overflow allocator. -/
inductive BucketRef
  | base (idx : ℕ)
  | overflow (addr : ℕ)
  deriving DecidableEq

/-- One of the entries of a bucket, an `AtomicHashBucketEntry` by its place. -/
structure Slot where
  /-- The bucket of the entry. -/
  bucket : BucketRef
  /-- Index of the entry in the bucket. -/
  idx : ℕ
  deriving DecidableEq

/-- `HashBucket::kNumEntries`. -/
def kNumEntries : ℕ := 7

/-- The hash table of the current version with its overflow buckets. -/
structure Index where
  /-- The entries of all buckets. -/
  entries : Slot → HashBucketEntry
  /-- Overflow pointer of each bucket, zero when unused. -/
  overflowEntry : BucketRef → ℕ
  /-- Next address that the overflow allocator hands out. -/
  count : ℕ
  /-- Addresses returned to the overflow allocator, by thread. -/
  freeList : ℕ → List ℕ

/-- An empty table. Address zero of the allocator is taken at start-up, as the
null pointer. -/
def Index.empty : Index := ⟨fun _ => kInvalidEntry, fun _ => 0, 1, fun _ => []⟩

/-- The bucket that a bucket's overflow pointer leads to. -/
def Index.next (m : Index) (b : BucketRef) : Option BucketRef :=
  if m.overflowEntry b = 0 then none else some (.overflow (m.overflowEntry b))

/-- Store an entry. -/
def Index.setEntry (m : Index) (x : Slot) (e : HashBucketEntry) : Index :=
  { m with entries := Function.update m.entries x e }

/-- Store an overflow pointer. -/
def Index.setOverflow (m : Index) (b : BucketRef) (n : ℕ) : Index :=
  { m with overflowEntry := Function.update m.overflowEntry b n }

/-- `MallocFixedPageSize::Allocate`: the front of the thread's free list, all
of whose addresses have removal epoch zero, or the next fresh address. -/
def Index.allocate (m : Index) (t : ℕ) : ℕ × Index :=
  match m.freeList t with
  | n :: rest => (n, { m with freeList := Function.update m.freeList t rest })
  | [] => (m.count, { m with count := m.count + 1 })

/-- `MallocFixedPageSize::FreeAtEpoch(addr, 0)`. -/
def Index.freeAtEpoch (m : Index) (t n : ℕ) : Index :=
  { m with freeList := Function.update m.freeList t (m.freeList t ++ [n]) }

/-- Where a call of `FindOrCreateEntry` stands. -/
inductive LookupPc
  /-- `FindTentativeEntry` is about to load entry `i` of `b`, or the overflow
  pointer of `b` after the last entry; `free` is the first free slot seen. -/
  | scan (b : BucketRef) (i : ℕ) (free : Option Slot)
  /-- No free slot in the whole chain, which ended at `b`. -/
  | allocate (b : BucketRef)
  /-- About to swap the fresh bucket `new` into the overflow pointer of `b`. -/
  | install (b : BucketRef) (new : ℕ)
  /-- Lost that race; about to return `new` and to go on with `next`. -/
  | release (new : ℕ) (next : BucketRef)
  /-- About to swap the tentative entry into `x`. -/
  | claim (x : Slot)
  /-- `HasConflictingEntry` is about to load the tag of `x`. -/
  | ownTag (x : Slot)
  /-- `HasConflictingEntry` is about to load entry `i` of `b`, or the overflow
  pointer of `b` after the last entry. -/
  | conflict (x : Slot) (tag : ℕ) (b : BucketRef) (i : ℕ)
  /-- A conflict was found; about to clear `x`. -/
  | backOff (x : Slot)
  /-- No conflict was found; about to clear the tentative bit of `x`. -/
  | commit (x : Slot)
  deriving DecidableEq

/-- What one step of a lookup leads to. -/
inductive LookupResult
  | more (pc : LookupPc)
  /-- The call returns the slot and sets `expected_entry`. -/
  | done (x : Slot) (expected : HashBucketEntry)

/-- One atomic step of `FindOrCreateEntry` by thread `t`, for the bucket with
index `idx` and the tag `tag`. -/
def lookupStep (idx tag t : ℕ) (m : Index) : LookupPc → Index × LookupResult
  | .scan b i free =>
    if i < kNumEntries then
      let entry := m.entries ⟨b, i⟩
      if entry.unused then (m, .more (.scan b (i + 1) (free.or (some ⟨b, i⟩))))
      else if tag = entry.tag ∧ entry.tentative = false then (m, .done ⟨b, i⟩ entry)
      else (m, .more (.scan b (i + 1) free))
    else
      match m.next b, free with
      | some c, _ => (m, .more (.scan c 0 free))
      | none, some x => (m, .more (.claim x))
      | none, none => (m, .more (.allocate b))
  | .allocate b => ((m.allocate t).2, .more (.install b (m.allocate t).1))
  | .install b new =>
    match m.next b with
    | none => (m.setOverflow b new, .more (.claim ⟨.overflow new, 0⟩))
    | some c => (m, .more (.release new c))
  | .release new c => (m.freeAtEpoch t new, .more (.scan c 0 none))
  | .claim x =>
    if m.entries x = kInvalidEntry then (m.setEntry x (tentativeEntry tag), .more (.ownTag x))
    else (m, .more (.scan (.base idx) 0 none))
  | .ownTag x => (m, .more (.conflict x (m.entries x).tag (.base idx) 0))
  | .conflict x own b i =>
    if i < kNumEntries then
      let entry := m.entries ⟨b, i⟩
      if entry ≠ kInvalidEntry ∧ entry.tag = own ∧ x ≠ ⟨b, i⟩ then (m, .more (.backOff x))
      else (m, .more (.conflict x own b (i + 1)))
    else
      match m.next b with
      | none => (m, .more (.commit x))
      | some c => (m, .more (.conflict x own c 0))
  | .backOff x => (m.setEntry x kInvalidEntry, .more (.scan (.base idx) 0 none))
  | .commit x => (m.setEntry x (createdEntry tag), .done x (createdEntry tag))

/-- What one step of `FindEntry` leads to. -/
inductive FindResult
  | more (b : BucketRef) (i : ℕ)
  /-- The call returns the slot, or the null pointer. -/
  | done (x : Option Slot)

/-- One atomic step of `FindEntry` for the tag, about to load entry `i` of `b`
or the overflow pointer of `b` after the last entry. -/
def findStep (tag : ℕ) (m : Index) (b : BucketRef) (i : ℕ) : FindResult :=
  if i < kNumEntries then
    let entry := m.entries ⟨b, i⟩
    if entry.unused then .more b (i + 1)
    else if tag = entry.tag ∧ entry.tentative = false then .done (some ⟨b, i⟩)
    else .more b (i + 1)
  else
    match m.next b with
    | none => .done none
    | some c => .more c 0

/-- `FindEntry` run without interruption, for at most `fuel` accesses. -/
def findLoop (tag : ℕ) (m : Index) : ℕ → BucketRef → ℕ → Option (Option Slot)
  | 0, _, _ => none
  | fuel + 1, b, i =>
    match findStep tag m b i with
    | .more c j => findLoop tag m fuel c j
    | .done x => some x

/-- `FindEntry(hash)` on a table of the given size. -/
def findEntry (size : ℕ) (m : Index) (hash : KeyHash) (fuel : ℕ) : Option (Option Slot) :=
  findLoop hash.tag m fuel (.base (hash.idx size)) 0

/-- The slot is an entry of a bucket of the chain with index `idx`. -/
def InChain (next : BucketRef → Option BucketRef) (idx : ℕ) (x : Slot) : Prop :=
  Reaches next (.base idx) x.bucket ∧ x.idx < kNumEntries

/-- The slot holds the non-tentative entry of the tag. -/
def Holds (m : Index) (x : Slot) (tag : ℕ) : Prop :=
  (m.entries x).Final ∧ (m.entries x).tag = tag

end FishStore.HashIndex
