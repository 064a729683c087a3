import Mathlib

/-!
# Words of the log and of the hash table

Addresses are the 48-bit log addresses, 25 bits of which are the offset in a
32 MB page. A hash bucket entry and the control word of a key pointer are
64-bit words that the code only reads and writes whole, by their fields; they
are kept here as records of those fields, with equality of all fields for the
comparison of the words. The log allocator hands out addresses of a tail page
that moves on when a reservation does not fit.
-/

namespace FishStore.Layout

/-- `Address::kInvalidAddress`: set to 1, not 0, to tell an unused hash
bucket entry from an entry that points to an invalid address. -/
def kInvalidAddress : ℕ := 1

/-- `Address::kOffsetBits`. -/
def kOffsetBits : ℕ := 25

/-- `Address::kMaxOffset`. -/
def kMaxOffset : ℕ := 2 ^ kOffsetBits - 1

/-- `Address::kMaxPage`, for 23 bits of page index. -/
def kMaxPage : ℕ := 2 ^ 23 - 1

/-- `PersistentMemoryMalloc::kPageSize`. -/
def kPageSize : ℕ := kMaxOffset + 1

/-- `Address{page, offset}`. -/
def address (page offset : ℕ) : ℕ := page * kPageSize + offset

/-- `Address::page()`. -/
def page (a : ℕ) : ℕ := a / kPageSize

/-- `Address::offset()`. -/
def offset (a : ℕ) : ℕ := a % kPageSize

/-- The key hash: 48 address bits, 14 tag bits, 2 unused bits. -/
structure KeyHash where
  /-- `KeyHash::control_`. -/
  control : ℕ
  deriving DecidableEq

/-- `KeyHash::idx(size)`. -/
def KeyHash.idx (h : KeyHash) (size : ℕ) : ℕ := (h.control % 2 ^ 48) &&& (size - 1)

/-- `KeyHash::tag()`. -/
def KeyHash.tag (h : KeyHash) : ℕ := h.control / 2 ^ 48 % 2 ^ 14

/-- A hash bucket entry, by its fields; the reserved bit is always zero. -/
structure HashBucketEntry where
  /-- Log address of the newest key pointer of the chain. -/
  address : ℕ
  /-- The 14 tag bits. -/
  tag : ℕ
  /-- Set while the entry's creator looks for a conflicting entry. -/
  tentative : Bool
  deriving DecidableEq

/-- `HashBucketEntry::kInvalidEntry`, the all-zero word. -/
def kInvalidEntry : HashBucketEntry := ⟨0, 0, false⟩

/-- `HashBucketEntry::unused()`. -/
def HashBucketEntry.unused (e : HashBucketEntry) : Bool := decide (e = kInvalidEntry)

/-- An entry that lookups return: in use and not tentative. -/
def HashBucketEntry.Final (e : HashBucketEntry) : Prop :=
  e ≠ kInvalidEntry ∧ e.tentative = false

instance (e : HashBucketEntry) : Decidable e.Final :=
  inferInstanceAs (Decidable (_ ∧ _))

/-- The tentative entry that `FindOrCreateEntry` installs for a tag. -/
def tentativeEntry (tag : ℕ) : HashBucketEntry := ⟨kInvalidAddress, tag, true⟩

/-- The entry that `FindOrCreateEntry` leaves behind for a tag. -/
def createdEntry (tag : ℕ) : HashBucketEntry := ⟨kInvalidAddress, tag, false⟩

theorem tentativeEntry_ne (tag : ℕ) : tentativeEntry tag ≠ kInvalidEntry := by simp [tentativeEntry,kInvalidEntry]

theorem createdEntry_final (tag : ℕ) : (createdEntry tag).Final := by
  simp [HashBucketEntry.Final,createdEntry,kInvalidEntry,kInvalidAddress]

/-- The control word of a key pointer, `KPTCASUtil` by its fields. -/
structure KptWord where
  /-- False for a field-based key pointer, true for a predicate-based one. -/
  mode : Bool
  /-- Index of the key pointer among those of its record. -/
  ptrOffset : ℕ
  /-- Address of the next key pointer of the hash chain. -/
  prevAddress : ℕ
  deriving DecidableEq

/-- `sizeof(RecordInfo)`. -/
def sizeofRecordInfo : ℕ := 8

/-- `sizeof(KeyPointer)`. -/
def sizeofKeyPointer : ℕ := 16

/-- `pad_alignment(size, alignment)`. -/
def padAlignment (size alignment : ℕ) : ℕ := (size + (alignment - 1)) / alignment * alignment

/-- `Record::size(ptr_cnt, payload_size, optional_size)`, a 32-bit number. -/
def recordSize (ptrCnt payloadSize optionalSize : ℕ) : ℕ :=
  padAlignment (sizeofRecordInfo + sizeofKeyPointer * ptrCnt + payloadSize + optionalSize)
    sizeofRecordInfo % 2 ^ 32

/-- Address of the key pointer with index `i` of the record at `a`. -/
def kptAddress (a i : ℕ) : ℕ := a + sizeofRecordInfo + sizeofKeyPointer * i

theorem le_padAlignment (n : ℕ) : n≤padAlignment n sizeofRecordInfo := by
  unfold padAlignment sizeofRecordInfo
  omega

theorem kptAddress_injective {a i j : ℕ} (h : kptAddress a i=kptAddress a j) : i=j := by
  unfold kptAddress sizeofKeyPointer at h
  omega

/-- The tail of the log: the current page and the offset reserved in it,
which goes past the end of the page when reservations fail. -/
structure PageOffset where
  /-- Page index of the tail. -/
  page : ℕ
  /-- Bytes of that page reserved so far, failed reservations included. -/
  offset : ℕ
  deriving DecidableEq

/-- The first address at or after every successful reservation. -/
def PageOffset.limit (t : PageOffset) : ℕ := Layout.address t.page (min t.offset kPageSize)

/-- `AtomicPageOffset::Reserve`: the tail after adding to its offset. -/
def PageOffset.reserve (t : PageOffset) (numSlots : ℕ) : PageOffset :=
  ⟨t.page, t.offset + numSlots⟩

/-- The address that `PersistentMemoryMalloc::Allocate` returns for the tail
it found, or none where it returns `kInvalidAddress` as the page is full. -/
def PageOffset.allocated (t : PageOffset) (numSlots : ℕ) : Option ℕ :=
  if t.offset + numSlots > kPageSize then none else some (Layout.address t.page t.offset)

/-- `AtomicPageOffset::NewPage(old_page)`: move on to the next page unless
some thread already did. -/
def PageOffset.newPage (t : PageOffset) (oldPage : ℕ) : PageOffset :=
  if t.page = oldPage then ⟨oldPage + 1, 0⟩ else t

theorem PageOffset.limit_le_reserve (t : PageOffset) (n : ℕ) : t.limit≤(t.reserve n).limit := by
  simp only [limit,reserve,Layout.address]
  omega

theorem PageOffset.limit_le_newPage (t : PageOffset) (p : ℕ) : t.limit≤(t.newPage p).limit := by
  unfold newPage
  split
  · rename_i h
    simp only [limit,Layout.address,←h,add_mul,one_mul]
    omega
  · exact le_rfl

/-- A successful reservation is at or after all earlier ones, and all later
ones are after it. -/
theorem PageOffset.allocated_spec {t : PageOffset} {n a : ℕ} (h : t.allocated n=some a) :
    t.limit≤a ∧ a+n≤(t.reserve n).limit := by
  unfold allocated at h
  split_ifs at h with hfull
  cases h
  simp only [limit,reserve,Layout.address]
  omega

/-- `Status`. -/
inductive Status
  | ok
  | pending
  | notFound
  | outOfMemory
  | ioError
  | corruption
  | aborted
  deriving DecidableEq

end FishStore.Layout
