import FishStore.FullScan

/-!
# The callbacks of reads from disk

An operation that leaves the memory goes on in callbacks. `AsyncGetFromDiskCallback` and
`AsyncScanFromDiskCallback` follow a chain of key pointers; the buffer of a read may lack
the header of the record or its end, and then the record is read again. A scan reads whole
blocks, larger ones the closer the records lie, and goes on along the chain as long as it
stays in the block. `AsyncFullScanFromDiskCallback` reads one page after the other. Each
callback ends with one more read or with a response to the session that has issued the
operation, unless the read has failed: then it does neither.

The bytes that a buffer shows are given by their addresses in the log. A callback loads
`begin_address` several times, and the values are given by their order.
-/

namespace FishStore.DiskCallbacks

open Layout LogRecords

/-- The settings of the store, and what an operation looks for. -/
structure Setting where
  /-- `check` of the context of a read or scan, on a key pointer. -/
  check : Bytes → ℕ → Bool
  /-- `check` of the context of a full scan, on a payload. -/
  checkPayload : List ℕ → Bool
  /-- `Constants::kIoLevels`. -/
  kIoLevels : ℕ
  /-- `Constants::avg_rec_size`. -/
  avgRecSize : ℕ
  /-- `sector_size` of the log file. -/
  sectorSize : ℕ

/-- `AsyncIOContext`, with what the callbacks use of the operation's context. -/
structure Io where
  /-- `address`. -/
  address : ℕ
  /-- `kpt_offset`. -/
  kptOffset : ℕ
  /-- `record.valid_offset`: bytes in the buffer before the address that was read. -/
  validOffset : ℕ
  /-- `record.available_bytes`: bytes in the buffer from that address on. -/
  availableBytes : ℕ
  /-- `io_level` of a scan. -/
  ioLevel : ℕ
  /-- `start_addr`. -/
  startAddr : ℕ
  /-- `end_addr`. -/
  endAddr : ℕ
  deriving DecidableEq

/-- What a callback does. -/
inductive Effect
  /-- `Touch` with the record at the address. -/
  | touch (record : ℕ)
  /-- `AsyncGetFromDisk`. -/
  | read (address length : ℕ)
  /-- Push the context to `thread_io_responses`. -/
  | push
  deriving DecidableEq

/-- `KeyPointer::prev_address`. -/
def prevAddress (mem : Bytes) (kpt : ℕ) : ℕ := word mem kpt / 2 ^ 16

/-- `Record::ptr_offset(kpt->ptr_offset)`: how far the record begins before the key pointer. -/
def ptrOffset (mem : Bytes) (kpt : ℕ) : ℕ :=
  sizeofRecordInfo + sizeofKeyPointer * (word mem kpt / 2 % 2 ^ 15)

/-- `KeyPointer::get_record()`. -/
def getRecord (mem : Bytes) (kpt : ℕ) : ℕ := kpt - ptrOffset mem kpt

/-- The record is visible and matches, by its key pointer. -/
def Setting.hit (c : Setting) (mem : Bytes) (record kpt : ℕ) : Bool :=
  !(header mem record).invalid && c.check mem kpt

/-- `MinIoRequestSize`. -/
def minIoRequestSize : ℕ := sizeofKeyPointer

/-- `PersistentMemoryMalloc::AsyncGetFromDisk`: the buffer begins and ends at sectors. -/
def Setting.asyncGetFromDisk (c : Setting) (io : Io) (address length : ℕ) : Io :=
  { io with
    validOffset := address % c.sectorSize
    availableBytes := (address + length + (c.sectorSize - 1)) / c.sectorSize * c.sectorSize - address }

/-- The record does not match: go on with the previous key pointer. -/
def followChain (mem : Bytes) (beginAddress : ℕ) (io : Io) (kpt : ℕ) : Io × List Effect :=
  if beginAddress ≤ prevAddress mem kpt then
    ({ io with address := prevAddress mem kpt, kptOffset := 0 },
      [.read (prevAddress mem kpt) minIoRequestSize])
  else ({ io with address := prevAddress mem kpt }, [.push])

/-- `AsyncGetFromDiskCallback`. -/
def Setting.asyncGetFromDiskCallback (c : Setting) (mem : Bytes) (loads : ℕ → ℕ) (result : Status)
    (io : Io) : Io × List Effect :=
  if result = .ok then
    if io.kptOffset = 0 then
      -- The buffer begins at a key pointer.
      let kpt := io.address
      let record := getRecord mem kpt
      if io.validOffset < ptrOffset mem kpt then
        ({ io with address := record, kptOffset := ptrOffset mem kpt },
          [.read record (minIoRequestSize + ptrOffset mem kpt)])
      else if (header mem record).size > ptrOffset mem kpt + io.availableBytes then
        ({ io with address := record, kptOffset := ptrOffset mem kpt },
          [.read record (header mem record).size])
      else if c.hit mem record kpt then ({ io with address := record }, [.push])
      else followChain mem (loads 0) io kpt
    else
      -- The buffer begins at a record.
      let kpt := io.address + io.kptOffset
      if (header mem io.address).size > io.availableBytes then
        (io, [.read io.address (header mem io.address).size])
      else if c.hit mem io.address kpt then (io, [.push])
      else followChain mem (loads 0) io kpt
  else (io, [])

/-- `Constants::address_offset_bit`. -/
def addressOffsetBit : List ℕ := [0, 12, 14, 16, 18]

/-- `Constants::gap_thres`. -/
def gapThres : ℕ := 138240

/-- `scan_offset_bit`. -/
def Io.scanOffsetBit (io : Io) : ℕ := addressOffsetBit.getD io.ioLevel 0

/-- `setIOLevel`. -/
def Setting.setIoLevel (c : Setting) (io : Io) (gap : ℕ) : Io :=
  if gap > gapThres + c.avgRecSize then { io with ioLevel := 0 }
  else if io.ioLevel < c.kIoLevels - 1 then { io with ioLevel := io.ioLevel + 1 }
  else io

/-- `Address::scan_offset`. -/
def scanOffset (bit a : ℕ) : ℕ := a % 2 ^ bit

/-- `Address::scan_page`. -/
def scanPage (bit a : ℕ) : ℕ := a / 2 ^ bit

/-- `Address::scan_page_head`. -/
def scanPageHead (bit a : ℕ) : ℕ := a / 2 ^ bit * 2 ^ bit

/-- `Address::scan_page_size`. -/
def scanPageSize (bit : ℕ) : ℕ := 2 ^ bit

/-- Where the walk along a chain inside one block has come to. -/
structure Walk where
  /-- `current_address`. -/
  current : ℕ
  /-- `gap`. -/
  gap : ℕ
  /-- How often `begin_address` was loaded. -/
  loaded : ℕ
  /-- The records touched. -/
  touched : List ℕ

/-- The loop over the key pointers of a chain that lie in the block. It stops also when
the header of a record lies before the block. When `all` is false, key pointers above the
end address are passed over. A link that does not go down, which no chain has, ends the walk. -/
def Setting.walk (c : Setting) (mem : Bytes) (loads : ℕ → ℕ) (io : Io) (bit page : ℕ) (all : Bool)
    (loaded current gap : ℕ) : Walk :=
  if io.startAddr ≤ current ∧ loads loaded ≤ current ∧ scanPage bit current = page then
    if (all ∨ current ≤ io.endAddr) ∧ scanOffset bit current < ptrOffset mem current then
      ⟨current, gap, loaded + 1, []⟩
    else
      let touched :=
        if (all ∨ current ≤ io.endAddr) ∧ c.hit mem (getRecord mem current) current then
          [getRecord mem current]
        else []
      if prevAddress mem current < current then
        let rest := c.walk mem loads io bit page all (loaded + 1) (prevAddress mem current)
          (current - prevAddress mem current)
        { rest with touched := touched ++ rest.touched }
      else ⟨prevAddress mem current, 0, loaded + 1, touched⟩
  else ⟨current, gap, loaded + 1, []⟩
termination_by current

/-- What a scan does where the walk has stopped. -/
def Setting.finish (c : Setting) (mem : Bytes) (loads : ℕ → ℕ) (io : Io) (bit page : ℕ) (w : Walk) :
    Io × Effect :=
  if w.current < io.startAddr ∨ w.current < loads w.loaded then
    ({ io with address := w.current }, .push)
  else if scanPage bit w.current = page then
    -- The key pointer is in the block, but the header of its record is not.
    let record := getRecord mem w.current
    ({ io with address := record, kptOffset := ptrOffset mem w.current },
      .read (scanPageHead bit record) (max (ptrOffset mem w.current + minIoRequestSize)
        (scanPageSize bit + scanOffset bit w.current + minIoRequestSize)))
  else
    let io := c.setIoLevel io w.gap
    ({ io with address := w.current, kptOffset := 0 },
      .read (scanPageHead io.scanOffsetBit w.current) (max (scanPageSize io.scanOffsetBit)
        (scanOffset io.scanOffsetBit w.current + minIoRequestSize)))

/-- Walk on from a key pointer, and then read on or respond. -/
def Setting.explore (c : Setting) (mem : Bytes) (loads : ℕ → ℕ) (io : Io) (page : ℕ) (all : Bool)
    (touched : List ℕ) (kpt : ℕ) : Io × List Effect :=
  let w := c.walk mem loads io io.scanOffsetBit page all 0 (prevAddress mem kpt)
    (io.address - prevAddress mem kpt)
  let next := c.finish mem loads io io.scanOffsetBit page w
  (next.1, (touched ++ w.touched).map .touch ++ [next.2])

/-- The first record of a scan's buffer, if it is to be touched. -/
def Setting.first (c : Setting) (mem : Bytes) (record kpt : ℕ) : List ℕ :=
  if c.hit mem record kpt then [record] else []

/-- `AsyncScanFromDiskCallback`. -/
def Setting.asyncScanFromDiskCallback (c : Setting) (mem : Bytes) (loads : ℕ → ℕ) (result : Status)
    (io : Io) : Io × List Effect :=
  if result = .ok then
    let bit := io.scanOffsetBit
    let readOffset := scanOffset bit io.address
    let page := scanPage bit io.address
    let availableBytes := io.availableBytes - readOffset
    if io.address > io.endAddr then c.explore mem loads io page false [] io.address
    else if io.kptOffset = 0 then
      -- The buffer has the key pointer at the address.
      let kpt := io.address
      let record := getRecord mem kpt
      if io.validOffset + readOffset < ptrOffset mem kpt then
        ({ io with address := record, kptOffset := ptrOffset mem kpt },
          [.read (scanPageHead bit record) (max (ptrOffset mem kpt + minIoRequestSize)
            (scanPageSize bit + readOffset + minIoRequestSize))])
      else if (header mem record).size > ptrOffset mem kpt + availableBytes then
        ({ io with address := record, kptOffset := ptrOffset mem kpt },
          [.read (scanPageHead bit record) (readOffset + (header mem record).size - ptrOffset mem kpt)])
      else c.explore mem loads { io with address := record } page true (c.first mem record kpt) kpt
    else
      -- The buffer has the record at the address.
      let kpt := io.address + io.kptOffset
      if (header mem io.address).size > availableBytes then
        (io, [.read (scanPageHead bit io.address) (readOffset + (header mem io.address).size)])
      else c.explore mem loads io page true (c.first mem io.address kpt) kpt
  else (io, [])

/-- The bytes of a page. -/
def pageBytes (mem : Bytes) (page : ℕ) : Bytes := fun o => mem (Layout.address page o)

/-- `AsyncFullScanFromDiskCallback`; the page number is an unsigned one of 23 bits. -/
def Setting.asyncFullScanFromDiskCallback (c : Setting) (mem : Bytes) (loads : ℕ → ℕ)
    (result : Status) (io : Io) : Io × List Effect :=
  if result = .ok then
    let page := Layout.page io.address
    let first := if page = Layout.page io.startAddr then Layout.offset io.startAddr else 0
    let upTo := if page = Layout.page io.endAddr then Layout.offset io.endAddr else kMaxOffset
    let touched := FullScan.scanPage c.checkPayload (pageBytes mem page) page 0
      (Layout.address page upTo) kPageSize first
    if page = Layout.page (loads 0) ∨ page = Layout.page io.startAddr then
      (io, touched.map .touch ++ [.push])
    else
      let previous := Layout.address ((page + kMaxPage) % (kMaxPage + 1)) 0
      ({ io with address := previous }, touched.map .touch ++ [.read previous (kMaxOffset + 1)])
  else (io, [])

/-- `OperationType` of the operations that read. -/
inductive OperationType
  | read
  | scan
  | fullScan
  deriving DecidableEq

/-- The callback of an operation. -/
def Setting.callback (c : Setting) : OperationType → Bytes → (ℕ → ℕ) → Status → Io → Io × List Effect
  | .read => c.asyncGetFromDiskCallback
  | .scan => c.asyncScanFromDiskCallback
  | .fullScan => c.asyncFullScanFromDiskCallback

/-- The effect is a read or a response. -/
def Effect.settles : Effect → Bool
  | .touch _ => false
  | _ => true

section

variable {c : Setting} {mem : Bytes} {loads : ℕ → ℕ} {io : Io} {result : Status}

/-- Touched records, and one read or one response at the end. -/
def Settled (effects : List Effect) : Prop :=
  ∃ (touched : List ℕ) (e : Effect), effects = touched.map .touch ++ [e] ∧ e.settles = true

theorem settled_single {e : Effect} (h : e.settles=true) : Settled [e] := ⟨[],e,rfl,h⟩

theorem Settled.countP_eq {effects : List Effect} (h : Settled effects) :
    effects.countP Effect.settles=1 := by
  obtain ⟨touched,e,rfl,he⟩ := h
  have hnone : (touched.map Effect.touch).countP Effect.settles=0 := by
    rw [List.countP_map,List.countP_eq_zero]
    exact fun _ _ => Bool.false_ne_true
  rw [List.countP_append,hnone,List.countP_singleton,if_pos he]

theorem settled_followChain (b kpt : ℕ) : Settled (followChain mem b io kpt).2 := by
  unfold followChain
  split_ifs <;> exact settled_single rfl

theorem settled_get (c : Setting) (mem : Bytes) (loads : ℕ → ℕ) (io : Io) :
    Settled (c.asyncGetFromDiskCallback mem loads .ok io).2 := by
  unfold Setting.asyncGetFromDiskCallback
  rw [if_pos rfl]
  dsimp only
  split_ifs
  all_goals first | exact settled_single rfl | exact settled_followChain _ _

theorem settles_finish (bit page : ℕ) (w : Walk) : (c.finish mem loads io bit page w).2.settles=true := by
  unfold Setting.finish
  dsimp only
  split_ifs <;> rfl

theorem settled_explore (page : ℕ) (all : Bool) (touched : List ℕ) (kpt : ℕ) :
    Settled (c.explore mem loads io page all touched kpt).2 := ⟨_,_,rfl,settles_finish _ _ _⟩

theorem settled_scan (c : Setting) (mem : Bytes) (loads : ℕ → ℕ) (io : Io) :
    Settled (c.asyncScanFromDiskCallback mem loads .ok io).2 := by
  unfold Setting.asyncScanFromDiskCallback
  rw [if_pos rfl]
  dsimp only
  split_ifs
  all_goals first | exact settled_single rfl | exact settled_explore _ _ _ _

theorem settled_fullScan (c : Setting) (mem : Bytes) (loads : ℕ → ℕ) (io : Io) :
    Settled (c.asyncFullScanFromDiskCallback mem loads .ok io).2 := by
  unfold Setting.asyncFullScanFromDiskCallback
  rw [if_pos rfl]
  dsimp only
  split_ifs <;> exact ⟨_,_,rfl,rfl⟩

/-- A callback of a read that has succeeded reads once more or responds, and not both. -/
theorem settled_callback (c : Setting) (type : OperationType) (mem : Bytes) (loads : ℕ → ℕ) (io : Io) :
    Settled (c.callback type mem loads .ok io).2 := by
  cases type with
  | read => exact settled_get c mem loads io
  | scan => exact settled_scan c mem loads io
  | fullScan => exact settled_fullScan c mem loads io

end

end FishStore.DiskCallbacks
