import FishStore.ScanBuffers

/-!
# The reads that a scan issues again

A callback that lacks the header of a record, or its end, issues another read and resumes at
the same key pointer. The read begins at the block of the record, while its length is counted
from the block of the key pointer. So it is long enough when the two blocks are the same or,
for a header that was lost, neighbours.
-/

namespace FishStore.ReissuedReads

open Layout LogRecords DiskCallbacks ReadPaths ScanPaths ScanBuffers Chains

/-- The key pointer at which a scan resumes with its next buffer. -/
def resumesAt (io : Io) : ℕ := io.address + io.kptOffset

/-- The buffer has the header of the record that the scan has come to. -/
def SizeKnown (s : Log) (io : Io) (kpt : ℕ) : Prop :=
  kpt ≤ io.endAddr ∧ (io.kptOffset = 0 →
    ptrOffset s.mem kpt ≤ io.validOffset + scanOffset io.scanOffsetBit kpt)

/-- A read has the key pointer that it is issued for, and its record if the size is known. -/
structure Enough (s : Log) (known : Prop) (k address length : ℕ) : Prop where
  kpt : k + sizeofKeyPointer ≤ address + length
  record : known → getRecord s.mem k + sizeAt s k ≤ address + length

/-- The record begins in the block of its key pointer, in the one before or at the head of a block. -/
def HeaderNear (s : Log) (bit kpt : ℕ) : Prop :=
  scanPageHead bit (getRecord s.mem kpt) = getRecord s.mem kpt ∨
    scanPageHead bit kpt ≤ scanPageHead bit (getRecord s.mem kpt) + scanPageSize bit

/-- The blocks of the key pointer `k` at which the scan resumes and of its record, when the buffer
was read for `kpt`. -/
def BlocksNear (s : Log) (io : Io) (kpt k : ℕ) : Prop :=
  (SizeKnown s io kpt ∧ k = kpt → io.kptOffset = 0 →
    ptrOffset s.mem kpt ≤ scanOffset io.scanOffsetBit kpt) ∧
  (¬(SizeKnown s io kpt ∧ k = kpt) →
    scanPage io.scanOffsetBit k = scanPage io.scanOffsetBit io.address → HeaderNear s io.scanOffsetBit k)

/-- `available_bytes` of a callback of a scan. -/
def availableBytes (io : Io) : ℕ := io.availableBytes - scanOffset io.scanOffsetBit io.address

section

variable {c : Setting} {s : Log} {startAddr endAddr kpt k address length bit : ℕ} {io io' : Io}

/-- The read for a header that was lost. -/
theorem lostHeader_iff (hk : ptrOffset s.mem k≤k) : k+sizeofKeyPointer ≤ scanPageHead bit (getRecord s.mem k) +
        max (ptrOffset s.mem k+minIoRequestSize) (scanPageSize bit+scanOffset bit k+minIoRequestSize) ↔
      HeaderNear s bit k := by
  have hadd := getRecord_add hk
  have hsplit := scanPageHead_add bit k
  have hle := scanPageHead_le bit (getRecord s.mem k)
  unfold HeaderNear minIoRequestSize
  rw [←Nat.add_max_add_left,le_max_iff]
  refine or_congr ⟨fun h => ?_,fun h => ?_⟩ ⟨fun h => ?_,fun h => ?_⟩ <;> omega

/-- The read for the rest of a record whose header is in the buffer of its key pointer. -/
theorem restOfRecord_iff (hk : ptrOffset s.mem k≤k) (hholds : ptrOffset s.mem k+sizeofKeyPointer ≤ sizeAt s k) :
    getRecord s.mem k+sizeAt s k ≤ scanPageHead bit (getRecord s.mem k) + (scanOffset bit k+sizeAt s k - ptrOffset s.mem k)
    ↔ ptrOffset s.mem k ≤ scanOffset bit k := by
  have hadd := getRecord_add hk
  have hsplit := scanPageHead_add bit k
  have hle := scanPageHead_le bit (getRecord s.mem k)
  refine ⟨fun h => by omega,fun h => ?_⟩
  -- The record begins in the block of the key pointer.
  have hhead : scanPageHead bit (getRecord s.mem k)=scanPageHead bit k := by
    refine scanPageHead_congr (Nat.div_eq_of_lt_le ?_ ?_)
    · change scanPageHead bit k≤getRecord s.mem k
      omega
    · have hlt := scanOffset_lt bit k
      change _<(scanPage bit k+1)*scanPageSize bit
      rw [Nat.add_mul,Nat.one_mul]
      change _<scanPageHead bit k+scanPageSize bit
      omega
  omega

/-- What is known of a read that a callback issues: where it begins, what the next callback finds
there, and whether it is enough. -/
structure Reissued (s : Log) (io : Io) (kpt : ℕ) (io' : Io) (address length : ℕ) : Prop where
  head : address = scanPageHead io'.scanOffsetBit io'.address
  record : io'.kptOffset ≠ 0 → io'.address = getRecord s.mem (resumesAt io')
  enough : Enough s (SizeKnown s io kpt ∧ resumesAt io' = kpt) (resumesAt io') address length ↔
    BlocksNear s io kpt (resumesAt io')

/-- Where the walk has stopped before the key pointer. -/
theorem reissued_of_finish {w : DiskCallbacks.Walk} {io₂ : Io} {loads : ℕ → ℕ}
    (hbit : io₂.scanOffsetBit=io.scanOffsetBit) (hlt : w.current<kpt) (hk : ptrOffset s.mem w.current≤w.current)
    (h : c.finish s.mem loads io₂ io.scanOffsetBit (scanPage io.scanOffsetBit io.address) w =
      (io', .read address length)) : Reissued s io kpt io' address length := by
  have hunknown : ¬(SizeKnown s io kpt ∧ w.current=kpt) := fun h => hlt.ne h.2
  have hiff : ∀ address length, Enough s (SizeKnown s io kpt ∧ w.current=kpt) w.current address length ↔
      w.current+sizeofKeyPointer≤address+length :=
    fun _ _ => ⟨Enough.kpt,fun h => ⟨h,fun hknown => absurd hknown hunknown⟩⟩
  have hnear : BlocksNear s io kpt w.current ↔ (scanPage io.scanOffsetBit w.current =
      scanPage io.scanOffsetBit io.address → HeaderNear s io.scanOffsetBit w.current) :=
    ⟨fun h => h.2 hunknown,fun h => ⟨fun hknown => absurd hknown hunknown,fun _ => h⟩⟩
  unfold Setting.finish at h
  split_ifs at h with hlow hpage
  · cases h
  · cases h
    have hat : getRecord s.mem w.current+ptrOffset s.mem w.current=w.current := getRecord_add hk
    refine ⟨?_,fun _ => ?_,?_⟩
    · change _=scanPageHead io₂.scanOffsetBit _
      rw [hbit]
    · exact congrArg (getRecord s.mem) hat.symm
    · change Enough s (SizeKnown s io kpt ∧ getRecord s.mem w.current+ptrOffset s.mem w.current=kpt)
        (getRecord s.mem w.current+ptrOffset s.mem w.current) _ _ ↔
          BlocksNear s io kpt (getRecord s.mem w.current+ptrOffset s.mem w.current)
      rw [hat,hiff,hnear,lostHeader_iff hk]
      exact ⟨fun h _ => h,fun h => h hpage⟩
  · cases h
    refine ⟨rfl,fun h => absurd rfl h,?_⟩
    change Enough s (SizeKnown s io kpt ∧ w.current=kpt) w.current _ _ ↔ BlocksNear s io kpt w.current
    rw [hiff,hnear]
    refine ⟨fun _ h => absurd h hpage,fun _ => ?_⟩
    have hsplit := scanPageHead_add (c.setIoLevel io₂ w.gap).scanOffsetBit w.current
    have hmax := le_max_right (scanPageSize (c.setIoLevel io₂ w.gap).scanOffsetBit)
      (scanOffset (c.setIoLevel io₂ w.gap).scanOffsetBit w.current+minIoRequestSize)
    unfold minIoRequestSize at hmax ⊢
    omega

/-- A callback that walks on from the key pointer. -/
theorem reissued_of_explore (hw : WellFormed c s) {io₂ : Io} {all : Bool} {touched : List ℕ} {r : Io × List Effect}
    (hr : r=c.explore s.mem (fun _ => s.beginAddress) io₂ (scanPage io.scanOffsetBit io.address)
    all touched kpt) (hbit : io₂.scanOffsetBit=io.scanOffsetBit) (hon : OnChain s kpt)
    (hall : all=true → kpt ≤ io₂.endAddr) (h : r.2.getLast?=some (.read address length)) : Reissued s io kpt r.1 address length := by
  have hdown := hw.link kpt hon
  have hprev : kInvalidAddress<prevAddress s.mem kpt → OnChain s (prevAddress s.mem kpt) :=
    ((descends hw) kpt (fun _ => hon) hon.1).2
  unfold Setting.explore at hr
  generalize hwalk : c.walk s.mem (fun _ => s.beginAddress) io₂ io₂.scanOffsetBit
    (scanPage io.scanOffsetBit io.address) all 0 (prevAddress s.mem kpt)
    (io₂.address - prevAddress s.mem kpt)=w at hr
  obtain ⟨⟨K,hpass,-⟩,-⟩ := passes_walk hw rfl rfl hprev (fun htrue => hdown.le.trans (hall htrue)) hwalk
  obtain ⟨hon',hle⟩ := hpass.visits.closed (descends hw) hprev
  subst hr
  rw [List.getLast?_concat] at h
  have hread := Option.some.inj h
  rw [hbit] at hread ⊢
  refine reissued_of_finish hbit (hle.trans_lt hdown) ?_ (Prod.ext rfl hread)
  -- The scan reads on only at or above the begin address.
  by_cases hlow : w.current < io₂.startAddr ∨ w.current<s.beginAddress
  · unfold Setting.finish at hread
    rw [if_pos hlow] at hread
    cases hread
  · exact hw.record _ (hon' (hw.beginAddress.trans_le (not_lt.mp (not_or.mp hlow).2)))

/-- The callback of a scan that has come to a key pointer. -/
theorem reissued (hw : WellFormed c s) (hr : Records c s) (hat : ScanAt s startAddr endAddr io kpt) (hon : OnChain s kpt)
    {r : Io × List Effect} (hr' : r=c.asyncScanFromDiskCallback s.mem (fun _ => s.beginAddress) .ok io)
    (h : r.2.getLast?=some (.read address length)) : Reissued s io kpt r.1 address length := by
  have hk := hw.record kpt hon
  have hadd := getRecord_add hk
  have hholds := hr.holds kpt hon
  -- A read that resumes at the same key pointer.
  have hsame : ∀ length, (Enough s (SizeKnown s io kpt ∧ kpt=kpt) kpt
        (scanPageHead io.scanOffsetBit (getRecord s.mem kpt)) length ↔ BlocksNear s io kpt kpt) →
      Reissued s io kpt { io with address := getRecord s.mem kpt, kptOffset := ptrOffset s.mem kpt }
        (scanPageHead io.scanOffsetBit (getRecord s.mem kpt)) length := by
    intro length hiff
    refine ⟨rfl,fun _ => congrArg (getRecord s.mem) hadd.symm,?_⟩
    change Enough s (SizeKnown s io kpt ∧ getRecord s.mem kpt+ptrOffset s.mem kpt=kpt)
      (getRecord s.mem kpt+ptrOffset s.mem kpt) _ _ ↔ BlocksNear s io kpt (getRecord s.mem kpt+ptrOffset s.mem kpt)
    rw [hadd]
    exact hiff
  rcases hat.place with ⟨haddress,hoffset⟩ | ⟨hrange,haddress,hoffset⟩
  · by_cases hrange : kpt ≤ io.endAddr
    · rw [callback_kpt s.mem hoffset haddress hrange rfl] at hr'
      split_ifs at hr' with hlost hsize
      · subst hr'
        cases h
        refine hsame _ ⟨fun he => ⟨fun hknown => ?_,fun _ _ => (lostHeader_iff hk).mp he.kpt⟩,fun hnear => ?_⟩
        · exact absurd (hknown.1.2 hoffset) (not_le.mpr hlost)
        · have hunknown : ¬(SizeKnown s io kpt ∧ kpt=kpt) := fun hknown =>
            absurd (hknown.1.2 hoffset) (not_le.mpr hlost)
          exact ⟨(lostHeader_iff hk).mpr (hnear.2 hunknown (by rw [haddress])),fun hknown => absurd hknown hunknown⟩
      · subst hr'
        cases h
        have hknown : SizeKnown s io kpt ∧ kpt=kpt := ⟨⟨hrange,fun _ => not_lt.mp hlost⟩,rfl⟩
        refine hsame _ ⟨fun he => ⟨fun _ _ => (restOfRecord_iff hk hholds).mp (he.record hknown),fun hnot => ?_⟩,
          fun hnear => ?_⟩
        · exact absurd hknown hnot
        · have hwhole := (restOfRecord_iff hk hholds).mpr (hnear.1 hknown hoffset)
          refine ⟨?_,fun _ => hwhole⟩
          unfold sizeAt at hwhole hholds
          omega
      · exact reissued_of_explore hw hr' rfl hon (fun _ => hrange) h
    · have habove : r=c.explore s.mem (fun _ => s.beginAddress) io (scanPage io.scanOffsetBit io.address) false [] kpt := by
        rw [hr',callback_above (by omega),haddress]
      exact reissued_of_explore hw habove rfl hon (fun hfalse => Bool.noConfusion hfalse) h
  · have hne : io.kptOffset ≠ 0 := by
      rw [hoffset]
      exact ptrOffset_ne_zero _ _
    have hend : ¬ io.address > io.endAddr := by
      rw [hat.stop]
      omega
    have hresume : resumesAt io=kpt := by
      unfold resumesAt
      rw [haddress,hoffset,hadd]
    unfold Setting.asyncScanFromDiskCallback at hr'
    rw [if_pos rfl] at hr'
    dsimp only at hr'
    rw [if_neg hend,if_neg hne] at hr'
    split_ifs at hr' with hsize
    · subst hr'
      cases h
      refine ⟨rfl,fun _ => by rw [hresume,haddress],?_⟩
      rw [hresume,haddress]
      have hsplit := scanPageHead_add io.scanOffsetBit (getRecord s.mem kpt)
      have hwhole : getRecord s.mem kpt+sizeAt s kpt ≤ scanPageHead io.scanOffsetBit (getRecord s.mem kpt) +
          (scanOffset io.scanOffsetBit (getRecord s.mem kpt)+sizeAt s kpt) := by omega
      have hknown : SizeKnown s io kpt ∧ kpt=kpt := ⟨⟨hat.stop ▸ hrange,fun hzero => absurd hzero hne⟩,rfl⟩
      refine iff_of_true ⟨?_,fun _ => hwhole⟩ ⟨fun _ hzero => absurd hzero hne,fun hnot => absurd hknown hnot⟩
      unfold sizeAt at hwhole hholds
      omega
    · rw [show io.address+io.kptOffset=kpt from hresume] at hr'
      exact reissued_of_explore hw hr' rfl hon (fun _ => hat.stop ▸ hrange) h

end

/-- A read that a callback issues to resume at a key pointer has the key pointer, and the record if its
size is known, exactly if the blocks are near; and then the next callback finds the key pointer in its
buffer and does not read the record again. -/
theorem reissued_enough_iff (c : Setting) (s : Log) (startAddr endAddr : ℕ) (io : Io) (kpt : ℕ)
    (hw : WellFormed c s) (hr : Records c s) (hat : ScanAt s startAddr endAddr io kpt) (hon : OnChain s kpt)
    (io' : Io) (effects : List Effect) (address length : ℕ)
    (hcallback : c.asyncScanFromDiskCallback s.mem (fun _ => s.beginAddress) .ok io = (io', effects))
    (hread : effects.getLast? = some (.read address length)) :
    (Enough s (SizeKnown s io kpt ∧ resumesAt io' = kpt) (resumesAt io') address length ↔
      BlocksNear s io kpt (resumesAt io')) ∧
    (BlocksNear s io kpt (resumesAt io') → io'.kptOffset ≠ 0 →
      io'.kptOffset + sizeofKeyPointer ≤ availableBytes (c.asyncGetFromDisk io' address length) ∧
      (SizeKnown s io kpt ∧ resumesAt io' = kpt →
        (header s.mem io'.address).size ≤ availableBytes (c.asyncGetFromDisk io' address length))) := by
  have h : Reissued s io kpt io' address length := reissued hw hr hat hon hcallback.symm hread
  refine ⟨h.enough,fun hnear hne => ?_⟩
  obtain ⟨hkpt,hrecord⟩ := h.enough.mpr hnear
  have havail := le_available hw.sector io' address length
  have hsplit := scanPageHead_add io'.scanOffsetBit io'.address
  have hplace := h.record hne
  have hhead := h.head
  unfold sizeAt at hrecord
  rw [←hplace] at hrecord
  unfold resumesAt at hkpt
  change _≤(c.asyncGetFromDisk io' address length).availableBytes - scanOffset io'.scanOffsetBit io'.address ∧
    (_ → _≤(c.asyncGetFromDisk io' address length).availableBytes - scanOffset io'.scanOffsetBit io'.address)
  refine ⟨by omega,fun hknown => ?_⟩
  have := hrecord hknown
  omega

theorem onChain_second : OnChain twice 8160 := by
  refine onChain_visits rfl (Visits.head (by decide) ?_) (by decide)
  rw [show prevAddress twice.mem 8712=8160 by decide +kernel]
  exact .refl _

/-- The second key pointer of the record that ends in the next sector, at the first level. -/
theorem reissued_enough_iff_twice :
    ¬ Enough twice (SizeKnown twice ⟨8160, 0, 480, 32, 0, 64, 16384⟩ 8160 ∧ 8136 + 24 = 8160) (8136 + 24)
      8136 40 := by
  have h := reissued_enough_iff fortyTwo twice 64 16384 ⟨8160,0,480,32,0,64,16384⟩ 8160 wellFormed_twice
    records_twice ⟨rfl,rfl,.inl ⟨rfl,rfl⟩⟩ onChain_second ⟨8136,24,480,32,0,64,16384⟩ [.read 8136 40]
    8136 40 (by decide +kernel) rfl
  intro he
  exact absurd ((h.1.mp he).1 ⟨⟨by decide,fun _ => by decide +kernel⟩,rfl⟩ rfl) (by decide +kernel)

/-- A key pointer far from the header of its record. -/
def farHeader : Bytes := store (fun _ => 0) 11656 (link 600 kInvalidAddress)

/-- A scan that leaves the memory reads the record at 8136 twice, although the first callback knows its
size. And a buffer that is read for a key pointer two blocks behind the header of its record ends before
the key pointer: the assertion of the next callback fails. -/
theorem reissued_reads_short :
    (internalScan fortyTwo { twice with headAddress := 8704 } ⟨.rest, 1⟩ 64 16384 =
        ([8704], .scanInProgress 8160) ∧
      fortyTwo.asyncGetFromDisk ⟨8160, 0, 0, 0, 0, 64, 16384⟩ 8160 minIoRequestSize =
        ⟨8160, 0, 480, 32, 0, 64, 16384⟩ ∧
      fortyTwo.asyncScanFromDiskCallback twice.mem (fun _ => 64) .ok ⟨8160, 0, 480, 32, 0, 64, 16384⟩ =
        (⟨8136, 24, 480, 32, 0, 64, 16384⟩, [.read 8136 40]) ∧
      fortyTwo.asyncScanFromDiskCallback twice.mem (fun _ => 64) .ok
          (fortyTwo.asyncGetFromDisk ⟨8136, 24, 480, 32, 0, 64, 16384⟩ 8136 40) =
        (⟨8136, 24, 456, 56, 0, 64, 16384⟩, [.read 8136 64])) ∧
    (fortyTwo.asyncScanFromDiskCallback farHeader (fun _ => 64) .ok ⟨11656, 0, 0, 4096, 1, 64, 16384⟩ =
        (⟨2048, 9608, 0, 4096, 1, 64, 16384⟩, [.read 0 9624]) ∧
      availableBytes (fortyTwo.asyncGetFromDisk ⟨2048, 9608, 0, 4096, 1, 64, 16384⟩ 0 9624) = 7680) := by
  decide +kernel

end FishStore.ReissuedReads
