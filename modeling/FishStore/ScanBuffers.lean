import FishStore.ScanPaths

/-!
# What a scan sees in its buffers

A callback of a scan has the bytes of one buffer; behind its ends lies what was there
before. The callback tests whether it has the header and the end of the record that it has
read the buffer for. Of the records that it comes to on the way along the chain it tests
only the header: their ends lie before the first record of the buffer. When the buffer was
read for a key pointer behind the end of the range, though, that record is not looked at and
nothing has shown that its end was read; and the next key pointer of the chain may be
another one of the same record.
-/

namespace FishStore.ScanBuffers

open Layout LogRecords DiskCallbacks ReadPaths ScanPaths ChainSearch List Setting Chains Phases

/-- What a scan does for its caller. -/
inductive Event
  /-- `Touch` with the record at the address, which shows the payload. -/
  | touch (record : ℕ) (payload : List ℕ)
  /-- `Finalize`. -/
  | finalize
  deriving DecidableEq

/-- The bytes that the buffer of a read shows. -/
def shown (s : Log) (io : Io) (stale : Bytes) : Bytes := fun x =>
  if scanPageHead io.scanOffsetBit io.address ≤ x + io.validOffset ∧
      x < scanPageHead io.scanOffsetBit io.address + io.availableBytes then s.mem x
  else stale x

/-- The calls of `Touch` with the records. -/
def touches (mem : Bytes) (records : List ℕ) : List Event :=
  records.map fun r => .touch r (payload mem r)

/-- The callbacks of a scan, each with its buffer, until one of them responds, and
`InternalContinuePendingScan`. -/
def eventsFromDisk (c : Setting) (s : Log) (stale : ℕ → Bytes) : ℕ → Io → Option (List Event)
  | 0, _ => none
  | fuel + 1, io =>
    let mem := shown s io (stale fuel)
    let r := c.asyncScanFromDiskCallback mem (fun _ => s.beginAddress) .ok io
    match r.2.getLast? with
    | some (.read address length) =>
      (eventsFromDisk c s stale fuel (c.asyncGetFromDisk r.1 address length)).map
        (touches mem (touchedBy r.2) ++ ·)
    | some .push => some (touches mem (touchedBy r.2) ++ [.finalize])
    | _ => none

/-- `Scan` of a session in phase `REST`. -/
def scanEvents (c : Setting) (s : Log) (stale : ℕ → Bytes) (version startAddr endAddr fuel : ℕ) :
    Option (List Event) :=
  let r := internalScan c s ⟨.rest, version⟩ startAddr endAddr
  match r.2 with
  | .success => some (touches s.mem r.1 ++ [.finalize])
  | .scanInProgress address =>
    (eventsFromDisk c s stale fuel (c.asyncGetFromDisk ⟨address, 0, 0, 0, 0, startAddr, endAddr⟩
      address minIoRequestSize)).map (touches s.mem r.1 ++ ·)
  | .cprShiftDetected => none

/-- The size of the record of a key pointer, by its header. -/
def sizeAt (s : Log) (kpt : ℕ) : ℕ := (header s.mem (getRecord s.mem kpt)).size

/-- The records of the chain: they hold their key pointers, are aligned and do not overlap,
and `check` looks at nothing outside of the record. -/
structure Records (c : Setting) (s : Log) : Prop where
  begin_le : s.beginAddress ≤ s.headAddress
  holds : ∀ k, OnChain s k → ptrOffset s.mem k + sizeofKeyPointer ≤ sizeAt s k
  aligned : ∀ k, OnChain s k → 8 ∣ getRecord s.mem k
  apart : ∀ k k', OnChain s k → OnChain s k' → getRecord s.mem k < getRecord s.mem k' →
    getRecord s.mem k + sizeAt s k ≤ getRecord s.mem k'
  check : ∀ k, OnChain s k → ∀ mem, (∀ x, getRecord s.mem k ≤ x →
    x < getRecord s.mem k + sizeAt s k → mem x = s.mem x) → c.check mem k = c.check s.mem k

/-- The end of the range does not lie between two key pointers on disk of one record. -/
def Separated (s : Log) (endAddr : ℕ) : Prop :=
  ∀ k k', OnChain s k → OnChain s k' → k' < s.headAddress → k ≤ endAddr → endAddr < k' →
    getRecord s.mem k ≠ getRecord s.mem k'

/-- The scan touches the record of each match in the range, from the newest one on, and
nothing else, and then finalizes once. -/
def Exact (c : Setting) (s : Log) (startAddr endAddr : ℕ) (events : List Event) : Prop :=
  ∃ K : List ℕ, K.Pairwise (· > ·) ∧
    (∀ k, k ∈ K ↔ OnChain s k ∧ Matches c s k ∧ max startAddr s.beginAddress ≤ k ∧ k ≤ endAddr) ∧
    events = K.map (fun k => Event.touch (getRecord s.mem k) (payload s.mem (getRecord s.mem k))) ++
      [.finalize]

section

variable {c : Setting} {s : Log} {startAddr endAddr a k kpt x : ℕ} {io : Io} {mem : Bytes}
  {stale : Bytes}

theorem scanPageHead_add (bit a : ℕ) : scanPageHead bit a+scanOffset bit a=a := Nat.div_add_mod' a (2^bit)

theorem scanOffset_lt (bit a : ℕ) : scanOffset bit a<scanPageSize bit := Nat.mod_lt _ (Nat.two_pow_pos bit)

theorem scanPageHead_le (bit a : ℕ) : scanPageHead bit a≤a := by
  have := scanPageHead_add bit a
  omega

/-- Addresses of one scan page have the same head. -/
theorem scanPageHead_congr {bit a b : ℕ} (h : scanPage bit a=scanPage bit b) :
    scanPageHead bit a=scanPageHead bit b := congrArg (·*2^bit) h

theorem shown_eq (hlo : scanPageHead io.scanOffsetBit io.address≤x+io.validOffset)
    (hhi : x<scanPageHead io.scanOffsetBit io.address+io.availableBytes) :
    shown s io stale x=s.mem x := if_pos ⟨hlo,hhi⟩

theorem word_of_agree (h : ∀ y, x≤y → y<x+8 → mem y=s.mem y) : word mem x=word s.mem x :=
  word_congr fun i hi => h _ (Nat.le_add_right _ _) (by omega)

section

variable (h : word mem k=word s.mem k)

include h

theorem prevAddress_congr : prevAddress mem k=prevAddress s.mem k := by
  unfold prevAddress
  rw [h]

theorem ptrOffset_congr : ptrOffset mem k=ptrOffset s.mem k := by
  unfold ptrOffset
  rw [h]

theorem getRecord_congr : getRecord mem k=getRecord s.mem k := by
  unfold getRecord
  rw [ptrOffset_congr h]

theorem header_congr : header mem k=header s.mem k := congrArg RecordInfo.ofControl h

end

/-- A record whose bytes are the same has the same header and payload. -/
theorem record_congr {r : ℕ} (h : ∀ y, r≤y → y<r+(header s.mem r).size → mem y=s.mem y) :
    header mem r=header s.mem r ∧ payload mem r=payload s.mem r := by
  obtain ⟨hp,hs,hq,-⟩ := header_lt s.mem r
  have hsize := (size_header s.mem r).1
  have hheader : header mem r=header s.mem r := header_congr (word_of_agree fun y hle hlt => h y hle (by omega))
  refine ⟨hheader,?_⟩
  unfold payload
  rw [hheader]
  refine map_congr_left fun i hi => h _ (by omega) ?_
  have hle := le_recordSize hp hs hq
  have hi' := mem_range.mp hi
  unfold RecordInfo.size sizeofRecordInfo sizeofKeyPointer
  omega

/-- The bytes of the record of a key pointer are the same. -/
def SameRecord (s : Log) (mem : Bytes) (k : ℕ) : Prop :=
  ∀ y, getRecord s.mem k ≤ y → y < getRecord s.mem k + sizeAt s k → mem y = s.mem y

theorem SameRecord.hit (h : SameRecord s mem k) (hr : Records c s) (hon : OnChain s k) :
    c.hit mem (getRecord s.mem k) k=c.hit s.mem (getRecord s.mem k) k := by
  unfold Setting.hit
  rw [(record_congr h).1,hr.check k hon mem h]

theorem SameRecord.word (h : SameRecord s mem k) (hr : Records c s) (hw : WellFormed c s)
    (hon : OnChain s k) : word mem k=LogRecords.word s.mem k := by
  have hadd := getRecord_add (hw.record k hon)
  have hholds := hr.holds k hon
  unfold sizeofKeyPointer at hholds
  exact word_of_agree fun y hle hlt => h y (by omega) (by omega)

/-- A key pointer that the walk in a block comes to. -/
structure InBlock (s : Log) (io : Io) (bit page k : ℕ) : Prop where
  on : OnChain s k
  start_le : io.startAddr ≤ k
  begin_le : s.beginAddress ≤ k
  page : scanPage bit k = page

/-- The walk looks at the record of the key pointer. -/
def Looks (s : Log) (io : Io) (bit : ℕ) (all : Bool) (k : ℕ) : Prop :=
  (all = true ∨ k ≤ io.endAddr) ∧ ptrOffset s.mem k ≤ scanOffset bit k

/-- A walk over other bytes that are the same where it looks. -/
theorem walk_congr (io : Io) (mem : Bytes) (bit page : ℕ) (all : Bool) (loaded gap : ℕ)
    (hw : WellFormed c s) (hr : Records c s) (hon : kInvalidAddress<a → OnChain s a)
    (hword : ∀ k, k≤a → InBlock s io bit page k → word mem k=word s.mem k)
    (hrecord : ∀ k, k≤a → InBlock s io bit page k → Looks s io bit all k → SameRecord s mem k) :
    c.walk mem (fun _ => s.beginAddress) io bit page all loaded a gap =
        c.walk s.mem (fun _ => s.beginAddress) io bit page all loaded a gap ∧
      ∀ r ∈ (c.walk s.mem (fun _ => s.beginAddress) io bit page all loaded a gap).touched,
        payload mem r=payload s.mem r := by
  induction a using Nat.strong_induction_on generalizing loaded gap with
  | _ a ih =>
    rw [walk.eq_def c mem,walk.eq_def c s.mem]
    by_cases hgo : io.startAddr≤a ∧ s.beginAddress≤a ∧ scanPage bit a=page
    · rw [if_pos hgo,if_pos hgo]
      have hlt : kInvalidAddress<a := hw.beginAddress.trans_le hgo.2.1
      have hin : InBlock s io bit page a := ⟨hon hlt,hgo.1,hgo.2.1,hgo.2.2⟩
      have hwa := hword a le_rfl hin
      rw [ptrOffset_congr hwa,prevAddress_congr hwa,getRecord_congr hwa]
      by_cases hlost : (all=true ∨ a ≤ io.endAddr) ∧ scanOffset bit a<ptrOffset s.mem a
      · rw [if_pos hlost,if_pos hlost]
        exact ⟨rfl,fun r hr => absurd hr not_mem_nil⟩
      · rw [if_neg hlost,if_neg hlost]
        have hdown := hw.link a (hon hlt)
        dsimp only
        rw [if_pos hdown,if_pos hdown]
        obtain ⟨hrest,hpayload⟩ := ih _ hdown (loaded+1) (a - prevAddress s.mem a)
          (fun hprev => ((descends hw) a hon hlt).2 hprev)
          (fun k hk => hword k (hk.trans hdown.le)) (fun k hk => hrecord k (hk.trans hdown.le))
        have hlooks : all=true ∨ a ≤ io.endAddr → SameRecord s mem a := fun hall =>
          hrecord a le_rfl hin ⟨hall,not_lt.mp fun hlt' => hlost ⟨hall,hlt'⟩⟩
        have hhit : ((all=true ∨ a ≤ io.endAddr) ∧ c.hit mem (getRecord s.mem a) a=true) ↔
            ((all=true ∨ a ≤ io.endAddr) ∧ c.hit s.mem (getRecord s.mem a) a=true) :=
          and_congr_right fun hall => by rw [(hlooks hall).hit hr (hon hlt)]
        refine ⟨?_,fun r hmem => ?_⟩
        · rw [hrest]
          simp only [hhit]
        · rcases mem_append.mp hmem with hfirst | hmem
          · split_ifs at hfirst with hthis
            · rw [mem_singleton.mp hfirst]
              exact (record_congr (hlooks hthis.1)).2
            · cases hfirst
          · exact hpayload r hmem
    · rw [if_neg hgo,if_neg hgo]
      exact ⟨rfl,fun r hr => absurd hr not_mem_nil⟩

/-- The end of the buffer. -/
def bufferEnd (io : Io) : ℕ := scanPageHead io.scanOffsetBit io.address + io.availableBytes

/-- The scan of the range has come to the key pointer, and its buffer has the key pointer or
the header of the record. -/
structure Buffered (s : Log) (startAddr endAddr : ℕ) (io : Io) (kpt : ℕ) : Prop
    extends ScanAt s startAddr endAddr io kpt where
  on : OnChain s kpt
  low : kpt < s.headAddress
  start_le : startAddr ≤ kpt
  begin_le : s.beginAddress ≤ kpt
  kptIn : io.kptOffset = 0 →
    scanOffset io.scanOffsetBit io.address + sizeofKeyPointer ≤ io.availableBytes ∧
      scanPageSize io.scanOffsetBit ≤ io.availableBytes
  headerIn : io.kptOffset ≠ 0 →
    scanOffset io.scanOffsetBit io.address + sizeofRecordInfo ≤ io.availableBytes

/-- What a walk in the block of a buffer looks at is in the buffer. -/
theorem sameRecord_of_looks (hw : WellFormed c s) (hr : Records c s) (hsep : Separated s endAddr) {io₂ : Io} {all : Bool}
    (he : io₂.endAddr=endAddr) (hon : OnChain s kpt) (hlow : kpt<s.headAddress) (hkpt : kpt+sizeofKeyPointer≤bufferEnd io)
    (hall : all=true → getRecord s.mem kpt+sizeAt s kpt≤bufferEnd io) (hnot : all=false → endAddr<kpt) (hlt : k<kpt)
    (hin : InBlock s io₂ io.scanOffsetBit (scanPage io.scanOffsetBit io.address) k)
    (hlooks : Looks s io₂ io.scanOffsetBit all k) : SameRecord s (shown s io stale) k := by
  have hhead := scanPageHead_congr hin.page
  have hsplit := scanPageHead_add io.scanOffsetBit k
  have hadd := getRecord_add (hw.record k hin.on)
  have hadd' := getRecord_add (hw.record kpt hon)
  have hholds' := hr.holds kpt hon
  have hback := hlooks.2
  have hend : getRecord s.mem k+sizeAt s k≤bufferEnd io := by
    by_cases heq : getRecord s.mem k=getRecord s.mem kpt
    · cases all with
      | true =>
        unfold sizeAt
        rw [heq]
        exact hall rfl
      | false =>
        -- The other key pointer of the record would be behind the end of the range.
        have hle : k≤endAddr := by
          rw [←he]
          exact hlooks.1.resolve_left Bool.false_ne_true
        exact absurd heq (hsep k kpt hin.on hon hlow hle (hnot rfl))
    · have hbefore : getRecord s.mem k<getRecord s.mem kpt := by
        by_contra hge
        have := hr.apart kpt k hon hin.on (by omega)
        omega
      have := hr.apart k kpt hin.on hon hbefore
      omega
  intro y hle hy
  unfold bufferEnd at hend
  exact shown_eq (by omega) (by omega)

theorem word_of_inBlock (stale : Bytes) {io₂ : Io} (hkpt : kpt+sizeofKeyPointer≤bufferEnd io)
    (hlt : k<kpt) (hin : InBlock s io₂ io.scanOffsetBit (scanPage io.scanOffsetBit io.address) k) :
    word (shown s io stale) k=word s.mem k := by
  have hhead := scanPageHead_congr hin.page
  have hle := scanPageHead_le io.scanOffsetBit k
  unfold bufferEnd sizeofKeyPointer at hkpt
  exact word_of_agree fun y hy hy' => shown_eq (by omega) (by omega)

/-- The callback does the same with the bytes of the buffer as with those of the log, touches
records that the buffer shows, and the next buffer is as good. -/
structure Sound (c : Setting) (s : Log) (startAddr endAddr : ℕ) (io : Io) (mem : Bytes) : Prop where
  same : c.asyncScanFromDiskCallback mem (fun _ => s.beginAddress) .ok io =
    c.asyncScanFromDiskCallback s.mem (fun _ => s.beginAddress) .ok io
  payload : ∀ r ∈ touchedBy (c.asyncScanFromDiskCallback s.mem (fun _ => s.beginAddress) .ok io).2,
    payload mem r = LogRecords.payload s.mem r
  next : ∀ address length,
    (c.asyncScanFromDiskCallback s.mem (fun _ => s.beginAddress) .ok io).2.getLast? =
      some (.read address length) →
    ∃ k, Buffered s startAddr endAddr (c.asyncGetFromDisk
      (c.asyncScanFromDiskCallback s.mem (fun _ => s.beginAddress) .ok io).1 address length) k

theorem sound_of_read {io' : Io} {address length : ℕ}
    (hmem : c.asyncScanFromDiskCallback mem (fun _ => s.beginAddress) .ok io = (io', [.read address length]))
    (hlog : c.asyncScanFromDiskCallback s.mem (fun _ => s.beginAddress) .ok io = (io', [.read address length]))
    (hnext : Buffered s startAddr endAddr (c.asyncGetFromDisk io' address length) kpt) :
    Sound c s startAddr endAddr io mem := by
  refine ⟨hmem.trans hlog.symm,?_,?_⟩
  · rw [hlog]
    intro r hr
    cases hr
  · rw [hlog]
    intro address' length' hlast
    cases hlast
    exact ⟨kpt,hnext⟩

/-- The next buffer of a scan. -/
theorem buffered_finish (hw : WellFormed c s) {bit page : ℕ} {w : DiskCallbacks.Walk}
    (hbit : io.scanOffsetBit=bit) (hstart : io.startAddr=startAddr) (hend : io.endAddr=endAddr)
    (hon : kInvalidAddress<w.current → OnChain s w.current) (hlow : w.current<s.headAddress)
    (hstop : startAddr≤w.current → s.beginAddress≤w.current → scanPage bit w.current=page →
      w.current≤endAddr) {address length : ℕ}
    (hread : (c.finish s.mem (fun _ => s.beginAddress) io bit page w).2=.read address length) :
    Buffered s startAddr endAddr (c.asyncGetFromDisk
      (c.finish s.mem (fun _ => s.beginAddress) io bit page w).1 address length) w.current := by
  rcases finish_cases hstart hend hstop with ⟨_,io',hfin⟩ | ⟨hlo,hbegin,io',_,_,hfin,hat⟩
  · rw [hfin] at hread
    cases hread
  · have hon' := hon (hw.beginAddress.trans_le hbegin)
    have hfin' := hfin
    rw [hfin] at hread ⊢
    cases hread
    have havail := le_available hw.sector io' address length
    unfold finish at hfin'
    rw [if_neg (show ¬(w.current < io.startAddr ∨ w.current<s.beginAddress) by omega)] at hfin'
    refine ⟨hat,hon',hlow,hlo,hbegin,?_,?_⟩
    · -- The buffer was read for the key pointer.
      change io'.kptOffset=0 → scanOffset io'.scanOffsetBit io'.address+sizeofKeyPointer ≤
        (c.asyncGetFromDisk io' address length).availableBytes ∧ scanPageSize io'.scanOffsetBit ≤
        (c.asyncGetFromDisk io' address length).availableBytes
      intro hzero
      by_cases hpage : scanPage bit w.current=page
      · rw [if_pos hpage] at hfin'
        cases hfin'
        exact absurd hzero (ptrOffset_ne_zero _ _)
      · rw [if_neg hpage] at hfin'
        cases hfin'
        exact ⟨(le_max_right _ _).trans havail,(le_max_left _ _).trans havail⟩
    · -- The buffer was read for the record.
      change io'.kptOffset ≠ 0 → scanOffset io'.scanOffsetBit io'.address+sizeofRecordInfo ≤
        (c.asyncGetFromDisk io' address length).availableBytes
      intro hne
      by_cases hpage : scanPage bit w.current=page
      · rw [if_pos hpage] at hfin'
        cases hfin'
        have hoff := scanOffset_lt bit (getRecord s.mem w.current)
        have hlen := (le_max_right _ _).trans havail
        refine le_trans ?_ hlen
        change scanOffset io.scanOffsetBit (getRecord s.mem w.current)+sizeofRecordInfo≤_
        rw [hbit]
        unfold sizeofRecordInfo minIoRequestSize sizeofKeyPointer
        omega
      · rw [if_neg hpage] at hfin'
        cases hfin'
        exact absurd rfl hne

/-- A callback that has the key pointer and walks on. -/
theorem sound_of_explore (io₂ : Io) (hw : WellFormed c s) (hr : Records c s) (hsep : Separated s endAddr)
    {all : Bool} {touched : List ℕ} (hbit : io₂.scanOffsetBit=io.scanOffsetBit) (hs : io₂.startAddr=startAddr)
    (he : io₂.endAddr=endAddr) (hon : OnChain s kpt) (hlow : kpt<s.headAddress)
    (hkpt : kpt+sizeofKeyPointer≤bufferEnd io) (hword : word (shown s io stale) kpt=word s.mem kpt)
    (hall : all=true → kpt≤endAddr ∧ getRecord s.mem kpt+sizeAt s kpt≤bufferEnd io) (hnot : all=false → endAddr<kpt)
    (hfirst : ∀ r ∈ touched, payload (shown s io stale) r=payload s.mem r)
    (hmem : c.asyncScanFromDiskCallback (shown s io stale) (fun _ => s.beginAddress) .ok io =
      c.explore (shown s io stale) (fun _ => s.beginAddress) io₂ (scanPage io.scanOffsetBit io.address)
        all touched kpt) (hlog : c.asyncScanFromDiskCallback s.mem (fun _ => s.beginAddress) .ok io =
      c.explore s.mem (fun _ => s.beginAddress) io₂ (scanPage io.scanOffsetBit io.address)
        all touched kpt) : Sound c s startAddr endAddr io (shown s io stale) := by
  have hdown := hw.link kpt hon
  have hprev : kInvalidAddress<prevAddress s.mem kpt → OnChain s (prevAddress s.mem kpt) :=
    ((descends hw) kpt (fun _ => hon) hon.1).2
  obtain ⟨hwalk,hpayload⟩ := walk_congr io₂ (shown s io stale) io.scanOffsetBit
    (scanPage io.scanOffsetBit io.address) all 0 (io₂.address - prevAddress s.mem kpt) hw hr hprev
    (fun k hk hin => word_of_inBlock stale hkpt (hk.trans_lt hdown) hin)
    (fun k hk hin hlooks => sameRecord_of_looks hw hr hsep he hon hlow hkpt (fun h => (hall h).2) hnot
      (hk.trans_lt hdown) hin hlooks)
  unfold explore at hmem hlog
  dsimp only at hmem hlog
  rw [hbit] at hmem hlog
  rw [prevAddress_congr hword,hwalk] at hmem
  obtain ⟨⟨K,hpass,_⟩,hstop⟩ := passes_walk hw hs he hprev (fun htrue => hdown.le.trans (hall htrue).1)
    (rfl : c.walk s.mem (fun _ => s.beginAddress) io₂ io.scanOffsetBit
      (scanPage io.scanOffsetBit io.address) all 0 (prevAddress s.mem kpt)
      (io₂.address - prevAddress s.mem kpt)=_)
  generalize c.walk s.mem (fun _ => s.beginAddress) io₂ io.scanOffsetBit
    (scanPage io.scanOffsetBit io.address) all 0 (prevAddress s.mem kpt)
    (io₂.address - prevAddress s.mem kpt)=w at hmem hlog hpayload hpass hstop
  obtain ⟨hon',hle⟩ := hpass.visits.closed (descends hw) hprev
  have hlt := hle.trans_lt hdown
  -- Where the walk has stopped in the block, the buffer has the key pointer.
  have hfinish : c.finish (shown s io stale) (fun _ => s.beginAddress) io₂ io.scanOffsetBit
      (scanPage io.scanOffsetBit io.address) w=c.finish s.mem (fun _ => s.beginAddress) io₂
      io.scanOffsetBit (scanPage io.scanOffsetBit io.address) w := by
    unfold finish
    by_cases hlow' : w.current < io₂.startAddr ∨ w.current<s.beginAddress
    · rw [if_pos hlow',if_pos hlow']
    · rw [if_neg hlow',if_neg hlow']
      by_cases hpage : scanPage io.scanOffsetBit w.current=scanPage io.scanOffsetBit io.address
      · have hin : InBlock s io₂ io.scanOffsetBit (scanPage io.scanOffsetBit io.address) w.current :=
          ⟨hon' (hw.beginAddress.trans_le (by omega)),by omega,by omega,hpage⟩
        have hwc := word_of_inBlock stale hkpt hlt hin
        rw [if_pos hpage,if_pos hpage,getRecord_congr hwc,ptrOffset_congr hwc]
      · rw [if_neg hpage,if_neg hpage]
  rw [hfinish] at hmem
  refine ⟨hmem.trans hlog.symm,?_,?_⟩
  · rw [hlog]
    intro r hr'
    rw [touchedBy_touches _ (settles_finish _ _ _)] at hr'
    rcases mem_append.mp hr' with hr' | hr'
    · exact hfirst r hr'
    · exact hpayload r hr'
  · rw [hlog]
    intro address length hlast
    rw [getLast?_concat] at hlast
    exact ⟨_,buffered_finish hw hbit hs he hon' (hlt.trans hlow) hstop (Option.some.inj hlast)⟩

theorem scanOffsetBit_cases (io : Io) : io.scanOffsetBit=0 ∨ 3 ≤ io.scanOffsetBit := by
  unfold Io.scanOffsetBit addressOffsetBit
  rcases io.ioLevel with _ | _ | _ | _ | _ | _ <;> simp

/-- The read of a whole record begins early enough to have its header. -/
theorem header_in_read (ptr : ℕ) {bit size r available : ℕ} (hbit : bit=0 ∨ 3≤bit) (haligned : 8 ∣ r)
    (hpage : scanPageSize bit≤available) (hholds : ptr+sizeofKeyPointer ≤ size)
    (hsize : size > ptr+(available - scanOffset bit (r+ptr))) :
    scanOffset bit r+sizeofRecordInfo ≤ scanOffset bit (r+ptr)+size - ptr := by
  have hlt := scanOffset_lt bit (r+ptr)
  have hlt' := scanOffset_lt bit r
  have hsplit := scanPageHead_add bit (r+ptr)
  have hsplit' := scanPageHead_add bit r
  unfold sizeofKeyPointer at hholds
  unfold sizeofRecordInfo
  by_cases hle : ptr ≤ scanOffset bit (r+ptr)
  · -- The record begins in the block of the key pointer.
    have heq : scanOffset bit r=scanOffset bit (r+ptr) - ptr := by
      have hr : r=(r+ptr)/2^bit*2^bit+(scanOffset bit (r+ptr) - ptr) := by
        unfold scanPageHead at hsplit
        omega
      unfold scanOffset at hr hle ⊢
      nth_rewrite 1 [hr]
      rw [mul_comm,Nat.mul_add_mod,Nat.mod_eq_of_lt]
      exact (Nat.sub_le _ _).trans_lt hlt
    omega
  · rcases hbit with rfl | hbit
    · unfold scanPageSize at hlt'
      omega
    · -- Blocks and records begin at multiples of eight.
      have hdvd : 8 ∣ 2^bit := pow_dvd_pow 2 hbit
      have hoff : 8 ∣ scanOffset bit r := (Nat.dvd_mod_iff hdvd).mpr haligned
      unfold scanPageSize at hlt' hpage
      omega

/-- A record whose header is in the buffer. -/
theorem header_shown {r : ℕ} (hlo : scanPageHead io.scanOffsetBit io.address≤r+io.validOffset)
    (hhi : r+sizeofRecordInfo≤bufferEnd io) : header (shown s io stale) r=header s.mem r := by
  unfold bufferEnd sizeofRecordInfo at hhi
  exact header_congr (word_of_agree fun y hle hlt => shown_eq (by omega) (by omega))

/-- A record that is as a whole in the buffer. -/
theorem sameRecord_of_whole (hlo : scanPageHead io.scanOffsetBit io.address≤getRecord s.mem kpt+io.validOffset)
    (hwhole : getRecord s.mem kpt+sizeAt s kpt≤bufferEnd io) : SameRecord s (shown s io stale) kpt := by
  intro y hle hlt
  unfold bufferEnd at hwhole
  exact shown_eq (by omega) (by omega)

theorem first_congr (hr : Records c s) (hon : OnChain s kpt) (hsame : SameRecord s mem kpt) :
    c.first mem (getRecord s.mem kpt) kpt=c.first s.mem (getRecord s.mem kpt) kpt ∧
      ∀ r ∈ c.first s.mem (getRecord s.mem kpt) kpt, payload mem r=payload s.mem r := by
  unfold first
  rw [hsame.hit hr hon]
  refine ⟨rfl,fun r hmem => ?_⟩
  split_ifs at hmem
  · rw [mem_singleton.mp hmem]
    exact (record_congr hsame).2
  · cases hmem

/-- A key pointer behind the end of the range is passed over. -/
theorem callback_above {loads : ℕ → ℕ} (h : io.address > io.endAddr) : c.asyncScanFromDiskCallback mem loads .ok io =
      c.explore mem loads io (scanPage io.scanOffsetBit io.address) false [] io.address := by
  unfold asyncScanFromDiskCallback
  rw [if_pos rfl]
  dsimp only
  rw [if_pos h]

/-- A buffer that was read for a key pointer in the range: the word of the key pointer is as
in the log. -/
theorem callback_kpt (mem : Bytes) (hoffset : io.kptOffset=0) (haddress : io.address=kpt)
    (hrange : kpt ≤ io.endAddr) (hmem : word mem kpt=word s.mem kpt) :
    c.asyncScanFromDiskCallback mem (fun _ => s.beginAddress) .ok io =
      if io.validOffset+scanOffset io.scanOffsetBit kpt<ptrOffset s.mem kpt then
        ({ io with address := getRecord s.mem kpt, kptOffset := ptrOffset s.mem kpt },
          [.read (scanPageHead io.scanOffsetBit (getRecord s.mem kpt))
            (max (ptrOffset s.mem kpt+minIoRequestSize) (scanPageSize io.scanOffsetBit +
              scanOffset io.scanOffsetBit kpt+minIoRequestSize))])
      else if (header mem (getRecord s.mem kpt)).size > ptrOffset s.mem kpt +
          (io.availableBytes - scanOffset io.scanOffsetBit kpt) then
        ({ io with address := getRecord s.mem kpt, kptOffset := ptrOffset s.mem kpt },
          [.read (scanPageHead io.scanOffsetBit (getRecord s.mem kpt))
            (scanOffset io.scanOffsetBit kpt+(header mem (getRecord s.mem kpt)).size -
              ptrOffset s.mem kpt)])
      else c.explore mem (fun _ => s.beginAddress) { io with address := getRecord s.mem kpt }
        (scanPage io.scanOffsetBit io.address) true (c.first mem (getRecord s.mem kpt) kpt) kpt := by
  unfold asyncScanFromDiskCallback
  rw [if_pos rfl]
  dsimp only
  rw [haddress,if_neg (by omega),if_pos hoffset,getRecord_congr hmem,ptrOffset_congr hmem]

section

variable (hw : WellFormed c s) (hr : Records c s) (hsep : Separated s endAddr)

include hw hr hsep

/-- The callback on a buffer that was read for a key pointer. -/
theorem sound_of_kpt (hb : Buffered s startAddr endAddr io kpt) (haddress : io.address=kpt)
    (hoffset : io.kptOffset=0) : Sound c s startAddr endAddr io (shown s io stale) := by
  obtain ⟨hkpt,hpage⟩ := hb.kptIn hoffset
  have hsplit := scanPageHead_add io.scanOffsetBit kpt
  have hadd := getRecord_add (hw.record kpt hb.on)
  have hholds := hr.holds kpt hb.on
  rw [haddress] at hkpt
  have hend : kpt+sizeofKeyPointer≤bufferEnd io := by
    unfold bufferEnd
    rw [haddress]
    omega
  have hword : word (shown s io stale) kpt=word s.mem kpt := by
    refine word_of_agree fun y hle hlt => shown_eq ?_ ?_
    · rw [haddress]
      omega
    · unfold sizeofKeyPointer at hkpt
      rw [haddress]
      omega
  by_cases hrange : kpt≤endAddr
  · have hmem := callback_kpt (c := c) (shown s io stale) hoffset haddress (hb.stop ▸ hrange) hword
    have hlog := callback_kpt (c := c) s.mem hoffset haddress (hb.stop ▸ hrange) rfl
    -- The next buffer, if it has the header of the record.
    have hnext : ∀ length, scanOffset io.scanOffsetBit (getRecord s.mem kpt)+sizeofRecordInfo≤length →
        Buffered s startAddr endAddr (c.asyncGetFromDisk
          { io with address := getRecord s.mem kpt, kptOffset := ptrOffset s.mem kpt }
          (scanPageHead io.scanOffsetBit (getRecord s.mem kpt)) length) kpt := by
      intro length hlength
      refine ⟨⟨hb.start,hb.stop,.inr ⟨hrange,rfl,rfl⟩⟩,hb.on,hb.low,hb.start_le,hb.begin_le,
        fun hzero => absurd hzero (ptrOffset_ne_zero _ _),fun _ => ?_⟩
      exact hlength.trans (le_available hw.sector _ _ _)
    by_cases hlost : io.validOffset+scanOffset io.scanOffsetBit kpt<ptrOffset s.mem kpt
    · rw [if_pos hlost] at hmem hlog
      refine sound_of_read hmem hlog (hnext _ ?_)
      have hoff := scanOffset_lt io.scanOffsetBit (getRecord s.mem kpt)
      refine le_trans ?_ (le_max_right _ _)
      unfold sizeofRecordInfo minIoRequestSize sizeofKeyPointer
      omega
    rw [if_neg hlost] at hmem hlog
    unfold sizeofKeyPointer at hholds hkpt
    have hheader : header (shown s io stale) (getRecord s.mem kpt) = header s.mem (getRecord s.mem kpt) := by
      have hptr : sizeofRecordInfo≤ptrOffset s.mem kpt := Nat.le_add_right _ _
      refine header_shown ?_ (by omega)
      rw [haddress]
      omega
    rw [hheader] at hmem
    by_cases hsize : (header s.mem (getRecord s.mem kpt)).size > ptrOffset s.mem kpt +
        (io.availableBytes - scanOffset io.scanOffsetBit kpt)
    · rw [if_pos hsize] at hmem hlog
      refine sound_of_read hmem hlog (hnext _ ?_)
      have hread := header_in_read (ptrOffset s.mem kpt) (scanOffsetBit_cases io)
        (hr.aligned kpt hb.on) hpage (hr.holds kpt hb.on) (by rw [hadd]; exact hsize)
      rwa [hadd] at hread
    rw [if_neg hsize] at hmem hlog
    have hwhole : getRecord s.mem kpt+sizeAt s kpt≤bufferEnd io := by
      unfold bufferEnd sizeAt
      rw [haddress]
      omega
    have hsame : SameRecord s (shown s io stale) kpt := by
      refine sameRecord_of_whole ?_ hwhole
      rw [haddress]
      omega
    obtain ⟨hfirst,hpayload⟩ := first_congr hr hb.on hsame
    rw [hfirst] at hmem
    refine sound_of_explore { io with address := getRecord s.mem kpt } hw hr hsep rfl hb.start hb.stop
      hb.on hb.low hend hword (fun _ => ⟨hrange,hwhole⟩) (fun h => Bool.noConfusion h) hpayload hmem hlog
  · have hcallback : ∀ mem, c.asyncScanFromDiskCallback mem (fun _ => s.beginAddress) .ok io =
        c.explore mem (fun _ => s.beginAddress) io (scanPage io.scanOffsetBit io.address) false [] kpt := by
      intro mem
      rw [callback_above (by rw [haddress,hb.stop]; omega),haddress]
    exact sound_of_explore io hw hr hsep rfl hb.start hb.stop hb.on hb.low hend hword
      (fun h => Bool.noConfusion h) (fun _ => not_le.mp hrange) (fun r hr => absurd hr not_mem_nil)
      (hcallback _) (hcallback _)

/-- The callback on a buffer that was read for a record. -/
theorem sound_of_record (hb : Buffered s startAddr endAddr io kpt) (hrange : kpt≤endAddr)
    (haddress : io.address=getRecord s.mem kpt) (hoffset : io.kptOffset=ptrOffset s.mem kpt) :
    Sound c s startAddr endAddr io (shown s io stale) := by
  have hne : io.kptOffset ≠ 0 := by
    rw [hoffset]
    exact ptrOffset_ne_zero _ _
  have hin := hb.headerIn hne
  have hsplit := scanPageHead_add io.scanOffsetBit (getRecord s.mem kpt)
  have hadd := getRecord_add (hw.record kpt hb.on)
  have hholds := hr.holds kpt hb.on
  rw [haddress] at hin
  have hheader : header (shown s io stale) (getRecord s.mem kpt) = header s.mem (getRecord s.mem kpt) := by
    refine header_shown ?_ ?_
    · rw [haddress]
      omega
    · unfold bufferEnd
      rw [haddress]
      omega
  have hcallback : ∀ mem, c.asyncScanFromDiskCallback mem (fun _ => s.beginAddress) .ok io =
      if (header mem (getRecord s.mem kpt)).size >
          io.availableBytes - scanOffset io.scanOffsetBit (getRecord s.mem kpt) then
        (io, [.read (scanPageHead io.scanOffsetBit (getRecord s.mem kpt))
          (scanOffset io.scanOffsetBit (getRecord s.mem kpt)+(header mem (getRecord s.mem kpt)).size)])
      else c.explore mem (fun _ => s.beginAddress) io (scanPage io.scanOffsetBit io.address) true
        (c.first mem (getRecord s.mem kpt) kpt) kpt := by
    intro mem
    unfold asyncScanFromDiskCallback
    rw [if_pos rfl]
    dsimp only
    rw [hb.stop,haddress,if_neg (by omega),if_neg hne,hoffset,hadd]
  have hmem := hcallback (shown s io stale)
  have hlog := hcallback s.mem
  rw [hheader] at hmem
  by_cases hsize : (header s.mem (getRecord s.mem kpt)).size >
      io.availableBytes - scanOffset io.scanOffsetBit (getRecord s.mem kpt)
  · rw [if_pos hsize] at hmem hlog
    have hsize8 := (size_header s.mem (getRecord s.mem kpt)).1
    have hat : ScanAt s startAddr endAddr (c.asyncGetFromDisk io (scanPageHead io.scanOffsetBit (getRecord s.mem kpt))
        (scanOffset io.scanOffsetBit (getRecord s.mem kpt)+(header s.mem (getRecord s.mem kpt)).size))
        kpt := ⟨hb.start,hb.stop,.inr ⟨hrange,haddress,hoffset⟩⟩
    refine sound_of_read hmem hlog ⟨hat,hb.on,hb.low,hb.start_le,hb.begin_le, fun hzero => absurd hzero hne,fun _ => ?_⟩
    change scanOffset io.scanOffsetBit io.address+sizeofRecordInfo≤_
    rw [haddress]
    refine le_trans ?_ (le_available hw.sector _ _ _)
    unfold sizeofRecordInfo
    omega
  · rw [if_neg hsize] at hmem hlog
    have hwhole : getRecord s.mem kpt+sizeAt s kpt≤bufferEnd io := by
      unfold bufferEnd sizeAt
      rw [haddress]
      unfold sizeofRecordInfo at hin
      omega
    have hsame : SameRecord s (shown s io stale) kpt := by
      refine sameRecord_of_whole ?_ hwhole
      rw [haddress]
      omega
    obtain ⟨hfirst,hpayload⟩ := first_congr hr hb.on hsame
    rw [hfirst] at hmem
    have hend : kpt+sizeofKeyPointer≤bufferEnd io := by omega
    refine sound_of_explore io hw hr hsep rfl hb.start hb.stop hb.on hb.low hend (hsame.word hr hw hb.on)
      (fun _ => ⟨hrange,hwhole⟩) (fun h => Bool.noConfusion h) hpayload hmem hlog

omit hw hr hsep in
theorem eventsFromDisk_read {stale : ℕ → Bytes} {io' : Io} {n address length : ℕ}
    (h : c.asyncScanFromDiskCallback (shown s io (stale n)) (fun _ => s.beginAddress) .ok io =
      (io', [.read address length])) : eventsFromDisk c s stale (n+1) io =
        eventsFromDisk c s stale n (c.asyncGetFromDisk io' address length) := by
  rw [eventsFromDisk,h]
  exact congrFun Option.map_id _

omit hw hr hsep in
theorem eventsFromDisk_push {stale : ℕ → Bytes} {io' : Io} {n : ℕ}
    (h : c.asyncScanFromDiskCallback (shown s io (stale n)) (fun _ => s.beginAddress) .ok io =
      (io', [.push])) : eventsFromDisk c s stale (n+1) io=some [.finalize] := by
  rw [eventsFromDisk,h]
  rfl

/-- With the bytes of their buffers the callbacks do what they do with the bytes of the log. -/
theorem eventsFromDisk_eq (stale : ℕ → Bytes) (n : ℕ) (hb : Buffered s startAddr endAddr io kpt) :
    eventsFromDisk c s stale n io = (scanCallbacks c s n io).map fun l => touches s.mem l ++ [.finalize] := by
  induction n generalizing io kpt with
  | zero => rfl
  | succ n ih =>
    have hsound : Sound c s startAddr endAddr io (shown s io (stale n)) := by
      rcases hb.place with ⟨haddress,hoffset⟩ | ⟨hrange,haddress,hoffset⟩
      · exact sound_of_kpt hw hr hsep hb haddress hoffset
      · exact sound_of_record hw hr hsep hb hrange haddress hoffset
    have htouches : touches (shown s io (stale n)) (touchedBy (c.asyncScanFromDiskCallback s.mem
        (fun _ => s.beginAddress) .ok io).2)=touches s.mem (touchedBy (c.asyncScanFromDiskCallback s.mem
        (fun _ => s.beginAddress) .ok io).2) :=
      map_congr_left fun r hmem => congrArg (Event.touch r) (hsound.payload r hmem)
    have hnext := hsound.next
    unfold eventsFromDisk scanCallbacks
    dsimp only
    rw [hsound.same,htouches]
    cases hlast : (c.asyncScanFromDiskCallback s.mem (fun _ => s.beginAddress) .ok io).2.getLast? with
    | none => rfl
    | some e =>
      cases e with
      | touch record => rfl
      | push => rfl
      | read address length =>
        obtain ⟨k,hk⟩ := hnext address length hlast
        dsimp only
        rw [ih hk,Option.map_map,Option.map_map]
        congr 1
        funext l
        simp only [Function.comp_apply,touches,map_append,append_assoc]

omit hw hr hsep in
/-- The first read of a scan on disk has its key pointer. -/
theorem buffered_first (hw : WellFormed c s) (hon : OnChain s kpt) (hlow : kpt<s.headAddress)
    (hstart : startAddr≤kpt) (hbegin : s.beginAddress≤kpt) : Buffered s startAddr endAddr
      (c.asyncGetFromDisk ⟨kpt,0,0,0,0,startAddr,endAddr⟩ kpt minIoRequestSize) kpt := by
  have havailable := le_available hw.sector ⟨kpt,0,0,0,0,startAddr,endAddr⟩ kpt minIoRequestSize
  refine ⟨⟨rfl,rfl,.inl ⟨rfl,rfl⟩⟩,hon,hlow,hstart,hbegin,fun _ => ⟨?_,?_⟩, fun hne => absurd rfl hne⟩
  · change kpt%1+sizeofKeyPointer≤_
    rw [Nat.mod_one,Nat.zero_add]
    exact havailable
  · change 1≤_
    exact le_trans (by decide : 1 ≤ minIoRequestSize) havailable

theorem scanEvents_eq (stale : ℕ → Bytes) (version n : ℕ) : scanEvents c s stale version startAddr endAddr n =
      (scanOnce c s ⟨.rest,version⟩ startAddr endAddr n).map fun l => touches s.mem l ++ [.finalize] := by
  have hscan := @inMemory_internalScan c s startAddr endAddr hw ⟨.rest,version⟩ fun hshift => Phase.noConfusion hshift.1
  unfold scanEvents scanOnce
  generalize internalScan c s ⟨.rest,version⟩ startAddr endAddr=r at hscan
  obtain ⟨touched,status⟩ := r
  cases status with
  | success => rfl
  | cprShiftDetected => rfl
  | scanInProgress b =>
    cases hscan with
    | inProgress hon hlow hstart hbegin =>
      dsimp only
      rw [eventsFromDisk_eq hw hr hsep stale n (buffered_first hw hon hlow hstart hbegin),scanFromDisk,
        Option.map_map,Option.map_map]
      congr 1
      funext l
      simp only [Function.comp_apply,touches,map_append,append_assoc]

end

theorem Exact.of_touches (hr : Records c s) {l : List ℕ} (h : Touches c s startAddr endAddr l) :
    Exact c s startAddr endAddr (touches s.mem l ++ [.finalize]) := by
  obtain ⟨K,rfl,hpair,hmem⟩ := h
  have hbegin := hr.begin_le
  refine ⟨K,hpair,fun k => (hmem k).trans (and_congr_right fun _ => ?_),?_⟩
  · unfold InRange
    refine and_congr_right fun _ => ?_
    omega
  · unfold touches
    rw [map_map]
    rfl

end

/-- A check for the value 42 at an offset that lies in the payload, and sectors of 512 bytes. -/
def fortyTwo : Setting :=
  ⟨fun mem kpt => mem (getRecord mem kpt + 56) == 42, fun _ => true, 5, 100, 512⟩

/-- The first word of a key pointer: its place among the key pointers of its record, and the
previous one. -/
def link (place prev : ℕ) : List ℕ := wordBytes (1 + place * 2 + prev * 2 ^ 16) ++ wordBytes (7 + 2 ^ 32)

/-- A log on disk with a record of two key pointers that ends in the second block of four
KiB, and a record after it, all on one chain. -/
def twice : Log :=
  ⟨store (store (fun _ => 0)
    8136 (wordBytes (RecordInfo.control ⟨2, 24, 0, 1, false, false, true⟩) ++ link 0 kInvalidAddress ++
      link 1 8144 ++ List.replicate 24 42))
    8704 (wordBytes (RecordInfo.control ⟨1, 40, 0, 1, false, false, true⟩) ++ link 0 8160 ++
      List.replicate 40 42), 64, 16384, some 8712⟩

theorem onChain_twice {k : ℕ} (hk : OnChain twice k) : k=8712 ∨ k=8160 ∨ k=8144 := by
  have hfirst : prevAddress twice.mem 8712=8160 := by decide +kernel
  have hsecond : prevAddress twice.mem 8160=8144 := by decide +kernel
  have hthird : prevAddress twice.mem 8144=kInvalidAddress := by decide +kernel
  rcases Relation.ReflTransGen.cases_head (visits_onChain rfl hk) with rfl | ⟨d,⟨_,hd⟩,hr⟩
  · exact .inl rfl
  rw [hfirst] at hd
  subst hd
  rcases Relation.ReflTransGen.cases_head hr with rfl | ⟨e,⟨_,he⟩,hr'⟩
  · exact .inr (.inl rfl)
  rw [hsecond] at he
  subst he
  rcases Relation.ReflTransGen.cases_head hr' with rfl | ⟨f,⟨_,hf⟩,hr''⟩
  · exact .inr (.inr rfl)
  rw [hthird] at hf
  subst hf
  have heq := Visits.eq_of_le hr'' le_rfl
  have := hk.1
  omega

theorem wellFormed_twice : WellFormed fortyTwo twice := by
  refine ⟨by decide,by decide,by decide,?_,?_,?_⟩
  all_goals
    intro k hk
    rcases onChain_twice hk with rfl | rfl | rfl <;> decide +kernel

theorem getRecord_twice : getRecord twice.mem 8712=8704 ∧ getRecord twice.mem 8160=8136 ∧
    getRecord twice.mem 8144=8136 := by decide +kernel

theorem records_twice : Records fortyTwo twice := by
  obtain ⟨hfirst,hsecond,hthird⟩ := getRecord_twice
  have hsize : sizeAt twice 8712=64 ∧ sizeAt twice 8160=64 ∧ sizeAt twice 8144=64 := by decide +kernel
  obtain ⟨hsize₁,hsize₂,hsize₃⟩ := hsize
  refine ⟨by decide,?_,?_,?_,?_⟩
  · intro k hk
    rcases onChain_twice hk with rfl | rfl | rfl <;> decide +kernel
  · intro k hk
    rcases onChain_twice hk with rfl | rfl | rfl <;> decide +kernel
  · intro k k' hk hk'
    rcases onChain_twice hk with rfl | rfl | rfl <;> rcases onChain_twice hk' with rfl | rfl | rfl <;>
      omega
  · intro k hk mem hsame
    have hword : word mem k=word twice.mem k := by
      refine word_of_agree fun y hle hlt => hsame y ?_ ?_
      all_goals rcases onChain_twice hk with rfl | rfl | rfl <;> omega
    change (mem (getRecord mem k+56) == 42)=(twice.mem (getRecord twice.mem k+56) == 42)
    rw [getRecord_congr hword,hsame _ (by omega)]
    rcases onChain_twice hk with rfl | rfl | rfl <;> omega

end FishStore.ScanBuffers
