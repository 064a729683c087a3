import FishStore.Phases
import FishStore.ReadPaths

/-!
# Scans of a chain, in any phase

`InternalScan` touches what matches in memory and leaves the rest of the chain to
`AsyncScanFromDiskCallback`. A session in phase `PREPARE` that meets a record of a later
version does not scan: `PivotAndRetry` refreshes the session and scans again, with the range
in the pending context. There `go_async` has put the range of the scan, but on this way it
was called without a range and has put the range of all addresses. A session in phase
`PREPARE` that has to go on to the disk needs a lock; if it does not get it, it scans again
from the start, after it has touched what is in memory.
-/

namespace FishStore.ScanPaths

open Layout LogRecords DiskCallbacks ReadPaths ChainSearch List Setting Chains Phases
open FullScan (kMaxAddress)

/-- The phase and the version of a session. -/
structure Session where
  phase : Phase
  version : ℕ

/-- What `InternalScan` returns. -/
inductive ScanStatus
  | success
  | cprShiftDetected
  | scanInProgress (address : ℕ)
  deriving DecidableEq

/-- The loop over the key pointers in memory that lie behind the end of the range. -/
def skipToEnd (s : Log) (endAddr : ℕ) : ℕ → ℕ → ℕ
  | 0, address => address
  | fuel + 1, address =>
    if endAddr < address ∧ s.headAddress ≤ address then
      skipToEnd s endAddr fuel (prevAddress s.mem address)
    else address

/-- The loop that touches the matches in memory. -/
def touchInMemory (c : Setting) (s : Log) (startAddr : ℕ) : ℕ → ℕ → List ℕ × ℕ
  | 0, address => ([], address)
  | fuel + 1, address =>
    if startAddr ≤ address ∧ s.headAddress ≤ address then
      let rest := touchInMemory c s startAddr fuel
        (traceBackForMatch c s s.headAddress (prevAddress s.mem address + 1) (prevAddress s.mem address))
      (getRecord s.mem address :: rest.1, rest.2)
    else ([], address)

/-- `latest_record_version`, when the loop over the end of the range has come to an address. -/
def latestRecordVersion (s : Log) (address : ℕ) : ℕ :=
  if s.headAddress ≤ address then (header s.mem (getRecord s.mem address)).checkpointVersion else 0

/-- The part of `InternalScan` behind the test of the version. -/
def scanInMemory (c : Setting) (s : Log) (startAddr address : ℕ) : List ℕ × ScanStatus :=
  let r := touchInMemory c s startAddr (address + 1) address
  (r.1, if r.2 < startAddr ∨ r.2 < s.beginAddress then .success else .scanInProgress r.2)

/-- `InternalScan`: the records that it touches, and its status. -/
def internalScan (c : Setting) (s : Log) (t : Session) (startAddr endAddr : ℕ) :
    List ℕ × ScanStatus :=
  match s.entry with
  | none => ([], .success)
  | some entry =>
    let address := skipToEnd s endAddr (entry + 1) entry
    if t.phase = .prepare ∧ t.version < latestRecordVersion s address then ([], .cprShiftDetected)
    else scanInMemory c s startAddr (addressInMemory c s address)

/-- The records that a callback touches. -/
def touchedBy (effects : List Effect) : List ℕ :=
  effects.filterMap fun e => match e with
    | .touch record => some record
    | _ => none

/-- The callbacks of a scan, until one of them responds: the records that they touch. -/
def scanCallbacks (c : Setting) (s : Log) : ℕ → Io → Option (List ℕ)
  | 0, _ => none
  | fuel + 1, io =>
    let r := c.asyncScanFromDiskCallback s.mem (fun _ => s.beginAddress) .ok io
    match r.2.getLast? with
    | some (.read address length) =>
      (scanCallbacks c s fuel (c.asyncGetFromDisk r.1 address length)).map (touchedBy r.2 ++ ·)
    | some .push => some (touchedBy r.2)
    | _ => none

/-- `IssueAsyncScanRequest` and the callbacks. -/
def scanFromDisk (c : Setting) (s : Log) (startAddr endAddr fuel address : ℕ) : Option (List ℕ) :=
  scanCallbacks c s fuel
    (c.asyncGetFromDisk ⟨address, 0, 0, 0, 0, startAddr, endAddr⟩ address minIoRequestSize)

/-- A scan that meets neither a later version nor a lock. -/
def scanOnce (c : Setting) (s : Log) (t : Session) (startAddr endAddr fuel : ℕ) : Option (List ℕ) :=
  let r := internalScan c s t startAddr endAddr
  match r.2 with
  | .success => some r.1
  | .scanInProgress address => (scanFromDisk c s startAddr endAddr fuel address).map (r.1 ++ ·)
  | .cprShiftDetected => none

/-- A call of `Scan`. -/
structure Call where
  /-- The session that scans. -/
  session : Session
  startAddr : ℕ
  endAddr : ℕ
  /-- The log at the first attempt. -/
  first : Log
  /-- The log when the session has been refreshed. -/
  again : Log
  /-- What `try_lock_old` returns. -/
  tryLockOld : Bool

/-- `PivotAndRetry` with the range of the pending context; the session has been refreshed to
the next version. -/
def pivotAndRetry (c : Setting) (x : Call) (startAddr endAddr fuel : ℕ) : Option (List ℕ) :=
  scanOnce c x.again ⟨.inProgress, x.session.version + 1⟩ startAddr endAddr fuel

/-- `Scan`, with `HandleOperationStatus`: the records that it touches. -/
def scan (c : Setting) (x : Call) (fuel : ℕ) : Option (List ℕ) :=
  let r := internalScan c x.first x.session x.startAddr x.endAddr
  match r.2 with
  | .success => some r.1
  | .cprShiftDetected =>
    -- `go_async` without a range.
    (pivotAndRetry c x 0 kMaxAddress fuel).map (r.1 ++ ·)
  | .scanInProgress address =>
    if x.session.phase = .prepare ∧ x.tryLockOld = false then
      (pivotAndRetry c x x.startAddr x.endAddr fuel).map (r.1 ++ ·)
    else (scanFromDisk c x.first x.startAddr x.endAddr fuel address).map (r.1 ++ ·)

/-- A key pointer that a scan of the range is to touch. -/
def InRange (c : Setting) (s : Log) (startAddr endAddr kpt : ℕ) : Prop :=
  Matches c s kpt ∧ startAddr ≤ kpt ∧ kpt ≤ endAddr ∧ (s.headAddress ≤ kpt ∨ s.beginAddress ≤ kpt)

section

variable {c : Setting} {s : Log} {startAddr endAddr a b k n : ℕ} {io io' : Io} {K K' ts : List ℕ}

theorem InRange.lt (h : WellFormed c s) (hin : InRange c s startAddr endAddr k) : kInvalidAddress<k := by
  have hhead := h.headAddress
  have hbegin := h.beginAddress
  rcases hin.2.2.2 with hle | hle <;> omega

theorem touchedBy_touches (ts : List ℕ) {e : Effect} (he : e.settles=true) : touchedBy (ts.map .touch ++ [e])=ts := by
  have hts : touchedBy (ts.map .touch)=ts := by
    unfold touchedBy
    rw [filterMap_map]
    exact filterMap_some
  unfold touchedBy at hts ⊢
  rw [filterMap_append,hts]
  cases e with
  | touch _ => cases he
  | read _ _ | push => exact append_nil ts

/-- With enough callbacks, the scan touches the records of these key pointers and responds. -/
def ScanEnds (c : Setting) (s : Log) (io : Io) (K : List ℕ) : Prop :=
  ∃ fuel, ∀ n ≥ fuel, scanCallbacks c s n io = some (K.map (getRecord s.mem))

/-- The callback touches the records of key pointers and reads on. -/
theorem ScanEnds.read {address length : ℕ} (h : ScanEnds c s (c.asyncGetFromDisk io' address length) K')
    (hstep : c.asyncScanFromDiskCallback s.mem (fun _ => s.beginAddress) .ok io =
      (io', (K.map (getRecord s.mem)).map .touch ++ [.read address length])) : ScanEnds c s io (K ++ K') := by
  obtain ⟨fuel,hfuel⟩ := h
  refine ⟨fuel+1,fun n hn => ?_⟩
  obtain ⟨n,rfl⟩ : ∃ k, n=k+1 := ⟨n - 1,by omega⟩
  rw [scanCallbacks,hstep]
  dsimp only
  rw [getLast?_concat,touchedBy_touches _ rfl]
  dsimp only
  rw [hfuel n (by omega),map_append,Option.map_some]

/-- The callback touches the records of key pointers and responds. -/
theorem scanEnds_push (hstep : c.asyncScanFromDiskCallback s.mem (fun _ => s.beginAddress) .ok io =
      (io', (K.map (getRecord s.mem)).map .touch ++ [.push])) : ScanEnds c s io K := by
  refine ⟨1,fun n hn => ?_⟩
  obtain ⟨n,rfl⟩ : ∃ k, n=k+1 := ⟨n - 1,by omega⟩
  rw [scanCallbacks,hstep]
  dsimp only
  rw [getLast?_concat,touchedBy_touches _ rfl]

/-- The scan of the range has come to the key pointer: its buffer has the key pointer or the
whole way from the record to it. -/
structure ScanAt (s : Log) (startAddr endAddr : ℕ) (io : Io) (kpt : ℕ) : Prop where
  start : io.startAddr = startAddr
  stop : io.endAddr = endAddr
  place : (io.address = kpt ∧ io.kptOffset = 0) ∨
    (kpt ≤ endAddr ∧ io.address = getRecord s.mem kpt ∧ io.kptOffset = ptrOffset s.mem kpt)

/-- From the key pointer on, the scan touches what is in the range. -/
def Scans (c : Setting) (s : Log) (startAddr endAddr : ℕ) (io : Io) (kpt : ℕ) : Prop :=
  ∃ K b, Passes kInvalidAddress (prevAddress s.mem) (InRange c s startAddr endAddr) kpt K b ∧
    (b < startAddr ∨ b < s.beginAddress) ∧ ScanEnds c s io K

/-- The walk along the chain in one block. -/
theorem passes_walk (h : WellFormed c s) {bit page loaded gap : ℕ} {all : Bool} (hstart : io.startAddr=startAddr)
    (hend : io.endAddr=endAddr) (hon : kInvalidAddress<a → OnChain s a) (hall : all=true → a≤endAddr)
    {w : DiskCallbacks.Walk} (hw : c.walk s.mem (fun _ => s.beginAddress) io bit page all loaded a gap=w) :
    (∃ K, Passes kInvalidAddress (prevAddress s.mem) (InRange c s startAddr endAddr) a K w.current ∧
      w.touched=K.map (getRecord s.mem)) ∧
    (startAddr≤w.current → s.beginAddress≤w.current → scanPage bit w.current=page → w.current≤endAddr) := by
  induction a using Nat.strong_induction_on generalizing loaded gap w with
  | _ a ih =>
    rw [walk,hstart,hend] at hw
    by_cases hgo : startAddr≤a ∧ s.beginAddress≤a ∧ scanPage bit a=page
    · rw [if_pos hgo] at hw
      have hlt : kInvalidAddress<a := h.beginAddress.trans_le hgo.2.1
      by_cases hlost : (all=true ∨ a≤endAddr) ∧ scanOffset bit a<ptrOffset s.mem a
      · rw [if_pos hlost] at hw
        subst hw
        exact ⟨⟨[],.stop a,rfl⟩,fun _ _ _ => hlost.1.elim hall id⟩
      · rw [if_neg hlost] at hw
        have hdown := h.link a (hon hlt)
        dsimp only at hw
        rw [if_pos hdown] at hw
        obtain ⟨⟨K,hpass,htouched⟩,hstop⟩ := ih _ hdown (fun hprev => ((descends h) a hon hlt).2 hprev)
          (fun htrue => hdown.le.trans (hall htrue)) rfl
        subst hw
        refine ⟨?_,hstop⟩
        by_cases hhit : (all=true ∨ a≤endAddr) ∧ c.hit s.mem (getRecord s.mem a) a=true
        · refine ⟨a::K,.take hlt ⟨hhit.2,hgo.1,hhit.1.elim hall id,.inr hgo.2.1⟩ hpass,?_⟩
          rw [if_pos hhit,htouched]
          rfl
        · refine ⟨K,.skip hlt (fun hin => hhit ⟨.inr hin.2.2.1,hin.1⟩) hpass,?_⟩
          rw [if_neg hhit,htouched]
          rfl
    · rw [if_neg hgo] at hw
      subst hw
      exact ⟨⟨[],.stop a,rfl⟩,fun h1 h2 h3 => absurd ⟨h1,h2,h3⟩ hgo⟩

theorem setIoLevel_startAddr (c : Setting) (io : Io) (gap : ℕ) : (c.setIoLevel io gap).startAddr=io.startAddr := by
  unfold setIoLevel
  split_ifs <;> rfl

theorem setIoLevel_endAddr (c : Setting) (io : Io) (gap : ℕ) : (c.setIoLevel io gap).endAddr=io.endAddr := by
  unfold setIoLevel
  split_ifs <;> rfl

/-- Where the walk has stopped, the scan ends or stands at the key pointer there. -/
theorem finish_cases {bit page : ℕ} {w : DiskCallbacks.Walk} (hstart : io.startAddr=startAddr)
    (hend : io.endAddr=endAddr) (hstop : startAddr≤w.current → s.beginAddress≤w.current →
      scanPage bit w.current=page → w.current≤endAddr) : ((w.current<startAddr ∨ w.current<s.beginAddress) ∧
      ∃ io', c.finish s.mem (fun _ => s.beginAddress) io bit page w=(io', .push)) ∨
    (startAddr≤w.current ∧ s.beginAddress≤w.current ∧ ∃ io' address length,
      c.finish s.mem (fun _ => s.beginAddress) io bit page w=(io', .read address length) ∧
      ScanAt s startAddr endAddr (c.asyncGetFromDisk io' address length) w.current) := by
  subst hstart hend
  unfold finish
  by_cases hlow : w.current < io.startAddr ∨ w.current<s.beginAddress
  · rw [if_pos hlow]
    exact .inl ⟨hlow,_,rfl⟩
  · rw [if_neg hlow]
    have hge := not_or.mp hlow
    refine .inr ⟨by omega,by omega,?_⟩
    by_cases hpage : scanPage bit w.current=page
    · rw [if_pos hpage]
      exact ⟨_,_,_,rfl,rfl,rfl,.inr ⟨hstop (by omega) (by omega) hpage,rfl,rfl⟩⟩
    · rw [if_neg hpage]
      exact ⟨_,_,_,rfl,setIoLevel_startAddr c io w.gap,setIoLevel_endAddr c io w.gap,.inl ⟨rfl,rfl⟩⟩

/-- The callbacks are right for the key pointers before this one. -/
def ScansBefore (c : Setting) (s : Log) (startAddr endAddr kpt : ℕ) : Prop :=
  ∀ b < kpt, OnChain s b → startAddr ≤ b → s.beginAddress ≤ b → ∀ io,
    ScanAt s startAddr endAddr io b → Scans c s startAddr endAddr io b

/-- A callback that has the key pointer and walks on. -/
theorem scans_of_explore (io' : Io) (h : WellFormed c s) (hon : OnChain s a) (ih : ScansBefore c s startAddr endAddr a)
    {all : Bool} {page : ℕ} (hstart : io'.startAddr=startAddr) (hend : io'.endAddr=endAddr) (hall : all=true → a≤endAddr)
    (hfirst : Passes kInvalidAddress (prevAddress s.mem) (InRange c s startAddr endAddr) a K
      (prevAddress s.mem a)) (hstep : c.asyncScanFromDiskCallback s.mem (fun _ => s.beginAddress) .ok io =
      c.explore s.mem (fun _ => s.beginAddress) io' page all (K.map (getRecord s.mem)) a) :
    Scans c s startAddr endAddr io a := by
  unfold explore at hstep
  dsimp only at hstep
  have hdown := h.link a hon
  have hprev : kInvalidAddress<prevAddress s.mem a → OnChain s (prevAddress s.mem a) :=
    ((descends h) a (fun _ => hon) hon.1).2
  obtain ⟨⟨K',hpass,htouched⟩,hstop⟩ := passes_walk h hstart hend hprev (fun htrue => hdown.le.trans (hall htrue)) rfl
  rw [htouched,←map_append] at hstep
  rcases finish_cases hstart hend hstop with ⟨hlow,io'',hfin⟩ | ⟨hlo,hbegin,io'',address,length,hfin,hat⟩
  · rw [hfin] at hstep
    exact ⟨_,_,hfirst.trans hpass,hlow,scanEnds_push hstep⟩
  · rw [hfin] at hstep
    have hon' := (hpass.visits.closed (descends h) hprev).1 (h.beginAddress.trans_le hbegin)
    have hlt := ((hpass.visits.closed (descends h) hprev).2).trans_lt hdown
    obtain ⟨K'',b,hpass',hlow,hends⟩ := ih _ hlt hon' hlo hbegin _ hat
    exact ⟨_,b,(hfirst.trans hpass).trans hpass',hlow,hends.read hstep⟩

/-- The first key pointer of a buffer is touched if it is in the range. -/
theorem passes_first (hon : OnChain s a) (hstart : startAddr≤a) (hbegin : s.beginAddress≤a)
    (hend : a≤endAddr) : ∃ K, Passes kInvalidAddress (prevAddress s.mem) (InRange c s startAddr endAddr)
    a K (prevAddress s.mem a) ∧ c.first s.mem (getRecord s.mem a) a=K.map (getRecord s.mem) := by
  unfold first
  by_cases hhit : c.hit s.mem (getRecord s.mem a) a=true
  · rw [if_pos hhit]
    exact ⟨[a],.take hon.1 ⟨hhit,hstart,hend,.inr hbegin⟩ (.stop _),rfl⟩
  · rw [if_neg hhit]
    exact ⟨[],.skip hon.1 (fun hin => hhit hin.1) (.stop _),rfl⟩

/-- The buffer has the whole record of the key pointer. -/
theorem scans_of_wholeRecord (io : Io) (h : WellFormed c s) (hon : OnChain s a) (hstart : startAddr≤a)
    (hbegin : s.beginAddress≤a) (hend : a≤endAddr) (ih : ScansBefore c s startAddr endAddr a) (hs : io.startAddr=startAddr)
    (he : io.endAddr=endAddr) (haddress : io.address=getRecord s.mem a) (hoffset : io.kptOffset=ptrOffset s.mem a)
    (hsize : (header s.mem (getRecord s.mem a)).size ≤
      io.availableBytes - scanOffset io.scanOffsetBit (getRecord s.mem a)) : Scans c s startAddr endAddr io a := by
  obtain ⟨K,hpass,hfirst⟩ := passes_first (c := c) hon hstart hbegin hend
  have hle : getRecord s.mem a≤a := Nat.sub_le _ _
  have hstep : c.asyncScanFromDiskCallback s.mem (fun _ => s.beginAddress) .ok io =
      c.explore s.mem (fun _ => s.beginAddress) io (scanPage io.scanOffsetBit (getRecord s.mem a)) true
        (K.map (getRecord s.mem)) a := by
    unfold asyncScanFromDiskCallback
    rw [if_pos rfl]
    dsimp only
    rw [haddress,he,hoffset,if_neg (by omega),if_neg (ptrOffset_ne_zero _ _),if_neg (by omega),
      getRecord_add (h.record a hon),hfirst]
  exact scans_of_explore io h hon ih hs he (fun _ => hend) hpass hstep

/-- The buffer begins at the record; when it lacks its end, the whole record is read. -/
theorem scans_of_record (io : Io) (h : WellFormed c s) (hon : OnChain s a) (hstart : startAddr≤a)
    (hbegin : s.beginAddress≤a) (hend : a≤endAddr) (ih : ScansBefore c s startAddr endAddr a) (hs : io.startAddr=startAddr)
    (he : io.endAddr=endAddr) (haddress : io.address=getRecord s.mem a) (hoffset : io.kptOffset=ptrOffset s.mem a) :
    Scans c s startAddr endAddr io a := by
  by_cases hsize : (header s.mem (getRecord s.mem a)).size ≤
      io.availableBytes - scanOffset io.scanOffsetBit (getRecord s.mem a)
  · exact scans_of_wholeRecord io h hon hstart hbegin hend ih hs he haddress hoffset hsize
  · have hle : getRecord s.mem a≤a := Nat.sub_le _ _
    have hstep : c.asyncScanFromDiskCallback s.mem (fun _ => s.beginAddress) .ok io =
        (io, [.read (scanPageHead io.scanOffsetBit (getRecord s.mem a))
          (scanOffset io.scanOffsetBit (getRecord s.mem a)+(header s.mem (getRecord s.mem a)).size)]) := by
      unfold asyncScanFromDiskCallback
      rw [if_pos rfl]
      dsimp only
      rw [haddress,he,hoffset,if_neg (by omega),if_neg (ptrOffset_ne_zero _ _),if_pos (by omega)]
    have havailable := le_available h.sector io (scanPageHead io.scanOffsetBit (getRecord s.mem a))
      (scanOffset io.scanOffsetBit (getRecord s.mem a)+(header s.mem (getRecord s.mem a)).size)
    obtain ⟨K,b,hpass,hlow,hends⟩ := scans_of_wholeRecord
      (c.asyncGetFromDisk io (scanPageHead io.scanOffsetBit (getRecord s.mem a))
        (scanOffset io.scanOffsetBit (getRecord s.mem a)+(header s.mem (getRecord s.mem a)).size))
      h hon hstart hbegin hend ih hs he haddress hoffset (Nat.le_sub_of_add_le' havailable)
    exact ⟨K,b,hpass,hlow,hends.read (K := []) hstep⟩

/-- The buffer was read at the key pointer. -/
theorem scans_of_kpt (h : WellFormed c s) (hon : OnChain s a) (hstart : startAddr≤a)
    (hbegin : s.beginAddress≤a) (ih : ScansBefore c s startAddr endAddr a)
    (hs : io.startAddr=startAddr) (he : io.endAddr=endAddr) (haddress : io.address=a)
    (hoffset : io.kptOffset=0) : Scans c s startAddr endAddr io a := by
  by_cases hend : a≤endAddr
  · -- A read at the record, whatever its length, leads on from this key pointer.
    have hagain : ∀ address length, c.asyncScanFromDiskCallback s.mem (fun _ => s.beginAddress) .ok io =
        ({ io with address := getRecord s.mem a, kptOffset := ptrOffset s.mem a },
          [.read address length]) → Scans c s startAddr endAddr io a := by
      intro address length hstep
      obtain ⟨K,b,hpass,hlow,hends⟩ := scans_of_record (c.asyncGetFromDisk
          { io with address := getRecord s.mem a, kptOffset := ptrOffset s.mem a } address length)
        h hon hstart hbegin hend ih hs he rfl rfl
      exact ⟨K,b,hpass,hlow,hends.read (K := []) hstep⟩
    obtain ⟨K,hpass,hfirst⟩ := passes_first (c := c) hon hstart hbegin hend
    have hcallback : c.asyncScanFromDiskCallback s.mem (fun _ => s.beginAddress) .ok io =
        if io.validOffset+scanOffset io.scanOffsetBit a<ptrOffset s.mem a then
          ({ io with address := getRecord s.mem a, kptOffset := ptrOffset s.mem a },
            [.read (scanPageHead io.scanOffsetBit (getRecord s.mem a))
              (max (ptrOffset s.mem a+minIoRequestSize) (scanPageSize io.scanOffsetBit +
                scanOffset io.scanOffsetBit a+minIoRequestSize))])
        else if (header s.mem (getRecord s.mem a)).size > ptrOffset s.mem a +
            (io.availableBytes - scanOffset io.scanOffsetBit a) then
          ({ io with address := getRecord s.mem a, kptOffset := ptrOffset s.mem a },
            [.read (scanPageHead io.scanOffsetBit (getRecord s.mem a))
              (scanOffset io.scanOffsetBit a+(header s.mem (getRecord s.mem a)).size - ptrOffset s.mem a)])
        else c.explore s.mem (fun _ => s.beginAddress) { io with address := getRecord s.mem a }
          (scanPage io.scanOffsetBit a) true (K.map (getRecord s.mem)) a := by
      unfold asyncScanFromDiskCallback
      rw [if_pos rfl]
      dsimp only
      rw [haddress,he,if_neg (by omega),if_pos hoffset,hfirst]
    by_cases hheader : io.validOffset+scanOffset io.scanOffsetBit a<ptrOffset s.mem a
    · rw [if_pos hheader] at hcallback
      exact hagain _ _ hcallback
    rw [if_neg hheader] at hcallback
    by_cases hsize : (header s.mem (getRecord s.mem a)).size > ptrOffset s.mem a +
        (io.availableBytes - scanOffset io.scanOffsetBit a)
    · rw [if_pos hsize] at hcallback
      exact hagain _ _ hcallback
    rw [if_neg hsize] at hcallback
    exact scans_of_explore { io with address := getRecord s.mem a } h hon ih hs he (fun _ => hend) hpass hcallback
  · have hstep : c.asyncScanFromDiskCallback s.mem (fun _ => s.beginAddress) .ok io =
        c.explore s.mem (fun _ => s.beginAddress) io (scanPage io.scanOffsetBit a) false
          (([] : List ℕ).map (getRecord s.mem)) a := by
      unfold asyncScanFromDiskCallback
      rw [if_pos rfl]
      dsimp only
      rw [haddress,he,if_pos (by omega),map_nil]
    have hpass : Passes kInvalidAddress (prevAddress s.mem) (InRange c s startAddr endAddr) a []
        (prevAddress s.mem a) := .skip hon.1 (fun hin => hend hin.2.2.1) (.stop _)
    exact scans_of_explore io h hon ih hs he (fun hfalse => Bool.noConfusion hfalse) hpass hstep

/-- The callbacks of a scan touch what is in the range, from the key pointer on that the
buffer was read for. -/
theorem scans_of_scanAt (h : WellFormed c s) (hon : OnChain s a) (hstart : startAddr≤a) (hbegin : s.beginAddress≤a)
    (hat : ScanAt s startAddr endAddr io a) : Scans c s startAddr endAddr io a := by
  induction a using Nat.strong_induction_on generalizing io with
  | _ a ih =>
    have ih' : ScansBefore c s startAddr endAddr a := fun b hb hon hs hbe io hat => ih b hb hon hs hbe hat
    rcases hat.place with ⟨haddress,hoffset⟩ | ⟨hend,haddress,hoffset⟩
    · exact scans_of_kpt h hon hstart hbegin ih' hat.start hat.stop haddress hoffset
    · exact scans_of_record io h hon hstart hbegin hend ih' hat.start hat.stop haddress hoffset

/-- The loop over the end of the range passes over nothing that is not behind it. -/
theorem passes_skipToEnd {p : ℕ → Prop} (hp : ∀ k, p k → k≤endAddr) (h : WellFormed c s)
    (hon : kInvalidAddress<a → OnChain s a) {fuel : ℕ} (hfuel : a<fuel) :
    Passes (s.headAddress - 1) (prevAddress s.mem) p a [] (skipToEnd s endAddr fuel a) ∧
    (s.headAddress ≤ skipToEnd s endAddr fuel a → skipToEnd s endAddr fuel a≤endAddr) := by
  induction fuel generalizing a with
  | zero => omega
  | succ fuel ih =>
    unfold skipToEnd
    by_cases hgo : endAddr<a ∧ s.headAddress≤a
    · rw [if_pos hgo]
      obtain ⟨hdown,hprev⟩ := descends h a hon (h.headAddress.trans_le hgo.2)
      obtain ⟨hpass,hle⟩ := ih hprev (by omega)
      have hhead := h.headAddress
      exact ⟨.skip (by omega) (fun hin => absurd (hp a hin) (by omega)) hpass,hle⟩
    · rw [if_neg hgo]
      exact ⟨.stop a,fun hhead => by omega⟩

/-- A search in memory passes over nothing in the range. -/
theorem passes_search (h : WellFormed c s) (hs : Search s.headAddress (prevAddress s.mem) (Matches c s) a b) :
    Passes (s.headAddress - 1) (prevAddress s.mem) (InRange c s startAddr endAddr) a [] b := by
  have hhead := h.headAddress
  exact hs.passes (by omega) fun k hin => hin.1

/-- The loop that touches in memory, from a match on. -/
theorem passes_touchInMemory (h : WellFormed c s) (hon : kInvalidAddress<a → OnChain s a)
    (hmatch : s.headAddress≤a → Matches c s a ∧ a≤endAddr) {fuel : ℕ} (hfuel : a<fuel) :
    ∃ K, Passes (s.headAddress - 1) (prevAddress s.mem) (InRange c s startAddr endAddr) a K
        (touchInMemory c s startAddr fuel a).2 ∧ (touchInMemory c s startAddr fuel a).1=K.map (getRecord s.mem) ∧
      ((touchInMemory c s startAddr fuel a).2<startAddr ∨ (touchInMemory c s startAddr fuel a).2<s.headAddress) := by
  induction fuel generalizing a with
  | zero => omega
  | succ fuel ih =>
    unfold touchInMemory
    by_cases hgo : startAddr≤a ∧ s.headAddress≤a
    · rw [if_pos hgo]
      have hhead := h.headAddress
      obtain ⟨hhit,hend⟩ := hmatch hgo.2
      obtain ⟨hdown,hprev⟩ := descends h a hon (by omega)
      have hs := search_traceBack h hprev (Nat.lt_succ_self (prevAddress s.mem a))
      obtain ⟨hP,hle⟩ := (hs.visits h.headAddress).closed (descends h) hprev
      obtain ⟨K,hpass,htouched,hstop⟩ := ih hP (fun hle' => ⟨hs.holds hle',by omega⟩) (by omega)
      refine ⟨a::K,.take (by omega) ⟨hhit,hgo.1,hend,.inl hgo.2⟩ ?_,?_,hstop⟩
      · exact (passes_search h hs).trans hpass
      · exact congrArg (getRecord s.mem a :: ·) htouched
    · rw [if_neg hgo]
      exact ⟨[],.stop a,rfl,by omega⟩

/-- `InternalScan` meets a record of a later version: the newest key pointer in memory that
is not behind the end of the range. -/
def ShiftsAt (s : Log) (t : Session) (endAddr : ℕ) : Prop :=
  t.phase = .prepare ∧ ∃ a, IsGreatest {k | OnChain s k ∧ k ≤ endAddr ∧ s.headAddress ≤ k} a ∧
    t.version < (header s.mem (getRecord s.mem a)).checkpointVersion

/-- The chain goes on to the disk inside the range. -/
def OnDisk (s : Log) (startAddr : ℕ) : Prop :=
  ∃ k, OnChain s k ∧ k < s.headAddress ∧ startAddr ≤ k ∧ s.beginAddress ≤ k

/-- What `InternalScan` does when it scans: the records of the matches in memory are touched,
and the chain goes on to the disk or not. -/
inductive InMemory (c : Setting) (s : Log) (startAddr endAddr : ℕ) : List ℕ × ScanStatus → Prop
  | success {K : List ℕ} : K.Pairwise (· > ·) →
      (∀ k, k ∈ K ↔ OnChain s k ∧ InRange c s startAddr endAddr k) → ¬ OnDisk s startAddr →
      InMemory c s startAddr endAddr (K.map (getRecord s.mem), .success)
  | inProgress {K : List ℕ} {b : ℕ} : OnChain s b → b < s.headAddress → startAddr ≤ b →
      s.beginAddress ≤ b → (∀ k, OnChain s k → s.headAddress ≤ k ∨
        Visits kInvalidAddress (prevAddress s.mem) b k) → K.Pairwise (· > ·) →
      (∀ k, k ∈ K ↔ OnChain s k ∧ s.headAddress ≤ k ∧ InRange c s startAddr endAddr k) →
      InMemory c s startAddr endAddr (K.map (getRecord s.mem), .scanInProgress b)

/-- `latest_record_version` is the version of the newest record in memory that is not behind
the end of the range. -/
theorem lt_latestRecordVersion_iff (h : WellFormed c s) {entry : ℕ} (he : s.entry=some entry)
    (v : ℕ) : v<latestRecordVersion s (skipToEnd s endAddr (entry+1) entry) ↔
      ∃ a, IsGreatest {k | OnChain s k ∧ k≤endAddr ∧ s.headAddress≤k} a ∧
        v<(header s.mem (getRecord s.mem a)).checkpointVersion := by
  have hentry : kInvalidAddress<entry → OnChain s entry := onChain_visits he (.refl entry)
  have hhead := h.headAddress
  obtain ⟨hpass,hle⟩ := passes_skipToEnd (p := (·≤endAddr)) (fun _ hk => hk) h hentry (Nat.lt_succ_self entry)
  replace hpass := hpass.mono (Nat.le_sub_one_of_lt hhead)
  generalize skipToEnd s endAddr (entry+1) entry=x at hpass hle
  have hmax : ∀ k, OnChain s k → k≤endAddr → k≤x := by
    intro k hk hend
    by_contra hlt
    have hmem := (hpass.mem_iff (descends h) hentry).mpr ⟨visits_onChain he hk,by omega,hend⟩
    exact not_mem_nil hmem
  unfold latestRecordVersion
  by_cases hx : s.headAddress≤x
  · rw [if_pos hx]
    have hgreatest : IsGreatest {k | OnChain s k ∧ k≤endAddr ∧ s.headAddress≤k} x :=
      ⟨⟨onChain_visits he hpass.visits (by omega),hle hx,hx⟩,fun k hk => hmax k hk.1 hk.2.1⟩
    constructor
    · intro hv
      exact ⟨x,hgreatest,hv⟩
    · rintro ⟨a,ha,hv⟩
      rwa [ha.unique hgreatest] at hv
  · rw [if_neg hx]
    constructor
    · intro hv
      omega
    · rintro ⟨a,ha,_⟩
      have := hmax a ha.1.1 ha.1.2.1
      have := ha.1.2.2
      omega

theorem internalScan_of_shift (h : WellFormed c s) {t : Session} (hshift : ShiftsAt s t endAddr) :
    internalScan c s t startAddr endAddr=([], .cprShiftDetected) := by
  obtain ⟨hphase,a,ha,hv⟩ := hshift
  obtain ⟨_,entry,he,_⟩ := ha.1.1
  unfold internalScan
  rw [he]
  exact if_pos ⟨hphase,(lt_latestRecordVersion_iff h he _).mpr ⟨a,ha,hv⟩⟩

/-- `InternalScan` when it meets no later version. -/
theorem inMemory_internalScan (h : WellFormed c s) {t : Session} (hno : ¬ ShiftsAt s t endAddr) :
    InMemory c s startAddr endAddr (internalScan c s t startAddr endAddr) := by
  unfold internalScan
  cases he : s.entry with
  | none =>
    have hnone : ∀ k, ¬ OnChain s k := by
      rintro k ⟨_,entry,hentry,_⟩
      rw [he] at hentry
      cases hentry
    refine .success (K := []) .nil (fun k => ?_) ?_
    · exact iff_of_false not_mem_nil fun hk => hnone k hk.1
    · rintro ⟨k,hk,_⟩
      exact hnone k hk
  | some entry =>
    have hentry : kInvalidAddress<entry → OnChain s entry := onChain_visits he (.refl entry)
    have hhead := h.headAddress
    dsimp only
    rw [if_neg (fun hs => hno ⟨hs.1,(lt_latestRecordVersion_iff h he _).mp hs.2⟩)]
    obtain ⟨hpass,hle⟩ := passes_skipToEnd (p := InRange c s startAddr endAddr)
      (fun _ hin => hin.2.2.1) h hentry (Nat.lt_succ_self entry)
    generalize skipToEnd s endAddr (entry+1) entry=x at hpass hle
    have hd := descends h
    have hbottom : kInvalidAddress ≤ s.headAddress - 1 := Nat.le_sub_one_of_lt hhead
    have hx := ((hpass.mono hbottom).visits.closed hd hentry).1
    have hs := search_addressInMemory h hx
    obtain ⟨hy,hyx⟩ := (hs.visits hhead).closed hd hx
    have hmatch : s.headAddress≤addressInMemory c s x →
        Matches c s (addressInMemory c s x) ∧ addressInMemory c s x≤endAddr := by
      intro hge
      exact ⟨hs.holds hge,hyx.trans (hle (hge.trans hyx))⟩
    obtain ⟨K,hpass',htouched,hstop⟩ := passes_touchInMemory h hy hmatch (Nat.lt_succ_self (addressInMemory c s x))
    have hall := (hpass.trans (passes_search h hs)).trans hpass'
    unfold scanInMemory
    dsimp only
    rw [htouched]
    generalize (touchInMemory c s startAddr (addressInMemory c s x+1) (addressInMemory c s x)).2=b
      at hall hstop
    have hlow := hall.mono hbottom
    have hsplit : ∀ k, OnChain s k → s.headAddress≤k ∨ Visits kInvalidAddress (prevAddress s.mem) b k := by
      intro k hk
      rcases hall.split (visits_onChain he hk) with hlt | hv
      · exact .inl (by omega)
      · exact .inr hv
    have hb := (hlow.visits.closed hd hentry).1
    have hpair := hlow.pairwise hd hentry
    have hmem : ∀ k, k ∈ K ↔ OnChain s k ∧ b<k ∧ InRange c s startAddr endAddr k := by
      intro k
      refine (hlow.mem_iff hd hentry).trans ⟨fun hk => ⟨?_,hk.2⟩,fun hk => ⟨visits_onChain he hk.1,hk.2⟩⟩
      exact onChain_visits he hk.1 (InRange.lt h hk.2.2)
    by_cases hend : b<startAddr ∨ b<s.beginAddress
    · rw [if_pos hend]
      refine .success hpair (fun k => ?_) ?_
      · rw [hmem]
        refine ⟨fun hk => ⟨hk.1,hk.2.2⟩,fun hk => ⟨hk.1,?_,hk.2⟩⟩
        obtain ⟨_,hge,_,hlive⟩ := hk.2
        omega
      · rintro ⟨k,hk,hlt,hge,hbegin⟩
        rcases hsplit k hk with hge' | hv
        · omega
        · have := (hv.closed hd hb).2
          omega
    · rw [if_neg hend]
      have hge := not_or.mp hend
      have hinvalid : kInvalidAddress<b := h.beginAddress.trans_le (by omega)
      refine .inProgress (hb hinvalid) (by omega) (by omega) (by omega) hsplit hpair (fun k => ?_)
      rw [hmem]
      refine ⟨fun hk => ⟨hk.1,?_,hk.2.2⟩,fun hk => ⟨hk.1,by omega,hk.2.2⟩⟩
      rcases hsplit k hk.1 with hge' | hv
      · exact hge'
      · have := (hv.closed hd hb).2
        omega

/-- The scan touches the records of all matches in the range, from the newest one on. -/
def Touches (c : Setting) (s : Log) (startAddr endAddr : ℕ) (touched : List ℕ) : Prop :=
  ∃ K : List ℕ, touched = K.map (getRecord s.mem) ∧ K.Pairwise (· > ·) ∧
    ∀ k, k ∈ K ↔ OnChain s k ∧ InRange c s startAddr endAddr k

/-- With enough callbacks the function returns a value. -/
def Eventually (f : ℕ → Option (List ℕ)) (touched : List ℕ) : Prop := ∃ fuel, ∀ n ≥ fuel, f n = some touched

theorem Eventually.unique {f : ℕ → Option (List ℕ)} {l l' : List ℕ} (h : Eventually f l) (h' : Eventually f l') : l=l' := by
  obtain ⟨n,hn⟩ := h
  obtain ⟨n',hn'⟩ := h'
  exact Option.some.inj ((hn (max n n') (le_max_left _ _)).symm.trans (hn' _ (le_max_right _ _)))

theorem Eventually.map {f : ℕ → Option (List ℕ)} {l : List ℕ} (h : Eventually f l) (l' : List ℕ) :
    Eventually (fun n => (f n).map (l' ++ ·)) (l' ++ l) := by
  obtain ⟨n,hn⟩ := h
  exact ⟨n,fun m hm => congrArg (Option.map (l' ++ ·)) (hn m hm)⟩

theorem Eventually.congr {f g : ℕ → Option (List ℕ)} {l : List ℕ} (h : Eventually g l)
    (heq : ∀ n, f n=g n) : Eventually f l := by
  obtain ⟨n,hn⟩ := h
  exact ⟨n,fun m hm => (heq m).trans (hn m hm)⟩

/-- The scan on disk goes on where the scan in memory has stopped. -/
theorem touches_of_inProgress (h : WellFormed c s) {touched : List ℕ}
    (hscan : InMemory c s startAddr endAddr (touched, .scanInProgress b)) :
    ∃ rest, Eventually (fun n => scanFromDisk c s startAddr endAddr n b) rest ∧
      Touches c s startAddr endAddr (touched ++ rest) := by
  cases hscan with
  | @inProgress K _ hon hlt hge hbegin hsplit hpair hmem =>
    have hat : ScanAt s startAddr endAddr (c.asyncGetFromDisk ⟨b,0,0,0,0,startAddr,endAddr⟩ b minIoRequestSize) b :=
      ⟨rfl,rfl,.inl ⟨rfl,rfl⟩⟩
    obtain ⟨K',d,hpass,hlow,hends⟩ := scans_of_scanAt h hon hge hbegin hat
    have hb : kInvalidAddress<b → OnChain s b := fun _ => hon
    have hd := descends h
    have hmem' : ∀ k, k ∈ K' ↔ Visits kInvalidAddress (prevAddress s.mem) b k ∧ d<k ∧
        InRange c s startAddr endAddr k := fun k => hpass.mem_iff hd hb
    refine ⟨_,hends,K ++ K',(map_append ..).symm,?_,fun k => ?_⟩
    · refine pairwise_append.mpr ⟨hpair,hpass.pairwise hd hb,fun k hk k' hk' => ?_⟩
      have hle := (((hmem' k').mp hk').1.closed hd hb).2
      have := ((hmem k).mp hk).2.1
      omega
    · rw [mem_append,hmem,hmem']
      constructor
      · rintro (⟨hk,_,hin⟩ | ⟨hv,_,hin⟩)
        · exact ⟨hk,hin⟩
        · exact ⟨(hv.closed hd hb).1 (InRange.lt h hin),hin⟩
      · rintro ⟨hk,hin⟩
        rcases hsplit k hk with hhead | hv
        · exact .inl ⟨hk,hhead,hin⟩
        · by_cases hhead : s.headAddress≤k
          · exact .inl ⟨hk,hhead,hin⟩
          · obtain ⟨_,hstart,_,hlive⟩ := id hin
            exact .inr ⟨hv,by omega,hin⟩

/-- A scan that is not retried touches what is in the range. -/
theorem touches_scanOnce (h : WellFormed c s) {t : Session} (hno : ¬ ShiftsAt s t endAddr) :
    ∃ touched, Eventually (scanOnce c s t startAddr endAddr) touched ∧ Touches c s startAddr endAddr touched := by
  have hscan := @inMemory_internalScan c s startAddr endAddr h t hno
  have heq : ∀ n, scanOnce c s t startAddr endAddr n=match (internalScan c s t startAddr endAddr).2 with
      | .success => some (internalScan c s t startAddr endAddr).1
      | .scanInProgress address => (scanFromDisk c s startAddr endAddr n address).map
        ((internalScan c s t startAddr endAddr).1 ++ ·)
      | .cprShiftDetected => none := fun n => rfl
  generalize internalScan c s t startAddr endAddr=r at hscan heq
  obtain ⟨touched,status⟩ := r
  cases status with
  | success =>
    refine ⟨touched,⟨0,fun n _ => heq n⟩,?_⟩
    cases hscan with
    | success hpair hmem _ => exact ⟨_,rfl,hpair,hmem⟩
  | cprShiftDetected => cases hscan
  | scanInProgress b =>
    obtain ⟨rest,hrest,htouches⟩ := touches_of_inProgress h hscan
    exact ⟨_,(hrest.map touched).congr heq,htouches⟩

/-- No record has two key pointers on the chain that match. -/
def OneMatch (c : Setting) (s : Log) : Prop :=
  ∀ k k', OnChain s k → OnChain s k' → Matches c s k → Matches c s k' →
    getRecord s.mem k = getRecord s.mem k' → k = k'

theorem Touches.mem_iff {touched : List ℕ} (h : Touches c s startAddr endAddr touched) (r : ℕ) :
    r ∈ touched ↔ ∃ k, OnChain s k ∧ InRange c s startAddr endAddr k ∧ getRecord s.mem k=r := by
  obtain ⟨K,rfl,_,hmem⟩ := h
  simp only [mem_map,hmem,and_assoc]

theorem Touches.nodup {touched : List ℕ} (h : Touches c s startAddr endAddr touched)
    (hone : OneMatch c s) : touched.Nodup := by
  obtain ⟨K,rfl,hpair,hmem⟩ := h
  refine List.Nodup.map_on (fun k hk k' hk' heq => ?_) (hpair.imp fun hgt => hgt.ne')
  obtain ⟨hon,hin⟩ := (hmem k).mp hk
  obtain ⟨hon',hin'⟩ := (hmem k').mp hk'
  exact hone k k' hon hon' hin.1 hin'.1 heq

/-- The session has to give up the scan in memory because it does not get the lock. -/
def Retries (x : Call) : Prop :=
  x.session.phase = .prepare ∧ OnDisk x.first x.startAddr ∧ x.tryLockOld = false

/-- The log that the last attempt scans. -/
noncomputable def Call.last (x : Call) : Log :=
  open scoped Classical in
  if ShiftsAt x.first x.session x.endAddr ∨ Retries x then x.again else x.first

/-- The same scan by a session in phase `REST`. -/
noncomputable def Call.atRest (x : Call) : Call :=
  { x with session := ⟨.rest, x.session.version⟩, first := x.last }

/-- The scan keeps its range: where a later version is met, all matches are in the range, and
where the session does not get the lock, nothing in the range is in memory. -/
def KeepsRange (c : Setting) (x : Call) : Prop :=
  (ShiftsAt x.first x.session x.endAddr → ∀ k, OnChain x.again k →
    InRange c x.again 0 kMaxAddress k → InRange c x.again x.startAddr x.endAddr k) ∧
  (¬ ShiftsAt x.first x.session x.endAddr → Retries x → ∀ k, OnChain x.first k →
    x.first.headAddress ≤ k → ¬ InRange c x.first x.startAddr x.endAddr k)

variable {x : Call}

theorem scan_of_shift (h : WellFormed c x.first) (hshift : ShiftsAt x.first x.session x.endAddr) (n : ℕ) :
    scan c x n=pivotAndRetry c x 0 kMaxAddress n := by
  unfold scan
  rw [internalScan_of_shift h hshift]
  exact congrFun Option.map_id _

/-- How a scan that meets no later version goes on. -/
theorem scan_cases (h : WellFormed c x.first) (hno : ¬ ShiftsAt x.first x.session x.endAddr) :
    (¬ Retries x ∧ ∃ touched, Eventually (scan c x) touched ∧ Touches c x.first x.startAddr x.endAddr touched) ∨
    (Retries x ∧ ∃ K : List ℕ, (∀ k, k ∈ K ↔ OnChain x.first k ∧ x.first.headAddress≤k ∧
      InRange c x.first x.startAddr x.endAddr k) ∧ ∀ n, scan c x n =
        (pivotAndRetry c x x.startAddr x.endAddr n).map (K.map (getRecord x.first.mem) ++ ·)) := by
  have hscan := @inMemory_internalScan c x.first x.startAddr x.endAddr h x.session hno
  have heq : ∀ n, scan c x n=match (internalScan c x.first x.session x.startAddr x.endAddr).2 with
      | .success => some (internalScan c x.first x.session x.startAddr x.endAddr).1
      | .cprShiftDetected => (pivotAndRetry c x 0 kMaxAddress n).map
        ((internalScan c x.first x.session x.startAddr x.endAddr).1 ++ ·)
      | .scanInProgress address =>
        if x.session.phase=.prepare ∧ x.tryLockOld=false then
          (pivotAndRetry c x x.startAddr x.endAddr n).map ((internalScan c x.first x.session x.startAddr x.endAddr).1 ++ ·)
        else (scanFromDisk c x.first x.startAddr x.endAddr n address).map
          ((internalScan c x.first x.session x.startAddr x.endAddr).1 ++ ·) := fun n => rfl
  generalize internalScan c x.first x.session x.startAddr x.endAddr=r at hscan heq
  obtain ⟨touched,status⟩ := r
  cases status with
  | success =>
    cases hscan with
    | success hpair hmem hdisk => exact .inl ⟨fun hretry => hdisk hretry.2.1,_,⟨0,fun n _ => heq n⟩,_,rfl,hpair,hmem⟩
  | cprShiftDetected => cases hscan
  | scanInProgress b =>
    by_cases hlock : x.session.phase=.prepare ∧ x.tryLockOld=false
    · cases hscan with
      | @inProgress K _ hon hlt hge hbegin _ _ hmem =>
        refine .inr ⟨⟨hlock.1,⟨b,hon,hlt,hge,hbegin⟩,hlock.2⟩,K,hmem,fun n => ?_⟩
        rw [heq]
        exact if_pos hlock
    · obtain ⟨rest,hrest,htouches⟩ := touches_of_inProgress h hscan
      have hscan' : ∀ n, scan c x n = (scanFromDisk c x.first x.startAddr x.endAddr n b).map (touched ++ ·) := by
        intro n
        rw [heq]
        exact if_neg hlock
      exact .inl ⟨fun hretry => hlock ⟨hretry.1,hretry.2.2⟩,_,(hrest.map touched).congr hscan',htouches⟩

/-- A session that is not in phase `PREPARE` scans once. -/
theorem touches_scan_of_phase (h : WellFormed c x.first) (hphase : x.session.phase ≠ .prepare) :
    ∃ touched, Eventually (scan c x) touched ∧ Touches c x.first x.startAddr x.endAddr touched := by
  rcases scan_cases h (fun hshift => hphase hshift.1) with ⟨_,htouches⟩ | ⟨hretry,_⟩
  · exact htouches
  · exact absurd hretry.1 hphase

theorem touches_pivotAndRetry (h : WellFormed c x.again) (startAddr endAddr : ℕ) :
    ∃ touched, Eventually (pivotAndRetry c x startAddr endAddr) touched ∧ Touches c x.again startAddr endAddr touched :=
  touches_scanOnce h fun hshift => Phase.noConfusion hshift.1

/-- The scan touches each record exactly once that the other one touches. -/
def SameOnce (touched rest : List ℕ) : Prop := touched.Nodup ∧ ∀ r, r ∈ touched ↔ r ∈ rest

/-- What a scan touches in the end, against a scan of the same range at rest. -/
theorem sameOnce_iff (h : WellFormed c x.first) (h' : WellFormed c x.again)
    (hone : OneMatch c x.first) (hone' : OneMatch c x.again) {touched rest : List ℕ}
    (hscan : Eventually (scan c x) touched) (hrest : Touches c x.last x.startAddr x.endAddr rest) :
    SameOnce touched rest ↔ KeepsRange c x := by
  unfold KeepsRange
  by_cases hshift : ShiftsAt x.first x.session x.endAddr
  · have hlast : x.last=x.again := if_pos (.inl hshift)
    rw [hlast] at hrest
    obtain ⟨l,hl,htouches⟩ := touches_pivotAndRetry (x := x) h' 0 kMaxAddress
    obtain rfl := hscan.unique (hl.congr (scan_of_shift h hshift))
    constructor
    · intro hsame
      refine ⟨fun _ k hon hin => ?_,fun hno => absurd hshift hno⟩
      have hmem := (hsame.2 _).mp ((htouches.mem_iff _).mpr ⟨k,hon,hin,rfl⟩)
      obtain ⟨k',hon',hin',heq⟩ := (hrest.mem_iff _).mp hmem
      rwa [hone' k k' hon hon' hin.1 hin'.1 heq.symm]
    · rintro ⟨hall,_⟩
      refine ⟨htouches.nodup hone',fun r => ?_⟩
      rw [htouches.mem_iff,hrest.mem_iff]
      constructor
      · rintro ⟨k,hon,hin,rfl⟩
        exact ⟨k,hon,hall hshift k hon hin,rfl⟩
      · rintro ⟨k,hon,hin,rfl⟩
        exact ⟨k,hon,⟨hin.1,Nat.zero_le k,h'.address k hon,hin.2.2.2⟩,rfl⟩
  · rcases scan_cases h hshift with ⟨hretry,l,hl,htouches⟩ | ⟨hretry,K,hmem,hK⟩
    · have hlast : x.last=x.first := if_neg (not_or.mpr ⟨hshift,hretry⟩)
      rw [hlast] at hrest
      obtain rfl := hscan.unique hl
      refine iff_of_true ⟨htouches.nodup hone,fun r => ?_⟩ ⟨fun h => absurd h hshift,fun _ h => absurd h hretry⟩
      rw [htouches.mem_iff,hrest.mem_iff]
    · have hlast : x.last=x.again := if_pos (.inr hretry)
      rw [hlast] at hrest
      obtain ⟨l,hl,htouches⟩ := touches_pivotAndRetry (x := x) h' x.startAddr x.endAddr
      obtain rfl := hscan.unique ((hl.map (K.map (getRecord x.first.mem))).congr hK)
      have hsame : ∀ r, r ∈ l ↔ r ∈ rest := fun r => by rw [htouches.mem_iff,hrest.mem_iff]
      constructor
      · rintro ⟨hnodup,hiff⟩
        refine ⟨fun h => absurd h hshift,fun _ _ k hon hhead hin => ?_⟩
        have hk : getRecord x.first.mem k ∈ K.map (getRecord x.first.mem) := mem_map_of_mem ((hmem k).mpr ⟨hon,hhead,hin⟩)
        have hl' := (hsame _).mpr ((hiff _).mp (mem_append_left l hk))
        exact (disjoint_of_nodup_append hnodup) hk hl'
      · rintro ⟨_,hnone⟩
        have hnil : K=[] := by
          rw [eq_nil_iff_forall_not_mem]
          intro k hk
          obtain ⟨hon,hhead,hin⟩ := (hmem k).mp hk
          exact hnone hshift hretry k hon hhead hin
        subst hnil
        exact ⟨htouches.nodup hone',hsame⟩

/-- A scan ends, and touches exactly once each record that a scan of the same range in phase
`REST` touches, exactly when it keeps its range. -/
theorem scan_sameOnce_iff (c : Setting) (x : Call) (h : WellFormed c x.first)
    (h' : WellFormed c x.again) (hone : OneMatch c x.first) (hone' : OneMatch c x.again) :
    (∃ fuel, ∀ n ≥ fuel, ∃ touched rest, scan c x n = some touched ∧
      scan c x.atRest n = some rest ∧ touched.Nodup ∧ ∀ r, r ∈ touched ↔ r ∈ rest) ↔
      KeepsRange c x := by
  have hlast : WellFormed c x.last := by
    unfold Call.last
    split_ifs
    · exact h'
    · exact h
  obtain ⟨rest,hrest,htouches⟩ := touches_scan_of_phase (x := x.atRest) hlast
    (fun hphase => Phase.noConfusion hphase)
  have hends : ∃ touched, Eventually (scan c x) touched := by
    by_cases hshift : ShiftsAt x.first x.session x.endAddr
    · obtain ⟨l,hl,_⟩ := touches_pivotAndRetry (x := x) h' 0 kMaxAddress
      exact ⟨l,hl.congr (scan_of_shift h hshift)⟩
    · rcases scan_cases h hshift with ⟨_,l,hl,_⟩ | ⟨_,K,_,hK⟩
      · exact ⟨l,hl⟩
      · obtain ⟨l,hl,_⟩ := touches_pivotAndRetry (x := x) h' x.startAddr x.endAddr
        exact ⟨_,(hl.map _).congr hK⟩
  obtain ⟨touched,htouched⟩ := hends
  rw [←sameOnce_iff h h' hone hone' htouched htouches]
  constructor
  · rintro ⟨fuel,hfuel⟩
    obtain ⟨n,hn⟩ := htouched
    obtain ⟨m,hm⟩ := hrest
    obtain ⟨l,l',hl,hl',hsame⟩ := hfuel (max fuel (max n m)) (le_max_left _ _)
    rw [hn _ (by omega)] at hl
    rw [hm _ (by omega)] at hl'
    cases hl
    cases hl'
    exact hsame
  · intro hsame
    obtain ⟨n,hn⟩ := htouched
    obtain ⟨m,hm⟩ := hrest
    exact ⟨max n m,fun k hk => ⟨touched,rest,hn k (by omega),hm k (by omega),hsame⟩⟩

end

/-- The bytes of a record of a version with one key pointer, whose previous key pointer is
given. -/
def recordOf (version prev : ℕ) : List ℕ :=
  wordBytes (RecordInfo.control ⟨1, 3, 0, version, false, false, true⟩) ++
    wordBytes (1 + prev * 2 ^ 16) ++ wordBytes (7 + 2 ^ 32) ++ [97, 98, 99]

/-- A log in memory with two records of version 2 on one chain. -/
def pair : Log :=
  ⟨store (store (fun _ => 0) 512 (recordOf 2 kInvalidAddress)) 576 (recordOf 2 520), 64, 64, some 584⟩

theorem onChain_pair {k : ℕ} (hk : OnChain pair k) : k=584 ∨ k=520 := by
  have hfirst : prevAddress pair.mem 584=520 := by decide +kernel
  have hsecond : prevAddress pair.mem 520=kInvalidAddress := by decide +kernel
  rcases Relation.ReflTransGen.cases_head (visits_onChain rfl hk) with rfl | ⟨d,⟨_,hd⟩,hr⟩
  · exact .inl rfl
  rw [hfirst] at hd
  subst hd
  rcases Relation.ReflTransGen.cases_head hr with rfl | ⟨e,⟨_,he⟩,hr'⟩
  · exact .inr rfl
  rw [hsecond] at he
  subst he
  have heq := Visits.eq_of_le hr' le_rfl
  have := hk.1
  omega

theorem wellFormed_pair : WellFormed psfSeven pair := by
  refine ⟨by decide,by decide,by decide,?_,?_,?_⟩
  all_goals
    intro k hk
    rcases onChain_pair hk with rfl | rfl <;> decide +kernel

theorem oneMatch_pair : OneMatch psfSeven pair := by
  have hdiffer : getRecord pair.mem 584 ≠ getRecord pair.mem 520 := by decide +kernel
  intro k k' hk hk' _ _ heq
  rcases onChain_pair hk with rfl | rfl <;> rcases onChain_pair hk' with rfl | rfl
  · rfl
  · exact absurd heq hdiffer
  · exact absurd heq.symm hdiffer
  · rfl

/-- A scan of all addresses keeps its range when a later version is met. -/
theorem scan_sameOnce_all_addresses :
    let x : Call := ⟨⟨.prepare, 1⟩, 0, kMaxAddress, pair, pair, true⟩
    ∃ fuel, ∀ n ≥ fuel, ∃ touched rest, scan psfSeven x n = some touched ∧
      scan psfSeven x.atRest n = some rest ∧ touched.Nodup ∧ ∀ r, r ∈ touched ↔ r ∈ rest := by
  intro x
  refine (scan_sameOnce_iff psfSeven x wellFormed_pair wellFormed_pair oneMatch_pair oneMatch_pair).mpr
    ⟨fun _ _ _ hin => hin,fun _ hretry => ?_⟩
  exact Bool.noConfusion hretry.2.2

/-- A scan of the range of the older one of two records, by a session in phase `PREPARE` of
version 1: both records are touched. -/
theorem scan_loses_range : WellFormed psfSeven pair ∧ OneMatch psfSeven pair ∧
    (∀ n, scan psfSeven ⟨⟨.prepare, 1⟩, 512, 560, pair, pair, true⟩ n = some [576, 512]) ∧
    ∀ n, scan psfSeven ⟨⟨.rest, 1⟩, 512, 560, pair, pair, true⟩ n = some [512] := by
  refine ⟨wellFormed_pair,oneMatch_pair,fun n => ?_,fun n => ?_⟩
  · have h : scan psfSeven ⟨⟨.prepare,1⟩,512,560,pair,pair,true⟩ 0=some [576,512] := by
      decide +kernel
    exact h
  · have h : scan psfSeven ⟨⟨.rest,1⟩,512,560,pair,pair,true⟩ 0=some [512] := by decide +kernel
    exact h

end FishStore.ScanPaths
