import FishStore.ScanPaths

/-!
# Records below the begin address

`ShiftBeginAddress` sets `begin_address`, and later the log is truncated. Operations that
start afterwards look at the begin address in different ways. On disk, `Read` and `Scan`
compare with it the addresses of key pointers, and `Read` also that of the record; in memory
they compare only with `head_address`. `FullScan` compares page numbers: it stops with the
page of the begin address, and touches all records of that page that its range has.
-/

namespace FishStore.TruncatedData

open Layout LogRecords DiskCallbacks ReadPaths ScanPaths ChainSearch Segments FullScan

/-- A read from disk: the records that `Get` is called with. -/
def getsFromDisk (c : Setting) (s : Log) (fuel address : ℕ) : Option (List ℕ) :=
  (callbacks c s fuel (asyncGet c ⟨address, 0, 0, 0, 0, 0, 0⟩ address minIoRequestSize)).map fun b =>
    if s.beginAddress ≤ b.io.address then [b.validPointer] else []

/-- The last part of `InternalRead`, at the address that it has come to. -/
def getsAt (c : Setting) (s : Log) (fuel address : ℕ) : Option (List ℕ) :=
  if s.headAddress ≤ address then some [getRecord s.mem address]
  else if s.beginAddress ≤ address then getsFromDisk c s fuel address
  else some []

/-- A read that meets neither a later version nor a lock. -/
def getsOnce (c : Setting) (s : Log) (fuel : ℕ) : Option (List ℕ) :=
  match s.entry with
  | none => some []
  | some entry => getsAt c s fuel (addressInMemory c s entry)

/-- A call of `Read`. -/
structure ReadCall where
  /-- The session that reads. -/
  session : Session
  /-- The log at the first attempt. -/
  first : Log
  /-- The log when the session has been refreshed. -/
  again : Log
  /-- What `try_lock_old` returns. -/
  tryLockOld : Bool

/-- `Read`, with `HandleOperationStatus`: the records that `Get` is called with. -/
def gets (c : Setting) (x : ReadCall) (fuel : ℕ) : Option (List ℕ) :=
  match x.first.entry with
  | none => some []
  | some entry =>
    let address := addressInMemory c x.first entry
    if x.session.phase = .prepare ∧ x.session.version < latestRecordVersion x.first entry then
      -- `CPR_SHIFT_DETECTED`.
      getsOnce c x.again fuel
    else if address < x.first.headAddress ∧ x.first.beginAddress ≤ address ∧
        x.session.phase = .prepare ∧ x.tryLockOld = false then
      -- `RECORD_ON_DISK`, and the session does not get the lock.
      getsOnce c x.again fuel
    else getsAt c x.first fuel address

/-- The operations that deliver records. -/
inductive Operation
  | read (x : ReadCall)
  | scan (x : ScanPaths.Call)
  | fullScan (x : Scan)

/-- The records that the operation passes to `Get` or `Touch`. -/
def Operation.delivers (c : Setting) : Operation → ℕ → Option (List ℕ)
  | .read x => gets c x
  | .scan x => ScanPaths.scan c x
  | .fullScan x => fun _ => some x.internalFullScan

/-- The log is well formed and begins at the address. -/
def BeginsAt (c : Setting) (b : ℕ) (s : Log) : Prop := WellFormed c s ∧ s.beginAddress = b

/-- The operation starts after `ShiftBeginAddress` for the address. -/
def Operation.StartsAfter (c : Setting) (b : ℕ) : Operation → Prop
  | .read x => BeginsAt c b x.first ∧ BeginsAt c b x.again
  | .scan x => BeginsAt c b x.first ∧ BeginsAt c b x.again
  | .fullScan x => x.beginAddress = b

/-- No part of the log in memory is truncated, and of no record on the chain the begin address
cuts off the header from a key pointer. -/
structure Clear (s : Log) : Prop where
  begin_le : s.beginAddress ≤ s.headAddress
  whole : ∀ k, OnChain s k → s.beginAddress ≤ k → s.beginAddress ≤ getRecord s.mem k

/-- The scan comes to the page of the begin address, which is the first address of the page,
or its range starts behind the begin address and the scan comes to the page of its start. -/
def ClearPages (x : Scan) : Prop :=
  (Layout.offset x.beginAddress = 0 ∧ page x.beginAddress ≤ page x.toAddress) ∨
    (x.beginAddress ≤ x.startAddr ∧ page x.startAddr ≤ page x.toAddress)

/-- The begin address is one that the operation honours. -/
def Operation.Clear : Operation → Prop
  | .read x => TruncatedData.Clear x.first ∧ TruncatedData.Clear x.again
  | .scan x => TruncatedData.Clear x.first ∧ TruncatedData.Clear x.again
  | .fullScan x => ClearPages x

section

variable {c : Setting} {s : Log} {a n r : ℕ} {io io' : Io} {buffer buffer' : Buffer} {records : List ℕ}

/-- A read goes on at the address that its context has. -/
theorem address_of_read {address length : ℕ} (h : c.asyncGetFromDiskCallback s.mem (fun _ => s.beginAddress) .ok io =
      (io', [.read address length])) : io'.address=address := by
  unfold Setting.asyncGetFromDiskCallback followChain at h
  rw [if_pos rfl] at h
  dsimp only at h
  split_ifs at h <;> cases h <;> rfl

/-- A read that responds has found a record before the address of its buffer, or has come to
the truncated part of the log. -/
theorem address_of_push (h : c.asyncGetFromDiskCallback s.mem (fun _ => s.beginAddress) .ok io =
    (io', [.push])) : io'.address ≤ io.address ∨ io'.address<s.beginAddress := by
  unfold Setting.asyncGetFromDiskCallback followChain at h
  rw [if_pos rfl] at h
  dsimp only at h
  split_ifs at h with hkpt hlost hsize hhit hbegin hsize' hhit' hbegin'
  all_goals cases h
  · exact .inl (Nat.sub_le _ _)
  · exact .inr (not_le.mp hbegin)
  · exact .inl le_rfl
  · exact .inr (not_le.mp hbegin')

/-- Each buffer of a read begins at the address that its context has; so the record that is
found does not lie behind the start of the buffer. -/
theorem callbacks_ge (hb : buffer.validPointer=buffer.io.address)
    (h : callbacks c s n buffer=some buffer') (hbegin : s.beginAddress≤buffer'.io.address) :
    s.beginAddress≤buffer'.validPointer := by
  induction n generalizing buffer with
  | zero => cases h
  | succ n ih =>
    unfold callbacks at h
    split at h
    · rename_i io' address length hstep
      exact ih (address_of_read hstep).symm h
    · rename_i io' hstep
      cases h
      have hle := (address_of_push hstep).resolve_right (not_lt.mpr hbegin)
      rw [hb]
      exact hbegin.trans hle
    · cases h

theorem getsFromDisk_ge (h : getsFromDisk c s n a=some records) (hr : r ∈ records) : s.beginAddress≤r := by
  obtain ⟨b,hb,rfl⟩ := Option.map_eq_some_iff.mp h
  split_ifs at hr with hbegin
  · rw [List.mem_singleton.mp hr]
    exact callbacks_ge rfl hb hbegin
  · cases hr

/-- With enough callbacks the function delivers records, and none of them below the address. -/
def DeliversAbove (b : ℕ) (f : ℕ → Option (List ℕ)) : Prop :=
  ∃ fuel, ∀ n ≥ fuel, ∃ records, f n = some records ∧ ∀ r ∈ records, b ≤ r

theorem DeliversAbove.const {b : ℕ} (h : ∀ r ∈ records, b≤r) :
    DeliversAbove b fun _ => some records := ⟨0,fun _ _ => ⟨records,rfl,h⟩⟩

theorem deliversAbove_getsFromDisk (h : WellFormed c s) (hon : OnChain s a) (hbegin : s.beginAddress≤a) :
    DeliversAbove s.beginAddress fun n => getsFromDisk c s n a := by
  obtain ⟨u,hu⟩ : ∃ u, Search s.beginAddress (prevAddress s.mem) (Matches c s) a u :=
    exists_search h.beginAddress (descends h) fun _ => hon
  have hat : AtKpt c (asyncGet c ⟨a,0,0,0,0,0,0⟩ a minIoRequestSize) a := atKpt_asyncGet rfl rfl
  obtain ⟨fuel,hfuel⟩ := ends_of_search h (fun _ => hon) hu hbegin hat
  refine ⟨fuel,fun n hn => ?_⟩
  obtain ⟨b,hb,_⟩ := Option.map_eq_some_iff.mp (hfuel n hn)
  have heq : getsFromDisk c s n a = some (if s.beginAddress≤b.io.address then [b.validPointer] else []) := by
    unfold getsFromDisk
    rw [hb]
    rfl
  exact ⟨_,heq,fun r hr => getsFromDisk_ge heq hr⟩

theorem deliversAbove_getsAt (h : WellFormed c s) (hclear : Clear s)
    (hon : kInvalidAddress<a → OnChain s a) : DeliversAbove s.beginAddress fun n => getsAt c s n a := by
  unfold getsAt
  by_cases hhead : s.headAddress≤a
  · simp only [if_pos hhead]
    refine .const fun r hr => ?_
    rw [List.mem_singleton.mp hr]
    exact hclear.whole a (hon (h.headAddress.trans_le hhead)) (hclear.begin_le.trans hhead)
  · simp only [if_neg hhead]
    by_cases hbegin : s.beginAddress≤a
    · simp only [if_pos hbegin]
      exact deliversAbove_getsFromDisk h (hon (h.beginAddress.trans_le hbegin)) hbegin
    · simp only [if_neg hbegin]
      exact .const fun r hr => absurd hr List.not_mem_nil

/-- Where `InternalRead` has come to is on the chain. -/
theorem onChain_addressInMemory (h : WellFormed c s) {entry : ℕ} (he : s.entry=some entry)
    (hlt : kInvalidAddress<addressInMemory c s entry) : OnChain s (addressInMemory c s entry) :=
  onChain_visits he ((search_addressInMemory h (onChain_visits he (.refl entry))).visits h.headAddress) hlt

theorem deliversAbove_getsOnce (h : WellFormed c s) (hclear : Clear s) : DeliversAbove s.beginAddress (getsOnce c s) := by
  unfold getsOnce
  cases he : s.entry with
  | none => exact .const fun r hr => absurd hr List.not_mem_nil
  | some entry => exact deliversAbove_getsAt h hclear (onChain_addressInMemory h he)

theorem deliversAbove_gets {x : ReadCall} {b : ℕ} (h : BeginsAt c b x.first) (h' : BeginsAt c b x.again)
    (hclear : Clear x.first) (hclear' : Clear x.again) : DeliversAbove b (gets c x) := by
  have hagain := deliversAbove_getsOnce h'.1 hclear'
  rw [h'.2] at hagain
  unfold gets
  cases he : x.first.entry with
  | none => exact .const fun r hr => absurd hr List.not_mem_nil
  | some entry =>
    have hfirst := deliversAbove_getsAt h.1 hclear (onChain_addressInMemory h.1 he)
    rw [h.2] at hfirst
    dsimp only
    split_ifs
    · exact hagain
    · exact hagain
    · exact hfirst

/-- A scan touches records of key pointers that it takes for live. -/
theorem deliversAbove_of_touches {startAddr endAddr : ℕ} (hclear : Clear s)
    (h : Touches c s startAddr endAddr records) (hr : r ∈ records) : s.beginAddress≤r := by
  obtain ⟨k,hon,hin,rfl⟩ := (h.mem_iff r).mp hr
  refine hclear.whole k hon ?_
  rcases hin.2.2.2 with hhead | hbegin
  · exact hclear.begin_le.trans hhead
  · exact hbegin

theorem deliversAbove_scan {x : ScanPaths.Call} {b : ℕ} (h : BeginsAt c b x.first)
    (h' : BeginsAt c b x.again) (hclear : Clear x.first) (hclear' : Clear x.again) :
    DeliversAbove b (ScanPaths.scan c x) := by
  by_cases hshift : ShiftsAt x.first x.session x.endAddr
  · obtain ⟨l,⟨fuel,hfuel⟩,htouches⟩ := touches_pivotAndRetry (x := x) h'.1 0 kMaxAddress
    refine ⟨fuel,fun n hn => ⟨l,(scan_of_shift h.1 hshift n).trans (hfuel n hn),fun r hr => ?_⟩⟩
    rw [←h'.2]
    exact deliversAbove_of_touches hclear' htouches hr
  rcases scan_cases h.1 hshift with ⟨_,l,⟨fuel,hfuel⟩,htouches⟩ | ⟨_,K,hmem,hK⟩
  · refine ⟨fuel,fun n hn => ⟨l,hfuel n hn,fun r hr => ?_⟩⟩
    rw [←h.2]
    exact deliversAbove_of_touches hclear htouches hr
  · -- The records in memory have been touched, and then the scan is retried.
    obtain ⟨l,⟨fuel,hfuel⟩,htouches⟩ := touches_pivotAndRetry (x := x) h'.1 x.startAddr x.endAddr
    refine ⟨fuel,fun n hn => ⟨K.map (getRecord x.first.mem) ++ l,?_,fun r hr => ?_⟩⟩
    · rw [hK n,hfuel n hn]
      rfl
    · rcases List.mem_append.mp hr with hr | hr
      · obtain ⟨k,hk,rfl⟩ := List.mem_map.mp hr
        obtain ⟨hon,hhead,_⟩ := (hmem k).mp hk
        rw [←h.2]
        exact hclear.whole k hon (hclear.begin_le.trans hhead)
      · rw [←h'.2]
        exact deliversAbove_of_touches hclear' htouches hr

/-- The pages that a full scan comes to. -/
theorem page_ge_of_mem {x : Scan} {p : ℕ} (h : a ∈ x.internalFullScan) (hends : x.ends p=true)
    (hp : p≤page x.toAddress) : p≤page a := by
  rw [internalFullScan_eq] at h
  obtain ⟨q,_,hnot,hmem⟩ := mem_descend.mp h
  rw [page_of_mem_visit hmem]
  by_contra hlt
  rw [hnot p (not_le.mp hlt) hp] at hends
  cases hends

/-- On the page where the range starts, nothing before the start is touched. -/
theorem start_le_of_mem {x : Scan} (h : a ∈ x.internalFullScan) (hpage : page a=page x.startAddr) : x.startAddr≤a := by
  rw [internalFullScan_eq] at h
  obtain ⟨q,_,_,hmem⟩ := mem_descend.mp h
  have hq := page_of_mem_visit hmem
  have ha := address_page_offset a
  have hstart := address_page_offset x.startAddr
  unfold FullScan.Scan.visit at hmem
  split_ifs at hmem
  · obtain ⟨_,_,hleads,_⟩ := mem_fromDisk.mp hmem
    have hle := hleads.le (lt_next _)
    unfold FullScan.Scan.diskFirst at hle
    rw [if_pos (hq.symm.trans hpage)] at hle
    unfold Layout.address at ha hstart
    rw [hpage] at ha
    omega
  · obtain ⟨_,_,_,_,hle,_⟩ := (mem_fromMemory (min_le_right _ _)).mp hmem
    rwa [←hq,ha] at hle

theorem internalFullScan_ge {x : Scan} (hclear : ClearPages x) (h : a ∈ x.internalFullScan) : x.beginAddress≤a := by
  rcases hclear with ⟨hoffset,hpage⟩ | ⟨hle,hpage⟩
  · have hge := page_ge_of_mem h (decide_eq_true (.inr rfl)) hpage
    have hbegin := address_page_offset x.beginAddress
    rw [hoffset] at hbegin
    rw [←hbegin]
    exact (Nat.add_le_add_right (Nat.mul_le_mul_right _ hge) _).trans (address_page_le a)
  · have hge := page_ge_of_mem h (decide_eq_true (.inl rfl)) hpage
    refine hle.trans ?_
    rcases Nat.lt_or_eq_of_le hge with hlt | heq
    · rw [←address_page_offset x.startAddr,←address_page_offset a]
      exact (address_lt hlt (offset_lt _)).le
    · exact start_le_of_mem h heq.symm

end

/-- The log with two records, after `ShiftBeginAddress` for an address behind both of them. -/
def cutPair : Log := { pair with beginAddress := 600 }

/-- A full scan of the same bytes. -/
def cutScan : Scan where
  bufferSize := 4
  hlog := { tail := ⟨0, 640⟩, readOnlyAddress := 64, safeReadOnlyAddress := 64, headAddress := 64,
            safeHeadAddress := 64, flushedUntilAddress := 64,
            status := fun _ => ⟨.flushed, .opened⟩, lastFlushed := fun _ => 0,
            frames := fun _ => pair.mem, actions := [], pending := [], pc := fun _ => .idle,
            completed := [] }
  disk := fun _ _ => 0
  beginAddress := 600
  check := fun _ => true
  startAddr := 0
  endAddr := kMaxAddress

end FishStore.TruncatedData
