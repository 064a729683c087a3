import FishStore.ChainSearch
import FishStore.DiskCallbacks

/-!
# Reads in memory and from disk

`InternalRead` goes down the chain in memory and delivers the first record that matches.
Below `head_address` the callbacks of `AsyncGetFromDisk` go on, and
`InternalContinuePendingRead` delivers the record at `GetValidPointer()` of the last
buffer. That is the record only when the buffer was read at a record; when it was read at
the key pointer and already has the whole record, the key pointer is taken for a record.
Also, `InternalContinuePendingRead` compares `begin_address` with the address of the
record, and `InternalRead` compares it with nothing that it finds in memory.
-/

namespace FishStore.ReadPaths

open Layout LogRecords DiskCallbacks Chains ChainSearch

/-- A log at rest, and the entry of the hash that a read looks up. -/
structure Log where
  /-- The bytes of the log, in memory or on disk, by their address. -/
  mem : Bytes
  /-- `begin_address`. -/
  beginAddress : ℕ
  /-- `head_address`. -/
  headAddress : ℕ
  /-- The address of the entry that `FindEntry` finds. -/
  entry : Option ℕ

/-- What a read ends with. -/
inductive Outcome
  /-- `Get` with the payload of a record. -/
  | get (payload : List ℕ)
  /-- `Status::NotFound`. -/
  | notFound
  deriving DecidableEq

/-- The record of the key pointer is visible, and the key pointer matches. -/
abbrev Matches (c : Setting) (s : Log) (kpt : ℕ) : Prop := c.hit s.mem (getRecord s.mem kpt) kpt = true

/-- `TraceBackForMatch`; chains go down, so that the search ends before its fuel does. -/
def traceBackForMatch (c : Setting) (s : Log) (minOffset : ℕ) : ℕ → ℕ → ℕ
  | 0, fromAddress => fromAddress
  | fuel + 1, fromAddress =>
    if minOffset ≤ fromAddress then
      if Matches c s fromAddress then fromAddress
      else traceBackForMatch c s minOffset fuel (prevAddress s.mem fromAddress)
    else fromAddress

/-- The context of a read from disk, with the address in the log that `GetValidPointer()`
of its buffer shows. -/
structure Buffer where
  io : Io
  validPointer : ℕ

/-- `AsyncGetFromDisk`, once it is complete. -/
def asyncGet (c : Setting) (io : Io) (address length : ℕ) : Buffer :=
  ⟨c.asyncGetFromDisk io address length, address⟩

/-- The callbacks of a read, until one of them responds. -/
def callbacks (c : Setting) (s : Log) : ℕ → Buffer → Option Buffer
  | 0, _ => none
  | fuel + 1, b =>
    match c.asyncGetFromDiskCallback s.mem (fun _ => s.beginAddress) .ok b.io with
    | (io, [.read address length]) => callbacks c s fuel (asyncGet c io address length)
    | (io, [.push]) => some ⟨io, b.validPointer⟩
    | _ => none

/-- `InternalContinuePendingRead`. -/
def internalContinuePendingRead (s : Log) (b : Buffer) : Outcome :=
  if s.beginAddress ≤ b.io.address then .get (payload s.mem b.validPointer) else .notFound

/-- `IssueAsyncIoRequest`, the callbacks and `InternalContinuePendingRead`. -/
def readFromDisk (c : Setting) (s : Log) (fuel address : ℕ) : Option Outcome :=
  (callbacks c s fuel (asyncGet c ⟨address, 0, 0, 0, 0, 0, 0⟩ address minIoRequestSize)).map
    (internalContinuePendingRead s)

/-- Where `InternalRead` has come to when it leaves the memory or has found a match. -/
def addressInMemory (c : Setting) (s : Log) (entry : ℕ) : ℕ :=
  if s.headAddress ≤ entry then
    if Matches c s entry then entry
    else traceBackForMatch c s s.headAddress (prevAddress s.mem entry + 1) (prevAddress s.mem entry)
  else entry

/-- `Read` in phase `REST`: `InternalRead`, and what follows when the record is on disk. -/
def read (c : Setting) (s : Log) (fuel : ℕ) : Option Outcome :=
  match s.entry with
  | none => some .notFound
  | some entry =>
    let address := addressInMemory c s entry
    if s.headAddress ≤ address then some (.get (payload s.mem (getRecord s.mem address)))
    else if s.beginAddress ≤ address then readFromDisk c s fuel address
    else some .notFound

/-- The key pointers of the chain. -/
def OnChain (s : Log) (kpt : ℕ) : Prop :=
  kInvalidAddress < kpt ∧ ∃ entry ∈ s.entry, Visits kInvalidAddress (prevAddress s.mem) entry kpt

/-- The log is well formed: links go down, nothing lies at or below `kInvalidAddress`, and
addresses have 48 bits. -/
structure WellFormed (c : Setting) (s : Log) : Prop where
  sector : 0 < c.sectorSize
  beginAddress : kInvalidAddress < s.beginAddress
  headAddress : kInvalidAddress < s.headAddress
  link : ∀ kpt, OnChain s kpt → prevAddress s.mem kpt < kpt
  record : ∀ kpt, OnChain s kpt → ptrOffset s.mem kpt ≤ kpt
  address : ∀ kpt, OnChain s kpt → kpt ≤ FullScan.kMaxAddress

/-- What a read has to end with: the payload of the newest match that is not truncated. -/
structure Expected (c : Setting) (s : Log) (out : Outcome) : Prop where
  found : ∀ m, IsGreatest {k | OnChain s k ∧ s.beginAddress ≤ k ∧ Matches c s k} m →
    out = .get (payload s.mem (getRecord s.mem m))
  missed : (∀ k, OnChain s k → s.beginAddress ≤ k → ¬ Matches c s k) → out = .notFound

/-- The read at the key pointer lacks the header of the record or the end of the record, so
that the callback reads again at the record. -/
def Reread (c : Setting) (s : Log) (kpt : ℕ) : Prop :=
  kpt % c.sectorSize < ptrOffset s.mem kpt ∨
    (header s.mem (getRecord s.mem kpt)).size > ptrOffset s.mem kpt +
      ((kpt + minIoRequestSize + (c.sectorSize - 1)) / c.sectorSize * c.sectorSize - kpt)

instance (c : Setting) (s : Log) : DecidablePred (Reread c s) := fun _ => inferInstanceAs (Decidable (_ ∨ _))

/-- A match at which the ways of `Read` agree. In memory it is not truncated. On disk, if it
is not truncated, nor is the record before it, and the record is read again or shows the
same payload as the key pointer does. -/
def Agrees (c : Setting) (s : Log) (m : ℕ) : Prop :=
  if s.headAddress ≤ m then s.beginAddress ≤ m
  else s.beginAddress ≤ m → s.beginAddress ≤ getRecord s.mem m ∧
    (Reread c s m ∨ payload s.mem m = payload s.mem (getRecord s.mem m))

section

variable {c : Setting} {s : Log} {a b m n : ℕ} {io : Io} {buffer : Buffer} {out : Outcome}

/-- Chains go down. -/
theorem descends (h : WellFormed c s) : Descends kInvalidAddress (prevAddress s.mem)
    (fun k => kInvalidAddress<k → OnChain s k) := by
  intro k hk hlt
  refine ⟨h.link k (hk hlt),fun hprev => ?_⟩
  obtain ⟨_,entry,he,hv⟩ := hk hlt
  exact ⟨hprev,entry,he,hv.tail hlt⟩

/-- `TraceBackForMatch` is a search down the chain. -/
theorem search_traceBack (h : WellFormed c s) (hon : kInvalidAddress<a → OnChain s a) {fuel : ℕ} (hfuel : a<fuel) :
    Search s.headAddress (prevAddress s.mem) (Matches c s) a (traceBackForMatch c s s.headAddress fuel a) := by
  induction fuel generalizing a with
  | zero => omega
  | succ fuel ih =>
    unfold traceBackForMatch
    split_ifs with hhead hmatch
    · exact .found hhead hmatch
    · have hlt : kInvalidAddress<a := h.headAddress.trans_le hhead
      obtain ⟨hdown,hprev⟩ := descends h a hon hlt
      exact .pass hhead hmatch (ih hprev (by omega))
    · exact .ended (by omega)

theorem onChain_visits {entry k : ℕ} (he : s.entry=some entry)
    (hk : Visits kInvalidAddress (prevAddress s.mem) entry k) (hlt : kInvalidAddress<k) :
    OnChain s k := ⟨hlt,entry,he,hk⟩

theorem visits_onChain {entry k : ℕ} (he : s.entry=some entry) (hk : OnChain s k) :
    Visits kInvalidAddress (prevAddress s.mem) entry k := by
  obtain ⟨_,entry',he',hv⟩ := hk
  rw [he] at he'
  cases he'
  exact hv

/-- The part of `InternalRead` in memory is a search down the chain. -/
theorem search_addressInMemory (h : WellFormed c s) (hon : kInvalidAddress<a → OnChain s a) :
    Search s.headAddress (prevAddress s.mem) (Matches c s) a (addressInMemory c s a) := by
  unfold addressInMemory
  split_ifs with hhead hmatch
  · exact .found hhead hmatch
  · obtain ⟨_,hprev⟩ := descends h a hon (h.headAddress.trans_le hhead)
    exact .pass hhead hmatch (search_traceBack h hprev (Nat.lt_succ_self _))
  · exact .ended (by omega)

/-- With enough callbacks, the read that has this buffer ends with the outcome. -/
def Ends (c : Setting) (s : Log) (buffer : Buffer) (out : Outcome) : Prop :=
  ∃ fuel, ∀ n ≥ fuel, (callbacks c s n buffer).map (internalContinuePendingRead s) = some out

/-- One more read. -/
theorem Ends.read {address length : ℕ} (h : Ends c s (asyncGet c io address length) out)
    (hstep : c.asyncGetFromDiskCallback s.mem (fun _ => s.beginAddress) .ok buffer.io =
      (io, [.read address length])) : Ends c s buffer out := by
  obtain ⟨fuel,hfuel⟩ := h
  refine ⟨fuel+1,fun n hn => ?_⟩
  obtain ⟨n,rfl⟩ : ∃ k, n=k+1 := ⟨n - 1,by omega⟩
  rw [callbacks,hstep]
  exact hfuel n (by omega)

theorem callbacks_push (hstep : c.asyncGetFromDiskCallback s.mem (fun _ => s.beginAddress) .ok
    buffer.io=(io, [.push])) : callbacks c s (n+1) buffer=some ⟨io,buffer.validPointer⟩ := by
  rw [callbacks,hstep]

/-- A response. -/
theorem ends_push (hstep : c.asyncGetFromDiskCallback s.mem (fun _ => s.beginAddress) .ok buffer.io =
    (io, [.push])) : Ends c s buffer (internalContinuePendingRead s ⟨io,buffer.validPointer⟩) := by
  refine ⟨1,fun n hn => ?_⟩
  obtain ⟨n,rfl⟩ : ∃ k, n=k+1 := ⟨n - 1,by omega⟩
  rw [callbacks_push hstep,Option.map_some]

/-- The buffer was read at the key pointer. -/
structure AtKpt (c : Setting) (buffer : Buffer) (kpt : ℕ) : Prop where
  address : buffer.io.address = kpt
  kptOffset : buffer.io.kptOffset = 0
  validOffset : buffer.io.validOffset = kpt % c.sectorSize
  availableBytes : buffer.io.availableBytes =
    (kpt + minIoRequestSize + (c.sectorSize - 1)) / c.sectorSize * c.sectorSize - kpt
  validPointer : buffer.validPointer = kpt

theorem atKpt_asyncGet (ha : io.address=a) (hk : io.kptOffset=0) :
    AtKpt c (asyncGet c io a minIoRequestSize) a := ⟨ha,hk,rfl,rfl,rfl⟩

/-- The read ends with the outcome when it goes on behind the key pointer. -/
def Follows (c : Setting) (s : Log) (kpt : ℕ) (out : Outcome) : Prop :=
  (s.beginAddress ≤ prevAddress s.mem kpt → ∀ b, AtKpt c b (prevAddress s.mem kpt) → Ends c s b out) ∧
    (prevAddress s.mem kpt < s.beginAddress → out = .notFound)

theorem ends_followChain (h : Follows c s a out)
    (hstep : c.asyncGetFromDiskCallback s.mem (fun _ => s.beginAddress) .ok buffer.io =
      followChain s.mem s.beginAddress io a) : Ends c s buffer out := by
  unfold followChain at hstep
  by_cases hbegin : s.beginAddress≤prevAddress s.mem a
  · rw [if_pos hbegin] at hstep
    exact (h.1 hbegin _ (atKpt_asyncGet rfl rfl)).read hstep
  · rw [if_neg hbegin] at hstep
    have hend := ends_push hstep
    rw [h.2 (by omega)]
    rwa [internalContinuePendingRead,if_neg hbegin] at hend

/-- What the session delivers when the last buffer was read at one address and the record
lies at another. -/
def delivered (s : Log) (record validPointer : ℕ) : Outcome :=
  if s.beginAddress ≤ record then .get (payload s.mem validPointer) else .notFound

/-- The buffer begins at the record of the key pointer. -/
structure AtRecord (s : Log) (buffer : Buffer) (kpt : ℕ) : Prop where
  address : buffer.io.address = getRecord s.mem kpt
  kptOffset : buffer.io.kptOffset = ptrOffset s.mem kpt
  validPointer : buffer.validPointer = getRecord s.mem kpt

theorem getRecord_add (ha : ptrOffset s.mem a≤a) : getRecord s.mem a+ptrOffset s.mem a=a := Nat.sub_add_cancel ha

theorem ptrOffset_ne_zero (mem : Bytes) (kpt : ℕ) : ptrOffset mem kpt ≠ 0 := by
  unfold ptrOffset sizeofRecordInfo
  omega

/-- The buffer has the whole record. -/
theorem ends_of_wholeRecord (hb : AtRecord s buffer a) (ha : ptrOffset s.mem a≤a)
    (hsize : (header s.mem (getRecord s.mem a)).size≤buffer.io.availableBytes)
    (hhit : Matches c s a → out=delivered s (getRecord s.mem a) (getRecord s.mem a))
    (hmiss : ¬ Matches c s a → Follows c s a out) : Ends c s buffer out := by
  have hstep : c.asyncGetFromDiskCallback s.mem (fun _ => s.beginAddress) .ok buffer.io =
      if Matches c s a then (buffer.io, [.push]) else followChain s.mem s.beginAddress buffer.io a := by
    unfold Setting.asyncGetFromDiskCallback
    rw [if_pos rfl,if_neg (by rw [hb.kptOffset]; exact ptrOffset_ne_zero _ _)]
    dsimp only
    rw [hb.kptOffset,hb.address,getRecord_add ha,if_neg (by omega)]
  by_cases hmatch : Matches c s a
  · rw [if_pos hmatch] at hstep
    have hend := ends_push hstep
    rw [hhit hmatch]
    rwa [internalContinuePendingRead,hb.address,hb.validPointer] at hend
  · rw [if_neg hmatch] at hstep
    exact ends_followChain (hmiss hmatch) hstep

theorem le_available (hsector : 0<c.sectorSize) (io : Io) (address length : ℕ) :
    length≤(c.asyncGetFromDisk io address length).availableBytes := by
  have hmod := Nat.mod_lt (address+length+(c.sectorSize - 1)) hsector
  have hdiv := Nat.div_add_mod' (address+length+(c.sectorSize - 1)) c.sectorSize
  change length≤(address+length+(c.sectorSize - 1))/c.sectorSize*c.sectorSize - address
  omega

/-- The buffer begins at the record; when it lacks its end, the whole record is read. -/
theorem ends_of_atRecord (hsector : 0<c.sectorSize) (hb : AtRecord s buffer a) (ha : ptrOffset s.mem a≤a)
    (hhit : Matches c s a → out=delivered s (getRecord s.mem a) (getRecord s.mem a))
    (hmiss : ¬ Matches c s a → Follows c s a out) : Ends c s buffer out := by
  by_cases hsize : (header s.mem (getRecord s.mem a)).size≤buffer.io.availableBytes
  · exact ends_of_wholeRecord hb ha hsize hhit hmiss
  · have hstep : c.asyncGetFromDiskCallback s.mem (fun _ => s.beginAddress) .ok buffer.io =
        (buffer.io, [.read (getRecord s.mem a) (header s.mem (getRecord s.mem a)).size]) := by
      unfold Setting.asyncGetFromDiskCallback
      rw [if_pos rfl,if_neg (by rw [hb.kptOffset]; exact ptrOffset_ne_zero _ _)]
      dsimp only
      rw [hb.address,if_pos (by omega)]
    refine Ends.read (ends_of_wholeRecord ⟨hb.address,hb.kptOffset,rfl⟩ ha ?_ hhit hmiss) hstep
    exact le_available hsector _ _ _

/-- Where the buffer of a match points to when the read responds. -/
def validPointer (c : Setting) (s : Log) (kpt : ℕ) : ℕ :=
  if Reread c s kpt then getRecord s.mem kpt else kpt

/-- The callbacks on one key pointer. -/
theorem ends_of_atKpt (hsector : 0<c.sectorSize) (hb : AtKpt c buffer a) (ha : ptrOffset s.mem a≤a)
    (hhit : Matches c s a → out=delivered s (getRecord s.mem a) (validPointer c s a))
    (hmiss : ¬ Matches c s a → Follows c s a out) : Ends c s buffer out := by
  have hcallback : c.asyncGetFromDiskCallback s.mem (fun _ => s.beginAddress) .ok buffer.io =
      if a%c.sectorSize<ptrOffset s.mem a then
        ({ buffer.io with address := getRecord s.mem a, kptOffset := ptrOffset s.mem a },
          [.read (getRecord s.mem a) (minIoRequestSize+ptrOffset s.mem a)])
      else if (header s.mem (getRecord s.mem a)).size > ptrOffset s.mem a +
          ((a+minIoRequestSize+(c.sectorSize - 1))/c.sectorSize*c.sectorSize - a) then
        ({ buffer.io with address := getRecord s.mem a, kptOffset := ptrOffset s.mem a },
          [.read (getRecord s.mem a) (header s.mem (getRecord s.mem a)).size])
      else if Matches c s a then ({ buffer.io with address := getRecord s.mem a }, [.push])
      else followChain s.mem s.beginAddress buffer.io a := by
    unfold Setting.asyncGetFromDiskCallback
    rw [if_pos rfl,if_pos hb.kptOffset]
    dsimp only
    rw [hb.address,hb.validOffset,hb.availableBytes]
  have hagain : Reread c s a → Matches c s a → out=delivered s (getRecord s.mem a) (getRecord s.mem a) := by
    intro hreread hmatch
    rw [hhit hmatch,validPointer,if_pos hreread]
  by_cases hheader : a%c.sectorSize<ptrOffset s.mem a
  · rw [if_pos hheader] at hcallback
    exact (ends_of_atRecord hsector ⟨rfl,rfl,rfl⟩ ha (hagain (.inl hheader)) hmiss).read hcallback
  rw [if_neg hheader] at hcallback
  by_cases hsize : (header s.mem (getRecord s.mem a)).size > ptrOffset s.mem a +
      ((a+minIoRequestSize+(c.sectorSize - 1))/c.sectorSize*c.sectorSize - a)
  · rw [if_pos hsize] at hcallback
    exact (ends_of_atRecord hsector ⟨rfl,rfl,rfl⟩ ha (hagain (.inr hsize)) hmiss).read hcallback
  rw [if_neg hsize] at hcallback
  by_cases hmatch : Matches c s a
  · rw [if_pos hmatch] at hcallback
    have hend := ends_push hcallback
    have hnot : ¬ Reread c s a := not_or.mpr ⟨hheader,hsize⟩
    rw [hhit hmatch,validPointer,if_neg hnot]
    rwa [internalContinuePendingRead,hb.validPointer] at hend
  · rw [if_neg hmatch] at hcallback
    exact ends_followChain (hmiss hmatch) hcallback

/-- The callbacks are a search down the chain from the key pointer that was read first. -/
theorem ends_of_search (h : WellFormed c s) (hon : kInvalidAddress<a → OnChain s a)
    (hs : Search s.beginAddress (prevAddress s.mem) (Matches c s) a b) (hle : s.beginAddress≤a) (hb : AtKpt c buffer a) :
    Ends c s buffer (if s.beginAddress≤b then delivered s (getRecord s.mem b) (validPointer c s b) else .notFound)
    := by
  induction hs generalizing buffer with
  | ended hlt => omega
  | @found a _ hmatch =>
    have ha := h.record a (hon (h.beginAddress.trans_le hle))
    refine ends_of_atKpt h.sector hb ha (fun _ => ?_) (fun hno => absurd hmatch hno)
    rw [if_pos hle]
  | @pass a b _ hno hrest ih =>
    have hlt : kInvalidAddress<a := h.beginAddress.trans_le hle
    have ha := h.record a (hon hlt)
    refine ends_of_atKpt h.sector hb ha (fun hmatch => absurd hmatch hno) (fun _ => ⟨?_,?_⟩)
    · intro hprev buffer' hb'
      exact ih (descends h a hon hlt).2 hprev hb'
    · intro hprev
      rw [hrest.eq_of_lt hprev,if_neg (by omega)]

/-- The newest match of the chain. -/
def Newest (c : Setting) (s : Log) (m : ℕ) : Prop := IsGreatest {k | OnChain s k ∧ Matches c s k} m

/-- What a read ends with. -/
inductive Ending (c : Setting) (s : Log) : Outcome → Prop
  | memory {m : ℕ} : Newest c s m → s.headAddress ≤ m →
      Ending c s (.get (payload s.mem (getRecord s.mem m)))
  | disk {m : ℕ} : Newest c s m → m < s.headAddress → s.beginAddress ≤ m →
      Ending c s (delivered s (getRecord s.mem m) (validPointer c s m))
  | nothing : (∀ k, OnChain s k → Matches c s k → k < s.beginAddress ∧ k < s.headAddress) →
      Ending c s .notFound

theorem read_eq {entry : ℕ} (he : s.entry=some entry) : read c s n = if s.headAddress≤addressInMemory c s entry then
      some (.get (payload s.mem (getRecord s.mem (addressInMemory c s entry))))
    else if s.beginAddress≤addressInMemory c s entry then readFromDisk c s n (addressInMemory c s entry)
    else some .notFound := by
  rw [read,he]

/-- With enough callbacks, the read ends with the outcome. -/
def Returns (c : Setting) (s : Log) (out : Outcome) : Prop :=
  ∃ fuel, ∀ n ≥ fuel, read c s n = some out

theorem Returns.unique {out' : Outcome} (h : Returns c s out) (h' : Returns c s out') : out=out' := by
  obtain ⟨n,hn⟩ := h
  obtain ⟨n',hn'⟩ := h'
  exact Option.some.inj ((hn (max n n') (le_max_left _ _)).symm.trans (hn' _ (le_max_right _ _)))

/-- Every read ends. -/
theorem returns_ending (h : WellFormed c s) : ∃ out, Returns c s out ∧ Ending c s out := by
  cases he : s.entry with
  | none =>
    refine ⟨.notFound,⟨0,fun n _ => by rw [read,he]⟩,.nothing fun k hk _ => ?_⟩
    obtain ⟨_,entry,hentry,_⟩ := hk
    rw [he] at hentry
    cases hentry
  | some entry =>
    have hread := fun n => @read_eq c s n entry he
    have hentry : kInvalidAddress<entry → OnChain s entry := onChain_visits he (.refl entry)
    have hs := search_addressInMemory h hentry
    have hle : ∀ k, OnChain s k → Matches c s k → k≤addressInMemory c s entry := fun k hk hm =>
      hs.le_of_holds h.headAddress (descends h) hentry (visits_onChain he hk) hm
    generalize addressInMemory c s entry=t at hread hs hle
    have ht := hs.visits h.headAddress
    by_cases hhead : s.headAddress≤t
    · have hon := onChain_visits he ht (h.headAddress.trans_le hhead)
      refine ⟨_,⟨0,fun n _ => ?_⟩,.memory ⟨⟨hon,hs.holds hhead⟩,fun k hk => hle k hk.1 hk.2⟩ hhead⟩
      rw [hread,if_pos hhead]
    by_cases hbegin : s.beginAddress≤t
    · have hP : kInvalidAddress<t → OnChain s t := onChain_visits he ht
      obtain ⟨u,hu⟩ : ∃ u, Search s.beginAddress (prevAddress s.mem) (Matches c s) t u :=
        exists_search h.beginAddress (descends h) hP
      have hmatch : ∀ k, OnChain s k → Matches c s k → k≤u := by
        intro k hk hm
        rcases hs.split (visits_onChain he hk) with hpass | hrest
        · exact absurd hm hpass.2
        · exact hu.le_of_holds h.beginAddress (descends h) hP hrest hm
      have hut : u≤t := ((hu.visits h.beginAddress).closed (descends h) hP).2
      have hat : AtKpt c (asyncGet c ⟨t,0,0,0,0,0,0⟩ t minIoRequestSize) t := atKpt_asyncGet rfl rfl
      obtain ⟨fuel,hfuel⟩ := ends_of_search h hP hu hbegin hat
      have hreturns : Returns c s (if s.beginAddress≤u then
          delivered s (getRecord s.mem u) (validPointer c s u) else .notFound) := by
        refine ⟨fuel,fun n hn => ?_⟩
        rw [hread,if_neg hhead,if_pos hbegin]
        exact hfuel n hn
      refine ⟨_,hreturns,?_⟩
      by_cases hfound : s.beginAddress≤u
      · have hon := onChain_visits he (ht.trans (hu.visits h.beginAddress)) (h.beginAddress.trans_le hfound)
        rw [if_pos hfound]
        exact .disk ⟨⟨hon,hu.holds hfound⟩,fun k hk => hmatch k hk.1 hk.2⟩ (by omega) hfound
      · rw [if_neg hfound]
        refine .nothing fun k hk hm => ?_
        have := hmatch k hk hm
        omega
    · refine ⟨.notFound,⟨0,fun n _ => ?_⟩,.nothing fun k hk hm => ?_⟩
      · rw [hread,if_neg hhead,if_neg hbegin]
      · have := hle k hk hm
        omega

theorem Newest.expected_iff (hm : Newest c s m) (hbegin : s.beginAddress ≤ m) :
    Expected c s out ↔ out=.get (payload s.mem (getRecord s.mem m)) := by
  constructor
  · intro h
    exact h.found m ⟨⟨hm.1.1,hbegin,hm.1.2⟩,fun k hk => hm.2 ⟨hk.1,hk.2.2⟩⟩
  · rintro rfl
    refine ⟨fun m' hm' => ?_,fun hnone => absurd hm.1.2 (hnone m hm.1.1 hbegin)⟩
    have hge : m ≤ m' := hm'.2 ⟨hm.1.1,hbegin,hm.1.2⟩
    have hle : m' ≤ m := hm.2 ⟨hm'.1.1,hm'.1.2.2⟩
    rw [le_antisymm hle hge]

/-- Nothing is expected when all matches are truncated. -/
theorem expected_iff_notFound (h : ∀ k, OnChain s k → Matches c s k → k<s.beginAddress) :
    Expected c s out ↔ out=.notFound := by
  constructor
  · intro hexp
    refine hexp.missed fun k hk hle hm => ?_
    have := h k hk hm
    omega
  · rintro rfl
    refine ⟨fun m hm => ?_,fun _ => rfl⟩
    have := h m hm.1.1 hm.1.2.2
    have := hm.1.2.1
    omega

/-- A read from disk delivers the payload of the record only if the record is not truncated
and the last buffer shows it. -/
theorem delivered_eq_iff : delivered s (getRecord s.mem m) (validPointer c s m) =
      .get (payload s.mem (getRecord s.mem m)) ↔ s.beginAddress≤getRecord s.mem m ∧
      (Reread c s m ∨ payload s.mem m=payload s.mem (getRecord s.mem m)) := by
  unfold delivered validPointer
  by_cases hbegin : s.beginAddress≤getRecord s.mem m
  · rw [if_pos hbegin]
    by_cases hreread : Reread c s m
    · rw [if_pos hreread]
      exact ⟨fun _ => ⟨hbegin,.inl hreread⟩,fun _ => rfl⟩
    · rw [if_neg hreread,Outcome.get.injEq]
      exact ⟨fun heq => ⟨hbegin,.inr heq⟩,fun h => h.2.resolve_left hreread⟩
  · rw [if_neg hbegin]
    exact ⟨fun heq => Outcome.noConfusion heq,fun h => absurd h.1 hbegin⟩

theorem Newest.forall_iff (hm : Newest c s m) {q : ℕ → Prop} : (∀ m', Newest c s m' → q m') ↔ q m := by
  constructor
  · intro h
    exact h m hm
  · intro h m' hm'
    rw [hm'.unique hm]
    exact h

/-- What a read ends with is what is expected of it exactly when the newest match is one at
which the ways of `Read` agree. -/
theorem Ending.expected_iff (h : Ending c s out) : Expected c s out ↔ ∀ m, Newest c s m → Agrees c s m := by
  cases h with
  | @memory m hm hhead =>
    rw [hm.forall_iff,Agrees,if_pos hhead]
    by_cases hbegin : s.beginAddress ≤ m
    · rw [hm.expected_iff hbegin]
      exact ⟨fun _ => hbegin,fun _ => rfl⟩
    · have hnone : ∀ k, OnChain s k → Matches c s k → k<s.beginAddress := by
        intro k hk hmatch
        have hle : k ≤ m := hm.2 ⟨hk,hmatch⟩
        omega
      rw [expected_iff_notFound hnone]
      exact ⟨fun heq => Outcome.noConfusion heq,fun hle => absurd hle hbegin⟩
  | @disk m hm hhead hbegin =>
    rw [hm.forall_iff,hm.expected_iff hbegin,delivered_eq_iff,Agrees,if_neg (by omega)]
    exact ⟨fun h _ => h,fun h => h hbegin⟩
  | nothing hnone =>
    rw [expected_iff_notFound fun k hk hm => (hnone k hk hm).1]
    refine ⟨fun _ m hm => ?_,fun _ => rfl⟩
    have hlt := hnone m hm.1.1 hm.1.2
    rw [Agrees,if_neg (by omega)]
    intro hle
    omega

/-- A chain of one key pointer. -/
theorem onChain_single (he : s.entry=some a) (hprev : prevAddress s.mem a=kInvalidAddress) {k : ℕ}
    (hk : OnChain s k) : k=a := by
  rcases Relation.ReflTransGen.cases_head (visits_onChain he hk) with rfl | ⟨d,⟨_,rfl⟩,hr⟩
  · rfl
  · have heq := Visits.eq_of_le hr hprev.le
    have := hk.1
    omega

end

/-- A record with one key pointer and the payload `abc`, as its bytes. -/
def abc : List ℕ :=
  wordBytes (RecordInfo.control ⟨1, 3, 0, 1, false, false, true⟩) ++
    wordBytes (1 + kInvalidAddress * 2 ^ 16) ++ wordBytes (7 + 2 ^ 32) ++ [97, 98, 99]

/-- A log with this one record at an address. -/
def logOf (record headAddress : ℕ) : Log :=
  ⟨store (fun _ => 0) record abc, 64, headAddress, some (record + sizeofRecordInfo)⟩

/-- A disk with sectors of 512 bytes, and a check for PSF 7 with value 1. -/
def psfSeven : Setting := ⟨fun mem kpt => word mem (kpt + 8) == 7 + 2 ^ 32, fun _ => true, 5, 100, 512⟩

theorem wellFormed_logOf {record headAddress : ℕ} (hhead : 64≤headAddress)
    (haddress : record+sizeofRecordInfo≤FullScan.kMaxAddress)
    (hprev : prevAddress (logOf record headAddress).mem (record+sizeofRecordInfo)=kInvalidAddress)
    (hptr : ptrOffset (logOf record headAddress).mem (record+sizeofRecordInfo)=8) :
    WellFormed psfSeven (logOf record headAddress) := by
  have hlow : kInvalidAddress<64 := by decide
  refine ⟨by decide,hlow,hlow.trans_le hhead,?_,?_,?_⟩
  · intro kpt hk
    obtain rfl := onChain_single rfl hprev hk
    rw [hprev]
    unfold kInvalidAddress sizeofRecordInfo
    omega
  · intro kpt hk
    obtain rfl := onChain_single rfl hprev hk
    rw [hptr]
    unfold sizeofRecordInfo
    omega
  · intro kpt hk
    obtain rfl := onChain_single rfl hprev hk
    exact haddress

end FishStore.ReadPaths
