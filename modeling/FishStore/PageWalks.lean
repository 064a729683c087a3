import FishStore.BlockAllocate
import FishStore.FullScan
import FishStore.Tilings

/-!
# The records of a page

`InternalInsert` writes the header of a record first, marked invalid, then the payload
and the options, then the key pointers, and last the header once more. Nothing else marks
where a record begins: `InternalFullScan` and `RecoverFromPage` go from the start of a
page over headers and empty words.

Threads insert in any interleaving, each atomic access to the tail and each of the writes
a step of its own. Memory is given by log addresses and is zero at first, as the frames
are when the tail comes to them. A key pointer of a record may be altered at any time, as
its chain changes. Space stays empty when the address of a reservation lies below the
read-only address, as long as its header is not written, and at the end of a page.
-/

namespace FishStore.PageWalks

open Layout LogRecords Runs Segments Tilings BlockAllocate FullScan
open Function (update update_of_ne update_self)

/-- What `InternalInsert` is called with. -/
structure Insertion where
  /-- `thread_ctx().version`. -/
  version : ℕ
  /-- `kpts.size()`. -/
  ptrCnt : ℕ
  payload : List ℕ
  /-- The options, one behind the other. -/
  options : List ℕ
  deriving DecidableEq

/-- The header of the record, as it is written first and last. -/
def Insertion.header (r : Insertion) (invalid : Bool) : RecordInfo :=
  ⟨r.ptrCnt, r.payload.length, r.options.length, r.version, invalid, false, true⟩

/-- The size that is allocated. -/
def Insertion.size (r : Insertion) : ℕ := recordSize r.ptrCnt r.payload.length r.options.length

/-- The sizes of the record fit the fields of the header. -/
structure Insertion.Fits (r : Insertion) : Prop where
  ptrCnt : r.ptrCnt < 2 ^ 15
  payload : r.payload.length < 2 ^ 25
  options : r.options.length < 2 ^ 8

instance (r : Insertion) : Decidable r.Fits :=
  decidable_of_iff (r.ptrCnt < 2 ^ 15 ∧ r.payload.length < 2 ^ 25 ∧ r.options.length < 2 ^ 8)
    ⟨fun h => ⟨h.1, h.2.1, h.2.2⟩, fun h => ⟨h.1, h.2, h.3⟩⟩

/-- Where `Record::payload()` of the record at `a` begins. -/
def Insertion.payloadAddress (r : Insertion) (a : ℕ) : ℕ :=
  a + sizeofRecordInfo + sizeofKeyPointer * r.ptrCnt

/-- Where a call of `InternalInsert` stands. -/
inductive Pc
  | idle
  /-- In `BlockAllocate`. -/
  | allocate (r : Insertion)
  /-- The header is about to be written. -/
  | header (r : Insertion) (a : ℕ)
  | payload (r : Insertion) (a : ℕ)
  | options (r : Insertion) (a : ℕ)
  /-- The key pointer with the index is about to be written; behind the last one, the
  record is about to become visible. -/
  | keyPointer (r : Insertion) (a i : ℕ)
  deriving DecidableEq

/-- The log and the threads. -/
structure State where
  tail : BlockAllocate.State
  /-- The bytes of the log. -/
  mem : Bytes
  /-- `retval` of `BlockAllocate`. -/
  retval : ℕ → ℕ
  pc : ℕ → Pc
  /-- History: the records whose header has been written. -/
  written : List (ℕ × Insertion)

/-- The thread moves on. -/
def State.goto (s : State) (t : ℕ) (pc : Pc) : State := { s with pc := update s.pc t pc }

/-- Bytes are copied to an address. -/
def State.put (s : State) (a : ℕ) (bytes : List ℕ) : State := { s with mem := store s.mem a bytes }

/-- What `Allocate` returns, when the thread is about to reserve. -/
def returned (s : State) (t : ℕ) : ℕ :=
  match s.tail.pc t with
  | .reserve size =>
    if offsetOf s.tail.control + size > kPageSize then kInvalidAddress
    else address (pageOf s.tail.control) (offsetOf s.tail.control)
  | _ => s.retval t

/-- The state after a step of `BlockAllocate`, which has returned when the thread has left it. -/
def State.allocated (s : State) (t : ℕ) (r : Insertion) (tail : BlockAllocate.State) : State :=
  { s with tail, retval := update s.retval t (returned s t) }.goto t
    (if tail.pc t = BlockAllocate.Pc.idle then .header r (returned s t) else .allocate r)

/-- One write of `InternalInsert`; the bytes are those of a key pointer. -/
def write (s : State) (t : ℕ) (bytes : List ℕ) : Pc → Option State
  | .header r a =>
    some ({ s.put a (wordBytes (r.header true).control) with written := (a, r) :: s.written }.goto t
      (.payload r a))
  | .payload r a => some ((s.put (r.payloadAddress a) r.payload).goto t (.options r a))
  | .options r a =>
    some ((s.put (r.payloadAddress a + r.payload.length) r.options).goto t (.keyPointer r a 0))
  | .keyPointer r a i =>
    if i < r.ptrCnt then
      if bytes.length = sizeofKeyPointer then
        some ((s.put (kptAddress a i) bytes).goto t (.keyPointer r a (i + 1)))
      else none
    else some ((s.put a (wordBytes (r.header false).control)).goto t .idle)
  | _ => none

/-- What may happen next. -/
inductive Act
  /-- Call `InternalInsert`. -/
  | insert (r : Insertion)
  /-- A step of `BlockAllocate`. -/
  | allocate (yes : Bool)
  /-- A write of `InternalInsert`. -/
  | write (bytes : List ℕ)
  /-- Set the control word of the key pointer of a record. -/
  | alter (a : ℕ) (r : Insertion) (i control : ℕ)
  deriving DecidableEq

/-- A step of one of the threads. -/
structure Label where
  thread : ℕ
  act : Act
  deriving DecidableEq

/-- One step of an execution. -/
def step (s : State) (l : Label) : Option State :=
  match l.act with
  | .insert r =>
    if s.pc l.thread = .idle ∧ r.Fits then
      (BlockAllocate.step s.tail ⟨l.thread, .blockAllocate r.size⟩).map fun tail =>
        { s with tail }.goto l.thread (.allocate r)
    else none
  | .allocate yes =>
    match s.pc l.thread with
    | .allocate r =>
      (BlockAllocate.step s.tail ⟨l.thread, .step yes⟩).map (s.allocated l.thread r)
    | _ => none
  | .write bytes => write s l.thread bytes (s.pc l.thread)
  | .alter a r i control =>
    if (a, r) ∈ s.written ∧ i < r.ptrCnt then some (s.put (kptAddress a i) (wordBytes control))
    else none

/-- A log into which nothing has been inserted. -/
def initial : State := ⟨BlockAllocate.initial, fun _ => 0, fun _ => 0, fun _ => .idle, []⟩

/-- The executions of the threads. -/
def machine : Machine State Label := ⟨fun s => s = initial, step⟩

/-- The bytes of a page. -/
def pageBytes (mem : Bytes) (page : ℕ) : Bytes := fun o => mem (address page o)

/-- The walk over a page: behind an empty word, or behind the record. -/
def pageWalk (mem : Bytes) (page stop fuel : ℕ) : Option (List ℕ) :=
  walk (next (pageBytes mem page)) stop fuel 0

/-- The walk over a page returns; it comes to each of the records, and to no other place
where the header is not null. -/
def SeesRecords (s : State) (page stop : ℕ) : Prop :=
  ∃ l, (∀ more, pageWalk s.mem page stop (stop + more + 1) = some l) ∧ l.Nodup ∧
    (∀ w ∈ s.written, Layout.page w.1 = page → offset w.1 < stop → offset w.1 ∈ l) ∧
    ∀ o ∈ l, word (pageBytes s.mem page) o ≠ 0 → ∃ w ∈ s.written, w.1 = address page o

/-- The space of a record. -/
def block (w : ℕ × Insertion) : ℕ × ℕ := (w.1, w.2.size)

/-- The space that a thread has reserved and not written to, by where its calls of
`InternalInsert` and `BlockAllocate` stand. -/
def heldBy (retval : ℕ) : Pc → BlockAllocate.Pc → Option (ℕ × ℕ)
  | .allocate _, .compare size => some (retval, size)
  | .header r a, _ => some (a, r.size)
  | _, _ => none

def held (s : State) (t : ℕ) : Option (ℕ × ℕ) := heldBy (s.retval t) (s.pc t) (s.tail.pc t)

/-- What holds of the space of a record, wherever the tail is. -/
structure BlockOk (b : ℕ × ℕ) : Prop where
  size : Request b.2
  aligned : 8 ∣ b.1
  inPage : Layout.page (b.1 + b.2 - 1) = Layout.page b.1

/-- The end of the space that has been given out. -/
def limit (tail : BlockAllocate.State) : ℕ := address tail.page (min tail.added kPageSize)

/-- The size that a call of `BlockAllocate` asks for. -/
def sizeOfCall : BlockAllocate.Pc → Option ℕ
  | .idle => none
  | .reserve size => some size
  | .compare size => some size
  | .full size _ => some size
  | .load size _ => some size
  | .swap size _ _ => some size

/-- What holds of a call of `InternalInsert`. -/
def CallOk (s : State) (t : ℕ) : Pc → Prop
  | .idle => s.tail.pc t = .idle
  | .allocate r => sizeOfCall (s.tail.pc t) = some r.size ∧ r.Fits
  | .header r _ => s.tail.pc t = .idle ∧ r.Fits
  | .payload r a => s.tail.pc t = .idle ∧ (a, r) ∈ s.written
  | .options r a => s.tail.pc t = .idle ∧ (a, r) ∈ s.written
  | .keyPointer r a _ => s.tail.pc t = .idle ∧ (a, r) ∈ s.written

/-- What the bytes of the log have to do with the records. -/
structure MemoryOk (mem : Bytes) (written : List (ℕ × Insertion)) : Prop where
  /-- There is nothing outside of the records. -/
  zero : ∀ x, mem x ≠ 0 → ∃ w ∈ written, w.1 ≤ x ∧ x < w.1 + w.2.size
  header : ∀ w ∈ written, ∃ invalid, word mem w.1 = (w.2.header invalid).control

/-- The invariant of the log. -/
structure Inv (s : State) : Prop where
  tail : TailInv s.tail
  calls : ∀ t, CallOk s t (s.pc t)
  blocks : Reserved BlockOk (limit s.tail) (held s) (s.written.map block)
  fits : ∀ w ∈ s.written, w.2.Fits
  memory : MemoryOk s.mem s.written

section

variable {s s' : State} {t u page stop : ℕ} {r : Insertion} {a : ℕ}

theorem goto_self (s : State) (t : ℕ) (p : Pc) : (s.goto t p).pc t=p := update_self _ _ _

theorem goto_of_ne {p : Pc} (hu : u ≠ t) : (s.goto t p).pc u=s.pc u := update_of_ne hu _ _

theorem dvd_size (hr : r.Fits) : 8 ∣ r.size := by
  unfold Insertion.size
  rw [recordSize_eq hr.ptrCnt hr.payload hr.options]
  exact ⟨_,mul_comm _ _⟩

theorem le_size (hr : r.Fits) : 8+16*r.ptrCnt+r.payload.length+r.options.length≤r.size :=
  le_recordSize hr.ptrCnt hr.payload hr.options

/-- The size of a record is read back from its header, whatever the version. -/
theorem size_ofControl (hr : r.Fits) (invalid : Bool) : (RecordInfo.ofControl (r.header invalid).control).size=r.size := by
  have hcontrol : (r.header invalid).control = { r.header invalid with checkpointVersion := r.version%2^13 }.control := by
    unfold RecordInfo.control Insertion.header
    dsimp only
    rw [Nat.mod_mod]
  rw [hcontrol,ofControl_control]
  · rfl
  · exact hr.ptrCnt
  · exact hr.payload
  · exact hr.options
  · exact Nat.mod_lt _ (by norm_num)

/-- The space given out before is given out after each step. -/
theorem limit_le {tail tail' : BlockAllocate.State} (h : BlockAllocate.Later tail tail') : limit tail≤limit tail' := by
  unfold limit address
  rcases h with hlt | ⟨heq,hle⟩
  · have hmul := Nat.mul_le_mul_right kPageSize (Nat.succ_le_of_lt hlt)
    rw [Nat.succ_mul] at hmul
    omega
  · rw [heq]
    omega

/-- What a step of `BlockAllocate` does for its thread: it reserves, it returns, or it
goes on without an address. -/
theorem tail_step {tail tail' : BlockAllocate.State} {yes : Bool} (hs : BlockAllocate.step tail ⟨t,.step yes⟩=some tail') :
    (∀ u, u ≠ t → tail'.pc u=tail.pc u) ∧ ∃ n, sizeOfCall (tail.pc t)=some n ∧
      (tail.pc t=.reserve n ∧ offsetOf tail.control+n≤kPageSize ∧ tail'.pc t=.compare n ∧
          (address (pageOf tail.control) (offsetOf tail.control), n) ∈ tail'.granted ∨
        tail.pc t=.compare n ∧ tail'.pc t=.idle ∨ sizeOfCall (tail'.pc t)=some n ∧ ∀ m, tail'.pc t ≠ .compare m) := by
  obtain ⟨-,hs⟩ := Option.ite_none_right_eq_some.mp hs
  dsimp only at hs
  cases hpc : tail.pc t with
  | idle =>
    rw [hpc] at hs
    cases hs
  | reserve size =>
    rw [hpc] at hs
    simp only [callStep] at hs
    split_ifs at hs with hfull <;> cases hs
    · refine ⟨fun u hu => BlockAllocate.goto_of_ne hu,size,rfl,.inr (.inr ?_)⟩
      rw [BlockAllocate.goto_self]
      exact ⟨rfl,fun m h => BlockAllocate.Pc.noConfusion h⟩
    · refine ⟨fun u hu => BlockAllocate.goto_of_ne hu,size,rfl,.inl ⟨rfl,not_lt.mp hfull,?_,?_⟩⟩
      · exact BlockAllocate.goto_self _ _ _
      · exact List.mem_cons_self
  | compare size =>
    rw [hpc] at hs
    cases hs
    refine ⟨fun u hu => BlockAllocate.goto_of_ne hu,size,rfl,.inr ?_⟩
    rw [BlockAllocate.goto_self]
    cases yes with
    | false => exact .inl ⟨rfl,rfl⟩
    | true => exact .inr ⟨rfl,fun m h => BlockAllocate.Pc.noConfusion h⟩
  | full size page =>
    rw [hpc] at hs
    simp only [callStep] at hs
    split_ifs at hs <;> cases hs
    · refine ⟨fun u hu => BlockAllocate.goto_of_ne hu,size,rfl,.inr (.inr ?_)⟩
      rw [BlockAllocate.goto_self]
      exact ⟨rfl,fun m h => BlockAllocate.Pc.noConfusion h⟩
    · refine ⟨fun u _ => rfl,size,rfl,.inr (.inr ?_)⟩
      rw [hpc]
      exact ⟨rfl,fun m h => BlockAllocate.Pc.noConfusion h⟩
  | load size page =>
    rw [hpc] at hs
    cases hs
    refine ⟨fun u hu => BlockAllocate.goto_of_ne hu,size,rfl,.inr (.inr ?_)⟩
    rw [BlockAllocate.goto_self]
    split_ifs <;> exact ⟨rfl,fun m h => BlockAllocate.Pc.noConfusion h⟩
  | swap size page expected =>
    rw [hpc] at hs
    simp only [callStep] at hs
    split_ifs at hs <;> cases hs <;>
    · refine ⟨fun u hu => BlockAllocate.goto_of_ne hu,size,rfl,.inr (.inr ?_)⟩
      rw [BlockAllocate.goto_self]
      exact ⟨rfl,fun m h => BlockAllocate.Pc.noConfusion h⟩

theorem held_congr (hpc : s'.pc u=s.pc u) (htail : s'.tail.pc u=s.tail.pc u)
    (hret : s'.retval u=s.retval u) : held s' u=held s u := by
  unfold held
  rw [hpc,htail,hret]

/-- A call that does not move keeps what holds of it. -/
theorem CallOk.congr {p : Pc} (h : CallOk s u p) (htail : s'.tail.pc u=s.tail.pc u)
    (hwritten : ∀ w ∈ s.written, w ∈ s'.written) : CallOk s' u p := by
  cases p with
  | idle => exact htail.trans h
  | allocate r => exact ⟨(congrArg sizeOfCall htail).trans h.1,h.2⟩
  | header r a => exact ⟨htail.trans h.1,h.2⟩
  | payload r a | options r a | keyPointer r a i => exact ⟨htail.trans h.1,hwritten _ h.2⟩

/-- The space that a thread holds was given out by the allocator. -/
theorem blockOk_of_granted (h : TailInv s.tail) {b : ℕ × ℕ} (hb : b ∈ s.tail.granted) : BlockOk b ∧ b.1+b.2≤limit s.tail :=
  ⟨⟨(h.ranges b hb).size,(h.ranges b hb).aligned,(h.ranges b hb).inPage⟩,(h.ranges b hb).below⟩

section

variable (h : Inv s)

include h

/-- A step of `BlockAllocate`. -/
theorem Inv.allocated (hpc : s.pc t=.allocate r) {yes : Bool} {tail : BlockAllocate.State}
    (hs : BlockAllocate.step s.tail ⟨t,.step yes⟩=some tail) : Inv (s.allocated t r tail) := by
  obtain ⟨htail,hlater⟩ := h.tail.step hs
  obtain ⟨hother,n,hn,hcases⟩ := tail_step hs
  have hcall := h.calls t
  rw [hpc] at hcall
  obtain ⟨hsize,hfits⟩ := hcall
  obtain rfl : n=r.size := Option.some.inj (hn.symm.trans hsize)
  have hpcs : ∀ u, u ≠ t → (s.allocated t r tail).pc u=s.pc u := fun u hu => goto_of_ne hu
  have hheld : ∀ u c, u ≠ t → held (s.allocated t r tail) u=some c → held s u=some c := by
    intro u c hu hc
    rwa [held_congr (hpcs u hu) (hother u hu) (update_of_ne hu _ _)] at hc
  have hcalls : ∀ {p}, (s.allocated t r tail).pc t=p → CallOk (s.allocated t r tail) t p →
      ∀ u, CallOk (s.allocated t r tail) u ((s.allocated t r tail).pc u) := by
    intro p hp hok u
    by_cases hu : u=t
    · rw [hu,hp]
      exact hok
    · rw [hpcs u hu]
      exact (h.calls u).congr (hother u hu) fun _ hw => hw
  rcases hcases with ⟨hres,hfit,hcmp,hgranted⟩ | ⟨hcmp,hidle⟩ | ⟨hgo,hncmp⟩
  · -- A new block, which begins where the given out space ends.
    have hp : (s.allocated t r tail).pc t=.allocate r := by
      refine (goto_self _ _ _).trans (if_neg ?_)
      rw [hcmp]
      exact fun h => BlockAllocate.Pc.noConfusion h
    have hret : returned s t=address s.tail.page s.tail.added := by
      unfold returned
      rw [hres]
      dsimp only
      rw [if_neg (not_lt.mpr hfit),h.tail.pageOf_eq,h.tail.offsetOf_eq]
    have hnew : held (s.allocated t r tail) t = some (address s.tail.page s.tail.added, r.size) := by
      change heldBy (update s.retval t (returned s t) t) _ (tail.pc t)=_
      rw [hp,hcmp,update_self,hret]
      rfl
    rw [h.tail.pageOf_eq,h.tail.offsetOf_eq] at hgranted
    obtain ⟨hok,hend⟩ := blockOk_of_granted (s := s.allocated t r tail) htail hgranted
    refine ⟨htail,hcalls hp ⟨?_,hfits⟩,h.blocks.reserve hok ?_ hend hnew hheld,h.fits,h.memory⟩
    · exact congrArg sizeOfCall hcmp
    · exact Nat.add_le_add_left (min_le_left _ _) _
  · -- The block that is held already is returned.
    have hret : returned s t=s.retval t := by
      unfold returned
      rw [hcmp]
    have hp : (s.allocated t r tail).pc t=.header r (s.retval t) := by
      refine (goto_self _ _ _).trans ((if_pos hidle).trans ?_)
      rw [hret]
    refine ⟨htail,hcalls hp ⟨hidle,hfits⟩,h.blocks.mono (limit_le hlater) fun u c hc => ?_, h.fits,h.memory⟩
    by_cases hu : u=t
    · subst hu
      unfold held at hc ⊢
      rw [hp] at hc
      rw [hpc,hcmp]
      exact hc
    · exact hheld u c hu hc
  · -- The thread holds nothing now.
    have hp : (s.allocated t r tail).pc t=.allocate r := by
      refine (goto_self _ _ _).trans (if_neg fun hidle => ?_)
      rw [hidle] at hgo
      cases hgo
    refine ⟨htail,hcalls hp ⟨hgo,hfits⟩,h.blocks.mono (limit_le hlater) fun u c hc => ?_, h.fits,h.memory⟩
    by_cases hu : u=t
    · subst hu
      have hnone : held (s.allocated u r tail) u=none := by
        change heldBy _ ((s.allocated u r tail).pc u) (tail.pc u)=none
        rw [hp]
        cases htp : tail.pc u with
        | compare m => exact absurd htp (hncmp m)
        | _ => rfl
      rw [hnone] at hc
      cases hc
    · exact hheld u c hu hc

/-- A call of `InternalInsert`, which holds nothing yet. -/
theorem Inv.inserted (hidle : s.pc t=.idle) (hr : r.Fits) {tail : BlockAllocate.State}
    (hs : BlockAllocate.step s.tail ⟨t,.blockAllocate r.size⟩=some tail) :
    Inv ({ s with tail }.goto t (.allocate r)) := by
  obtain ⟨htail,hlater⟩ := h.tail.step hs
  obtain ⟨-,hs⟩ := Option.ite_none_right_eq_some.mp hs
  obtain ⟨-,rfl⟩ := of_guard hs
  refine ⟨htail,fun u => ?_,h.blocks.mono (limit_le hlater) fun u c hc => ?_,h.fits,h.memory⟩
  · by_cases hu : u=t
    · rw [hu,goto_self]
      refine ⟨?_,hr⟩
      change sizeOfCall ((s.tail.goto t (.reserve r.size)).pc t)=_
      rw [BlockAllocate.goto_self]
      rfl
    · rw [goto_of_ne hu]
      exact (h.calls u).congr (BlockAllocate.goto_of_ne hu) fun _ hw => hw
  · by_cases hu : u=t
    · subst hu
      change heldBy _ (update s.pc u _ u) ((s.tail.goto u (.reserve r.size)).pc u)=_ at hc
      rw [update_self,BlockAllocate.goto_self] at hc
      cases hc
    · change heldBy _ (update s.pc t _ u) ((s.tail.goto t (.reserve r.size)).pc u)=_ at hc
      rwa [update_of_ne hu,BlockAllocate.goto_of_ne hu] at hc

/-- A thread that holds nothing moves on to where it holds nothing. -/
theorem Inv.goto {p : Pc} (hok : CallOk s t p) (hp : heldBy (s.retval t) p (s.tail.pc t)=none) : Inv (s.goto t p) := by
  refine ⟨h.tail,fun u => ?_,h.blocks.mono le_rfl fun u c hc => ?_,h.fits,h.memory⟩
  · by_cases hu : u=t
    · rw [hu,goto_self]
      exact hok.congr rfl fun _ hw => hw
    · rw [goto_of_ne hu]
      exact (h.calls u).congr rfl fun _ hw => hw
  · by_cases hu : u=t
    · subst hu
      change heldBy _ (update s.pc u p u) _=_ at hc
      rw [update_self] at hc
      cases hp.symm.trans hc
    · rwa [held_congr (goto_of_ne hu) rfl rfl] at hc

omit h in
/-- Bytes stored into the records. -/
theorem zero_store {mem : Bytes} {o : ℕ} {bytes : List ℕ} {written : List (ℕ × Insertion)}
    (h : ∀ x, mem x ≠ 0 → ∃ w ∈ written, w.1≤x ∧ x<w.1+w.2.size)
    (hin : ∀ x, o≤x → x<o+bytes.length → ∃ w ∈ written, w.1≤x ∧ x<w.1+w.2.size)
    (x : ℕ) (hx : store mem o bytes x ≠ 0) : ∃ w ∈ written, w.1≤x ∧ x<w.1+w.2.size := by
  by_cases hlt : x<o
  · rw [store_of_lt hlt] at hx
    exact h x hx
  · by_cases hge : o+bytes.length≤x
    · rw [store_of_ge hge] at hx
      exact h x hx
    · exact hin x (by omega) (by omega)

omit h in
theorem Inv.mem_blocks {w : ℕ × Insertion} (hw : w ∈ s.written) :
    (w.1, w.2.size) ∈ s.written.map block := List.mem_map_of_mem hw

/-- Different records are written to different addresses. -/
theorem Inv.eq_of_address {w w' : ℕ × Insertion} (hw : w ∈ s.written)
    (hw' : w' ∈ s.written) (heq : w.1=w'.1) : w=w' := by
  have hsymm : Std.Symm fun w w' : ℕ × Insertion => Apart (block w) (block w') := ⟨fun _ _ => Or.symm⟩
  by_contra hne
  have hapart := (List.pairwise_map.mp h.blocks.taken_taken).forall hw hw' hne
  have hle := le_size (h.fits w hw)
  have hle' := le_size (h.fits w' hw')
  unfold Apart block at hapart
  dsimp only at hapart
  omega

/-- A record of a lower address ends before the record. -/
theorem Inv.add_le {w w' : ℕ × Insertion} (hw : w ∈ s.written)
    (hw' : w' ∈ s.written) (hlt : w.1<w'.1) : w.1+w.2.size≤w'.1 :=
  h.blocks.add_le (Inv.mem_blocks hw) (Inv.mem_blocks hw') hlt

/-- The header of a record. -/
theorem Inv.header (hpc : s.pc t=.header r a) :
    Inv ({ s.put a (wordBytes (r.header true).control) with written := (a, r)::s.written }.goto t
      (.payload r a)) := by
  have hcall := h.calls t
  rw [hpc] at hcall
  obtain ⟨hidle,hfits⟩ := hcall
  have hheld : held s t=some (a, r.size) := by
    unfold held
    rw [hpc]
    rfl
  have hsize := le_size hfits
  refine ⟨h.tail,fun u => ?_,h.blocks.take hheld ?_ fun u c hu hc => ?_,fun w hw => ?_,?_,?_⟩
  · by_cases hu : u=t
    · rw [hu,goto_self]
      exact ⟨hidle,List.mem_cons_self⟩
    · rw [goto_of_ne hu]
      exact (h.calls u).congr rfl fun _ hw => List.mem_cons_of_mem _ hw
  · change heldBy _ (update s.pc t _ t) _=_
    rw [update_self]
    rfl
  · rwa [held_congr (goto_of_ne hu) rfl rfl] at hc
  · rcases List.mem_cons.mp hw with rfl | hw
    · exact hfits
    · exact h.fits w hw
  · refine zero_store (fun x hx => ?_) fun x hle hlt => ?_
    · obtain ⟨w,hw,hxw⟩ := h.memory.zero x hx
      exact ⟨w,List.mem_cons_of_mem _ hw,hxw⟩
    · rw [wordBytes_length] at hlt
      exact ⟨(a, r),List.mem_cons_self,hle,by dsimp only; omega⟩
  · intro w hw
    rcases List.mem_cons.mp hw with rfl | hw
    · exact ⟨true,word_store_word (control_lt _)⟩
    · obtain ⟨invalid,hword⟩ := h.memory.header w hw
      refine ⟨invalid,(word_store_of_disjoint ?_).trans hword⟩
      have hapart := h.blocks.held_taken t _ hheld _ (Inv.mem_blocks hw)
      have hle := le_size (h.fits w hw)
      rw [wordBytes_length]
      unfold Apart at hapart
      dsimp only at hapart
      omega

/-- Bytes behind the header of a record. -/
theorem Inv.put (o : ℕ) (bytes : List ℕ) (hw : (a, r) ∈ s.written) (ho : a+8≤o)
    (hend : o+bytes.length≤a+r.size) : Inv (s.put o bytes) := by
  refine ⟨h.tail,fun u => (h.calls u).congr rfl fun _ hw => hw,h.blocks,h.fits,?_,fun w hw' => ?_⟩
  · refine zero_store h.memory.zero fun x hle hlt => ⟨(a, r),hw,?_,?_⟩
    · exact (Nat.le_add_right a 8).trans (ho.trans hle)
    · exact hlt.trans_le hend
  · obtain ⟨invalid,hword⟩ := h.memory.header w hw'
    refine ⟨invalid,(word_store_of_disjoint ?_).trans hword⟩
    have hsize := le_size (h.fits w hw')
    rcases Nat.lt_trichotomy w.1 a with hlt | heq | hlt
    · have := h.add_le hw' hw hlt
      omega
    · omega
    · have := h.add_le hw hw' hlt
      dsimp only at this
      omega

/-- The header of a record is written once more. -/
theorem Inv.reveal (hw : (a, r) ∈ s.written) : Inv (s.put a (wordBytes (r.header false).control)) := by
  have hsize := le_size (h.fits _ hw)
  dsimp only at hsize
  refine ⟨h.tail,fun u => (h.calls u).congr rfl fun _ hw => hw,h.blocks,h.fits,?_,fun w hw' => ?_⟩
  · refine zero_store h.memory.zero fun x hle hlt => ⟨(a, r),hw,hle,?_⟩
    rw [wordBytes_length] at hlt
    dsimp only
    omega
  · by_cases heq : w.1=a
    · obtain rfl : w=(a, r) := h.eq_of_address hw' hw heq
      exact ⟨false,word_store_word (control_lt _)⟩
    · obtain ⟨invalid,hword⟩ := h.memory.header w hw'
      refine ⟨invalid,(word_store_of_disjoint ?_).trans hword⟩
      rw [wordBytes_length]
      have hle := le_size (h.fits w hw')
      rcases Nat.lt_or_gt_of_ne heq with hlt | hlt
      · have := h.add_le hw' hw hlt
        omega
      · have := h.add_le hw hw' hlt
        dsimp only at this
        omega

/-- Every write of `InternalInsert`. -/
theorem Inv.write {bytes : List ℕ} (hs : write s t bytes (s.pc t)=some s') : Inv s' := by
  have hcall := h.calls t
  cases hpc : s.pc t with
  | idle | allocate r =>
    rw [hpc] at hs
    cases hs
  | header r a =>
    rw [hpc] at hs
    cases hs
    exact h.header hpc
  | payload r a =>
    rw [hpc] at hs hcall
    cases hs
    have hsize := le_size (h.fits _ hcall.2)
    have hput := h.put (r.payloadAddress a) r.payload hcall.2 (by unfold Insertion.payloadAddress sizeofRecordInfo; omega)
      (by unfold Insertion.payloadAddress sizeofRecordInfo sizeofKeyPointer; dsimp only at hsize; omega)
    exact hput.goto hcall rfl
  | options r a =>
    rw [hpc] at hs hcall
    cases hs
    have hsize := le_size (h.fits _ hcall.2)
    have hput := h.put (r.payloadAddress a+r.payload.length) r.options hcall.2
      (by unfold Insertion.payloadAddress sizeofRecordInfo; omega)
      (by unfold Insertion.payloadAddress sizeofRecordInfo sizeofKeyPointer; dsimp only at hsize; omega)
    exact hput.goto hcall rfl
  | keyPointer r a i =>
    rw [hpc] at hs hcall
    simp only [PageWalks.write] at hs
    have hsize := le_size (h.fits _ hcall.2)
    split_ifs at hs with hi hlen <;> cases hs
    · have hput := h.put (kptAddress a i) bytes hcall.2 (by unfold kptAddress sizeofRecordInfo; omega)
        (by rw [hlen]; unfold kptAddress sizeofRecordInfo sizeofKeyPointer; dsimp only at hsize; omega)
      exact hput.goto hcall rfl
    · exact (h.reveal hcall.2).goto hcall.1 rfl

theorem Inv.step {l : Label} (hs : step s l=some s') : Inv s' := by
  cases hact : l.act with
  | insert r =>
    unfold PageWalks.step at hs
    rw [hact] at hs
    obtain ⟨⟨hidle,hr⟩,hs⟩ := Option.ite_none_right_eq_some.mp hs
    obtain ⟨tail,htail,rfl⟩ := Option.map_eq_some_iff.mp hs
    exact h.inserted hidle hr htail
  | allocate yes =>
    unfold PageWalks.step at hs
    rw [hact] at hs
    cases hpc : s.pc l.thread with
    | allocate r =>
      simp only [hpc] at hs
      obtain ⟨tail,htail,rfl⟩ := Option.map_eq_some_iff.mp hs
      exact h.allocated hpc htail
    | _ =>
      simp only [hpc] at hs
      cases hs
  | write bytes =>
    unfold PageWalks.step at hs
    rw [hact] at hs
    exact h.write hs
  | alter a r i control =>
    unfold PageWalks.step at hs
    rw [hact] at hs
    obtain ⟨⟨hw,hi⟩,rfl⟩ := of_guard hs
    have hsize := le_size (h.fits _ hw)
    refine h.put _ _ hw ?_ ?_
    · unfold kptAddress sizeofRecordInfo
      omega
    · rw [wordBytes_length]
      unfold kptAddress sizeofRecordInfo sizeofKeyPointer
      dsimp only at hsize
      omega

omit h in
theorem inv_initial : Inv initial := by
  refine ⟨BlockAllocate.tailInv_initial,fun t => rfl,⟨?_,?_,?_,?_,.nil⟩,?_,?_,?_⟩
  · rintro t b ⟨⟩
  · rintro b ⟨⟩
  · rintro t u b c - ⟨⟩
  · rintro t b ⟨⟩
  · rintro w ⟨⟩
  · intro x hx
    exact absurd rfl hx
  · rintro w ⟨⟩

omit h in
theorem reachable_inv (hs : Reachable machine anyStep s) : Inv s := by
  refine hs.invariant (P := Inv) ?_ ?_
  · rintro s rfl
    exact inv_initial
  · exact fun s l s' h _ hstep => h.step hstep

omit h in
/-- Words of a page are words of the log. -/
theorem word_pageBytes (mem : Bytes) (page o : ℕ) : word (pageBytes mem page) o=word mem (address page o) := by
  unfold word pageBytes address
  simp only [Nat.add_assoc]

/-- The space of a record lies in its page. -/
theorem Inv.blockOk {w : ℕ × Insertion} (hw : w ∈ s.written) : BlockOk (w.1, w.2.size) :=
  (h.blocks.taken_ok _ (Inv.mem_blocks hw)).1

omit h in
theorem page_of_between {w : ℕ × Insertion} (h : BlockOk (w.1, w.2.size)) {x : ℕ} (hle : w.1≤x)
    (hlt : x<w.1+w.2.size) : Layout.page x=Layout.page w.1 := by
  have hend := h.inPage
  unfold Layout.page at hend ⊢
  dsimp only at hend
  refine le_antisymm ?_ (Nat.div_le_div_right hle)
  rw [←hend]
  exact Nat.div_le_div_right (by omega)

/-- The record of which a word that is not null is a part. -/
theorem Inv.exists_record {o : ℕ} (ho : o<kPageSize) (hdvd : 8 ∣ o)
    (hword : word (pageBytes s.mem page) o ≠ 0) : ∃ w ∈ s.written, Layout.page w.1=page ∧
      offset w.1≤o ∧ o<offset w.1+w.2.size := by
  obtain ⟨i,hi,hbyte⟩ : ∃ i, i<8 ∧ pageBytes s.mem page (o+i) ≠ 0 := by
    by_contra hnot
    refine hword (word_of_zero fun i hi => ?_)
    by_contra hne
    exact hnot ⟨i,hi,hne⟩
  obtain ⟨w,hw,hle,hlt⟩ := h.memory.zero _ hbyte
  have hok := h.blockOk hw
  have hin : o+i<kPageSize := by
    have hpage : 8 ∣ kPageSize := by decide
    omega
  have hwp : Layout.page w.1=page := by rw [←page_of_between hok hle hlt,page_address hin]
  have haddr := address_page_offset w.1
  rw [hwp] at haddr
  have hoff : 8 ∣ offset w.1 := by
    unfold offset
    exact (Nat.dvd_mod_iff (by decide)).mpr hok.aligned
  have hdsize := dvd_size (h.fits w hw)
  refine ⟨w,hw,hwp,?_,?_⟩
  · rw [←haddr] at hle
    unfold address at hle
    omega
  · rw [←haddr] at hlt
    unfold address at hlt
    omega

/-- The records of a page are the blocks over which a walk goes. -/
theorem Inv.tiled (page : ℕ) : Tiled 8 kPageSize (next (pageBytes s.mem page)) fun o n =>
    ∃ w ∈ s.written, Layout.page w.1=page ∧ offset w.1=o ∧ w.2.size=n where
  pos := by norm_num
  lt_next := lt_next _
  aligned := by
    rintro o n ⟨w,hw,rfl,rfl,rfl⟩
    have hok := h.blockOk hw
    refine ⟨?_,hok.size.2.1,hok.size.1⟩
    unfold offset
    exact (Nat.dvd_mod_iff (by decide)).mpr hok.aligned
  disjoint := by
    rintro o n o' n' ⟨w,hw,hpage,rfl,rfl⟩ ⟨w',hw',hpage',rfl,rfl⟩ hlt
    have haddr := address_page_offset w.1
    have haddr' := address_page_offset w'.1
    rw [hpage] at haddr
    rw [hpage'] at haddr'
    unfold address at haddr haddr'
    have hle := h.add_le hw hw' (by omega)
    omega
  over_block := by
    rintro o n ⟨w,hw,rfl,rfl,rfl⟩
    obtain ⟨invalid,hword⟩ := h.memory.header w hw
    have hpage : word (pageBytes s.mem (Layout.page w.1)) (offset w.1) = (w.2.header invalid).control := by
      rw [word_pageBytes,address_page_offset]
      exact hword
    unfold next LogRecords.header
    rw [hpage,if_neg (control_ne_zero rfl),size_ofControl (h.fits w hw)]
  free := by
    intro o ho hdvd hfree
    by_cases hword : word (pageBytes s.mem page) o=0
    · exact next_of_word_zero hword
    · obtain ⟨w,hw,hpage,hle,hlt⟩ := h.exists_record ho hdvd hword
      exact absurd ⟨hle,hlt⟩ (hfree _ _ ⟨w,hw,hpage,rfl,rfl⟩)

theorem Inv.seesRecords (hstop : stop≤kPageSize) : SeesRecords s page stop := by
  have htiled := h.tiled page
  refine ⟨visited (next (pageBytes s.mem page)) stop stop 0,
    fun more => walk_eq (lt_next _) (by omega),visited_nodup (lt_next _),?_,?_⟩
  · intro w hw hpage hlt
    have hb : ∃ w' ∈ s.written, Layout.page w'.1=page ∧ offset w'.1=offset w.1 ∧ w'.2.size=w.2.size := ⟨w,hw,hpage,rfl,rfl⟩
    have hleads := htiled.leads_of_outside (hlt.le.trans hstop) (htiled.aligned _ _ hb).1 (htiled.start_outside hb)
    exact (mem_visited (lt_next _) (by omega)).mpr ⟨hleads,hlt⟩
  · intro o ho hword
    obtain ⟨hleads,hlt⟩ := (mem_visited (lt_next _) (by omega)).mp ho
    obtain ⟨hdvd,hout⟩ := (htiled.leads_iff (hlt.le.trans hstop)).mp hleads
    obtain ⟨w,hw,hpage,hle,hend⟩ := h.exists_record (hlt.trans_le hstop) hdvd hword
    -- The walk is not inside of the record, so it is at its start.
    have heq : offset w.1=o := by
      by_contra hne
      exact hout ⟨_,_,⟨w,hw,hpage,rfl,rfl⟩,by omega,hend⟩
    refine ⟨w,hw,?_⟩
    rw [←heq,←hpage,address_page_offset]

/-- Every record lies below the tail. -/
theorem Inv.lt_tail {w : ℕ × Insertion} (hw : w ∈ s.written) : w.1<getTailAddress s.tail.control := by
  have hend := (h.blocks.taken_ok _ (Inv.mem_blocks hw)).2
  have hsize := le_size (h.fits w hw)
  rw [h.tail.getTailAddress_eq]
  have hpage : kPageSize=kMaxOffset+1 := rfl
  unfold limit address at hend
  unfold address
  dsimp only at hend
  omega

/-- A walk over a page comes to the records, and to nothing else with a header. -/
theorem Inv.leads_iff (a : ℕ) : Leads (next (pageBytes s.mem (Layout.page a))) 0 (offset a) ∧
    word (pageBytes s.mem (Layout.page a)) (offset a) ≠ 0 ↔ ∃ r, (a, r) ∈ s.written := by
  have hstop : kPageSize≤0+kPageSize := Nat.le_add_left _ _
  obtain ⟨l,hl,-,hall,honly⟩ : SeesRecords s (Layout.page a) kPageSize := h.seesRecords le_rfl
  obtain rfl : l=visited _ _ _ 0 := Option.some.inj ((hl 0).symm.trans (@walk_eq _ (lt_next _) _ kPageSize 0 0 hstop))
  simp only [mem_visited (lt_next _) hstop] at hall honly
  constructor
  · rintro ⟨hleads,hword⟩
    obtain ⟨w,hw,haddr⟩ := honly _ ⟨hleads,offset_lt a⟩ hword
    rw [address_page_offset] at haddr
    exact ⟨w.2,haddr ▸ hw⟩
  · rintro ⟨r,hw⟩
    obtain ⟨invalid,hword⟩ := h.memory.header _ hw
    refine ⟨(hall _ hw rfl (offset_lt a)).1,?_⟩
    rw [word_pageBytes,address_page_offset,hword]
    exact control_ne_zero rfl

end

/-- In every state the walk over a page, up to any place in the page, returns after at most
as many rounds as it has bytes before it. It comes to every record of the page whose header
has been written and that begins before that place, and to no other place with a header
that is not null. All of the records lie below the tail. -/
theorem pageWalk_sees_records (hs : Reachable machine anyStep s) :
    (∀ page stop, stop ≤ kPageSize → SeesRecords s page stop) ∧
      ∀ w ∈ s.written, w.1 < getTailAddress s.tail.control := by
  have h := reachable_inv hs
  exact ⟨fun page stop hstop => h.seesRecords hstop,fun w hw => h.lt_tail hw⟩

/-- Three inserts: one gives up a block and has written its record with one key pointer
behind it, one has not written its header, and one has written nothing but the header. -/
def threeInserts : List Label :=
  let r : Insertion := ⟨1, 1, [10, 20, 30], []⟩
  [⟨0, .insert r⟩, ⟨0, .allocate false⟩, ⟨0, .allocate true⟩, ⟨1, .insert ⟨1, 0, [7], []⟩⟩,
    ⟨1, .allocate false⟩, ⟨1, .allocate false⟩, ⟨0, .allocate false⟩, ⟨0, .allocate false⟩,
    ⟨0, .write []⟩, ⟨2, .insert ⟨1, 0, [], [9]⟩⟩, ⟨2, .allocate false⟩, ⟨0, .write []⟩,
    ⟨2, .allocate false⟩, ⟨2, .write []⟩, ⟨0, .write []⟩, ⟨0, .write (List.replicate 16 255)⟩,
    ⟨0, .alter 112 r 0 77⟩, ⟨0, .write []⟩]

/-- The first record begins behind the block that was given up and behind the one whose
header is not written. -/
def threeInsertsDone (s : State) : Bool :=
  decide (s.written.map (·.1) = [144, 112] ∧ s.pc 1 = .header ⟨1, 0, [7], []⟩ 96 ∧
    pageWalk s.mem 0 160 20 =
      some [0, 8, 16, 24, 32, 40, 48, 56, 64, 72, 80, 88, 96, 104, 112, 144])

theorem pageWalk_sees_threeInserts : ∃ s, Reachable machine anyStep s ∧ threeInsertsDone s = true ∧
    (∀ page stop, stop ≤ kPageSize → SeesRecords s page stop) ∧
      ∀ w ∈ s.written, w.1 < getTailAddress s.tail.control := by
  have htrace : (exec machine initial threeInserts).any threeInsertsDone=true := by decide +kernel
  obtain ⟨s,hrun,hdone⟩ := exists_run_of_exec htrace
  have hs : Reachable machine anyStep s := ⟨initial,rfl,hrun⟩
  exact ⟨s,hs,hdone,pageWalk_sees_records hs⟩

/-- In every state a full scan of pages that are in memory touches the records up to its
last address that are visible, pass the check and do not lie below its start, and nothing else. -/
theorem mem_internalFullScan (hs : Reachable machine anyStep s) {c : Scan}
    (hframes : ∀ p, Layout.page c.startAddr ≤ p → p ≤ Layout.page c.toAddress →
      c.hlog.frames (p % c.bufferSize) = pageBytes s.mem p)
    (hhead : c.hlog.headAddress ≤ c.startAddr) (hbegin : c.beginAddress ≤ c.startAddr)
    (hto : c.startAddr ≤ c.toAddress) (a : ℕ) : a ∈ c.internalFullScan ↔ a ≤ c.toAddress ∧
      (∃ r, (a, r) ∈ s.written) ∧
        Touched c.check (pageBytes s.mem (Layout.page a)) (Layout.page a) c.startAddr (offset a) := by
  have hpage : ∀ {x y}, x≤y → Layout.page x≤Layout.page y := Nat.div_le_div_right
  have hleads := (reachable_inv hs).leads_iff a
  rw [internalFullScan_eq,mem_descend]
  constructor
  · rintro ⟨q,hq,hends,ha⟩
    -- The scan is over with the page of the start address.
    have hstart : Layout.page c.startAddr≤q := by
      by_contra hlt
      have hgo := hends _ (not_le.mp hlt) (hpage hto)
      simp [Scan.ends] at hgo
    rw [Scan.visit,if_neg (not_lt.mpr ((hpage hhead).trans hstart)),mem_fromMemory (min_le_right _ _),
      hframes q hstart hq] at ha
    obtain ⟨rfl,hle,hcomes,htouched⟩ := ha
    exact ⟨hle.trans (min_le_left _ _),hleads.mp ⟨hcomes,htouched.1⟩,htouched⟩
  · rintro ⟨hle,hw,htouched⟩
    have hstart := htouched.2.1
    rw [address_page_offset] at hstart
    have hlow := hpage hstart
    refine ⟨_,hpage hle,fun q hq _ => ?_,?_⟩
    · have hlow' := hpage hbegin
      simp only [Scan.ends,decide_eq_false_iff_not]
      omega
    · rw [Scan.visit,if_neg (not_lt.mpr ((hpage hhead).trans hlow)),mem_fromMemory (min_le_right _ _),
        hframes _ hlow (hpage hle)]
      exact ⟨rfl,le_min hle (le_address_page a),(hleads.mpr hw).1,htouched⟩

/-- A scan of the first page. -/
def firstPage (s : State) : Scan :=
  ⟨4, { PersistentMemoryMalloc.initial with tail := ⟨0, 168⟩, frames := fun _ => pageBytes s.mem 0 },
    fun _ _ => 0, 64, fun _ => true, 64, 160⟩

theorem mem_internalFullScan_threeInserts : ∃ s, Reachable machine anyStep s ∧
    112 ∈ (firstPage s).internalFullScan := by
  have htrace : (exec machine initial threeInserts).any (fun s => decide (
      112 ∈ s.written.map (·.1) ∧ Touched (fun _ => true) (pageBytes s.mem 0) 0 64 112))=true := by decide +kernel
  obtain ⟨s,hrun,hdone⟩ := exists_run_of_exec htrace
  obtain ⟨hw,htouched⟩ := of_decide_eq_true hdone
  have hs : Reachable machine anyStep s := ⟨initial,rfl,hrun⟩
  have hto : (firstPage s).toAddress=160 := if_pos (by decide : 160<address 0 (min kMaxOffset (168%2^32)))
  refine ⟨s,hs,(mem_internalFullScan hs (fun p _ hp => ?_) le_rfl le_rfl (hto ▸ (by decide : 64≤160)) 112).mpr
    ⟨hto ▸ by decide,by simpa using hw,htouched⟩⟩
  rw [hto] at hp
  obtain rfl : p=0 := Nat.le_zero.mp hp
  rfl

end

end FishStore.PageWalks
