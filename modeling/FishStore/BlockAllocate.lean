import FishStore.Layout
import FishStore.LightEpoch
import FishStore.Waiters

/-!
# Reserving space at the tail

The tail of the log is one 64-bit word, 41 bits of offset below 23 bits of page.
`Allocate` adds to it and looks at the old value afterwards: a reservation that does
not fit has moved the offset all the same. `BlockAllocate` then calls `NewPage` until
the tail is on another page, and the thread that moves the tail is told to try once
more like the others. So a thread fails at most once on each page, and with at most 96
threads the offset stays below 2^32.

Each step is one atomic access to the word. That `NewPage` finds no room or the next
frame not ready, and that an address lies below the read-only address, is up to the
step. As history the state keeps the page, the sum added to its offset, and the ranges
that `Allocate` has returned.
-/

namespace FishStore.BlockAllocate

open Layout Runs Waiters LightEpoch

/-- Bits of `PageOffset::offset_`. -/
def kOffsetFieldBits : ℕ := 41

/-- `PageOffset::page()`. -/
def pageOf (control : ℕ) : ℕ := control / 2 ^ kOffsetFieldBits

/-- `PageOffset::offset()`. -/
def offsetOf (control : ℕ) : ℕ := control % 2 ^ kOffsetFieldBits

/-- `PageOffset{page, offset}.control()`. -/
def pack (page offset : ℕ) : ℕ := page * 2 ^ kOffsetFieldBits + offset

/-- `GetTailAddress`: the offset is cast to 32 bits. -/
def getTailAddress (control : ℕ) : ℕ :=
  address (pageOf control) (min kMaxOffset (offsetOf control % 2 ^ 32))

/-- Where a call of `BlockAllocate` for `size` bytes stands. -/
inductive Pc
  | idle
  /-- `Allocate` is about to reserve. -/
  | reserve (size : ℕ)
  /-- It has returned an address, about to be compared with the read-only address. -/
  | compare (size : ℕ)
  /-- It has found the page full; `NewPage` is about to be called. -/
  | full (size page : ℕ)
  /-- `AtomicPageOffset::NewPage` is about to load the tail. -/
  | load (size page : ℕ)
  /-- About to swap the tail. -/
  | swap (size page expected : ℕ)
  deriving DecidableEq

/-- The tail, the threads and history. -/
structure State where
  /-- `tail_page_offset_.control_`. -/
  control : ℕ
  /-- What each thread is doing. -/
  pc : ℕ → Pc
  /-- History: the page that the tail is on. -/
  page : ℕ
  /-- History: the sum added to the offset since the tail came to the page. -/
  added : ℕ
  /-- History: the addresses that `Allocate` has returned, with the sizes. -/
  granted : List (ℕ × ℕ)

/-- The thread moves on. -/
def State.goto (s : State) (t : ℕ) (pc : Pc) : State := { s with pc := Function.update s.pc t pc }

/-- `AtomicPageOffset::Reserve`: the word after `fetch_add`. -/
def State.add (s : State) (size : ℕ) : State :=
  { s with control := (s.control + size) % 2 ^ 64, added := s.added + size }

/-- One step of the call that the thread is in. `yes` decides whether `NewPage` finds
the next page ready, and whether an address lies below the read-only address. -/
def callStep (s : State) (t : ℕ) (yes : Bool) : Pc → Option State
  | .idle => none
  | .reserve size =>
    if offsetOf s.control + size > kPageSize then
      some ((s.add size).goto t (.full size (pageOf s.control)))
    else
      some ({ s.add size with
        granted := (address (pageOf s.control) (offsetOf s.control), size) :: s.granted }.goto t
        (.compare size))
  | .compare size => some (s.goto t (if yes then .reserve size else .idle))
  | .full size page =>
    if yes then
      -- The assertion of `NewPage`: the last page has no next one.
      if page < kMaxPage then some (s.goto t (.load size page)) else none
    else some s
  | .load size page =>
    some (s.goto t (if page ≠ pageOf s.control then .reserve size else .swap size page s.control))
  | .swap size page expected =>
    if s.control = expected then
      -- The thread that wins the swap returns false too.
      some ({ s with control := pack (page + 1) 0, page := s.page + 1, added := 0 }.goto t
        (.full size page))
    else some (s.goto t (if page < pageOf s.control then .reserve size else .full size page))

/-- What a thread may do next. -/
inductive Act
  /-- Call `BlockAllocate`. -/
  | blockAllocate (size : ℕ)
  /-- A step of the call. -/
  | step (yes : Bool)
  deriving DecidableEq

/-- A step of one of the threads. -/
structure Label where
  thread : ℕ
  act : Act
  deriving DecidableEq

/-- A request: a positive multiple of eight bytes, at most one page. -/
def Request (size : ℕ) : Prop := 0 < size ∧ 8 ∣ size ∧ size ≤ kPageSize

instance (size : ℕ) : Decidable (Request size) := inferInstanceAs (Decidable (_ ∧ _ ∧ _))

/-- One step of an execution. -/
def step (s : State) (l : Label) : Option State :=
  if l.thread < kMaxNumThreads then
    match l.act with
    | .blockAllocate size =>
      if s.pc l.thread = .idle ∧ Request size then some (s.goto l.thread (.reserve size)) else none
    | .step yes => callStep s l.thread yes (s.pc l.thread)
  else none

/-- The first cache line of the log is taken by the constructor. -/
def initial : State := ⟨pack 0 64, fun _ => .idle, 0, 64, []⟩

/-- The executions of the threads. -/
def machine : Machine State Label := ⟨fun s => s = initial, step⟩

/-- The ranges do not overlap. -/
def Disjoint (r q : ℕ × ℕ) : Prop := r.1 + r.2 ≤ q.1 ∨ q.1 + q.2 ≤ r.1

/-- The thread has failed on the page and waits for the tail to leave it. -/
def Waits (page : ℕ) : Pc → Prop
  | .full _ p => p = page
  | .load _ p => p = page
  | .swap _ p _ => p = page
  | _ => False

instance (page : ℕ) (p : Pc) : Decidable (Waits page p) := by
  cases p <;> unfold Waits <;> infer_instance

/-- What holds of a call. -/
def PcOk (page : ℕ) : Pc → Prop
  | .idle => True
  | .reserve size => Request size
  | .compare size => Request size
  | .full size p => Request size ∧ p ≤ page
  | .load size p => Request size ∧ p ≤ page ∧ p < kMaxPage
  | .swap size p expected => Request size ∧ p ≤ page ∧ p < kMaxPage ∧ pageOf expected = p

/-- What holds of a range that was returned, with the tail at the given address. -/
structure RangeOk (limit : ℕ) (r : ℕ × ℕ) : Prop where
  size : Request r.2
  aligned : 8 ∣ r.1
  inPage : Layout.page (r.1 + r.2 - 1) = Layout.page r.1
  below : r.1 + r.2 ≤ limit

/-- The invariant of the tail. -/
structure TailInv (s : State) : Prop where
  word : s.control = pack s.page s.added
  page_le : s.page ≤ kMaxPage
  dvd : 8 ∣ s.added
  /-- Beyond the page, each thread that waits has added one request. -/
  bound : s.added ≤ kPageSize + count kMaxNumThreads (fun t => Waits s.page (s.pc t)) * kPageSize
  pc : ∀ t, PcOk s.page (s.pc t)
  ranges : ∀ r ∈ s.granted, RangeOk (address s.page (min s.added kPageSize)) r
  disjoint : s.granted.Pairwise Disjoint

section

variable {s s' : State} {t : ℕ} {p : Pc}

theorem pageOf_pack {page offset : ℕ} (h : offset<2^kOffsetFieldBits) : pageOf (pack page offset)=page := by
  unfold pageOf pack kOffsetFieldBits at *
  omega

theorem offsetOf_pack {page offset : ℕ} (h : offset<2^kOffsetFieldBits) : offsetOf (pack page offset)=offset := by
  unfold offsetOf pack kOffsetFieldBits at *
  omega

/-- The offset stays in 32 bits. -/
theorem TailInv.added_lt (h : TailInv s) : s.added<2^32 := by
  have hcount : count kMaxNumThreads (fun t => Waits s.page (s.pc t))≤kMaxNumThreads := count_le
  have hmul := Nat.mul_le_mul_right kPageSize hcount
  have hlt : kPageSize+kMaxNumThreads*kPageSize<2^32 := by decide
  have hbound := h.bound
  omega

theorem TailInv.pageOf_eq (h : TailInv s) : pageOf s.control=s.page := by
  rw [h.word]
  refine pageOf_pack (h.added_lt.trans ?_)
  decide

theorem TailInv.offsetOf_eq (h : TailInv s) : offsetOf s.control=s.added := by
  rw [h.word]
  refine offsetOf_pack (h.added_lt.trans ?_)
  decide

/-- One more request keeps the offset in 32 bits. -/
theorem TailInv.added_add_lt (h : TailInv s) {size : ℕ} (hsize : size≤kPageSize) : s.added+size<2^32 := by
  have hcount : count kMaxNumThreads (fun t => Waits s.page (s.pc t))≤kMaxNumThreads := count_le
  have hmul := Nat.mul_le_mul_right kPageSize hcount
  have hlt : kPageSize+kMaxNumThreads*kPageSize+kPageSize<2^32 := by decide
  have hbound := h.bound
  omega

/-- The word after a reservation does not carry. -/
theorem pack_add {page offset size : ℕ} (hpage : page≤kMaxPage) (h : offset+size<2^32) :
    (pack page offset+size)%2^64=pack page (offset+size) := by
  unfold pack kOffsetFieldBits kMaxPage at *
  omega

/-- The tail is at a later place. -/
def Later (s s' : State) : Prop := s.page < s'.page ∨ s.page = s'.page ∧ s.added ≤ s'.added

theorem Later.refl (s : State) : Later s s := .inr ⟨rfl,le_rfl⟩

theorem Later.trans {s'' : State} (h : Later s s') (h' : Later s' s'') : Later s s'' := by
  unfold Later at *
  omega

theorem pcOk_mono {page page' : ℕ} (h : PcOk page p) (hle : page≤page') : PcOk page' p := by
  cases p with
  | full size q => exact ⟨h.1,h.2.trans hle⟩
  | load size q | swap size q expected => exact ⟨h.1,h.2.1.trans hle,h.2.2⟩
  | _ => exact h

theorem goto_self (s : State) (t : ℕ) (p : Pc) : (s.goto t p).pc t=p := Function.update_self _ _ _

theorem goto_of_ne {u : ℕ} (hu : u ≠ t) : (s.goto t p).pc u=s.pc u := Function.update_of_ne hu _ _

/-- The pcs of the threads after one of them has moved on. -/
theorem pcOk_goto {page : ℕ} (h : ∀ u, PcOk page (s.pc u)) (hp : PcOk page p) (u : ℕ) :
    PcOk page ((s.goto t p).pc u) := by
  by_cases hut : u=t
  · rw [hut,goto_self]
    exact hp
  · rw [goto_of_ne hut]
    exact h u

section

variable (h : TailInv s)

include h

/-- A step of a thread that leaves the tail, and waits for it as before. -/
theorem TailInv.goto (hp : PcOk s.page p) (hwaits : Waits s.page p ↔ Waits s.page (s.pc t)) : TailInv (s.goto t p) := by
  refine ⟨h.word,h.page_le,h.dvd,?_,pcOk_goto h.pc hp,h.ranges,h.disjoint⟩
  have hcount : count kMaxNumThreads (fun u => Waits s.page ((s.goto t p).pc u)) =
      count kMaxNumThreads (fun u => Waits s.page (s.pc u)) := by
    refine count_congr fun u _ => ?_
    by_cases hut : u=t
    · rw [hut,goto_self]
      exact hwaits
    · rw [goto_of_ne hut]
  have hbound := h.bound
  rw [←hcount] at hbound
  exact hbound

omit h in
theorem RangeOk.mono {limit limit' : ℕ} {r : ℕ × ℕ} (h : RangeOk limit r) (hle : limit≤limit') :
    RangeOk limit' r := ⟨h.size,h.aligned,h.inPage,h.below.trans hle⟩

theorem TailInv.word_add {size : ℕ} (hsize : size≤kPageSize) :
    (s.add size).control=pack s.page (s.added+size) := by
  change (s.control+size)%2^64=_
  rw [h.word]
  exact pack_add h.page_le (h.added_add_lt hsize)

/-- A reservation that does not fit: the thread waits. -/
theorem TailInv.refuse (ht : t<kMaxNumThreads) {size : ℕ}
    (hpc : s.pc t=.reserve size) : TailInv ((s.add size).goto t (.full size s.page)) := by
  have hsize : Request size := by
    have hok := h.pc t
    rw [hpc] at hok
    exact hok
  refine ⟨h.word_add hsize.2.2,h.page_le,dvd_add h.dvd hsize.2.1,?_,
    pcOk_goto h.pc ⟨hsize,le_rfl⟩,fun r hr => (h.ranges r hr).mono ?_,h.disjoint⟩
  · have hnot : ¬Waits s.page (s.pc t) := by
      rw [hpc]
      exact id
    have hcount : count kMaxNumThreads (fun u => Waits s.page (((s.add size).goto t (.full size s.page)).pc u)) =
        count kMaxNumThreads (fun u => Waits s.page (s.pc u))+1 := by
      refine count_enter ht hnot ?_ fun u hu => ?_
      · rw [goto_self]
        exact rfl
      · rw [goto_of_ne hu]
        exact Iff.rfl
    change s.added+size≤_
    change _≤kPageSize+count kMaxNumThreads
      (fun u => Waits s.page (((s.add size).goto t (.full size s.page)).pc u))*kPageSize
    rw [hcount,add_mul,one_mul]
    have hbound := h.bound
    have hle := hsize.2.2
    omega
  · exact Nat.add_le_add_left (min_le_min_right _ (Nat.le_add_right _ _)) _

/-- A reservation that fits. -/
theorem TailInv.grant {size : ℕ} (hpc : s.pc t=.reserve size) (hfit : s.added+size≤kPageSize) :
    TailInv ({ s.add size with granted := (address s.page s.added, size)::s.granted }.goto t
      (.compare size)) := by
  have hsize : Request size := by
    have hok := h.pc t
    rw [hpc] at hok
    exact hok
  have hlimit : address s.page (min s.added kPageSize)≤address s.page s.added := Nat.add_le_add_left (min_le_left _ _) _
  refine ⟨h.word_add hsize.2.2,h.page_le,dvd_add h.dvd hsize.2.1,
    hfit.trans (Nat.le_add_right _ _),pcOk_goto (s := { s.add size with granted := _ }) h.pc hsize,
    fun r hr => ?_,List.pairwise_cons.mpr ⟨fun r hr => ?_,h.disjoint⟩⟩
  · change RangeOk (address s.page (min (s.added+size) kPageSize)) r
    rcases List.mem_cons.mp hr with rfl | hr
    · refine ⟨hsize,?_,?_,?_⟩
      · exact dvd_add (dvd_mul_of_dvd_right (by decide) _) h.dvd
      · have hpos := hsize.1
        have hkpos : 0<kPageSize := by decide
        unfold Layout.page address
        dsimp only
        rw [show s.page*kPageSize+s.added+size - 1=kPageSize*s.page+(s.added+size - 1) by
          rw [mul_comm]; omega,mul_comm s.page,Nat.mul_add_div hkpos,Nat.mul_add_div hkpos,
          Nat.div_eq_of_lt (by omega),Nat.div_eq_of_lt (by omega)]
      · dsimp only
        unfold address
        omega
    · exact (h.ranges r hr).mono (Nat.add_le_add_left (min_le_min_right _ (Nat.le_add_right _ _)) _)
  · exact .inr ((h.ranges r hr).below.trans hlimit)

/-- The tail moves to the next page. -/
theorem TailInv.newPage {size page : ℕ} (hpc : s.pc t=.swap size page s.control) :
    TailInv ({ s with control := pack (page+1) 0, page := s.page+1, added := 0 }.goto t
      (.full size page)) := by
  obtain ⟨hsize,hle,hlt,heq⟩ : PcOk s.page (.swap size page s.control) := hpc ▸ h.pc t
  rw [h.pageOf_eq] at heq
  refine ⟨?_,?_,dvd_zero 8,Nat.zero_le _, pcOk_goto (s := { s with control := _, page := _, added := _ })
      (fun u => pcOk_mono (h.pc u) (Nat.le_succ _)) ⟨hsize,hle.trans (Nat.le_succ _)⟩,
    fun r hr => (h.ranges r hr).mono ?_,h.disjoint⟩
  · change pack (page+1) 0=pack (s.page+1) 0
    rw [heq]
  · change s.page+1≤kMaxPage
    omega
  · change _≤address (s.page+1) (min 0 kPageSize)
    unfold address
    rw [add_mul,one_mul]
    omega

/-- Every step of a call keeps the invariant and moves the tail only forwards. -/
theorem TailInv.callStep (ht : t<kMaxNumThreads) {yes : Bool}
    (hs : callStep s t yes (s.pc t)=some s') : TailInv s' ∧ Later s s' := by
  have hok := h.pc t
  cases hpc : s.pc t with
  | idle =>
    rw [hpc] at hs
    cases hs
  | reserve size =>
    rw [hpc] at hs
    simp only [BlockAllocate.callStep,h.pageOf_eq,h.offsetOf_eq] at hs
    split_ifs at hs with hfull <;> cases hs
    · exact ⟨h.refuse ht hpc,.inr ⟨rfl,Nat.le_add_right _ _⟩⟩
    · exact ⟨h.grant hpc (not_lt.mp hfull),.inr ⟨rfl,Nat.le_add_right _ _⟩⟩
  | compare size =>
    rw [hpc] at hs hok
    cases hs
    refine ⟨h.goto ?_ ?_,.refl s⟩
    · cases yes
      · trivial
      · exact hok
    · rw [hpc]
      cases yes <;> exact Iff.rfl
  | full size page =>
    rw [hpc] at hs hok
    simp only [BlockAllocate.callStep] at hs
    split_ifs at hs with hyes hlast <;> cases hs
    · refine ⟨h.goto ⟨hok.1,hok.2,hlast⟩ ?_,.refl s⟩
      rw [hpc]
      exact Iff.rfl
    · exact ⟨h,.refl s⟩
  | load size page =>
    rw [hpc] at hs hok
    simp only [BlockAllocate.callStep,h.pageOf_eq] at hs
    cases hs
    split_ifs with hpage
    · refine ⟨h.goto hok.1 ?_,.refl s⟩
      rw [hpc]
      exact ⟨False.elim,fun heq => hpage heq⟩
    · refine ⟨h.goto ⟨hok.1,hok.2.1,hok.2.2,?_⟩ ?_,.refl s⟩
      · rw [h.pageOf_eq]
        exact (not_not.mp hpage).symm
      · rw [hpc]
        exact Iff.rfl
  | swap size page expected =>
    rw [hpc] at hs hok
    simp only [BlockAllocate.callStep,h.pageOf_eq] at hs
    split_ifs at hs with hwon hmoved <;> cases hs
    · subst hwon
      exact ⟨h.newPage hpc,.inl (Nat.lt_succ_self _)⟩
    · refine ⟨h.goto hok.1 ?_,.refl s⟩
      rw [hpc]
      exact ⟨False.elim,fun heq => absurd hmoved (not_lt.mpr (Eq.ge heq))⟩
    · refine ⟨h.goto ⟨hok.1,hok.2.1⟩ ?_,.refl s⟩
      rw [hpc]
      exact Iff.rfl

theorem TailInv.step {l : Label} (hs : step s l=some s') : TailInv s' ∧ Later s s' := by
  obtain ⟨ht,hs⟩ := Option.ite_none_right_eq_some.mp hs
  cases hact : l.act with
  | blockAllocate size =>
    rw [hact] at hs
    obtain ⟨⟨hidle,hsize⟩,rfl⟩ := of_guard hs
    refine ⟨h.goto hsize ?_,.refl s⟩
    rw [hidle]
    exact Iff.rfl
  | step yes =>
    rw [hact] at hs
    exact h.callStep ht hs

omit h in
theorem tailInv_initial : TailInv initial := by
  refine ⟨rfl,by decide,by decide,?_,fun _ => trivial,?_,List.Pairwise.nil⟩
  · exact (by decide : 64≤kPageSize).trans (Nat.le_add_right _ _)
  · rintro r ⟨⟩

omit h in
theorem reachable_tailInv (hs : Reachable machine anyStep s) : TailInv s := by
  refine hs.invariant (P := TailInv) ?_ ?_
  · rintro s rfl
    exact tailInv_initial
  · exact fun s l s' h _ hstep => (h.step hstep).1

theorem TailInv.getTailAddress_eq : getTailAddress s.control=address s.page (min kMaxOffset s.added) := by
  unfold getTailAddress
  rw [h.pageOf_eq,h.offsetOf_eq,Nat.mod_eq_of_lt h.added_lt]

end

/-- A later tail has a tail address that is not lower. -/
theorem Later.getTailAddress_le (hl : Later s s') (h : TailInv s) (h' : TailInv s') :
    getTailAddress s.control≤getTailAddress s'.control := by
  rw [h.getTailAddress_eq,h'.getTailAddress_eq]
  have hsize : kPageSize=kMaxOffset+1 := rfl
  unfold address
  rcases hl with hlt | ⟨heq,hle⟩
  · have hmul := Nat.mul_le_mul_right kPageSize (Nat.succ_le_of_lt hlt)
    rw [Nat.succ_mul] at hmul
    omega
  · rw [heq]
    omega

/-- The ranges that `Allocate` returns are disjoint, aligned and each in one page. The
sum added to the offset in a page stays below 2^32: the word always holds the page and
that sum, and the tail address is not truncated. Tail addresses never decrease. -/
theorem blockAllocate_disjoint (hs : Reachable machine anyStep s) :
    (s.granted.Pairwise Disjoint ∧
      ∀ r ∈ s.granted, 8 ∣ r.1 ∧ Layout.page (r.1 + r.2 - 1) = Layout.page r.1) ∧
    (s.added < 2 ^ 32 ∧ pageOf s.control = s.page ∧ offsetOf s.control = s.added) ∧
    getTailAddress s.control = address s.page (min kMaxOffset s.added) ∧
    ∀ s', Run machine anyStep s s' → getTailAddress s.control ≤ getTailAddress s'.control := by
  have h := reachable_tailInv hs
  refine ⟨⟨h.disjoint,fun r hr => ⟨(h.ranges r hr).aligned,(h.ranges r hr).inPage⟩⟩,
    ⟨h.added_lt,h.pageOf_eq,h.offsetOf_eq⟩,h.getTailAddress_eq,fun s' hr => ?_⟩
  obtain ⟨h',hlater⟩ := hr.relation (P := TailInv) (R := Later)
    (fun s l s' h _ hstep => (h.step hstep).1) (fun s _ => .refl s)
    (fun s t l u ht hl _ hstep => hl.trans (ht.step hstep).2) h
  exact hlater.getTailAddress_le h h'

/-- Thread 0 allocates twice in the first page and fails; it moves the tail on, and
allocates in the second page. -/
def twoPages : List Label :=
  let call (n : ℕ) : List Label := ⟨0, .blockAllocate n⟩ :: List.replicate 2 ⟨0, .step false⟩
  call 4096 ++ call 8 ++ ⟨0, .blockAllocate kPageSize⟩ :: List.replicate 7 ⟨0, .step true⟩ ++
    [⟨0, .step false⟩]

theorem blockAllocate_disjoint_two : ∃ s, Reachable machine anyStep s ∧ s.page = 1 ∧
    s.granted.length = 3 ∧ s.granted.Pairwise Disjoint := by
  have hrun : (exec machine initial twoPages).any
      (fun s => decide (s.page=1) && decide (s.granted.length=3))=true := by
    decide +kernel
  obtain ⟨s,hr,hp⟩ := exists_run_of_exec hrun
  simp only [Bool.and_eq_true,decide_eq_true_eq] at hp
  have hs : Reachable machine anyStep s := ⟨_,rfl,hr⟩
  exact ⟨s,hs,hp.1,hp.2,(blockAllocate_disjoint hs).1.1⟩

end

end FishStore.BlockAllocate
