import FishStore.PersistentMemoryMalloc

/-!
# The flushed prefix of the log

`ShiftFlushedUntilAddress` goes from page to page as long as their last flushed
addresses do not lie behind. If it takes the last flushed address of a page only
when it has come to that page, and only one of that very page, then every byte
below the flushed-until address was written after it became read-only. It checks
neither: the first page counts as flushed up to address zero, and a page whose
write is not complete is passed when the write of the next page is.
-/

namespace FishStore.DurablePrefix

open Layout Runs PersistentMemoryMalloc Function

/-- The byte at the address was written by a completed write that was issued when
the byte was read-only. -/
def Covered (s : State) (a : ℕ) : Prop := ∃ w ∈ s.completed, w.page = Layout.page a ∧ a < w.readOnly

/-- A write ends in its page, at an address that was read-only. -/
structure WriteOk (readOnly : ℕ) (w : Write) : Prop where
  le_readOnly : w.untilAddress ≤ w.readOnly
  issued : w.readOnly ≤ readOnly
  start : address w.page 0 < w.untilAddress
  stop : w.untilAddress ≤ address (w.page + 1) 0

/-- `AsyncFlushPages` is at a page of those it writes. -/
structure Flushing (s : State) (page last untilAddress : ℕ) : Prop where
  le : untilAddress ≤ s.safeReadOnlyAddress
  last_eq : last = flushLast untilAddress
  lt : page < last

/-- What a thread has established. -/
def PcOk (s : State) : Pc → Prop
  | .flushStatus page last until' => Flushing s page last until'
  | .flushReset page last until' => Flushing s page last until'
  | .flushWrite page last until' => Flushing s page last until'
  | .writeDone w => w ∈ s.completed
  | .flushedNext current _ _ => ∀ a < current, Covered s a
  | .flushedUpdate current => ∀ a < current, Covered s a
  | _ => True

/-- The invariant of the flushed prefix. -/
structure Inv (bufferSize : ℕ) (s : State) : Prop where
  flushed : ∀ a < s.flushedUntilAddress, Covered s a
  /-- A last flushed address is that of a completed write of the frame. -/
  last : ∀ f, s.lastFlushed f = 0 ∨
    ∃ w ∈ s.completed, w.page % bufferSize = f ∧ w.untilAddress = s.lastFlushed f
  writes : ∀ w, w ∈ s.pending ∨ w ∈ s.completed → WriteOk s.safeReadOnlyAddress w
  pc : ∀ t, PcOk s (s.pc t)

section

variable {bufferSize t : ℕ} {s s' : State} {p : Pc} {label : Label}

theorem Covered.mono {a : ℕ} (h : Covered s a) (hc : ∀ w ∈ s.completed, w ∈ s'.completed) : Covered s' a := by
  obtain ⟨w,hw,hpage,hlt⟩ := h
  exact ⟨w,hc w hw,hpage,hlt⟩

theorem PcOk.mono (h : PcOk s p) (hc : ∀ w ∈ s.completed, w ∈ s'.completed)
    (hro : s.safeReadOnlyAddress ≤ s'.safeReadOnlyAddress) : PcOk s' p := by
  cases p with
  | flushStatus page last until' | flushReset page last until' | flushWrite page last until' =>
    exact ⟨h.le.trans hro,h.last_eq,h.lt⟩
  | writeDone w => exact hc w h
  | flushedNext current page update | flushedUpdate current => exact fun a ha => (h a ha).mono hc
  | _ => trivial

/-- A step of one thread. -/
theorem Inv.advance (h : Inv bufferSize s) (hpc : s'.pc=update s.pc t p)
    (hc : ∀ w ∈ s.completed, w ∈ s'.completed) (hro : s.safeReadOnlyAddress ≤ s'.safeReadOnlyAddress)
    (hflushed : ∀ a<s'.flushedUntilAddress, a<s.flushedUntilAddress ∨ Covered s a)
    (hlast : ∀ f, s'.lastFlushed f=s.lastFlushed f ∨ s'.lastFlushed f=0 ∨
      ∃ w ∈ s.completed, w.page%bufferSize=f ∧ w.untilAddress=s'.lastFlushed f)
    (hwrites : ∀ w, w ∈ s'.pending ∨ w ∈ s'.completed → (w ∈ s.pending ∨ w ∈ s.completed)
    ∨ WriteOk s'.safeReadOnlyAddress w) (hok : PcOk s' p) : Inv bufferSize s' := by
  refine ⟨?_,?_,?_,?_⟩
  · intro a ha
    rcases hflushed a ha with ha | ha
    · exact (h.flushed a ha).mono hc
    · exact ha.mono hc
  · intro f
    rcases hlast f with heq | h0 | ⟨w,hw,hf,hu⟩
    · rw [heq]
      rcases h.last f with h0 | ⟨w,hw,hf,hu⟩
      · exact .inl h0
      · exact .inr ⟨w,hc w hw,hf,hu⟩
    · exact .inl h0
    · exact .inr ⟨w,hc w hw,hf,hu⟩
  · intro w hw
    rcases hwrites w hw with hw | hw
    · have hwo := h.writes w hw
      exact ⟨hwo.le_readOnly,hwo.issued.trans hro,hwo.start,hwo.stop⟩
    · exact hw
  · intro u
    rw [hpc]
    by_cases hut : u=t
    · rw [hut,update_self]
      exact hok
    · rw [update_of_ne hut]
      exact (h.pc u).mono hc hro

/-- A step that leaves the writes and the flushed addresses. -/
theorem Inv.quiet (h : Inv bufferSize s) (hpc : s'.pc=update s.pc t p) (hcompleted : s'.completed=s.completed)
    (hpending : s'.pending=s.pending) (hro : s'.safeReadOnlyAddress=s.safeReadOnlyAddress)
    (hflushed : s'.flushedUntilAddress=s.flushedUntilAddress) (hlast : s'.lastFlushed=s.lastFlushed)
    (hok : PcOk s' p) : Inv bufferSize s' := by
  refine h.advance hpc ?_ hro.ge ?_ ?_ ?_ hok
  · rw [hcompleted]
    exact fun _ hw => hw
  · rw [hflushed]
    exact fun a ha => .inl ha
  · rw [hlast]
    exact fun f => .inl rfl
  · rw [hcompleted,hpending]
    exact fun w hw => .inl hw

theorem flushLast_spec {page u : ℕ} (h : page<flushLast u) : address page 0<u := by
  unfold flushLast Layout.page Layout.offset at h
  unfold address
  have hpos : 0<kPageSize := by decide
  have hdiv := Nat.div_add_mod u kPageSize
  split_ifs at h with hoff
  · have hle : page*kPageSize≤u/kPageSize*kPageSize := Nat.mul_le_mul_right _ (by omega)
    rw [mul_comm] at hdiv
    omega
  · have hle : (page+1)*kPageSize≤u/kPageSize*kPageSize := Nat.mul_le_mul_right _ (by omega)
    rw [add_mul,one_mul] at hle
    rw [mul_comm] at hdiv
    omega

/-- The page of an address between the ends of a page. -/
theorem page_eq {a page : ℕ} (hle : address page 0≤a) (hlt : a<address (page+1) 0) : Layout.page a=page := by
  unfold address at hle hlt
  unfold Layout.page
  exact Nat.div_eq_of_lt_le (by omega) (by omega)

/-- `ShiftFlushedUntilAddress` takes the last flushed address of a page only from
within that page, and only one of that page. -/
def staysInPage (bufferSize : ℕ) : Guard State Label := fun s label => ∀ t current page update,
  label = .thread t .step → s.pc t = .flushedNext current page update →
    current ≤ s.lastFlushed (page % bufferSize) →
    address page 0 ≤ current ∧ s.lastFlushed (page % bufferSize) ≤ address (page + 1) 0

/-- What is flushed up to the last flushed address of a page. -/
theorem Inv.covered_last (h : Inv bufferSize s) {current page : ℕ} (hcur : ∀ a<current, Covered s a)
    (hstart : address page 0≤current) (hstop : s.lastFlushed (page%bufferSize)≤address (page+1) 0) :
    ∀ a<s.lastFlushed (page%bufferSize), Covered s a := by
  intro a ha
  rcases lt_or_ge a current with hlt | hge
  · exact hcur a hlt
  · have hpa := page_eq (hstart.trans hge) (ha.trans_le hstop)
    rcases h.last (page%bufferSize) with h0 | ⟨w,hw,hframe,hu⟩
    · rw [h0] at ha
      cases ha
    · have hwo := h.writes w (.inr hw)
      refine ⟨w,hw,?_,?_⟩
      · -- The write ends in the page, so that it is one of the page.
        rw [hpa]
        have hlow : a<address (w.page+1) 0 := by
          rw [←hu] at ha
          exact ha.trans_le hwo.stop
        have hhigh : address w.page 0<address (page+1) 0 := by
          rw [←hu] at hstop
          exact hwo.start.trans_le hstop
        have hfrom := hstart.trans hge
        unfold address at hlow hhigh hfrom
        have h1 : page<w.page+1 := by
          by_contra hcon
          have := Nat.mul_le_mul_right kPageSize (not_lt.mp hcon)
          omega
        have h2 : w.page<page+1 := by
          by_contra hcon
          have := Nat.mul_le_mul_right kPageSize (not_lt.mp hcon)
          omega
        omega
      · rw [←hu] at ha
        exact ha.trans_le hwo.le_readOnly

theorem pcOk_closeFrom (s : State) (idx last : ℕ) : PcOk s (closeFrom idx last) := by
  unfold closeFrom
  split_ifs <;> trivial

theorem pcOk_flushFrom {page last until' : ℕ} (hle : until' ≤ s.safeReadOnlyAddress)
    (hlast : last=flushLast until') : PcOk s (flushFrom page last until') := by
  unfold flushFrom
  split_ifs with hlt
  · exact ⟨hle,hlast,hlt⟩
  · trivial

/-- The steps of a call keep the invariant. -/
theorem Inv.callStep (h : Inv bufferSize s) (hguard : staysInPage bufferSize s (.thread t .step))
    (hs : callStep bufferSize s t (s.pc t)=some s') : Inv bufferSize s' := by
  have hok := h.pc t
  generalize hp : s.pc t=p at hs hok
  cases p with
  | idle => cases hs
  | full page => cases hs
  | close new =>
    simp only [PersistentMemoryMalloc.callStep] at hs
    split_ifs at hs <;> cases hs
    · exact h.quiet rfl rfl rfl rfl rfl rfl (pcOk_closeFrom _ _ _)
    · exact h.quiet rfl rfl rfl rfl rfl rfl trivial
  | closeStatus idx last =>
    cases hs
    refine h.quiet rfl rfl rfl rfl rfl rfl ?_
    split_ifs
    · trivial
    · exact pcOk_closeFrom _ _ _
  | closeReopen idx last =>
    cases hs
    exact h.quiet rfl rfl rfl rfl rfl rfl (pcOk_closeFrom _ _ _)
  | markReadOnly new =>
    simp only [PersistentMemoryMalloc.callStep] at hs
    split_ifs at hs with hlt <;> cases hs
    · exact h.advance rfl (fun _ hw => hw) hlt.le (fun a ha => .inl ha) (fun f => .inl rfl)
        (fun w hw => .inl hw) (pcOk_flushFrom le_rfl rfl)
    · exact h.quiet rfl rfl rfl rfl rfl rfl trivial
  | flushStatus page last until' =>
    cases hs
    exact h.quiet rfl rfl rfl rfl rfl rfl ⟨hok.le,hok.last_eq,hok.lt⟩
  | flushReset page last until' =>
    cases hs
    refine h.advance rfl (fun _ hw => hw) le_rfl (fun a ha => .inl ha) (fun f => ?_)
      (fun w hw => .inl hw) ⟨hok.le,hok.last_eq,hok.lt⟩
    by_cases hf : f=page%bufferSize
    · rw [hf]
      exact .inr (.inl (update_self _ _ _))
    · exact .inl (update_of_ne hf _ _)
  | flushWrite page last until' =>
    cases hs
    refine h.advance rfl (fun _ hw => hw) le_rfl (fun a ha => .inl ha) (fun f => .inl rfl) ?_
      (pcOk_flushFrom hok.le hok.last_eq)
    rintro w (hw | hw)
    · rcases List.mem_cons.mp hw with rfl | hw
      · have hstart : address page 0<until' := by
          refine flushLast_spec ?_
          rw [←hok.last_eq]
          exact hok.lt
        refine .inr ⟨(min_le_right _ _).trans hok.le,le_rfl,lt_min ?_ hstart,min_le_left _ _⟩
        unfold address
        exact Nat.add_lt_add_right (Nat.mul_lt_mul_of_pos_right (Nat.lt_succ_self _) (by decide)) _
      · exact .inl (.inl hw)
    · exact .inl (.inr hw)
  | writeDone w =>
    cases hs
    refine h.advance rfl (fun _ hw => hw) le_rfl (fun a ha => .inl ha) (fun f => ?_) (fun w hw => .inl hw) trivial
    by_cases hf : f=w.page%bufferSize
    · rw [hf]
      refine .inr (.inr ⟨w,hok,rfl,?_⟩)
      exact (update_self (w.page%bufferSize) w.untilAddress s.lastFlushed).symm
    · exact .inl (update_of_ne hf _ _)
  | writeStatus page =>
    cases hs
    refine h.quiet rfl rfl rfl rfl rfl rfl ?_
    split_ifs <;> trivial
  | flushedLoad =>
    cases hs
    exact h.quiet rfl rfl rfl rfl rfl rfl h.flushed
  | flushedNext current page update =>
    simp only [PersistentMemoryMalloc.callStep] at hs
    split_ifs at hs with hle hup <;> cases hs
    · obtain ⟨hstart,hstop⟩ := hguard t current page update rfl hp hle
      exact h.quiet rfl rfl rfl rfl rfl rfl (h.covered_last hok hstart hstop)
    · exact h.quiet rfl rfl rfl rfl rfl rfl hok
    · exact h.quiet rfl rfl rfl rfl rfl rfl trivial
  | flushedUpdate current =>
    cases hs
    refine h.advance rfl (fun _ hw => hw) le_rfl (fun a ha => ?_) (fun f => .inl rfl) (fun w hw => .inl hw) trivial
    rcases lt_max_iff.mp ha with ha | ha
    · exact .inl ha
    · exact .inr (hok a ha)
  | _ =>
    simp only [PersistentMemoryMalloc.callStep] at hs
    try split_ifs at hs
    all_goals
      cases hs
      exact h.quiet rfl rfl rfl rfl rfl rfl trivial

/-- The invariant is kept by every step that meets the condition. -/
theorem Inv.step (h : Inv bufferSize s) (hguard : staysInPage bufferSize s label)
    (hs : step bufferSize s label=some s') : Inv bufferSize s' := by
  cases label with
  | store a byte =>
    obtain ⟨-,rfl⟩ := of_guard hs
    exact ⟨h.flushed,h.last,h.writes,fun u => (h.pc u).mono (fun _ hw => hw) le_rfl⟩
  | thread t act =>
    cases act with
    | allocate n =>
      obtain ⟨-,rfl⟩ := of_guard hs
      refine h.quiet rfl rfl rfl rfl rfl rfl ?_
      split_ifs <;> trivial
    | newPage =>
      simp only [PersistentMemoryMalloc.step,threadStep] at hs
      split at hs
      · cases hs
        exact h.quiet rfl rfl rfl rfl rfl rfl trivial
      · cases hs
    | shiftReadOnlyToTail =>
      obtain ⟨-,rfl⟩ := of_guard hs
      exact h.quiet rfl rfl rfl rfl rfl rfl trivial
    | runAction a =>
      obtain ⟨-,rfl⟩ := of_guard hs
      refine h.quiet rfl rfl rfl rfl rfl rfl ?_
      cases a <;> trivial
    | complete w =>
      obtain ⟨⟨-,hmem⟩,rfl⟩ := of_guard hs
      refine h.advance rfl (fun _ hw => List.mem_cons_of_mem _ hw) le_rfl (fun a ha => .inl ha)
        (fun f => .inl rfl) ?_ List.mem_cons_self
      rintro x (hx | hx)
      · exact .inl (.inl (List.mem_of_mem_erase hx))
      · rcases List.mem_cons.mp hx with rfl | hx
        · exact .inl (.inl hmem)
        · exact .inl (.inr hx)
    | step => exact h.callStep hguard hs

theorem inv_initial : Inv bufferSize initial := by
  refine ⟨nofun,fun _ => .inl rfl,?_,fun _ => trivial⟩
  rintro w (hw | hw) <;> cases hw

theorem reachable_inv (hs : Reachable (machine bufferSize) (staysInPage bufferSize) s) : Inv bufferSize s := by
  refine hs.invariant (P := Inv bufferSize) ?_ ?_
  · rintro s ⟨rfl,-⟩
    exact inv_initial
  · exact fun s label s' h hguard hstep => h.step hguard hstep

/-- Each byte below the flushed-until address is covered by a write that was issued
after the byte became read-only and has completed. -/
theorem flushedUntilAddress_durable
    (hs : Reachable (machine bufferSize) (staysInPage bufferSize) s) {a : ℕ}
    (ha : a < s.flushedUntilAddress) : Covered s a := (reachable_inv hs).flushed a ha

/-- A check of the condition. -/
def pageCheck (bufferSize : ℕ) (s : State) : Label → Bool
  | .thread t .step =>
    match s.pc t with
    | .flushedNext current page _ => decide (current ≤ s.lastFlushed (page % bufferSize) →
        address page 0 ≤ current ∧
          s.lastFlushed (page % bufferSize) ≤ address (page + 1) 0)
    | _ => true
  | _ => true

theorem staysInPage_of_check (s : State) (label : Label) (h : pageCheck bufferSize s label=true) :
    staysInPage bufferSize s label := by
  rintro t current page update rfl hp
  simpa only [pageCheck,hp,decide_eq_true_eq] using h

/-- Steps of a thread's call. -/
def steps (t n : ℕ) : List Label := List.replicate n (.thread t .step)

/-- Thread 0 fills a page; it calls `NewPage`, which takes the given number of steps
to move the tail, and again, to see that it was moved. -/
def nextPage (n : ℕ) : List Label :=
  .thread 0 .newPage :: steps 0 n ++ .thread 0 .newPage :: steps 0 3

def fillPage : List Label := [.thread 0 (.allocate kMaxOffset), .thread 0 (.allocate kMaxOffset)]

/-- The tail moves from page 0 to page 4, and the pages 0 and 1 are being written. -/
def twoWrites : List Label :=
  .thread 0 (.allocate kMaxOffset) :: nextPage 6 ++ fillPage ++ nextPage 6 ++ fillPage ++ nextPage 8 ++
  fillPage ++ nextPage 8 ++ .thread 1 (.runAction (.onPagesMarkedReadOnly (address 2 0))) :: steps 1 7

/-- The write of a page, issued when the pages 0 and 1 were read-only. -/
def pageWrite (page : ℕ) : Write := ⟨page, address (page + 1) 0, address 2 0⟩

/-- The write of page 0 completes. -/
theorem flushedUntilAddress_durable_one : ∃ s, Reachable (machine 6) (staysInPage 6) s ∧
    0 < s.flushedUntilAddress ∧ Covered s 0 := by
  have hrun : (execGuarded (machine 6) (pageCheck 6) initial
      (twoWrites ++ .thread 1 (.complete (pageWrite 0))::steps 1 6)).any
      (fun s => decide (0<s.flushedUntilAddress))=true := by
    decide +kernel
  obtain ⟨s,hr,hp⟩ := exists_run_of_execGuarded staysInPage_of_check hrun
  have hs : Reachable (machine 6) (staysInPage 6) s := ⟨_,⟨rfl,by decide⟩,hr⟩
  have hlt := of_decide_eq_true hp
  exact ⟨s,hs,hlt,flushedUntilAddress_durable hs hlt⟩

/-- The write of page 1 completes first: page 0 counts as flushed, although no write
of it has completed. -/
theorem flushedUntilAddress_skips_page : ∃ s, Reachable (machine 6) anyStep s ∧
    0 < s.flushedUntilAddress ∧ ¬Covered s 0 := by
  have hrun : (exec (machine 6) initial
      (twoWrites ++ .thread 1 (.complete (pageWrite 1))::steps 1 7)).any
      (fun s => decide (0<s.flushedUntilAddress) &&
        s.completed.all fun w => decide (w.page ≠ Layout.page 0))=true := by
    decide +kernel
  obtain ⟨s,hr,hp⟩ := exists_run_of_exec hrun
  simp only [Bool.and_eq_true,decide_eq_true_eq,List.all_eq_true] at hp
  refine ⟨s,⟨_,⟨rfl,by decide⟩,hr⟩,hp.1,?_⟩
  rintro ⟨w,hw,hpage,-⟩
  exact hp.2 w hw hpage

end

end FishStore.DurablePrefix
