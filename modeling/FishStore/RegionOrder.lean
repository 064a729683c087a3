import FishStore.FrameReuse
import FishStore.LightEpoch
import FishStore.Waiters

/-!
# The order of the log's regions

The log is cut by five addresses, each of which only grows: below the safe head
address frames may be used again, below the head address records are read from disk,
below the flushed-until address they are written, below the safe read-only address
they do not change, and below the read-only address they soon will not. The follow-up
work of a shift is an epoch action, which takes the pages between the old and the new
address: no page is taken twice, and none is left out.

A reservation that fails moves the offset of the tail all the same, and the tail
address is cut to 32 bits. It is not lowered by that as long as at most 96 threads
allocate, since a thread fails at most once on each page.
-/

namespace FishStore.RegionOrder

open Layout Runs Waiters PersistentMemoryMalloc FrameReuse List DurablePrefix
open LightEpoch (kMaxNumThreads)
open Function (update update_of_ne update_self)

/-- The page that a thread has found full. -/
def oldPage : Pc → Option ℕ
  | .full old => some old
  | .newPageHead old => some old
  | .newPageStatus old => some old
  | .newPageTail old => some old
  | .newPageSwap old _ => some old
  | .shiftReadOnly old => some old
  | .bumpReadOnly _ old => some old
  | .shiftHead old => some old
  | .updateHead _ old => some old
  | .bumpHead _ old => some old
  | _ => none

/-- The thread runs `OnPagesMarkedReadOnly`. -/
def Marking : Pc → Prop
  | .markReadOnly _ => True
  | .flushStatus _ _ _ => True
  | .flushReset _ _ _ => True
  | .flushWrite _ _ _ => True
  | _ => False

/-- `AsyncFlushPages` is still to write the byte. -/
def Flushes (a : ℕ) : Pc → Prop
  | .flushStatus page _ until' => page ≤ Layout.page a ∧ a < until'
  | .flushReset page _ until' => page ≤ Layout.page a ∧ a < until'
  | .flushWrite page _ until' => page ≤ Layout.page a ∧ a < until'
  | _ => False

/-- The byte lies in the range of a write that was issued. -/
def Issued (s : State) (a : ℕ) : Prop :=
  ∃ w, (w ∈ s.pending ∨ w ∈ s.completed) ∧ w.page = Layout.page a ∧ a < w.untilAddress

/-- The order of the addresses. -/
structure Order (bufferSize : ℕ) (s : State) : Prop where
  safeHead_le : s.safeHeadAddress ≤ s.headAddress
  head_le : Layout.page s.headAddress ≤ Layout.page s.flushedUntilAddress
  flushed_le : s.flushedUntilAddress ≤ s.safeReadOnlyAddress
  safeReadOnly_le : s.safeReadOnlyAddress ≤ s.readOnlyAddress
  readOnly_le : s.readOnlyAddress ≤ s.getTailAddress
  room : s.tail.page + 1 < Layout.page s.safeHeadAddress + bufferSize

/-- No address is lower in the second state. -/
structure Grows (s s' : State) : Prop where
  page : s.tail.page ≤ s'.tail.page
  tail : s.getTailAddress ≤ s'.getTailAddress
  readOnly : s.readOnlyAddress ≤ s'.readOnlyAddress
  safeReadOnly : s.safeReadOnlyAddress ≤ s'.safeReadOnlyAddress
  flushed : s.flushedUntilAddress ≤ s'.flushedUntilAddress
  head : s.headAddress ≤ s'.headAddress
  safeHead : s.safeHeadAddress ≤ s'.safeHeadAddress

/-- An action is registered when the address has been moved. -/
def ActionOk (s : State) : Action → Prop
  | .onPagesClosed new => new ≤ s.headAddress
  | .onPagesMarkedReadOnly new => new ≤ s.readOnlyAddress

/-- `AsyncFlushPages` writes pages up to an address that is read-only. -/
structure Flushing (s : State) (last untilAddress : ℕ) : Prop where
  le : untilAddress ≤ s.safeReadOnlyAddress
  last_eq : last = flushLast untilAddress

/-- What a thread has established. -/
def PcOk (bufferSize : ℕ) (s : State) : Pc → Prop
  | .newPageStatus old => old + 2 < Layout.page s.safeHeadAddress + bufferSize
  | .newPageTail old => old + 2 < Layout.page s.safeHeadAddress + bufferSize
  | .newPageSwap old expected =>
    old + 2 < Layout.page s.safeHeadAddress + bufferSize ∧ expected.page = old
  | .bumpReadOnly desired _ => desired ≤ s.readOnlyAddress
  | .updateHead desired _ => desired ≤ s.flushedUntilAddress
  | .bumpHead desired _ => desired ≤ s.headAddress
  | .shiftToTail tailAddress => tailAddress ≤ s.getTailAddress
  | .bumpToTail tailAddress => tailAddress ≤ s.readOnlyAddress
  | .close new => new ≤ s.headAddress
  | .markReadOnly new => new ≤ s.readOnlyAddress
  | .flushStatus _ last until' => Flushing s last until'
  | .flushReset _ last until' => Flushing s last until'
  | .flushWrite _ last until' => Flushing s last until'
  | .writeDone w => w.untilAddress ≤ s.safeReadOnlyAddress
  | .flushedNext current _ _ => current ≤ s.safeReadOnlyAddress
  | .flushedUpdate current => current ≤ s.safeReadOnlyAddress
  | _ => True

/-- How many threads wait for the tail to leave its page. -/
def waiting (s : State) : ℕ :=
  count kMaxNumThreads fun t => oldPage (s.pc t) = some s.tail.page

/-- The invariant of the regions. -/
structure Region (bufferSize : ℕ) (s : State) : Prop where
  order : Order bufferSize s
  offset_le : s.tail.offset ≤ kPageSize + waiting s * kPageSize
  oldPages : ∀ t old, oldPage (s.pc t) = some old → old ≤ s.tail.page
  last : ∀ f, s.lastFlushed f ≤ s.safeReadOnlyAddress
  writes : ∀ w ∈ s.pending, w.untilAddress ≤ s.safeReadOnlyAddress
  actions : ∀ a ∈ s.actions, ActionOk s a
  pc : ∀ t, PcOk bufferSize s (s.pc t)
  /-- The first cache line of the log holds nothing. -/
  issued : ∀ a, kCacheLineBytes ≤ a → a < s.safeReadOnlyAddress →
    Issued s a ∨ ∃ t, Flushes a (s.pc t)

section

variable {bufferSize t : ℕ} {s s' s'' : State} {p q : Pc} {label : Label}

theorem Grows.refl (s : State) : Grows s s := ⟨le_rfl,le_rfl,le_rfl,le_rfl,le_rfl,le_rfl,le_rfl⟩

theorem Grows.trans (h : Grows s s') (h' : Grows s' s'') : Grows s s'' :=
  ⟨h.page.trans h'.page,h.tail.trans h'.tail,h.readOnly.trans h'.readOnly,
    h.safeReadOnly.trans h'.safeReadOnly,h.flushed.trans h'.flushed,h.head.trans h'.head,
    h.safeHead.trans h'.safeHead⟩

/-- A step that leaves the addresses. -/
theorem grows_goto (s : State) (t : ℕ) (p : Pc) (status : ℕ → FlushCloseStatus)
    (lastFlushed : ℕ → ℕ) (frames : ℕ → ℕ → ℕ) (actions : List Action) (pending completed : List Write) :
    Grows s ({ s with
      status := status, lastFlushed := lastFlushed, frames := frames, actions := actions,
      pending := pending, completed := completed }.goto t p) :=
  ⟨le_rfl,le_rfl,le_rfl,le_rfl,le_rfl,le_rfl,le_rfl⟩

theorem page_mono {a b : ℕ} (h : a≤b) : page a≤page b := Nat.div_le_div_right h

theorem ActionOk.mono {a : Action} (h : ActionOk s a) (hg : Grows s s') : ActionOk s' a := by
  cases a with
  | onPagesClosed new => exact le_trans h hg.head
  | onPagesMarkedReadOnly new => exact le_trans h hg.readOnly

theorem PcOk.mono (h : PcOk bufferSize s p) (hg : Grows s s') : PcOk bufferSize s' p := by
  have hroom : page s.safeHeadAddress+bufferSize ≤
      page s'.safeHeadAddress+bufferSize := Nat.add_le_add_right (page_mono hg.safeHead) _
  cases p with
  | newPageStatus old | newPageTail old => exact lt_of_lt_of_le h hroom
  | newPageSwap old expected => exact ⟨h.1.trans_le hroom,h.2⟩
  | bumpReadOnly desired old | bumpToTail a | markReadOnly new => exact le_trans h hg.readOnly
  | updateHead desired old => exact le_trans h hg.flushed
  | bumpHead desired old | close new => exact le_trans h hg.head
  | shiftToTail a => exact le_trans h hg.tail
  | flushStatus page last until' | flushReset page last until' | flushWrite page last until' =>
    exact ⟨h.le.trans hg.safeReadOnly,h.last_eq⟩
  | writeDone w | flushedNext current page update | flushedUpdate current => exact le_trans h hg.safeReadOnly
  | _ => trivial

/-- The offset is not cut: at most 96 threads wait. -/
theorem getTailAddress_eq (h : s.tail.offset≤kPageSize+waiting s*kPageSize) :
    s.getTailAddress=address s.tail.page (min kMaxOffset s.tail.offset) := by
  have hcount : waiting s≤kMaxNumThreads := count_le
  have hmul := Nat.mul_le_mul_right kPageSize hcount
  have hbound : kPageSize+kMaxNumThreads*kPageSize<2^32 := by decide
  have hlt : s.tail.offset<2^32 := by omega
  unfold State.getTailAddress
  rw [Nat.mod_eq_of_lt hlt]

/-- A thread that goes on to wait, or stops waiting for a page that the tail has left. -/
def KeepsPage (s : State) (q p : Pc) : Prop :=
  oldPage p = oldPage q ∨ oldPage p = none ∧ oldPage q ≠ some s.tail.page

theorem KeepsPage.waiting_eq (h : KeepsPage s q p) (hp : s.pc t=q)
    (hpc : s'.pc=update s.pc t p) (htail : s'.tail=s.tail) : waiting s'=waiting s := by
  unfold waiting
  refine count_congr fun u _ => ?_
  rw [hpc,htail]
  by_cases hut : u=t
  · rw [hut,update_self,hp]
    rcases h with heq | ⟨hnone,hne⟩
    · rw [heq]
    · rw [hnone]
      exact ⟨by rintro ⟨⟩,fun heq => absurd heq hne⟩
  · rw [update_of_ne hut]

theorem KeepsPage.oldPage_eq (h : KeepsPage s q p) {old : ℕ} (hold : oldPage p=some old) : oldPage q=some old := by
  rcases h with heq | ⟨hnone,-⟩
  · rw [←heq,hold]
  · rw [hnone] at hold
    cases hold

/-- A step of one thread. -/
theorem Region.advance (h : Region bufferSize s) (hp : s.pc t=q) (hpc : s'.pc=update s.pc t p) (hg : Grows s s')
    (horder : Order bufferSize s') (hoffset : s'.tail.offset≤kPageSize+waiting s'*kPageSize)
    (hold : ∀ old, oldPage p=some old → old ≤ s'.tail.page)
    (hlast : ∀ f, s'.lastFlushed f=s.lastFlushed f ∨ s'.lastFlushed f ≤ s'.safeReadOnlyAddress)
    (hwrites : ∀ w ∈ s'.pending, w ∈ s.pending ∨ w.untilAddress ≤ s'.safeReadOnlyAddress)
    (hactions : ∀ a ∈ s'.actions, a ∈ s.actions ∨ ActionOk s' a) (hissued : ∀ a, Issued s a → Issued s' a)
    (hflushes : ∀ a, a<s'.safeReadOnlyAddress → s.safeReadOnlyAddress≤a ∨ Flushes a q →
      Issued s' a ∨ Flushes a p) (hok : PcOk bufferSize s' p) : Region bufferSize s' := by
  refine ⟨horder,hoffset,?_,?_,?_,?_,?_,?_⟩
  · intro u old hu
    rw [hpc] at hu
    by_cases hut : u=t
    · rw [hut,update_self] at hu
      exact hold old hu
    · rw [update_of_ne hut] at hu
      exact (h.oldPages u old hu).trans hg.page
  · intro f
    rcases hlast f with heq | hle
    · rw [heq]
      exact (h.last f).trans hg.safeReadOnly
    · exact hle
  · intro w hw
    rcases hwrites w hw with hw | hle
    · exact (h.writes w hw).trans hg.safeReadOnly
    · exact hle
  · intro a ha
    rcases hactions a ha with ha | ha
    · exact (h.actions a ha).mono hg
    · exact ha
  · intro u
    rw [hpc]
    by_cases hut : u=t
    · rw [hut,update_self]
      exact hok
    · rw [update_of_ne hut]
      exact (h.pc u).mono hg
  · intro a hlow hlt
    have hnow : s.safeReadOnlyAddress≤a ∨ Flushes a q → Issued s' a ∨ ∃ u, Flushes a (s'.pc u) := by
      intro hor
      refine (hflushes a hlt hor).imp_right fun hf => ⟨t,?_⟩
      rw [hpc,update_self]
      exact hf
    rcases lt_or_ge a s.safeReadOnlyAddress with hbefore | hnew
    · rcases h.issued a hlow hbefore with hi | ⟨u,hu⟩
      · exact .inl (hissued a hi)
      · by_cases hut : u=t
        · rw [hut,hp] at hu
          exact hnow (.inr hu)
        · refine .inr ⟨u,?_⟩
          rw [hpc,update_of_ne hut]
          exact hu
    · exact hnow (.inl hnew)

section

variable (h : Region bufferSize s) (hp : s.pc t=q) (hpc : s'.pc=update s.pc t p) (htail : s'.tail=s.tail) (hg : Grows s s') (horder : Order bufferSize s') (hkeep : KeepsPage s q p)

include h hp hpc htail hg horder hkeep

/-- A step of one thread that leaves the tail. -/
theorem Region.stay (hlast : ∀ f, s'.lastFlushed f=s.lastFlushed f ∨ s'.lastFlushed f ≤ s'.safeReadOnlyAddress)
    (hwrites : ∀ w ∈ s'.pending, w ∈ s.pending ∨ w.untilAddress ≤ s'.safeReadOnlyAddress)
    (hactions : ∀ a ∈ s'.actions, a ∈ s.actions ∨ ActionOk s' a) (hissued : ∀ a, Issued s a → Issued s' a)
    (hflushes : ∀ a, a<s'.safeReadOnlyAddress → s.safeReadOnlyAddress≤a ∨ Flushes a q →
      Issued s' a ∨ Flushes a p) (hok : PcOk bufferSize s' p) : Region bufferSize s' := by
  refine h.advance hp hpc hg horder ?_ ?_ hlast hwrites hactions hissued hflushes hok
  · rw [hkeep.waiting_eq hp hpc htail,htail]
    exact h.offset_le
  · intro old hold
    rw [htail]
    exact h.oldPages t old (hp ▸ hkeep.oldPage_eq hold)

/-- A step that leaves the writes and the safe read-only address. -/
theorem Region.move (hsafe : s'.safeReadOnlyAddress=s.safeReadOnlyAddress)
    (hlast : ∀ f, s'.lastFlushed f=s.lastFlushed f ∨ s'.lastFlushed f ≤ s'.safeReadOnlyAddress)
    (hpending : s'.pending=s.pending) (hcompleted : s'.completed=s.completed)
    (hactions : ∀ a ∈ s'.actions, a ∈ s.actions ∨ ActionOk s' a) (hflushes : ∀ a, Flushes a q → Flushes a p)
    (hok : PcOk bufferSize s' p) : Region bufferSize s' := by
  refine h.stay hp hpc htail hg horder hkeep hlast ?_ hactions ?_ ?_ hok
  · rw [hpending]
    exact fun w hw => .inl hw
  · rintro a ⟨w,hw,hpage,hlt⟩
    refine ⟨w,?_,hpage,hlt⟩
    rw [hpending,hcompleted]
    exact hw
  · intro a hlt hor
    rw [hsafe] at hlt
    rcases hor with hge | hf
    · exact absurd hlt (not_lt.mpr hge)
    · exact .inr (hflushes a hf)

end

/-- A step that leaves all addresses. -/
theorem Region.quiet (h : Region bufferSize s) (hp : s.pc t=q)
    {status : ℕ → FlushCloseStatus} {frames : ℕ → ℕ → ℕ} (hkeep : KeepsPage s q p)
    (hflushes : ∀ a, Flushes a q → Flushes a p) (hok : PcOk bufferSize s p) :
    Region bufferSize ({ s with status := status, frames := frames }.goto t p) := by
  have hg : Grows s ({ s with status := status, frames := frames }.goto t p) := grows_goto ..
  have ho := h.order
  exact h.move hp rfl rfl hg ⟨ho.safeHead_le,ho.head_le,ho.flushed_le,ho.safeReadOnly_le,ho.readOnly_le,ho.room⟩
    hkeep rfl (fun f => .inl rfl) rfl rfl (fun a ha => .inl ha) hflushes (hok.mono hg)

theorem pcOk_closeFrom {idx last : ℕ} : PcOk bufferSize s (closeFrom idx last) := by
  unfold closeFrom
  split_ifs <;> trivial

theorem oldPage_closeFrom {idx last : ℕ} : oldPage (closeFrom idx last)=none := by
  unfold closeFrom
  split_ifs <;> rfl

theorem oldPage_flushFrom {page last until' : ℕ} : oldPage (flushFrom page last until')=none := by
  unfold flushFrom
  split_ifs <;> rfl

theorem pcOk_flushFrom {page last until' : ℕ} (h : Flushing s last until') :
    PcOk bufferSize s (flushFrom page last until') := by
  unfold flushFrom
  split_ifs
  · exact h
  · trivial

/-- The page of a byte that is to be written is one of those written. -/
theorem page_lt_flushLast {a u : ℕ} (h : a<u) : page a<flushLast u := by
  have hle := page_mono h.le
  have hdiv := Nat.div_add_mod u kPageSize
  have ha := Nat.div_add_mod a kPageSize
  unfold flushLast
  split_ifs with hoff
  · exact Nat.lt_succ_of_le hle
  · refine lt_of_le_of_ne hle fun heq => ?_
    unfold page at heq
    unfold offset at hoff
    rw [heq] at ha
    omega

theorem flushes_flushFrom {a page last until' : ℕ} (hlast : last=flushLast until')
    (hpage : page≤Layout.page a) (hlt : a<until') : Flushes a (flushFrom page last until') := by
  unfold flushFrom
  rw [if_pos]
  · exact ⟨hpage,hlt⟩
  · rw [hlast]
    exact hpage.trans_lt (page_lt_flushLast hlt)

section

variable (h : Region bufferSize s)

include h

/-- `OnPagesMarkedReadOnly` moves the safe read-only address. -/
theorem Region.mark {new : ℕ} (hp : s.pc t=.markReadOnly new) (hlt : s.safeReadOnlyAddress<new) :
    Region bufferSize ({ s with safeReadOnlyAddress := new }.goto t
      (flushFrom (page s.safeReadOnlyAddress) (flushLast new) new)) := by
  have ho := h.order
  have hok : PcOk bufferSize s (.markReadOnly new) := hp ▸ h.pc t
  refine h.stay hp rfl rfl ⟨le_rfl,le_rfl,le_rfl,hlt.le,le_rfl,le_rfl,le_rfl⟩
    ⟨ho.safeHead_le,ho.head_le,ho.flushed_le.trans hlt.le,hok,ho.readOnly_le,ho.room⟩
    (.inl oldPage_flushFrom) (fun f => .inl rfl) (fun w hw => .inl hw) (fun a ha => .inl ha)
    (fun a hi => hi) ?_ (pcOk_flushFrom ⟨le_rfl,rfl⟩)
  rintro a hnew (hge | hf)
  · exact .inr (flushes_flushFrom rfl (page_mono hge) hnew)
  · exact hf.elim

/-- `AsyncFlushPages` issues the write of a page. -/
theorem Region.write {page last until' : ℕ} (hp : s.pc t=.flushWrite page last until') :
    Region bufferSize ({ s with pending := ⟨page,min (address (page+1) 0) until',
      s.safeReadOnlyAddress⟩::s.pending }.goto t (flushFrom (page+1) last until')) := by
  have ho := h.order
  have hok : Flushing s last until' := (hp ▸ h.pc t : PcOk bufferSize s (.flushWrite page last until'))
  refine h.stay hp rfl rfl (grows_goto ..)
    ⟨ho.safeHead_le,ho.head_le,ho.flushed_le,ho.safeReadOnly_le,ho.readOnly_le,ho.room⟩
    (.inl oldPage_flushFrom) (fun f => .inl rfl) ?_ (fun a ha => .inl ha) ?_ ?_
    (pcOk_flushFrom ⟨hok.le,hok.last_eq⟩)
  · intro w hw
    rcases mem_cons.mp hw with rfl | hw
    · exact .inr ((min_le_right _ _).trans hok.le)
    · exact .inl hw
  · rintro a ⟨w,hw,hrest⟩
    exact ⟨w,hw.imp_left (mem_cons_of_mem _),hrest⟩
  · rintro a hlt (hge | ⟨hpage,hu⟩)
    · exact absurd hlt (not_lt.mpr hge)
    · rcases Nat.lt_or_eq_of_le hpage with hnext | rfl
      · exact .inr (flushes_flushFrom hok.last_eq hnext hu)
      · refine .inl ⟨_,.inl mem_cons_self,rfl,lt_min ?_ hu⟩
        unfold address page
        rw [add_zero,mul_comm]
        exact Nat.lt_mul_div_succ a (by decide)

/-- Writes complete. -/
theorem Region.complete {w : Write} (hp : s.pc t=.idle) (hw : w ∈ s.pending) :
    Region bufferSize ({ s with pending := s.pending.erase w, completed := w::s.completed }.goto t
      (.writeDone w)) := by
  have ho := h.order
  refine h.stay hp rfl rfl (grows_goto ..)
    ⟨ho.safeHead_le,ho.head_le,ho.flushed_le,ho.safeReadOnly_le,ho.readOnly_le,ho.room⟩
    (.inl rfl) (fun f => .inl rfl) (fun x hx => .inl (mem_of_mem_erase hx))
    (fun a ha => .inl ha) ?_ ?_ (h.writes w hw)
  · rintro a ⟨x,hx,hrest⟩
    refine ⟨x,?_,hrest⟩
    rcases hx with hx | hx
    · by_cases hxw : x=w
      · rw [hxw]
        exact .inr mem_cons_self
      · exact .inl ((mem_erase_of_ne hxw).mpr hx)
    · exact .inr (mem_cons_of_mem _ hx)
  · rintro a hlt (hge | hf)
    · exact absurd hlt (not_lt.mpr hge)
    · exact hf.elim

/-- The read-only address is moved, to an address below the tail. -/
theorem Region.shiftReadOnly {desired : ℕ} (hp : s.pc t=q)
    (hlt : s.readOnlyAddress<desired) (hle : desired ≤ s.getTailAddress) (hkeep : KeepsPage s q p)
    (hflushes : ∀ a, Flushes a q → Flushes a p)
    (hok : PcOk bufferSize ({ s with readOnlyAddress := desired }.goto t p) p) :
    Region bufferSize ({ s with readOnlyAddress := desired }.goto t p) := by
  have ho := h.order
  exact h.move hp rfl rfl ⟨le_rfl,le_rfl,hlt.le,le_rfl,le_rfl,le_rfl,le_rfl⟩
    ⟨ho.safeHead_le,ho.head_le,ho.flushed_le,ho.safeReadOnly_le.trans hlt.le,hle,ho.room⟩
    hkeep rfl (fun f => .inl rfl) rfl rfl (fun a ha => .inl ha) hflushes hok

/-- An action is registered. -/
theorem Region.bump {a : Action} (hp : s.pc t=q) (ha : ActionOk s a) (hkeep : KeepsPage s q p)
    (hflushes : ∀ a, Flushes a q → Flushes a p) (hok : PcOk bufferSize s p) :
    Region bufferSize ({ s with actions := a::s.actions }.goto t p) := by
  have ho := h.order
  have hg : Grows s ({ s with actions := a::s.actions }.goto t p) := grows_goto ..
  refine h.move hp rfl rfl hg ⟨ho.safeHead_le,ho.head_le,ho.flushed_le,ho.safeReadOnly_le,ho.readOnly_le,ho.room⟩
    hkeep rfl (fun f => .inl rfl) rfl rfl (fun b hb => ?_) hflushes (hok.mono hg)
  rcases mem_cons.mp hb with rfl | hb
  · exact .inr (ha.mono hg)
  · exact .inl hb

/-- A last flushed address is stored. -/
theorem Region.setLast {f a : ℕ} (hp : s.pc t=q) (ha : a ≤ s.safeReadOnlyAddress)
    (hkeep : KeepsPage s q p) (hflushes : ∀ a, Flushes a q → Flushes a p) (hok : PcOk bufferSize s p) :
    Region bufferSize ({ s with lastFlushed := update s.lastFlushed f a }.goto t p) := by
  have ho := h.order
  have hg : Grows s ({ s with lastFlushed := update s.lastFlushed f a }.goto t p) := grows_goto ..
  refine h.move hp rfl rfl hg ⟨ho.safeHead_le,ho.head_le,ho.flushed_le,ho.safeReadOnly_le,ho.readOnly_le,ho.room⟩
    hkeep rfl (fun g => ?_) rfl rfl (fun b hb => .inl hb) hflushes (hok.mono hg)
  change update s.lastFlushed f a g=_ ∨ update s.lastFlushed f a g≤_
  by_cases hgf : g=f
  · rw [hgf,update_self]
    exact .inr ha
  · exact .inl (update_of_ne hgf _ _)

/-- The tail moves to the next page. -/
theorem Region.newPage {old : ℕ} (hp : s.pc t=.newPageSwap old s.tail)
    (hs : s'={ s with tail := ⟨old+1,0⟩ }.goto t (.shiftReadOnly old)) :
    Region bufferSize s' ∧ Grows s s' := by
  have ho := h.order
  obtain ⟨hroom,hold⟩ : PcOk bufferSize s (.newPageSwap old s.tail) := hp ▸ h.pc t
  have htail : s.getTailAddress ≤ s'.getTailAddress := by
    rw [getTailAddress_eq h.offset_le,hold,hs]
    change address old _≤(old+1)*kPageSize+_
    have hsize : kPageSize=kMaxOffset+1 := rfl
    unfold address
    rw [add_mul,one_mul]
    omega
  subst hs
  have hg : Grows s ({ s with tail := ⟨old+1,0⟩ }.goto t (.shiftReadOnly old)) := by
    refine ⟨?_,htail,le_rfl,le_rfl,le_rfl,le_rfl,le_rfl⟩
    rw [hold]
    exact Nat.le_succ old
  refine ⟨h.advance hp rfl hg ⟨ho.safeHead_le,ho.head_le,ho.flushed_le,ho.safeReadOnly_le,
    ho.readOnly_le.trans htail,hroom⟩ (Nat.zero_le _) ?_ (fun f => .inl rfl) (fun w hw => .inl hw)
    (fun a ha => .inl ha) (fun a hi => hi) ?_ trivial,hg⟩
  · rintro o ⟨⟩
    exact Nat.le_succ old
  · rintro a hlt (hge | hf)
    · exact absurd hlt (not_lt.mpr hge)
    · exact hf.elim

/-- Space is reserved at the tail. -/
theorem Region.reserve {n : ℕ} (ht : t<kMaxNumThreads) (hp : s.pc t=.idle) (hn : n≤kMaxOffset)
    (hs : s'={ s with tail := s.tail.reserve n }.goto t
      (if (s.tail.allocated n).isSome then .idle else .full s.tail.page)) :
    Region bufferSize s' ∧ Grows s s' := by
  have ho := h.order
  have hsize : kPageSize=kMaxOffset+1 := rfl
  have htails : s'.tail=s.tail.reserve n := by rw [hs]; rfl
  have hoffset : s'.tail.offset≤kPageSize+waiting s'*kPageSize := by
    rw [htails]
    change s.tail.offset+n≤_
    by_cases hfull : s.tail.offset+n > kPageSize
    · have hcount : waiting s'=waiting s+1 := by
        have hnone : s.tail.allocated n=none := if_pos hfull
        unfold waiting
        rw [hs,hnone]
        refine count_enter ht ?_ ?_ fun u hu => ?_
        · rw [hp]
          rintro ⟨⟩
        · change oldPage (update s.pc t _ t)=_
          rw [update_self]
          rfl
        · change oldPage (update s.pc t _ u)=_ ↔ _
          rw [update_of_ne hu]
          exact Iff.rfl
      have hle := h.offset_le
      rw [hcount,add_mul,one_mul]
      omega
    · omega
  have htail : s.getTailAddress ≤ s'.getTailAddress := by
    rw [getTailAddress_eq h.offset_le,getTailAddress_eq hoffset,htails]
    exact Nat.add_le_add_left (min_le_min_left _ (Nat.le_add_right _ _)) _
  subst hs
  have hg : Grows s ({ s with tail := s.tail.reserve n }.goto t
      (if (s.tail.allocated n).isSome then .idle else .full s.tail.page)) :=
    ⟨le_rfl,htail,le_rfl,le_rfl,le_rfl,le_rfl,le_rfl⟩
  refine ⟨h.advance hp rfl hg ⟨ho.safeHead_le,ho.head_le,ho.flushed_le,ho.safeReadOnly_le,
    ho.readOnly_le.trans htail,ho.room⟩ hoffset ?_ (fun f => .inl rfl) (fun w hw => .inl hw)
    (fun a ha => .inl ha) (fun a hi => hi) ?_ ?_,hg⟩
  · intro old hold
    split_ifs at hold <;> cases hold
    exact le_rfl
  · rintro a hlt (hge | hf)
    · exact absurd hlt (not_lt.mpr hge)
    · exact hf.elim
  · split_ifs <;> trivial

/-- Every step of a call keeps the invariant and lowers no address. -/
theorem Region.callStep (hs : callStep bufferSize s t (s.pc t)=some s') : Region bufferSize s' ∧ Grows s s' := by
  have ho := h.order
  have hok := h.pc t
  have hold := h.oldPages t
  generalize hp : s.pc t=p at hs hok hold
  cases p with
  | idle => cases hs
  | full page => cases hs
  | newPageHead old =>
    simp only [PersistentMemoryMalloc.callStep] at hs
    split_ifs at hs with hroom <;> cases hs
    · exact ⟨h.quiet hp (.inl rfl) (fun _ => id) trivial,grows_goto ..⟩
    · exact ⟨h.quiet hp (.inl rfl) (fun _ => id) (not_le.mp hroom),grows_goto ..⟩
  | newPageStatus old =>
    simp only [PersistentMemoryMalloc.callStep] at hs
    split_ifs at hs <;> cases hs
    · exact ⟨h.quiet hp (.inl rfl) (fun _ => id) hok,grows_goto ..⟩
    · exact ⟨h.quiet hp (.inl rfl) (fun _ => id) trivial,grows_goto ..⟩
  | newPageTail old =>
    simp only [PersistentMemoryMalloc.callStep] at hs
    split_ifs at hs with hleft <;> cases hs
    · refine ⟨h.quiet hp (.inr ⟨rfl,fun heq => hleft ?_⟩) (fun _ => id) trivial,grows_goto ..⟩
      exact Option.some.inj heq
    · exact ⟨h.quiet hp (.inl rfl) (fun _ => id) ⟨hok,(not_not.mp hleft).symm⟩,grows_goto ..⟩
  | newPageSwap old expected =>
    simp only [PersistentMemoryMalloc.callStep] at hs
    split_ifs at hs with hwon hleft <;> cases hs
    · subst hwon
      exact h.newPage hp rfl
    · refine ⟨h.quiet hp (.inr ⟨rfl,fun heq => ?_⟩) (fun _ => id) trivial,grows_goto ..⟩
      exact absurd (Option.some.inj heq) hleft.ne
    · exact ⟨h.quiet hp (.inl rfl) (fun _ => id) trivial,grows_goto ..⟩
  | shiftReadOnly old =>
    simp only [PersistentMemoryMalloc.callStep] at hs
    split_ifs at hs with hfew hlt <;> cases hs
    · exact ⟨h.quiet hp (.inl rfl) (fun _ => id) trivial,grows_goto ..⟩
    · refine ⟨h.shiftReadOnly hp hlt ?_ (.inl rfl) (fun _ => id) le_rfl, ⟨le_rfl,le_rfl,hlt.le,le_rfl,le_rfl,le_rfl,le_rfl⟩⟩
      -- Two pages below the next one, which is at most one page above the tail.
      rw [getTailAddress_eq h.offset_le]
      have hpage : old+1 - numMutablePages ≤ s.tail.page :=
        (Nat.sub_le_sub_left (by decide : 1≤numMutablePages) _).trans (hold old rfl)
      exact Nat.add_le_add (Nat.mul_le_mul_right _ hpage) (Nat.zero_le _)
    · exact ⟨h.quiet hp (.inl rfl) (fun _ => id) trivial,grows_goto ..⟩
  | bumpReadOnly desired old | bumpHead desired old | bumpToTail tailAddress =>
    cases hs
    exact ⟨h.bump hp hok (.inl rfl) (fun _ => id) trivial,grows_goto ..⟩
  | shiftHead old =>
    simp only [PersistentMemoryMalloc.callStep] at hs
    split_ifs at hs <;> cases hs
    · exact ⟨h.quiet hp (.inl rfl) (fun _ => id) trivial,grows_goto ..⟩
    · exact ⟨h.quiet hp (.inl rfl) (fun _ => id) (desiredHead_le _ _ _),grows_goto ..⟩
  | updateHead desired old =>
    simp only [PersistentMemoryMalloc.callStep] at hs
    split_ifs at hs with hlt <;> cases hs
    · have hg : Grows s ({ s with headAddress := desired }.goto t (.bumpHead desired old)) :=
        ⟨le_rfl,le_rfl,le_rfl,le_rfl,le_rfl,hlt.le,le_rfl⟩
      exact ⟨h.move hp rfl rfl hg ⟨ho.safeHead_le.trans hlt.le,page_mono hok,ho.flushed_le,
        ho.safeReadOnly_le,ho.readOnly_le,ho.room⟩ (.inl rfl) rfl (fun f => .inl rfl) rfl rfl
        (fun a ha => .inl ha) (fun _ => id) le_rfl,hg⟩
    · exact ⟨h.quiet hp (.inl rfl) (fun _ => id) trivial,grows_goto ..⟩
  | shiftToTail tailAddress =>
    simp only [PersistentMemoryMalloc.callStep] at hs
    split_ifs at hs with hlt <;> cases hs
    · exact ⟨h.shiftReadOnly hp hlt hok (.inl rfl) (fun _ => id) le_rfl, ⟨le_rfl,le_rfl,hlt.le,le_rfl,le_rfl,le_rfl,le_rfl⟩⟩
    · exact ⟨h.quiet hp (.inl rfl) (fun _ => id) trivial,grows_goto ..⟩
  | close new =>
    simp only [PersistentMemoryMalloc.callStep] at hs
    split_ifs at hs with hlt <;> cases hs
    · have hg : Grows s ({ s with safeHeadAddress := new }.goto t (closeFrom (page s.safeHeadAddress) (page new))) :=
        ⟨le_rfl,le_rfl,le_rfl,le_rfl,le_rfl,le_rfl,hlt.le⟩
      exact ⟨h.move hp rfl rfl hg ⟨hok,ho.head_le,ho.flushed_le,ho.safeReadOnly_le,
        ho.readOnly_le,ho.room.trans_le (Nat.add_le_add_right (page_mono hlt.le) _)⟩
        (.inl oldPage_closeFrom) rfl (fun f => .inl rfl) rfl rfl (fun a ha => .inl ha)
        (fun _ hf => hf.elim) pcOk_closeFrom,hg⟩
    · exact ⟨h.quiet hp (.inl rfl) (fun _ => id) trivial,grows_goto ..⟩
  | closeStatus idx last =>
    cases hs
    split_ifs
    · exact ⟨h.quiet hp (.inl rfl) (fun _ => id) trivial,grows_goto ..⟩
    · exact ⟨h.quiet hp (.inl oldPage_closeFrom) (fun _ hf => hf.elim) pcOk_closeFrom,grows_goto ..⟩
  | closeClear idx last | writeClear page | writeReopen page =>
    cases hs
    exact ⟨h.quiet hp (.inl rfl) (fun _ => id) trivial,grows_goto ..⟩
  | closeReopen idx last =>
    cases hs
    exact ⟨h.quiet hp (.inl oldPage_closeFrom) (fun _ hf => hf.elim) pcOk_closeFrom,grows_goto ..⟩
  | markReadOnly new =>
    simp only [PersistentMemoryMalloc.callStep] at hs
    split_ifs at hs with hlt <;> cases hs
    · exact ⟨h.mark hp hlt,⟨le_rfl,le_rfl,le_rfl,hlt.le,le_rfl,le_rfl,le_rfl⟩⟩
    · exact ⟨h.quiet hp (.inl rfl) (fun _ => id) trivial,grows_goto ..⟩
  | flushStatus page last until' =>
    cases hs
    exact ⟨h.quiet hp (.inl rfl) (fun _ => id) hok,grows_goto ..⟩
  | flushReset page last until' =>
    cases hs
    exact ⟨h.setLast hp (Nat.zero_le _) (.inl rfl) (fun _ => id) hok,grows_goto ..⟩
  | flushWrite page last until' =>
    cases hs
    exact ⟨h.write hp,grows_goto ..⟩
  | writeDone w =>
    cases hs
    exact ⟨h.setLast hp hok (.inl rfl) (fun _ => id) trivial,grows_goto ..⟩
  | writeStatus page =>
    cases hs
    split_ifs
    · exact ⟨h.quiet hp (.inl rfl) (fun _ => id) trivial,grows_goto ..⟩
    · exact ⟨h.quiet hp (.inl rfl) (fun _ => id) trivial,grows_goto ..⟩
  | flushedLoad =>
    cases hs
    exact ⟨h.quiet hp (.inl rfl) (fun _ => id) ho.flushed_le,grows_goto ..⟩
  | flushedNext current page update =>
    simp only [PersistentMemoryMalloc.callStep] at hs
    split_ifs at hs <;> cases hs
    · exact ⟨h.quiet hp (.inl rfl) (fun _ => id) (h.last _),grows_goto ..⟩
    · exact ⟨h.quiet hp (.inl rfl) (fun _ => id) hok,grows_goto ..⟩
    · exact ⟨h.quiet hp (.inl rfl) (fun _ => id) trivial,grows_goto ..⟩
  | flushedUpdate current =>
    cases hs
    have hg : Grows s ({ s with flushedUntilAddress := max s.flushedUntilAddress current }.goto t .idle) :=
      ⟨le_rfl,le_rfl,le_rfl,le_rfl,le_max_left _ _,le_rfl,le_rfl⟩
    exact ⟨h.move hp rfl rfl hg ⟨ho.safeHead_le,ho.head_le.trans (page_mono (le_max_left _ _)),
      max_le ho.flushed_le hok,ho.safeReadOnly_le,ho.readOnly_le,ho.room⟩ (.inl rfl) rfl
      (fun f => .inl rfl) rfl rfl (fun a ha => .inl ha) (fun _ => id) trivial,hg⟩

end

/-- At most 96 threads allocate, those with an id of `Thread`. -/
def sessions : Guard State Label := fun _ label => ∀ t n,
  label = .thread t (.allocate n) → t < kMaxNumThreads

/-- Every step keeps the invariant and lowers no address. -/
theorem Region.step (h : Region bufferSize s) (hguard : sessions s label)
    (hs : step bufferSize s label=some s') : Region bufferSize s' ∧ Grows s s' := by
  have ho := h.order
  cases label with
  | store a byte =>
    obtain ⟨-,rfl⟩ := of_guard hs
    have hg : Grows s (s.setByte (page a%bufferSize) (offset a) byte) := ⟨le_rfl,le_rfl,le_rfl,le_rfl,le_rfl,le_rfl,le_rfl⟩
    exact ⟨⟨⟨ho.safeHead_le,ho.head_le,ho.flushed_le,ho.safeReadOnly_le,ho.readOnly_le,ho.room⟩,
      h.offset_le,h.oldPages,h.last,h.writes,fun b hb => (h.actions b hb).mono hg,
      fun u => (h.pc u).mono hg,h.issued⟩,hg⟩
  | thread t act =>
    cases act with
    | allocate n =>
      obtain ⟨⟨hp,hn⟩,rfl⟩ := of_guard hs
      exact h.reserve (hguard t n rfl) hp hn rfl
    | newPage =>
      simp only [step,threadStep] at hs
      split at hs
      · rename_i page hp
        cases hs
        exact ⟨h.quiet hp (.inl rfl) (fun _ => id) trivial,grows_goto ..⟩
      · cases hs
    | shiftReadOnlyToTail =>
      obtain ⟨hp,rfl⟩ := of_guard hs
      exact ⟨h.quiet hp (.inl rfl) (fun _ => id) le_rfl,grows_goto ..⟩
    | runAction a =>
      obtain ⟨⟨hp,ha⟩,hs⟩ := Option.ite_none_right_eq_some.mp hs
      have haok := h.actions a ha
      cases a with
      | onPagesClosed new | onPagesMarkedReadOnly new =>
        cases hs
        exact ⟨h.move hp rfl rfl (grows_goto ..) ⟨ho.safeHead_le,ho.head_le,ho.flushed_le,
          ho.safeReadOnly_le,ho.readOnly_le,ho.room⟩ (.inl rfl) rfl (fun f => .inl rfl) rfl rfl
          (fun b hb => .inl (mem_of_mem_erase hb)) (fun _ => id) haok,grows_goto ..⟩
    | complete w =>
      obtain ⟨⟨hp,hw⟩,rfl⟩ := of_guard hs
      exact ⟨h.complete hp hw,grows_goto ..⟩
    | step => exact h.callStep hs

theorem region_initial (hsize : kNumHeadPages+1<bufferSize) : Region bufferSize initial := by
  refine ⟨⟨le_rfl,?_,Nat.zero_le _,le_rfl,?_,?_⟩,?_,?_,fun _ => Nat.zero_le _,?_,?_,
    fun _ => trivial,fun a hlow hlt => absurd hlt (not_lt.mpr hlow)⟩
  · decide
  · decide
  · have hpage : page initial.safeHeadAddress=0 := by decide
    have htail : initial.tail.page=0 := rfl
    rw [hpage,htail]
    omega
  · exact (by decide : kCacheLineBytes≤kPageSize).trans (Nat.le_add_right _ _)
  · rintro t old ⟨⟩
  · rintro w ⟨⟩
  · rintro a ⟨⟩

/-- The allocator and, as history, the pages that each run of `OnPagesClosed` has
taken to close. -/
structure History where
  log : State
  /-- For each run, the first page and the page behind the last one. -/
  closed : List (ℕ × ℕ)

/-- The pages that a run of `OnPagesClosed` is about to take. -/
def toTake (s : State) : Pc → List (ℕ × ℕ)
  | .close new =>
    if s.safeHeadAddress < new then [(Layout.page s.safeHeadAddress, Layout.page new)] else []
  | _ => []

/-- The pages that a step takes. -/
def takes (s : State) : Label → List (ℕ × ℕ)
  | .thread t .step => toTake s (s.pc t)
  | _ => []

/-- One step, with the history. -/
def historyStep (bufferSize : ℕ) (x : History) (label : Label) : Option History :=
  (step bufferSize x.log label).map fun s => ⟨s, takes x.log label ++ x.closed⟩

/-- The executions with their history. -/
def historyMachine (bufferSize : ℕ) : Machine History Label :=
  ⟨fun x => (machine bufferSize).init x.log ∧ x.closed = [], historyStep bufferSize⟩

/-- How many runs of `OnPagesClosed` have taken the page. -/
def taken (x : History) (page : ℕ) : ℕ := x.closed.countP fun r => r.1 ≤ page ∧ page < r.2

/-- The safe head address moves when a run of `OnPagesClosed` takes its pages. -/
theorem safeHead_callStep (hs : callStep bufferSize s t p=some s') :
    toTake s p=[] ∧ s'.safeHeadAddress=s.safeHeadAddress ∨ s.safeHeadAddress<s'.safeHeadAddress ∧
        toTake s p=[(page s.safeHeadAddress, page s'.safeHeadAddress)] := by
  cases p with
  | close new =>
    simp only [callStep] at hs
    split_ifs at hs with hlt <;> cases hs
    · exact .inr ⟨hlt,if_pos hlt⟩
    · exact .inl ⟨if_neg hlt,rfl⟩
  | _ =>
    simp only [callStep] at hs
    try split_ifs at hs
    all_goals
      cases hs
      try exact .inl ⟨rfl,rfl⟩

theorem safeHead_step (hs : step bufferSize s label=some s') :
    takes s label=[] ∧ s'.safeHeadAddress=s.safeHeadAddress ∨ s.safeHeadAddress<s'.safeHeadAddress ∧
        takes s label=[(page s.safeHeadAddress, page s'.safeHeadAddress)] := by
  cases label with
  | store a byte =>
    obtain ⟨-,rfl⟩ := of_guard hs
    exact .inl ⟨rfl,rfl⟩
  | thread t act =>
    cases act with
    | newPage =>
      simp only [step,threadStep] at hs
      split at hs <;> cases hs
      exact .inl ⟨rfl,rfl⟩
    | step => exact safeHead_callStep hs
    | _ =>
      obtain ⟨-,rfl⟩ := of_guard hs
      exact .inl ⟨rfl,rfl⟩

/-- The invariant with the history: the pages below the safe head address are those
that were taken, once each. -/
structure HistoryInv (bufferSize : ℕ) (x : History) : Prop where
  region : Region bufferSize x.log
  taken_eq : ∀ page, taken x page = if page < Layout.page x.log.safeHeadAddress then 1 else 0

theorem HistoryInv.step {x y : History} (h : HistoryInv bufferSize x) (hguard : sessions x.log label)
    (hs : historyStep bufferSize x label=some y) : HistoryInv bufferSize y ∧ Grows x.log y.log := by
  obtain ⟨s',hstep,rfl⟩ := Option.map_eq_some_iff.mp hs
  obtain ⟨hregion,hg⟩ := h.region.step hguard hstep
  refine ⟨⟨hregion,fun page => ?_⟩,hg⟩
  have hbefore := h.taken_eq page
  unfold taken at hbefore ⊢
  rcases safeHead_step hstep with ⟨hnone,heq⟩ | ⟨hlt,hsome⟩
  · rw [hnone,heq,nil_append]
    exact hbefore
  · have hle := page_mono hlt.le
    rw [hsome,singleton_append,countP_cons,hbefore]
    simp only [decide_eq_true_eq,Bool.decide_and,Bool.and_eq_true]
    split_ifs <;> omega

theorem reachable_historyInv {x : History}
    (hx : Reachable (historyMachine bufferSize) (fun y => sessions y.log) x) : HistoryInv bufferSize x := by
  refine hx.invariant (P := HistoryInv bufferSize) ?_ ?_
  · rintro ⟨log,closed⟩ ⟨⟨rfl,hsize⟩,rfl⟩
    refine ⟨region_initial hsize,fun page => ?_⟩
    have hpage : Layout.page initial.safeHeadAddress=0 := by decide
    rw [hpage,if_neg (Nat.not_lt_zero _)]
    rfl
  · exact fun x label y h hguard hstep => (h.step hguard hstep).1

/-- When no thread runs `OnPagesMarkedReadOnly`, all that is read-only was issued. -/
theorem Region.issued_of_not_marking (h : Region bufferSize s) (hnot : ∀ t, ¬Marking (s.pc t)) {a : ℕ}
    (hlow : kCacheLineBytes≤a) (hlt : a<s.safeReadOnlyAddress) : Issued s a := by
  refine (h.issued a hlow hlt).resolve_right ?_
  rintro ⟨t,hf⟩
  have hm := hnot t
  cases hp : s.pc t with
  | flushStatus page last until' | flushReset page last until' | flushWrite page last until' => exact hm (hp ▸ trivial)
  | _ =>
    rw [hp] at hf
    exact hf

/-- Pages between the safe head address and the one above the tail have frames of their own. -/
theorem Order.frames_distinct (h : Order bufferSize s) {i j : ℕ} (hi : page s.safeHeadAddress ≤ i) (hj : j ≤ s.tail.page+1)
    (hle : i≤j) (hmod : i%bufferSize=j%bufferSize) : i=j := by
  have hroom := h.room
  rcases Nat.lt_or_eq_of_le hle with hlt | heq
  · have hadd := add_le_of_mod_eq hmod.symm hlt
    omega
  · exact heq

/-- The order of the regions, in every state of every execution: the addresses are
ordered, and none is ever lowered; the pages that are resident have frames of their
own; each page below the safe head address was taken by one run of `OnPagesClosed`;
and while no thread runs `OnPagesMarkedReadOnly`, every byte of the log below the
safe read-only address lies in the range of a write that was issued. -/
theorem regions_ordered {x : History}
    (hx : Reachable (historyMachine bufferSize) (fun y => sessions y.log) x) :
    Order bufferSize x.log ∧
    (∀ i j, Layout.page x.log.safeHeadAddress ≤ i → j ≤ x.log.tail.page + 1 → i ≤ j →
      i % bufferSize = j % bufferSize → i = j) ∧
    (∀ page < Layout.page x.log.safeHeadAddress, taken x page = 1) ∧
    ((∀ t, ¬Marking (x.log.pc t)) →
      ∀ a, kCacheLineBytes ≤ a → a < x.log.safeReadOnlyAddress → Issued x.log a) ∧
    ∀ y, Run (historyMachine bufferSize) (fun z => sessions z.log) x y → Grows x.log y.log := by
  have h := reachable_historyInv hx
  refine ⟨h.region.order,fun i j hi hj hle => h.region.order.frames_distinct hi hj hle,?_,
    fun hnot a => h.region.issued_of_not_marking hnot,fun y hr => ?_⟩
  · intro page hlt
    rw [h.taken_eq,if_pos hlt]
  · exact (hr.relation (P := HistoryInv bufferSize) (R := fun x y => Grows x.log y.log)
      (fun _ _ _ h hguard hstep => (h.step hguard hstep).1) (fun x _ => .refl x.log)
      (fun _ _ _ _ h hg hguard hstep => hg.trans (h.step hguard hstep).2) h).2

/-- A check of the condition. -/
def sessionCheck (_ : History) : Label → Bool
  | .thread t (.allocate _) => decide (t < kMaxNumThreads)
  | _ => true

theorem sessions_of_check (x : History) (label : Label) (h : sessionCheck x label=true) : sessions x.log label := by
  rintro t n rfl
  simpa only [sessionCheck,decide_eq_true_eq] using h

/-- The tail comes to page 4, the pages 0 and 1 are flushed, and both are closed. -/
def twoClosed : List Label :=
  twoWrites ++ .thread 1 (.complete (pageWrite 0)) :: steps 1 6 ++
  .thread 1 (.complete (pageWrite 1)) :: steps 1 6 ++
  fillPage ++ .thread 0 .newPage :: steps 0 6 ++
  [.thread 1 (.runAction (.onPagesClosed (address 2 0))), .thread 1 .step]

theorem regions_ordered_two : ∃ x, Reachable (historyMachine 6) (fun y => sessions y.log) x ∧
    Layout.page x.log.safeHeadAddress = 2 ∧ taken x 0 = 1 ∧ taken x 1 = 1 ∧
    Order 6 x.log := by
  have hrun : (execGuarded (historyMachine 6) sessionCheck ⟨initial,[]⟩ twoClosed).any
      (fun x => decide (page x.log.safeHeadAddress=2))=true := by
    decide +kernel
  obtain ⟨x,hr,hend⟩ := exists_run_of_execGuarded sessions_of_check hrun
  have hpage := of_decide_eq_true hend
  have hx : Reachable (historyMachine 6) (fun y => sessions y.log) x :=
    ⟨_,⟨⟨rfl,by decide⟩,rfl⟩,hr⟩
  obtain ⟨horder,-,htaken,-⟩ := regions_ordered hx
  rw [hpage] at htaken
  exact ⟨x,hx,hpage,htaken 0 (by decide),htaken 1 (by decide),horder⟩

/-- At the start the safe read-only address is that of the first record, and the bytes
below it were never issued for writing. -/
theorem first_line_not_issued : ∃ x, Reachable (historyMachine 6) (fun y => sessions y.log) x ∧
    (∀ t, ¬Marking (x.log.pc t)) ∧ 0 < x.log.safeReadOnlyAddress ∧ ¬Issued x.log 0 := by
  refine ⟨⟨initial,[]⟩,⟨_,⟨⟨rfl,by decide⟩,rfl⟩,.refl _⟩,fun t => id,by decide,?_⟩
  rintro ⟨w,hw | hw,-⟩ <;> cases hw

end

end FishStore.RegionOrder
