import FishStore.DurablePrefix

/-!
# The frames of the log

A frame serves one page after another. If the tail moves onto a page only when its
frame is ready and no thread is still to close, clear or open a page of that frame,
then the frame is all zero at that moment, and it is cleared again only when its page
lies below the safe head address and was written. `NewPage` looks only at the safe
head address and at the status of the frame, and `OnPagesClosed` publishes the safe
head address before it has closed the pages: the tail can come upon a frame that was
not cleared, and the frame is cleared after records were written to it.
-/

namespace FishStore.FrameReuse

open Layout Runs PersistentMemoryMalloc DurablePrefix
open Function (update update_of_ne update_self)

/-- `OnPagesClosed` is still to close, clear or open the page. -/
def ToClose (q : ℕ) : Pc → Prop
  | .closeStatus idx last => idx ≤ q ∧ q < last
  | .closeClear idx last => idx ≤ q ∧ q < last
  | .closeReopen idx last => idx ≤ q ∧ q < last
  | _ => False

/-- The callback of a write is about to clear or open the frame. -/
def ToClear (bufferSize f : ℕ) : Pc → Prop
  | .writeClear page => page % bufferSize = f
  | .writeReopen page => page % bufferSize = f
  | _ => False

/-- A thread is not done with an older page of the frame. -/
def Busy (bufferSize f : ℕ) (p : Pc) : Prop :=
  (∃ q, ToClose q p ∧ q % bufferSize = f) ∨ ToClear bufferSize f p

/-- The bytes of the frame are zero. -/
def Zero (s : State) (f : ℕ) : Prop := ∀ o, s.frames f o = 0

/-- The pages that the frame has served lie below the safe head address. -/
def Below (bufferSize : ℕ) (s : State) (f : ℕ) : Prop :=
  ∀ p ≤ s.tail.page, p % bufferSize = f → p < Layout.page s.safeHeadAddress

/-- What a thread has established. -/
def PcFrame (bufferSize : ℕ) (s : State) : Pc → Prop
  | .newPageStatus old => old + 2 < Layout.page s.safeHeadAddress + bufferSize
  | .newPageTail old => old + 2 < Layout.page s.safeHeadAddress + bufferSize
  | .newPageSwap old expected =>
    old + 2 < Layout.page s.safeHeadAddress + bufferSize ∧ expected.page = old
  | .updateHead desired _ => desired ≤ s.flushedUntilAddress
  | .bumpHead desired _ => desired ≤ s.flushedUntilAddress
  | .close new => new ≤ s.flushedUntilAddress
  | .closeStatus idx last => idx < last
  | .closeClear idx last => idx < last
  | .closeReopen idx last => idx < last ∧ Zero s (idx % bufferSize)
  | .writeClear page => Below bufferSize s (page % bufferSize)
  | .writeReopen page => Below bufferSize s (page % bufferSize) ∧ Zero s (page % bufferSize)
  | _ => True

/-- The invariant of the frames. -/
structure FrameInv (bufferSize : ℕ) (s : State) : Prop where
  /-- There is room for the tail page and the next one. -/
  room : s.tail.page + 1 < Layout.page s.safeHeadAddress + bufferSize
  head : Layout.address (Layout.page s.safeHeadAddress) 0 ≤ s.flushedUntilAddress
  actions : ∀ new, .onPagesClosed new ∈ s.actions → new ≤ s.flushedUntilAddress
  pc : ∀ t, PcFrame bufferSize s (s.pc t)
  /-- A page that is to be closed is the last one that its frame has served. -/
  closing : ∀ t q, ToClose q (s.pc t) →
    q < Layout.page s.safeHeadAddress ∧ s.tail.page < q + bufferSize
  closed : ∀ f, (s.status f).close = .closed → Below bufferSize s f
  /-- A frame that nobody is busy with is zero when its page lies below the safe head. -/
  zero : ∀ q, q < Layout.page s.safeHeadAddress → s.tail.page < q + bufferSize →
    (∀ t, ¬Busy bufferSize (q % bufferSize) (s.pc t)) →
    (s.status (q % bufferSize)).close = .opened → Zero s (q % bufferSize)
  /-- A frame is zero that has not served a page. -/
  fresh : ∀ p < bufferSize, s.tail.page < p → Zero s p

section

variable {bufferSize t f : ℕ} {s s' : State} {p : Pc} {label : Label} {act : Act}

/-- Two pages of one frame lie a buffer apart. -/
theorem add_le_of_mod_eq {p q : ℕ} (h : p%bufferSize=q%bufferSize) (hlt : q<p) : q+bufferSize≤p := by
  have hdvd : bufferSize ∣ p - q := Nat.dvd_of_mod_eq_zero (Nat.sub_mod_eq_zero_of_mod_eq h)
  have hle := Nat.le_of_dvd (by omega) hdvd
  omega

theorem page_le_of_lt_limit {tail : PageOffset} {a : ℕ} (h : a<tail.limit) : page a≤tail.page := by
  have hpos : 0<kPageSize := by decide
  have hmin : min tail.offset kPageSize≤kPageSize := min_le_right _ _
  have hlt : a<(tail.page+1)*kPageSize := by
    unfold PageOffset.limit address at h
    rw [add_mul,one_mul]
    omega
  exact Nat.lt_succ_iff.mp ((Nat.div_lt_iff_lt_mul hpos).mpr hlt)

theorem address_page_le (a : ℕ) : address (page a) 0≤a := by
  unfold address page
  rw [Nat.add_zero]
  exact Nat.div_mul_le_self a kPageSize

theorem desiredHead_le (bufferSize tailPage flushed : ℕ) : desiredHead bufferSize tailPage flushed≤flushed := by
  unfold desiredHead
  split_ifs with h
  · exact address_page_le _
  · exact not_lt.mp h

/-- What is flushed is read-only. -/
theorem flushed_le_readOnly (h : Inv bufferSize s) : s.flushedUntilAddress ≤ s.safeReadOnlyAddress := by
  rcases Nat.eq_zero_or_pos s.flushedUntilAddress with h0 | hpos
  · rw [h0]
    exact Nat.zero_le _
  · obtain ⟨w,hw,-,hlt⟩ := h.flushed (s.flushedUntilAddress - 1) (by omega)
    have hissued := (h.writes w (.inr hw)).issued
    omega

/-- The page at the safe head address is the first one that is not below it. -/
theorem FrameInv.page_le (h : FrameInv bufferSize s) (hinv : Inv bufferSize s) {a : ℕ}
    (ha : s.safeReadOnlyAddress≤a) : page s.safeHeadAddress≤page a := by
  have hpos : 0<kPageSize := by decide
  have hle := (h.head.trans (flushed_le_readOnly hinv)).trans ha
  unfold address at hle
  rw [Nat.add_zero] at hle
  rw [show page a=a/kPageSize from rfl,Nat.le_div_iff_mul_le hpos]
  exact hle

/-- The frame of a page that is to be closed served no later page. -/
theorem FrameInv.below_of_toClose (h : FrameInv bufferSize s) {q : ℕ} (hq : ToClose q (s.pc t)) :
    Below bufferSize s (q%bufferSize) := by
  intro p hp hmod
  obtain ⟨hhead,htail⟩ := h.closing t q hq
  by_contra hcon
  have hle := add_le_of_mod_eq hmod (by omega)
  omega

theorem PcFrame.mono (h : PcFrame bufferSize s p) (htail : s'.tail.page=s.tail.page)
    (hhead : page s.safeHeadAddress≤page s'.safeHeadAddress) (hflushed : s.flushedUntilAddress ≤ s'.flushedUntilAddress)
    (hzero : ∀ f, Zero s f → Zero s' f) : PcFrame bufferSize s' p := by
  have hbelow : ∀ f, Below bufferSize s f → Below bufferSize s' f := by
    intro f hb p hp hmod
    rw [htail] at hp
    exact (hb p hp hmod).trans_le hhead
  cases p with
  | newPageStatus old | newPageTail old => exact lt_of_lt_of_le h (Nat.add_le_add_right hhead _)
  | newPageSwap old expected => exact ⟨h.1.trans_le (Nat.add_le_add_right hhead _),h.2⟩
  | updateHead desired old | bumpHead desired old | close new => exact le_trans h hflushed
  | closeStatus idx last => exact h
  | closeClear idx last => exact h
  | closeReopen idx last => exact ⟨h.1,hzero _ h.2⟩
  | writeClear page => exact hbelow _ h
  | writeReopen page => exact ⟨hbelow _ h.1,hzero _ h.2⟩
  | _ => trivial

/-- A step of one thread that moves neither the tail to another page nor the safe
head address. -/
theorem FrameInv.advance (h : FrameInv bufferSize s) (hpc : s'.pc=update s.pc t p) (htail : s'.tail.page=s.tail.page)
    (hhead : s'.safeHeadAddress=s.safeHeadAddress) (hflushed : s.flushedUntilAddress ≤ s'.flushedUntilAddress)
    (hactions : ∀ new, .onPagesClosed new ∈ s'.actions →
      .onPagesClosed new ∈ s.actions ∨ new ≤ s'.flushedUntilAddress) (hzero : ∀ f, Zero s f → Zero s' f)
    (hclose : ∀ f, (s'.status f).close=(s.status f).close ∨ ((s'.status f).close=.closed ∧ Below bufferSize s f)
    ∨ ((s'.status f).close=.opened ∧ Zero s' f))
    (hbusy : ∀ f, Busy bufferSize f (s.pc t) → Busy bufferSize f p ∨ (s'.status f).close=.closed ∨ Zero s' f)
    (hclosing : ∀ q, ToClose q p → ToClose q (s.pc t)) (hok : PcFrame bufferSize s' p) : FrameInv bufferSize s' := by
  have hself : s'.pc t=p := by
    rw [hpc]
    exact update_self _ _ _
  have hother : ∀ u, u ≠ t → s'.pc u=s.pc u := by
    intro u hu
    rw [hpc]
    exact update_of_ne hu _ _
  refine ⟨?_,?_,?_,?_,?_,?_,?_,?_⟩
  · rw [htail,hhead]
    exact h.room
  · rw [hhead]
    exact h.head.trans hflushed
  · intro new hnew
    rcases hactions new hnew with hold | hle
    · exact (h.actions new hold).trans hflushed
    · exact hle
  · intro u
    by_cases hu : u=t
    · rw [hu,hself]
      exact hok
    · rw [hother u hu]
      exact (h.pc u).mono htail (le_of_eq (by rw [hhead])) hflushed hzero
  · intro u q hq
    rw [htail,hhead]
    by_cases hu : u=t
    · rw [hu,hself] at hq
      exact h.closing t q (hclosing q hq)
    · rw [hother u hu] at hq
      exact h.closing u q hq
  · intro f hf p hp hmod
    rw [htail] at hp
    rw [hhead]
    rcases hclose f with heq | ⟨-,hbelow⟩ | ⟨hop,-⟩
    · rw [heq] at hf
      exact h.closed f hf p hp hmod
    · exact hbelow p hp hmod
    · rw [hf] at hop
      cases hop
  · intro q hq hbuf hidle hopen
    rw [hhead] at hq
    rw [htail] at hbuf
    -- Somebody was busy with the frame, or its status has changed, or it was zero.
    by_cases hb : Busy bufferSize (q%bufferSize) (s.pc t)
    · rcases hbusy _ hb with hb | hcl | hz
      · rw [←hself] at hb
        exact absurd hb (hidle t)
      · rw [hcl] at hopen
        cases hopen
      · exact hz
    · rcases hclose (q%bufferSize) with heq | ⟨hcl,-⟩ | hz
      · rw [heq] at hopen
        refine hzero _ (h.zero q hq hbuf (fun u => ?_) hopen)
        by_cases hu : u=t
        · rw [hu]
          exact hb
        · rw [←hother u hu]
          exact hidle u
      · rw [hcl] at hopen
        cases hopen
      · exact hz.2
  · intro p hp htp
    rw [htail] at htp
    exact hzero p (h.fresh p hp htp)

/-- The thread is at a page that it closes, clears or opens. -/
def working : Pc → Bool
  | .closeStatus _ _ => true
  | .closeClear _ _ => true
  | .closeReopen _ _ => true
  | .writeClear _ => true
  | .writeReopen _ => true
  | _ => false

theorem not_toClose {q : ℕ} (h : working p=false) : ¬ToClose q p := by
  cases p <;> first
    | exact id
    | cases h

theorem not_busy (h : working p=false) : ¬Busy bufferSize f p := by
  rintro (⟨q,hq,-⟩ | hc)
  · exact not_toClose h hq
  · cases p <;> first
      | exact hc
      | cases h

/-- A step of a thread that is not at a page to close, and leaves the frames. -/
theorem FrameInv.quiet (h : FrameInv bufferSize s) {q : Pc} (hp : s.pc t=q) (hq : working q=false)
    (hpc : s'.pc=update s.pc t p) (htail : s'.tail.page=s.tail.page) (hhead : s'.safeHeadAddress=s.safeHeadAddress)
    (hflushed : s.flushedUntilAddress ≤ s'.flushedUntilAddress) (hactions : ∀ new, .onPagesClosed new ∈ s'.actions →
      .onPagesClosed new ∈ s.actions ∨ new ≤ s'.flushedUntilAddress) (hframes : s'.frames=s.frames)
    (hclose : ∀ f, (s'.status f).close=(s.status f).close) (hclosing : ∀ q, ¬ToClose q p)
    (hok : PcFrame bufferSize s' p) : FrameInv bufferSize s' := by
  refine h.advance hpc htail hhead hflushed hactions ?_ (fun f => .inl (hclose f)) ?_ ?_ hok
  · unfold Zero
    rw [hframes]
    exact fun f hz => hz
  · rw [hp]
    exact fun f hb => absurd hb (not_busy hq)
  · exact fun q hq => absurd hq (hclosing q)

/-- A step that leaves the tail, the frames and what bounds their pages. -/
theorem FrameInv.pass (h : FrameInv bufferSize s) {q : Pc} (hp : s.pc t=q)
    (hq : working q=false) (hpc : s'.pc=update s.pc t p)
    (hrest : (s'.tail, s'.safeHeadAddress, s'.flushedUntilAddress, s'.actions, s'.frames, s'.status) =
      (s.tail, s.safeHeadAddress, s.flushedUntilAddress, s.actions, s.frames, s.status))
    (hclosing : ∀ q, ¬ToClose q p) (hok : PcFrame bufferSize s' p) : FrameInv bufferSize s' := by
  obtain ⟨htail,hhead,hflushed,hactions,hframes,hstatus⟩ : s'.tail=s.tail ∧
      s'.safeHeadAddress=s.safeHeadAddress ∧ s'.flushedUntilAddress=s.flushedUntilAddress ∧
      s'.actions=s.actions ∧ s'.frames=s.frames ∧ s'.status=s.status := by
    simpa only [Prod.mk.injEq] using hrest
  refine h.quiet hp hq hpc ?_ hhead hflushed.ge ?_ hframes ?_ hclosing hok
  · rw [htail]
  · rw [hactions]
    exact fun _ => .inl
  · rw [hstatus]
    exact fun _ => rfl

theorem toClose_closeFrom {q idx last : ℕ} : ToClose q (closeFrom idx last) ↔ idx≤q ∧ q<last := by
  unfold closeFrom
  split_ifs with hlt
  · exact Iff.rfl
  · exact ⟨False.elim,fun hq => absurd (hq.1.trans_lt hq.2) hlt⟩

theorem pcFrame_closeFrom (idx last : ℕ) : PcFrame bufferSize s (closeFrom idx last) := by
  unfold closeFrom
  split_ifs with hlt
  · exact hlt
  · trivial

/-- `OnPagesClosed` goes on to the next page; it is still busy with the other frames. -/
theorem busy_closeFrom (idx last : ℕ) (hb : Busy bufferSize f p)
    (h : ∀ q, ToClose q p → idx≤q ∧ q<last) (hc : ¬ToClear bufferSize f p) :
    Busy bufferSize f (closeFrom (idx+1) last) ∨ f=idx%bufferSize := by
  rcases hb with ⟨q,hq,rfl⟩ | hb
  · obtain ⟨hle,hlt⟩ := h q hq
    rcases eq_or_lt_of_le hle with rfl | hlt'
    · exact .inr rfl
    · exact .inl (.inl ⟨q,toClose_closeFrom.mpr ⟨hlt',hlt⟩,rfl⟩)
  · exact absurd hb hc

/-- The tail moves onto a page only when its frame is ready and no thread is busy with
an older page of the frame; and the flushed prefix has no holes. -/
def reusesClosed (bufferSize : ℕ) : Guard State Label := fun s label =>
  staysInPage bufferSize s label ∧
  ∀ t old expected, label = .thread t .step → s.pc t = .newPageSwap old expected →
    s.tail = expected → (s.status ((old + 1) % bufferSize)).ready ∧
      ∀ u, ¬Busy bufferSize ((old + 1) % bufferSize) (s.pc u)

section

variable (h : FrameInv bufferSize s)

include h

/-- The frame of the page that the tail moves onto is zero. -/
theorem FrameInv.zero_next {old : ℕ} {expected : PageOffset} (hp : s.pc t=.newPageSwap old expected)
    (htail : s.tail=expected) (hready : (s.status ((old+1)%bufferSize)).ready)
    (hidle : ∀ u, ¬Busy bufferSize ((old+1)%bufferSize) (s.pc u)) : Zero s ((old+1)%bufferSize) := by
  have hok := h.pc t
  rw [hp] at hok
  obtain ⟨hroom,hold⟩ := hok
  rw [←htail] at hold
  rcases lt_or_ge (old+1) bufferSize with hlt | hge
  · rw [Nat.mod_eq_of_lt hlt]
    exact h.fresh _ hlt (by omega)
  · have hmod : (old+1 - bufferSize)%bufferSize=(old+1)%bufferSize := (Nat.mod_eq_sub_mod hge).symm
    rw [←hmod] at hready hidle ⊢
    have hopen := of_decide_eq_true hready
    refine h.zero _ (by omega) (by omega) hidle ?_
    rw [hopen]

/-- The tail moves onto the next page. -/
theorem FrameInv.swap {old : ℕ} {expected : PageOffset} (hp : s.pc t=.newPageSwap old expected)
    (htail : s.tail=expected) (hready : (s.status ((old+1)%bufferSize)).ready)
    (hidle : ∀ u, ¬Busy bufferSize ((old+1)%bufferSize) (s.pc u)) :
    FrameInv bufferSize ({ s with tail := ⟨old+1,0⟩ }.goto t (.shiftReadOnly old)) := by
  obtain ⟨hroom,hold⟩ : PcFrame bufferSize s (.newPageSwap old expected) := by
    rw [←hp]
    exact h.pc t
  rw [←htail] at hold
  -- Only the next page is new below the tail, and its frame is not one of these.
  have hbelow : ∀ f, f ≠ (old+1)%bufferSize → Below bufferSize s f →
      Below bufferSize ({ s with tail := ⟨old+1,0⟩ }.goto t (.shiftReadOnly old)) f := by
    intro f hf hb p hple hmod
    rcases eq_or_lt_of_le (show p≤old+1 from hple) with rfl | hlt
    · exact absurd hmod.symm hf
    · exact hb p (by omega) hmod
  have hpcs : ∀ u, (({ s with tail := ⟨old+1,0⟩ } : State).goto t (.shiftReadOnly old)).pc u =
      s.pc u ∨ (({ s with tail := ⟨old+1,0⟩ } : State).goto t (.shiftReadOnly old)).pc u = .shiftReadOnly old := by
    intro u
    by_cases hu : u=t
    · rw [hu]
      exact .inr (update_self _ _ _)
    · exact .inl (update_of_ne hu _ _)
  refine ⟨?_,h.head,h.actions,?_,?_,?_,?_,?_⟩
  · exact hroom
  · intro u
    rcases hpcs u with heq | heq
    · rw [heq]
      have hok := h.pc u
      have hbu := hidle u
      cases hpu : s.pc u with
      | writeClear page =>
        rw [hpu] at hok hbu
        exact hbelow _ (fun hf => hbu (.inr hf)) hok
      | writeReopen page =>
        rw [hpu] at hok hbu
        exact ⟨hbelow _ (fun hf => hbu (.inr hf)) hok.1,hok.2⟩
      | _ =>
        rw [hpu] at hok
        exact hok
    · rw [heq]
      trivial
  · intro u q hq
    rcases hpcs u with heq | heq
    · rw [heq] at hq
      obtain ⟨hhead,hbuf⟩ := h.closing u q hq
      refine ⟨hhead,?_⟩
      have hne : old+1 ≠ q+bufferSize := by
        intro hcon
        refine hidle u (.inl ⟨q,hq,?_⟩)
        rw [hcon,Nat.add_mod_right]
      change old+1<q+bufferSize
      omega
    · rw [heq] at hq
      cases hq
  · intro f hf
    refine hbelow f ?_ (h.closed f hf)
    rintro rfl
    have hopen := of_decide_eq_true hready
    have hcl : (s.status ((old+1)%bufferSize)).close=.closed := hf
    rw [hopen] at hcl
    cases hcl
  · intro q hq hbuf hidle' hopen
    refine h.zero q hq ?_ (fun u hb => ?_) hopen
    · change old+1<q+bufferSize at hbuf
      omega
    · rcases hpcs u with heq | heq
      · refine hidle' u ?_
        rw [heq]
        exact hb
      · by_cases hu : u=t
        · rw [hu,hp] at hb
          exact not_busy rfl hb
        · refine hidle' u ?_
          rw [show (({ s with tail := ⟨old+1,0⟩ } : State).goto t (.shiftReadOnly old)).pc u =
            s.pc u from update_of_ne hu _ _]
          exact hb
  · intro p hplt hlt
    change old+1<p at hlt
    exact h.fresh p hplt (by omega)

/-- `OnPagesClosed` publishes the safe head address; it has still to close the pages. -/
theorem FrameInv.publish {new : ℕ} (hp : s.pc t=.close new) (hlt : s.safeHeadAddress<new) :
    FrameInv bufferSize ({ s with safeHeadAddress := new }.goto t
      (closeFrom (page s.safeHeadAddress) (page new))) := by
  have hle : new ≤ s.flushedUntilAddress := by
    have hok := h.pc t
    rw [hp] at hok
    exact hok
  have hpage : page s.safeHeadAddress≤page new := Nat.div_le_div_right hlt.le
  have hself : (({ s with safeHeadAddress := new } : State).goto t (closeFrom (page s.safeHeadAddress) (page new))).pc t =
      closeFrom (page s.safeHeadAddress) (page new) := update_self _ _ _
  have hother : ∀ u, u ≠ t → (({ s with safeHeadAddress := new } : State).goto t
      (closeFrom (page s.safeHeadAddress) (page new))).pc u=s.pc u :=
    fun u hu => update_of_ne hu _ _
  refine ⟨?_,(address_page_le new).trans hle,h.actions,?_,?_,?_,?_,h.fresh⟩
  · exact h.room.trans_le (Nat.add_le_add_right hpage _)
  · intro u
    by_cases hu : u=t
    · rw [hu,hself]
      exact pcFrame_closeFrom _ _
    · rw [hother u hu]
      exact (h.pc u).mono rfl hpage le_rfl fun f hz => hz
  · intro u q hq
    by_cases hu : u=t
    · rw [hu,hself,toClose_closeFrom] at hq
      have hroom := h.room
      refine ⟨hq.2,?_⟩
      change s.tail.page<q+bufferSize
      omega
    · rw [hother u hu] at hq
      obtain ⟨hhead,hbuf⟩ := h.closing u q hq
      exact ⟨hhead.trans_le hpage,hbuf⟩
  · exact fun f hf p hple hmod => (h.closed f hf p hple hmod).trans_le hpage
  · intro q hq hbuf hidle hopen
    -- The pages that are newly below the safe head address are to be closed.
    rcases lt_or_ge q (page s.safeHeadAddress) with hlow | hhigh
    · refine h.zero q hlow hbuf (fun u => ?_) hopen
      by_cases hu : u=t
      · rw [hu,hp]
        exact not_busy rfl
      · rw [←hother u hu]
        exact hidle u
    · refine absurd (.inl ⟨q,?_,rfl⟩) (hidle t)
      rw [hself,toClose_closeFrom]
      exact ⟨hhigh,hq⟩

/-- A session stores a byte at an address that is not read-only. -/
theorem FrameInv.store (hinv : Inv bufferSize s) {a byte : ℕ} (hro : s.safeReadOnlyAddress≤a) (ha : a<s.tail.limit) :
    FrameInv bufferSize (s.setByte (page a%bufferSize) (offset a) byte) := by
  have hpage := h.page_le hinv hro
  have htail := page_le_of_lt_limit ha
  have hframe : ∀ f, f ≠ page a%bufferSize → Zero s f → Zero (s.setByte (page a%bufferSize) (offset a) byte) f := by
    intro f hf hz o
    rw [show (s.setByte (page a%bufferSize) (offset a) byte).frames f=s.frames f from update_of_ne hf _ _]
    exact hz o
  have hbelow : ∀ f, Below bufferSize s f → f ≠ page a%bufferSize := by
    rintro f hb rfl
    exact absurd (hb _ htail rfl) (not_lt.mpr hpage)
  refine ⟨h.room,h.head,h.actions,?_,h.closing,h.closed,?_,?_⟩
  · intro u
    have hok := h.pc u
    change PcFrame bufferSize _ (s.pc u)
    cases hpu : s.pc u with
    | closeReopen idx last =>
      rw [hpu] at hok
      refine ⟨hok.1,hframe _ (hbelow _ (h.below_of_toClose (t := u) ?_)) hok.2⟩
      rw [hpu]
      exact ⟨le_rfl,hok.1⟩
    | writeReopen page =>
      rw [hpu] at hok
      exact ⟨hok.1,hframe _ (hbelow _ hok.1) hok.2⟩
    | _ =>
      rw [hpu] at hok
      exact hok
  · intro q hq hbuf hidle hopen
    refine hframe _ ?_ (h.zero q hq hbuf hidle hopen)
    intro hmod
    have hle := add_le_of_mod_eq hmod.symm (hq.trans_le hpage)
    have hbuf' : s.tail.page<q+bufferSize := hbuf
    omega
  · intro p hplt hlt
    refine hframe p ?_ (h.fresh p hplt hlt)
    intro hmod
    have hlt' : s.tail.page<p := hlt
    rw [Nat.mod_eq_of_lt (by omega)] at hmod
    omega

omit h in
theorem zero_clear (s : State) (frame : ℕ) (hz : Zero s f) : Zero (s.clear frame) f := by
  intro o
  by_cases hf : f=frame
  · rw [hf,show (s.clear frame).frames frame=fun _ => 0 from update_self _ _ _]
  · rw [show (s.clear frame).frames f=s.frames f from update_of_ne hf _ _]
    exact hz o

omit h in
theorem zero_clear_self (s : State) (frame : ℕ) : Zero (s.clear frame) frame := by
  intro o
  rw [show (s.clear frame).frames frame=fun _ => 0 from update_self _ _ _]

omit h in
/-- Whether a frame is closed after a status was stored. -/
theorem close_setStatus (s : State) (frame : ℕ) (x : FlushCloseStatus) (f : ℕ) :
    f=frame ∧ ((s.setStatus frame x).status f).close=x.close ∨
      f ≠ frame ∧ ((s.setStatus frame x).status f).close=(s.status f).close := by
  by_cases hf : f=frame
  · refine .inl ⟨hf,?_⟩
    rw [hf,show (s.setStatus frame x).status frame=x from update_self _ _ _]
  · refine .inr ⟨hf,?_⟩
    rw [show (s.setStatus frame x).status f=s.status f from update_of_ne hf _ _]

omit h in
theorem close_setFlush (s : State) (frame : ℕ) (x : FlushStatus) (f : ℕ) :
    ((s.setStatus frame ⟨x,(s.status frame).close⟩).status f).close=(s.status f).close := by
  rcases close_setStatus s frame ⟨x,(s.status frame).close⟩ f with ⟨rfl,hst⟩ | ⟨-,hst⟩
  · exact hst
  · exact hst

/-- `OnPagesClosed` closes a page. -/
theorem FrameInv.closeStatus {idx last : ℕ} (hp : s.pc t=.closeStatus idx last) :
    FrameInv bufferSize ((s.setStatus (idx%bufferSize) ⟨(s.status (idx%bufferSize)).flush,.closed⟩).goto t
      (if (s.status (idx%bufferSize)).flush=.flushed then .closeClear idx last else closeFrom (idx+1) last)) := by
  have hok := h.pc t
  rw [hp] at hok
  have hbelow : Below bufferSize s (idx%bufferSize) := by
    refine h.below_of_toClose (t := t) ?_
    rw [hp]
    exact ⟨le_rfl,hok⟩
  have hset := close_setStatus s (idx%bufferSize) ⟨(s.status (idx%bufferSize)).flush,.closed⟩
  refine h.advance rfl rfl rfl le_rfl (fun _ => .inl) (fun _ hz => hz) ?_ ?_ ?_ ?_
  · intro f
    rcases hset f with ⟨hf,hst⟩ | ⟨-,hst⟩
    · refine .inr (.inl ⟨hst,?_⟩)
      rw [hf]
      exact hbelow
    · exact .inl hst
  · rw [hp]
    intro f hb
    split_ifs
    · exact .inl hb
    · rcases busy_closeFrom idx last hb (fun _ hq => hq) id with hb | hf
      · exact .inl hb
      · rcases hset f with ⟨-,hst⟩ | ⟨hne,-⟩
        · exact .inr (.inl hst)
        · exact absurd hf hne
  · rw [hp]
    intro q hq
    split_ifs at hq
    · exact hq
    · rw [toClose_closeFrom] at hq
      exact ⟨(Nat.le_succ _).trans hq.1,hq.2⟩
  · split_ifs
    · exact hok
    · exact pcFrame_closeFrom _ _

/-- `OnPagesClosed` clears the frame of a page. -/
theorem FrameInv.closeClear {idx last : ℕ} (hp : s.pc t=.closeClear idx last) :
    FrameInv bufferSize ((s.clear (idx%bufferSize)).goto t (.closeReopen idx last)) := by
  have hok := h.pc t
  rw [hp] at hok
  refine h.advance rfl rfl rfl le_rfl (fun _ => .inl) (fun _ => zero_clear s _) (fun _ => .inl rfl) ?_ ?_
    ⟨hok,zero_clear_self s _⟩
  · rw [hp]
    exact fun f hb => .inl hb
  · rw [hp]
    exact fun q hq => hq

omit h in
/-- A frame that was cleared is open, or its status is as before. -/
theorem reopen_spec (frame : ℕ) (hz : Zero s frame) (f : ℕ) :
    ((s.setStatus frame ⟨.flushed,.opened⟩).status f).close=(s.status f).close ∨
      (((s.setStatus frame ⟨.flushed,.opened⟩).status f).close=.closed ∧ Below bufferSize s f) ∨
      (((s.setStatus frame ⟨.flushed,.opened⟩).status f).close=.opened ∧ Zero s f) := by
  rcases close_setStatus s frame ⟨.flushed,.opened⟩ f with ⟨hf,hst⟩ | ⟨-,hst⟩
  · rw [hf] at hst ⊢
    exact .inr (.inr ⟨hst,hz⟩)
  · exact .inl hst

/-- `OnPagesClosed` opens the frame of a page and goes on to the next page. -/
theorem FrameInv.closeReopen {idx last : ℕ} (hp : s.pc t=.closeReopen idx last) :
    FrameInv bufferSize ((s.setStatus (idx%bufferSize) ⟨.flushed,.opened⟩).goto t (closeFrom (idx+1) last)) := by
  have hok := h.pc t
  rw [hp] at hok
  refine h.advance rfl rfl rfl le_rfl (fun _ => .inl) (fun _ hz => hz) (reopen_spec _ hok.2) ?_ ?_ (pcFrame_closeFrom _ _)
  · rw [hp]
    intro f hb
    rcases busy_closeFrom idx last hb (fun _ hq => hq) id with hb | hf
    · exact .inl hb
    · rw [hf]
      exact .inr (.inr hok.2)
  · rw [hp]
    intro q hq
    rw [toClose_closeFrom] at hq
    exact ⟨(Nat.le_succ _).trans hq.1,hq.2⟩

/-- The callback of a write clears the frame of its page. -/
theorem FrameInv.writeClear {page : ℕ} (hp : s.pc t=.writeClear page) :
    FrameInv bufferSize ((s.clear (page%bufferSize)).goto t (.writeReopen page)) := by
  have hok := h.pc t
  rw [hp] at hok
  refine h.advance rfl rfl rfl le_rfl (fun _ => .inl) (fun _ => zero_clear s _) (fun _ => .inl rfl) ?_
    nofun ⟨hok,zero_clear_self s _⟩
  rw [hp]
  exact fun f hb => .inl hb

/-- The callback of a write opens the frame of its page. -/
theorem FrameInv.writeReopen {page : ℕ} (hp : s.pc t=.writeReopen page) :
    FrameInv bufferSize ((s.setStatus (page%bufferSize) ⟨.flushed,.opened⟩).goto t .flushedLoad) := by
  have hok := h.pc t
  rw [hp] at hok
  refine h.advance rfl rfl rfl le_rfl (fun _ => .inl) (fun _ hz => hz) (reopen_spec _ hok.2) ?_ nofun trivial
  rw [hp]
  rintro f (⟨q,hq,-⟩ | hc)
  · cases hq
  · cases hc
    exact .inr (.inr hok.2)

/-- The steps of a call keep the invariant. -/
theorem FrameInv.callStep (hguard : reusesClosed bufferSize s (.thread t .step))
    (hs : callStep bufferSize s t (s.pc t)=some s') : FrameInv bufferSize s' := by
  have hok := h.pc t
  generalize hp : s.pc t=p at hs hok
  cases p with
  | idle => cases hs
  | full page => cases hs
  | newPageHead old =>
    simp only [PersistentMemoryMalloc.callStep] at hs
    split_ifs at hs with hroom <;> cases hs
    · exact h.pass hp rfl rfl rfl (fun _ => id) trivial
    · exact h.pass hp rfl rfl rfl (fun _ => id) (not_le.mp hroom)
  | newPageStatus old | updateHead desired old =>
    simp only [PersistentMemoryMalloc.callStep] at hs
    split_ifs at hs <;> cases hs
    · exact h.pass hp rfl rfl rfl (fun _ => id) hok
    · exact h.pass hp rfl rfl rfl (fun _ => id) trivial
  | newPageTail old =>
    simp only [PersistentMemoryMalloc.callStep] at hs
    split_ifs at hs with hold <;> cases hs
    · exact h.pass hp rfl rfl rfl (fun _ => id) trivial
    · exact h.pass hp rfl rfl rfl (fun _ => id) ⟨hok,(not_not.mp hold).symm⟩
  | newPageSwap old expected =>
    simp only [PersistentMemoryMalloc.callStep] at hs
    split_ifs at hs with htail hold <;> cases hs
    · obtain ⟨hready,hidle⟩ := hguard.2 t old expected rfl hp htail
      exact h.swap hp htail hready hidle
    · exact h.pass hp rfl rfl rfl (fun _ => id) trivial
    · exact h.pass hp rfl rfl rfl (fun _ => id) trivial
  | bumpReadOnly desired old | bumpToTail tailAddress =>
    cases hs
    refine h.quiet hp rfl rfl rfl rfl le_rfl (fun new hnew => .inl ?_) rfl (fun _ => rfl) (fun _ => id) trivial
    exact (List.mem_cons.mp hnew).resolve_left (by rintro ⟨⟩)
  | shiftHead old =>
    simp only [PersistentMemoryMalloc.callStep] at hs
    split_ifs at hs <;> cases hs
    · exact h.pass hp rfl rfl rfl (fun _ => id) trivial
    · exact h.pass hp rfl rfl rfl (fun _ => id) (desiredHead_le _ _ _)
  | bumpHead desired old =>
    cases hs
    refine h.quiet hp rfl rfl rfl rfl le_rfl (fun new hnew => ?_) rfl (fun _ => rfl) (fun _ => id) trivial
    rcases List.mem_cons.mp hnew with heq | hnew
    · cases heq
      exact .inr hok
    · exact .inl hnew
  | close new =>
    simp only [PersistentMemoryMalloc.callStep] at hs
    split_ifs at hs with hlt <;> cases hs
    · exact h.publish hp hlt
    · exact h.pass hp rfl rfl rfl (fun _ => id) trivial
  | closeStatus idx last =>
    cases hs
    exact h.closeStatus hp
  | closeClear idx last =>
    cases hs
    exact h.closeClear hp
  | closeReopen idx last =>
    cases hs
    exact h.closeReopen hp
  | markReadOnly new =>
    simp only [PersistentMemoryMalloc.callStep] at hs
    split_ifs at hs <;> cases hs
    · refine h.pass hp rfl rfl rfl (fun _ => ?_) ?_ <;>
        unfold flushFrom <;> split_ifs <;> first | exact id | trivial
    · exact h.pass hp rfl rfl rfl (fun _ => id) trivial
  | flushStatus page last until' =>
    cases hs
    exact h.quiet hp rfl rfl rfl rfl le_rfl (fun _ => .inl) rfl (close_setFlush s _ _) (fun _ => id) trivial
  | flushWrite page last until' =>
    cases hs
    refine h.pass hp rfl rfl rfl (fun _ => ?_) ?_ <;>
      unfold flushFrom <;> split_ifs <;> first | exact id | trivial
  | writeStatus page =>
    cases hs
    refine h.quiet hp rfl rfl rfl rfl le_rfl (fun _ => .inl) rfl (close_setFlush s _ _) (fun _ => ?_) ?_
    · split_ifs <;> exact id
    · split_ifs with hclosed
      · exact h.closed _ hclosed
      · trivial
  | writeClear page =>
    cases hs
    exact h.writeClear hp
  | writeReopen page =>
    cases hs
    exact h.writeReopen hp
  | flushedUpdate current =>
    cases hs
    exact h.quiet hp rfl rfl rfl rfl (le_max_left _ _) (fun _ => .inl) rfl (fun _ => rfl) (fun _ => id) trivial
  | _ =>
    simp only [PersistentMemoryMalloc.callStep] at hs
    try split_ifs at hs
    all_goals
      cases hs
      exact h.pass hp rfl rfl rfl (fun _ => id) trivial

/-- The invariant is kept by every step that meets the condition. -/
theorem FrameInv.step (hinv : Inv bufferSize s) (hguard : reusesClosed bufferSize s label)
    (hs : step bufferSize s label=some s') : FrameInv bufferSize s' := by
  cases label with
  | store a byte =>
    obtain ⟨⟨hro,ha⟩,rfl⟩ := of_guard hs
    exact h.store hinv hro ha
  | thread t act =>
    cases act with
    | allocate n =>
      obtain ⟨⟨hp,-⟩,rfl⟩ := of_guard hs
      refine h.quiet hp rfl rfl rfl rfl le_rfl (fun _ => .inl) rfl (fun _ => rfl) (fun _ => ?_) ?_
      · split_ifs <;> exact id
      · split_ifs <;> trivial
    | newPage =>
      simp only [step,threadStep] at hs
      split at hs
      · rename_i page hp
        cases hs
        exact h.pass hp rfl rfl rfl (fun _ => id) trivial
      · cases hs
    | shiftReadOnlyToTail =>
      obtain ⟨hp,rfl⟩ := of_guard hs
      exact h.pass hp rfl rfl rfl (fun _ => id) trivial
    | runAction a =>
      obtain ⟨⟨hp,ha⟩,rfl⟩ := of_guard hs
      refine h.quiet hp rfl rfl rfl rfl le_rfl (fun _ hnew => .inl (List.mem_of_mem_erase hnew)) rfl
        (fun _ => rfl) (fun _ => ?_) ?_
      · cases a <;> exact id
      · cases a with
        | onPagesClosed new => exact h.actions new ha
        | onPagesMarkedReadOnly new => trivial
    | complete w =>
      obtain ⟨⟨hp,-⟩,rfl⟩ := of_guard hs
      exact h.pass hp rfl rfl rfl (fun _ => id) trivial
    | step => exact h.callStep hguard hs

end

theorem frameInv_initial (hsize : kNumHeadPages+1<bufferSize) : FrameInv bufferSize initial := by
  have hpage : page initial.safeHeadAddress=0 := by decide
  refine ⟨?_,?_,nofun,fun _ => trivial,nofun,?_,?_,fun _ _ _ _ => rfl⟩
  · rw [hpage]
    unfold kNumHeadPages at hsize
    change 0+1<0+bufferSize
    omega
  · rw [hpage]
    decide
  · intro f hf
    cases hf
  · exact fun _ _ _ _ _ _ => rfl

theorem reachable_frameInv (hs : Reachable (machine bufferSize) (reusesClosed bufferSize) s) :
    Inv bufferSize s ∧ FrameInv bufferSize s := by
  refine hs.invariant (P := fun s => Inv bufferSize s ∧ FrameInv bufferSize s) ?_ ?_
  · rintro s ⟨rfl,hsize⟩
    exact ⟨inv_initial,frameInv_initial hsize⟩
  · rintro s label s' ⟨hinv,h⟩ hguard hstep
    exact ⟨hinv.step hguard.1 hstep,h.step hinv hguard hstep⟩

/-- The step clears the frame. -/
def Clears (bufferSize : ℕ) (s : State) (label : Label) (f : ℕ) : Prop :=
  ∃ t, label = .thread t .step ∧
    ((∃ idx last, s.pc t = .closeClear idx last ∧ idx % bufferSize = f) ∨
      ∃ page, s.pc t = .writeClear page ∧ page % bufferSize = f)

/-- The bytes of a page below the flushed-until address were written. -/
theorem covered_of_below (hinv : Inv bufferSize s) (h : FrameInv bufferSize s) {p a : ℕ}
    (hp : p<page s.safeHeadAddress) (ha : page a=p) : Covered s a := by
  have hpos : 0<kPageSize := by decide
  have hlt : a<page s.safeHeadAddress*kPageSize := by
    rw [←ha] at hp
    exact (Nat.div_lt_iff_lt_mul hpos).mp hp
  have hhead := h.head
  unfold address at hhead
  exact hinv.flushed a (by omega)

/-- Only the swap of `NewPage` moves the tail to another page. -/
theorem tail_moves (hs : step bufferSize s label=some s') (hne : s'.tail.page ≠ s.tail.page) :
    ∃ t old expected, label=.thread t .step ∧ s.pc t=.newPageSwap old expected ∧ s.tail=expected ∧ s'.tail.page=old+1 := by
  cases label with
  | store a byte =>
    obtain ⟨-,rfl⟩ := of_guard hs
    exact absurd rfl hne
  | thread t act =>
    cases act with
    | newPage =>
      simp only [step,threadStep] at hs
      split at hs <;> cases hs
      exact absurd rfl hne
    | step =>
      change callStep bufferSize s t (s.pc t)=some s' at hs
      cases hp : s.pc t with
      | newPageSwap old expected =>
        rw [hp] at hs
        simp only [callStep] at hs
        split_ifs at hs with htail hold <;> cases hs
        · exact ⟨t,old,expected,rfl,hp,htail,rfl⟩
        · exact absurd rfl hne
        · exact absurd rfl hne
      | _ =>
        rw [hp] at hs
        simp only [callStep] at hs
        try split_ifs at hs
        all_goals cases hs
        all_goals exact absurd rfl hne
    | _ =>
      obtain ⟨-,rfl⟩ := of_guard hs
      exact absurd rfl hne

/-- Frames are recycled safely: a step that clears a frame finds the pages it has
served below the safe head address and written, and a step that moves the tail onto
a page finds the page's frame all zero. -/
theorem frames_recycled (hs : Reachable (machine bufferSize) (reusesClosed bufferSize) s)
    (hguard : reusesClosed bufferSize s label) (hstep : step bufferSize s label = some s') :
    (∀ f, Clears bufferSize s label f → ∀ p ≤ s.tail.page, p % bufferSize = f →
      p < Layout.page s.safeHeadAddress ∧ ∀ a, Layout.page a = p → Covered s a) ∧
    (s'.tail.page ≠ s.tail.page → s'.tail.page = s.tail.page + 1 ∧
      ∀ o, s.frames (s'.tail.page % bufferSize) o = 0) := by
  obtain ⟨hinv,h⟩ := reachable_frameInv hs
  refine ⟨?_,?_⟩
  · rintro f ⟨t,-,hclear⟩ p hp hmod
    have hbelow : Below bufferSize s f := by
      have hok := h.pc t
      rcases hclear with ⟨idx,last,hpc,rfl⟩ | ⟨page,hpc,rfl⟩
      · refine h.below_of_toClose (t := t) ?_
        rw [hpc] at hok ⊢
        exact ⟨le_rfl,hok⟩
      · rw [hpc] at hok
        exact hok
    have hlt := hbelow p hp hmod
    exact ⟨hlt,fun a ha => covered_of_below hinv h hlt ha⟩
  · intro hne
    obtain ⟨t,old,expected,rfl,hp,htail,hnew⟩ := tail_moves hstep hne
    obtain ⟨hready,hidle⟩ := hguard.2 t old expected rfl hp htail
    have hold : s.tail.page=old := by
      have hok := h.pc t
      rw [hp] at hok
      rw [htail]
      exact hok.2
    rw [hnew,hold]
    exact ⟨rfl,h.zero_next hp htail hready hidle⟩

/-- A thread's step leaves the other threads. -/
theorem pc_other (hs : threadStep bufferSize s t act=some s') {u : ℕ} (hu : u ≠ t) : s'.pc u=s.pc u := by
  cases act with
  | newPage =>
    simp only [threadStep] at hs
    split at hs <;> cases hs
    exact update_of_ne hu _ _
  | step =>
    change callStep bufferSize s t (s.pc t)=some s' at hs
    cases hp : s.pc t <;> rw [hp] at hs <;> simp only [callStep] at hs <;>
      try split_ifs at hs
    all_goals cases hs
    all_goals exact update_of_ne hu _ _
  | _ =>
    obtain ⟨-,rfl⟩ := of_guard hs
    exact update_of_ne hu _ _

/-- Steps of thread 0 that move neither the tail nor the flushed-until address. -/
def aloneCheck (s : State) : Label → Bool
  | .thread 0 .step =>
    match s.pc 0 with
    | .newPageSwap _ _ => false
    | .flushedNext _ _ _ => false
    | _ => true
  | .thread 0 _ => true
  | _ => false

theorem alone_of_check (s : State) (label : Label) (h : aloneCheck s label=true) :
    (∃ act, label=.thread 0 act) ∧ reusesClosed bufferSize s label := by
  unfold aloneCheck at h
  split at h
  · refine ⟨⟨_,rfl⟩,?_,?_⟩
    · intro t current page update hl hp
      cases hl
      rw [hp] at h
      cases h
    · intro t old expected hl hp
      cases hl
      rw [hp] at h
      cases h
  · rename_i act hact
    refine ⟨⟨act,rfl⟩,?_,?_⟩
    · intro t current page update hl
      cases hl
      exact absurd rfl hact
    · intro t old expected hl
      cases hl
      exact absurd rfl hact
  · cases h

/-- The tail moves onto page 1, whose frame is zero. -/
theorem frames_recycled_one : ∃ s s', Reachable (machine 6) (reusesClosed 6) s ∧
    step 6 s (.thread 0 .step) = some s' ∧ s'.tail.page = 1 ∧ ∀ o, s.frames 1 o = 0 := by
  have hrun : (execGuarded (machine 6) aloneCheck initial
      (.thread 0 (.allocate kMaxOffset)::.thread 0 .newPage::steps 0 3)).any
      (fun s => decide (s.pc 0=.newPageSwap 0 s.tail ∧ s.tail.page=0 ∧ (s.status 1).ready))=true := by
    decide +kernel
  obtain ⟨s,hr,hend⟩ := exists_run_of_execGuarded alone_of_check hrun
  obtain ⟨hp,htail,hready⟩ := of_decide_eq_true hend
  have hs : Reachable (machine 6) (reusesClosed 6) s := ⟨_,⟨rfl,by decide⟩,hr.mono fun _ _ h => h.2⟩
  have hidle : ∀ u, u ≠ 0 → s.pc u=.idle := by
    refine hr.invariant (P := fun s => ∀ u, u ≠ 0 → s.pc u=.idle) ?_ fun _ _ => rfl
    rintro s label s' h ⟨⟨act,rfl⟩,-⟩ hstep u hu
    rw [pc_other hstep hu]
    exact h u hu
  have hguard : reusesClosed 6 s (.thread 0 .step) := by
    refine ⟨?_,?_⟩
    · intro t current page update hl hpc
      cases hl
      rw [hp] at hpc
      cases hpc
    · intro t old expected hl hpc _
      cases hl
      rw [hp] at hpc
      cases hpc
      refine ⟨hready,fun u => ?_⟩
      by_cases hu : u=0
      · rw [hu,hp]
        exact not_busy rfl
      · rw [hidle u hu]
        exact not_busy rfl
  have hstep : step 6 s (.thread 0 .step) =
      some ({ s with tail := ⟨1,0⟩ }.goto 0 (.shiftReadOnly 0)) := by
    change callStep 6 s 0 (s.pc 0)=_
    rw [hp]
    exact if_pos rfl
  refine ⟨s,_,hs,hstep,rfl,?_⟩
  refine ((frames_recycled hs hguard hstep).2 ?_).2
  rw [htail]
  exact Nat.one_ne_zero

/-- The tail comes to page 4 and no further, and the pages 0 and 1 are flushed, with a
byte of a record in page 0. `OnPagesClosed` publishes page 2 as the safe head and stops. -/
def stalledClose : List Label :=
  .thread 0 (.allocate 8) :: .store 64 1 :: twoWrites ++
  .thread 1 (.complete (pageWrite 0)) :: steps 1 6 ++ .thread 1 (.complete (pageWrite 1)) :: steps 1 6 ++
  fillPage ++ .thread 0 .newPage :: steps 0 6 ++
  [.thread 1 (.runAction (.onPagesClosed (Layout.address 2 0))), .thread 1 .step]

/-- The tail moves on to page 5 and is about to move to page 6, which has the frame of page 0. -/
def wrapsAround : List Label :=
  stalledClose ++ nextPage 7 ++ fillPage ++ .thread 0 .newPage :: steps 0 3

/-- The tail moves onto page 6, whose frame still holds the bytes of page 0, and after a
record was stored in page 6 its frame is cleared, while page 6 is the tail page. -/
theorem frames_reused_early :
    (∃ s s', Reachable (machine 6) anyStep s ∧ step 6 s (.thread 0 .step) = some s' ∧
      s'.tail.page = 6 ∧ s.tail.page = 5 ∧ s.frames 0 64 ≠ 0) ∧
    ∃ s, Reachable (machine 6) anyStep s ∧ Clears 6 s (.thread 1 .step) 0 ∧ s.tail.page = 6 ∧
      Layout.page s.safeHeadAddress < 6 ∧ s.frames 0 0 ≠ 0 := by
  refine ⟨?_,?_⟩
  · have hrun : (exec (machine 6) initial wrapsAround).any (fun s =>
        decide (s.tail.page=5 ∧ s.frames 0 64 ≠ 0) &&
          (step 6 s (.thread 0 .step)).any fun s' => decide (s'.tail.page=6))=true := by
      decide +kernel
    obtain ⟨s,hr,hend⟩ := exists_run_of_exec hrun
    simp only [Bool.and_eq_true,decide_eq_true_eq,Option.any_eq_true] at hend
    obtain ⟨⟨htail,hbyte⟩,s',hstep,hnew⟩ := hend
    exact ⟨s,s',⟨_,⟨rfl,by decide⟩,hr⟩,hstep,hnew,htail,hbyte⟩
  · have hrun : (exec (machine 6) initial (wrapsAround ++ steps 0 1 ++
        [.thread 2 (.allocate 8),.store (address 6 0) 1,.thread 1 .step])).any (fun s =>
        decide (s.pc 1=.closeClear 0 2 ∧ s.tail.page=6 ∧ page s.safeHeadAddress<6 ∧
          s.frames 0 0 ≠ 0))=true := by
      decide +kernel
    obtain ⟨s,hr,hend⟩ := exists_run_of_exec hrun
    obtain ⟨hp,htail,hhead,hbyte⟩ := of_decide_eq_true hend
    exact ⟨s,⟨_,⟨rfl,by decide⟩,hr⟩,⟨1,rfl,.inl ⟨0,2,hp,rfl⟩⟩,htail,hhead,hbyte⟩

end

end FishStore.FrameReuse
