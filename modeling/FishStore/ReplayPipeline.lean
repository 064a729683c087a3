import FishStore.Runs

/-!
# The pages of a recovery

`RecoverHybridLog` reads as many pages as the buffer has frames, replays them in order and
writes each one back; when a write completes, the next page is read into its frame. Page
numbers and the capacity are 32-bit numbers, and so are their sums.
-/

namespace FishStore.ReplayPipeline

open Runs
open Function (update update_of_ne update_self)

/-- `PageRecoveryStatus`. -/
inductive PageRecoveryStatus
  | notStarted | issuedRead | readDone | issuedFlush | flushDone
  deriving DecidableEq

/-- The pages to be recovered, and `buffer_size()`. -/
structure Setting where
  startPage : ℕ
  endPage : ℕ
  capacity : ℕ
  startPage_lt : startPage < 2^32
  endPage_lt : endPage < 2^32
  capacity_lt : capacity < 2^32

/-- `pages_to_read_first`. -/
def Setting.pagesToReadFirst (c : Setting) : ℕ := min c.capacity ((c.endPage+2^32-c.startPage)%2^32)

/-- What happens to a page, in this order. -/
inductive Stage
  | read | readDone | replay | write | writeDone
  deriving DecidableEq

/-- Where `RecoverHybridLog` stands. -/
inductive Pc
  /-- `AsyncReadPages` is about to read the page. -/
  | read (page stop : ℕ)
  /-- Waiting until the page has been read. -/
  | wait (page : ℕ)
  /-- The page was replayed, and is to be written. -/
  | flush (page : ℕ)
  /-- Waiting until the page has been written. -/
  | drain (page : ℕ)
  | returned
  deriving DecidableEq

/-- The recovery. The requests that were not completed are those of the pages with the status
`issuedRead` or `issuedFlush`. -/
structure State where
  /-- `page_status_`. -/
  pageStatus : ℕ → PageRecoveryStatus
  pc : Pc
  /-- History: what has happened, the latest first. -/
  events : List (Stage × ℕ)

/-- The first call of `AsyncReadPages`. -/
def Setting.initial (c : Setting) : State :=
  ⟨fun _ => .notStarted,.read c.startPage ((c.startPage+c.pagesToReadFirst)%2^32),[]⟩

/-- The status of a page changes, for the reason that is given. -/
def State.set (s : State) (stage : Stage) (page : ℕ) (status : PageRecoveryStatus) : State :=
  { s with pageStatus := update s.pageStatus page status, events := (stage, page)::s.events }

/-- `AsyncReadPages` of one page. -/
def State.asyncReadPage (s : State) (page : ℕ) : State := s.set .read page .issuedRead

/-- The next step of `RecoverHybridLog`. -/
def mainStep (c : Setting) (s : State) : Option State :=
  match s.pc with
  | .read page stop =>
    some (if page<stop then { s.asyncReadPage page with pc := .read (page+1) stop }
      else { s with pc := .wait c.startPage })
  | .wait page =>
    some (if page<c.endPage then
        if s.pageStatus page=.readDone then { s with pc := .flush page, events := (.replay, page)::s.events }
        else s
      else { s with pc := .drain c.startPage })
  | .flush page => some { s.set .write page .issuedFlush with pc := .wait (page+1) }
  | .drain page =>
    some (if page<c.endPage then
        if s.pageStatus page=.flushDone then { s with pc := .drain (page+1) } else s
      else { s with pc := .returned })
  | .returned => none

/-- Who takes a step. -/
inductive Label
  | main
  /-- A read completes. -/
  | readDone (page : ℕ)
  /-- A write completes, and its callback reads the page that `RecoverHybridLog` has given it. -/
  | writeDone (page : ℕ)

/-- One step. -/
def step (c : Setting) (s : State) : Label → Option State
  | .main => mainStep c s
  | .readDone page =>
    if s.pageStatus page=.issuedRead then some (s.set .readDone page .readDone) else none
  | .writeDone page =>
    if s.pageStatus page=.issuedFlush then
      some (if (page+c.capacity)%2^32<c.endPage then
          (s.set .writeDone page .flushDone).asyncReadPage ((page+c.capacity)%2^32)
        else s.set .writeDone page .flushDone)
    else none

/-- The recovery with requests that complete in any order. -/
def machine (c : Setting) : Machine State Label := ⟨fun s => s = c.initial,step c⟩

/-- What has to come before an event: a page is read into a frame when the pages that were in it
are written, and replayed when it is read and the pages before it are replayed. -/
def Allowed (c : Setting) (before : List (Stage × ℕ)) : Stage × ℕ → Prop
  | (.read, p) => c.startPage ≤ p ∧ p < c.endPage ∧
    ∀ q, c.startPage ≤ q → q < p → q % c.capacity = p % c.capacity → (.writeDone, q) ∈ before
  | (.readDone, p) => (.read, p) ∈ before
  | (.replay, p) => (.readDone, p) ∈ before ∧ ∀ q, c.startPage ≤ q → q < p → (.replay, q) ∈ before
  | (.write, p) => (.replay, p) ∈ before
  | (.writeDone, p) => (.write, p) ∈ before

/-- Every event was allowed when it happened, and happened once. -/
def Proper (c : Setting) : List (Stage × ℕ) → Prop
  | [] => True
  | e::before => e ∉ before ∧ Allowed c before e ∧ Proper c before

/-- There are pages from the first to the last one, and no sum with the capacity wraps around. -/
def Setting.Fits (c : Setting) : Prop := c.startPage ≤ c.endPage ∧ c.endPage + c.capacity ≤ 2^32

/-- How far a page is. -/
def level : PageRecoveryStatus → ℕ
  | .notStarted => 0
  | .issuedRead => 1
  | .readDone => 2
  | .issuedFlush => 4
  | .flushDone => 5

/-- The level that an event leads to. -/
def Stage.rank : Stage → ℕ
  | .read => 1
  | .readDone => 2
  | .replay => 3
  | .write => 4
  | .writeDone => 5

/-- How far a page is, with its replay. -/
def State.level (s : State) (p : ℕ) : ℕ :=
  if s.pc=.flush p then 3 else ReplayPipeline.level (s.pageStatus p)

/-- The pages below `m` are written, those from `m` on are not replayed. -/
structure UpTo (c : Setting) (status : ℕ → PageRecoveryStatus) (m : ℕ) : Prop where
  start_le : c.startPage ≤ m
  le_end : m ≤ c.endPage
  below : ∀ p, c.startPage ≤ p → p < m → 4 ≤ level (status p)
  above : ∀ p, m ≤ p → level (status p) ≤ 2

/-- What the place of the recovery says of the pages. -/
def Place (c : Setting) (status : ℕ → PageRecoveryStatus) : Pc → Prop
  | .read k stop => UpTo c status c.startPage ∧ c.startPage ≤ k ∧ stop ≤ c.endPage ∧
    stop ≤ c.startPage + c.capacity ∧ ∀ p, k ≤ p → status p = .notStarted
  | .wait m => UpTo c status m
  | .flush m => UpTo c status m ∧ status m = .readDone
  | .drain m => UpTo c status c.endPage ∧ ∀ p, c.startPage ≤ p → p < m → status p = .flushDone
  | .returned => ∀ p, c.startPage ≤ p → p < c.endPage → status p = .flushDone

/-- The invariant. -/
structure Inv (c : Setting) (s : State) : Prop where
  events : ∀ e p, (e, p) ∈ s.events ↔ e.rank ≤ s.level p
  proper : Proper c s.events
  range : ∀ p, s.pageStatus p ≠ .notStarted → c.startPage ≤ p ∧ p < c.endPage
  /-- A page that is not one of the first is read when the page before it in its frame is written. -/
  frames : ∀ p, s.pageStatus p ≠ .notStarted → c.startPage + c.capacity ≤ p →
    s.pageStatus (p - c.capacity) = .flushDone
  place : Place c s.pageStatus s.pc

section

variable {c : Setting} {s s' : State} {e : Stage} {r : PageRecoveryStatus} {q : ℕ}

/-- The page that is replayed was read. -/
theorem Inv.pc_ne (h : Inv c s) (hq : s.pageStatus q≠.readDone) : s.pc≠.flush q := by
  intro hpc
  have hplace := h.place
  rw [hpc] at hplace
  exact hq hplace.2

theorem Inv.level_eq (h : Inv c s) (hq : s.pageStatus q≠.readDone) : s.level q=level (s.pageStatus q) := if_neg (h.pc_ne hq)

/-- An event takes its page one level up. -/
theorem Inv.move (h : Inv c s) (hst : s'.pageStatus=update s.pageStatus q r) (hev : s'.events=(e,q)::s.events)
    (hpc : ∀ p, p≠q → (s'.pc=.flush p ↔ s.pc=.flush p)) (hl : s.level q+1=e.rank) (hl' : s'.level q=e.rank)
    (ha : Allowed c s.events (e,q)) (hmem : c.startPage ≤ q ∧ q<c.endPage) (hd : s.pageStatus q≠.flushDone)
    (hf : c.startPage+c.capacity ≤ q → s.pageStatus (q-c.capacity)=.flushDone)
    (hplace : Place c s'.pageStatus s'.pc) : Inv c s' := by
  have hother : ∀ p, p≠q → s'.pageStatus p=s.pageStatus p := fun p hp => by rw [hst,update_of_ne hp]
  refine ⟨fun e' p => ?_,?_,fun p hp => ?_,fun p hp hle => ?_,hplace⟩
  · rw [hev,List.mem_cons,h.events,Prod.mk.injEq]
    by_cases hp : p=q
    · subst hp
      have hinj : e'.rank=e.rank → e'=e := by cases e' <;> cases e <;> decide
      constructor
      · rintro (⟨rfl,-⟩ | hle) <;> omega
      · intro hle
        by_cases he : e'.rank=e.rank
        · exact .inl ⟨hinj he,rfl⟩
        · exact .inr (by omega)
    · simp only [hp,and_false,false_or,State.level,hpc p hp,hother p hp]
  · rw [hev]
    refine ⟨fun hold => ?_,ha,h.proper⟩
    have := (h.events _ _).mp hold
    omega
  · by_cases hpq : p=q
    · exact hpq ▸ hmem
    · exact h.range p (hother p hpq ▸ hp)
  · have hdone : s.pageStatus (p-c.capacity)=.flushDone := by
      by_cases hpq : p=q
      · exact hpq ▸ hf (hpq ▸ hle)
      · exact h.frames p (hother p hpq ▸ hp) hle
    rw [hother _ fun heq => hd (heq ▸ hdone),hdone]

/-- A page changes within its part of the way. -/
theorem UpTo.set {status : ℕ → PageRecoveryStatus} {m : ℕ} (h : UpTo c status m) (h4 : 4 ≤ level (status q) → 4 ≤ level r)
    (h2 : level (status q) ≤ 2 → level r ≤ 2) : UpTo c (update status q r) m := by
  refine ⟨h.start_le,h.le_end,fun p hp hpm => ?_,fun p hp => ?_⟩
  all_goals
    by_cases hpq : p=q
    · subst hpq
      rw [update_self]
      first | exact h4 (h.below p hp hpm) | exact h2 (h.above p hp)
    · rw [update_of_ne hpq]
      first | exact h.below p hp hpm | exact h.above p hp

theorem Place.set {status : ℕ → PageRecoveryStatus} {pc : Pc} (h : Place c status pc)
    (h4 : 4 ≤ level (status q) → 4 ≤ level r) (h2 : level (status q) ≤ 2 → level r ≤ 2)
    (hr : status q≠.readDone) (hf : status q≠.flushDone)
    (hn : status q=.notStarted → ∀ k stop, pc≠.read k stop) : Place c (update status q r) pc := by
  have hkeep : ∀ p, status p≠status q → update status q r p=status p :=
    fun p hp => update_of_ne (fun heq => hp (congrArg status heq)) ..
  have hdone : ∀ p, status p=.flushDone → update status q r p=.flushDone := fun p hp => (hkeep p (hp ▸ hf.symm)).trans hp
  cases pc with
  | read k stop =>
    refine ⟨h.1.set h4 h2,h.2.1,h.2.2.1,h.2.2.2.1,fun p hp => ?_⟩
    have hnot := h.2.2.2.2 p hp
    rw [hkeep,hnot]
    rw [hnot]
    exact fun heq => hn heq.symm k stop rfl
  | wait m => exact UpTo.set h h4 h2
  | flush m => exact ⟨h.1.set h4 h2,(hkeep m (h.2 ▸ hr.symm)).trans h.2⟩
  | drain m => exact ⟨h.1.set h4 h2,fun p hp hpm => hdone p (h.2 p hp hpm)⟩
  | returned => exact fun p hp hpe => hdone p (h p hp hpe)

/-- The pages that were in the frame of a written page are written. -/
theorem Inv.frame_written (h : Inv c s) {p : ℕ} (hp : c.startPage ≤ p) (n : ℕ)
    (hn : s.pageStatus (p+c.capacity*n)=.flushDone) : s.pageStatus p=.flushDone := by
  induction n with
  | zero => exact hn
  | succ n ih =>
    rw [Nat.mul_succ,←Nat.add_assoc] at hn
    have hf := h.frames (p+c.capacity*n+c.capacity) (by simp [hn]) (by omega)
    rw [Nat.add_sub_cancel] at hf
    exact ih hf

/-- A page is read when the page before it in its frame is written. -/
theorem Inv.readPage (h : Inv c s) {pc : Pc} (hq : s.pageStatus q=.notStarted)
    (hmem : c.startPage ≤ q ∧ q<c.endPage)
    (hf : c.startPage+c.capacity ≤ q → s.pageStatus (q-c.capacity)=.flushDone)
    (hpc : ∀ p, pc=.flush p ↔ s.pc=.flush p) (hplace : Place c (update s.pageStatus q .issuedRead) pc) :
    Inv c { s.asyncReadPage q with pc := pc } := by
  have hne : pc≠.flush q := fun heq => h.pc_ne (by simp [hq]) ((hpc q).mp heq)
  refine h.move (e := .read) rfl rfl (fun p _ => hpc p) ?_ ?_ ⟨hmem.1,hmem.2,fun p hp hpq hmod => ?_⟩ hmem
    (by simp [hq]) hf hplace
  · rw [h.level_eq (by simp [hq]),hq]
    rfl
  · simp [State.level,hne,State.asyncReadPage,State.set,level,Stage.rank]
  · obtain ⟨n,hn⟩ := (Nat.modEq_iff_dvd' hpq.le).mp hmod
    cases n with
    | zero => omega
    | succ n =>
      rw [Nat.mul_succ] at hn
      have hw := h.frame_written hp n ((congrArg s.pageStatus (by omega)).trans (hf (by omega)))
      rw [h.events,h.level_eq (by simp [hw]),hw]
      exact le_refl _

/-- A request completes. -/
theorem Inv.complete (h : Inv c s) (hq : s.pageStatus q=.issuedRead ∧ e=.readDone ∧ r=.readDone ∨
    s.pageStatus q=.issuedFlush ∧ e=.writeDone ∧ r=.flushDone) : Inv c (s.set e q r) := by
  obtain ⟨hq,rfl,rfl⟩ | ⟨hq,rfl,rfl⟩ := hq
  all_goals
    have hr : s.pageStatus q≠.readDone := by simp [hq]
    have hn : s.pageStatus q≠.notStarted := by simp [hq]
    have hl := h.level_eq hr
    rw [hq] at hl
    refine h.move rfl rfl (fun p _ => .rfl) (congrArg (·+1) hl) ?_ ((h.events ..).mpr hl.ge) (h.range q hn)
      (by simp [hq]) (h.frames q hn)
      (h.place.set (by simp [hq,level]) (by simp [hq,level]) hr (by simp [hq]) fun h => absurd h hn)
    simp [State.level,State.set,h.pc_ne hr,level,Stage.rank]

/-- A write completes, and the next page is read into its frame. -/
theorem Inv.writeDone (h : Inv c s) (hc : c.Fits) (hq : s.pageStatus q=.issuedFlush) (hlt : (q+c.capacity)%2^32<c.endPage) :
    Inv c ((s.set .writeDone q .flushDone).asyncReadPage ((q+c.capacity)%2^32)) := by
  have hw := h.complete (.inr ⟨hq,rfl,rfl⟩)
  have hrange := h.range q (by simp [hq])
  have hfits := hc.2
  rw [Nat.mod_eq_of_lt (by omega)] at hlt ⊢
  have hn : s.pageStatus (q+c.capacity)=.notStarted := by
    by_contra hn
    have := h.frames _ hn (by omega)
    simp [hq] at this
  have hnext : (s.set .writeDone q .flushDone).pageStatus (q+c.capacity)=.notStarted :=
    (update_of_ne (fun heq => by simp [heq,hq] at hn) ..).trans hn
  refine hw.readPage hnext ⟨by omega,hlt⟩ (fun _ => ?_) (fun p => .rfl)
    (hw.place.set (by simp [hnext,level]) (by simp [level]) (by simp [hnext]) (by simp [hnext]) fun _ k stop hpc => ?_)
  · rw [Nat.add_sub_cancel]
    exact update_self ..
  · -- no page is written before the first ones are read
    have hplace := h.place
    rw [show s.pc=_ from hpc] at hplace
    have := hplace.1.above q hrange.1
    simp [hq,level] at this

theorem Inv.goto (h : Inv c s) {pc : Pc} (hpc : ∀ p, pc=.flush p ↔ s.pc=.flush p)
    (hplace : Place c s.pageStatus pc) : Inv c { s with pc := pc } := by
  refine ⟨fun e p => ?_,h.proper,h.range,h.frames,hplace⟩
  simpa only [State.level,hpc] using h.events e p

/-- The next step of the recovery. -/
theorem Inv.mainStep (h : Inv c s) (hs : mainStep c s=some s') : Inv c s' := by
  have hplace := h.place
  unfold ReplayPipeline.mainStep at hs
  split at hs <;> cases hs
  all_goals
    rename_i hpc
    rw [hpc] at hplace
  case h_1 k stop =>
    obtain ⟨hup,hk,hend,hcap,hn⟩ := hplace
    split_ifs with hlt
    · refine h.readPage (hn k le_rfl) ⟨hk,by omega⟩ (fun _ => by omega) (by simp [hpc])
        ⟨hup.set (by simp [hn k le_rfl,level]) (by simp [level]),by omega,hend,hcap,fun p hp => ?_⟩
      rw [update_of_ne (by omega),hn p (by omega)]
    · exact h.goto (by simp [hpc]) hup
  case h_2 m =>
    have hup : UpTo c s.pageStatus m := hplace
    split_ifs with hlt hread
    · refine h.move (e := .replay) (r := .readDone) ?_ rfl ?_ ?_ ?_ ⟨?_,fun p hp hpm => ?_⟩ ⟨hup.start_le,hlt⟩
        (by simp [hread]) (h.frames m (by simp [hread])) ⟨hup,hread⟩
      · rw [←hread,Function.update_eq_self]
      · simp [hpc,eq_comm]
      · simp [State.level,hpc,hread,level,Stage.rank]
      · simp [State.level,Stage.rank]
      · simp [h.events,State.level,hpc,hread,level,Stage.rank]
      · have hle := hup.below p hp hpm
        simp only [h.events,State.level,hpc,reduceCtorEq,if_false,Stage.rank]
        omega
    · exact h
    · exact h.goto (by simp [hpc]) ⟨le_antisymm hup.le_end (not_lt.mp hlt) ▸ hup,fun p hp hpm => by omega⟩
  case h_3 m =>
    obtain ⟨hup,hread⟩ := hplace
    have hmem := h.range m (by simp [hread])
    refine h.move (e := .write) (r := .issuedFlush) rfl rfl ?_ ?_ ?_ ?_ hmem
      (by simp [hread]) (h.frames m (by simp [hread])) ⟨by omega,hmem.2,fun p hp hpm => ?_,fun p hp => ?_⟩
    · simp [hpc,eq_comm]
    · simp [State.level,hpc,Stage.rank]
    · simp [State.level,State.set,level,Stage.rank]
    · simp [Allowed,h.events,State.level,hpc,Stage.rank]
    · by_cases hpq : p=m
      · simp [hpq,State.set,level]
      · exact (hup.below p hp (by omega)).trans_eq (congrArg level (update_of_ne hpq ..).symm)
    · exact (congrArg level (update_of_ne (by omega) ..)).trans_le (hup.above p (by omega))
  case h_4 m =>
    obtain ⟨hup,hdone⟩ := hplace
    split_ifs with hlt hw
    · refine h.goto (by simp [hpc]) ⟨hup,fun p hp hpm => ?_⟩
      obtain hpm | rfl := Nat.lt_succ_iff_lt_or_eq.mp hpm
      · exact hdone p hp hpm
      · exact hw
    · exact h
    · exact h.goto (by simp [hpc]) fun p hp hpe => hdone p hp (by omega)

theorem inv_initial (hc : c.Fits) : Inv c c.initial := by
  have hle := hc.1
  have hstop : (c.startPage+c.pagesToReadFirst)%2^32=c.startPage+min c.capacity (c.endPage-c.startPage) := by
    have := c.endPage_lt
    unfold Setting.pagesToReadFirst
    omega
  refine ⟨fun e p => ?_,trivial,fun p hp => absurd rfl hp,fun p hp => absurd rfl hp,?_⟩
  · cases e <;> simp [Setting.initial,State.level,level,Stage.rank]
  · simp only [Setting.initial,hstop]
    exact ⟨⟨le_rfl,hle,fun p hp hlt => by omega,fun p _ => Nat.zero_le _⟩,le_rfl,by omega,by omega,fun p _ => rfl⟩

end

/-- Two pages that take turns in one frame. -/
def oneFrame : Setting := ⟨0,2,1,by decide,by decide,by decide⟩

/-- The sum of page 1 and the capacity is 0. -/
def wrapping : Setting := ⟨0,2,2^32-1,by decide,by decide,by decide⟩

end FishStore.ReplayPipeline
