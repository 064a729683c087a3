import FishStore.LightEpoch

/-!
# Safety of epoch protection

An epoch is clear when no thread with an identifier of the scanned range owes
a move for it or for an earlier one. The scan of the table computes a clear
epoch although threads move during the scan, what was clear stays clear, and
only actions of clear epochs are executed. Thread identifier 0 is outside the
scanned range: an action may be executed while that thread is still protected.
-/

namespace FishStore.EpochSafety

open LightEpoch Runs
open Function (update update_of_ne update_self)

/-- No scanned thread owes a move for the epoch or an earlier one. -/
def Clear (s : State) (v : ℕ) : Prop :=
  v < s.currentEpoch ∧ ∀ e ≤ v, ∀ t, 1 ≤ t → t ≤ kMaxNumThreads → s.owed e t = false

/-- What a call has established. -/
def PcOk (s : State) : Pc → Prop
  | .protectStore epoch _ => 1 ≤ epoch ∧ epoch ≤ s.currentEpoch
  | .loadCount next _ => 1 ≤ next ∧ next ≤ s.currentEpoch
  | .compute oldest idx _ => 1 ≤ oldest ∧ oldest ≤ s.currentEpoch ∧
      ∀ e < oldest, ∀ t, 1 ≤ t → t < idx → s.owed e t = false
  | .tryPop _ epoch _ => Clear s epoch
  | .popTake i _ => ∀ e, (s.drainList i).callback = some e → Clear s e
  | .popFree _ callback _ => ∀ e, callback = some e → Clear s e
  | .popRun _ callback _ => ∀ e, callback = some e → Clear s e
  | .pushStore i prior => (s.drainList i).callback = some prior
  | .trySwap _ epoch _ => Clear s epoch
  | .swapTake i _ => ∀ e, (s.drainList i).callback = some e → Clear s e
  | .swapStore i prior callback => (s.drainList i).callback = some prior ∧
      ∀ e, callback = some e → Clear s e
  | .swapRun callback => ∀ e, callback = some e → Clear s e
  | _ => True

/-- The invariant of the epoch manager. -/
structure Inv (s : State) : Prop where
  /-- Epochs start at one. -/
  current_pos : 1 ≤ s.currentEpoch
  /-- A thread that owes a move is still protected at or below the epoch. -/
  owed : ∀ e t, s.owed e t = true → s.table t ≠ 0 ∧ s.table t ≤ e ∧ e < s.currentEpoch
  /-- The safe epoch is clear. -/
  safe : Clear s s.safeToReclaimEpoch
  /-- A published slot has the callback of its epoch. -/
  slot : ∀ i e, (s.drainList i).epoch = .at e → (s.drainList i).callback = some e
  /-- A slot that a thread has locked is locked. -/
  locked : ∀ t i, holding (s.pc t) = some i → (s.drainList i).epoch = .locked
  /-- Two threads never hold one slot. -/
  lock_unique : ∀ t u i, holding (s.pc t) = some i → holding (s.pc u) = some i → t = u
  /-- Each call has established what its place says. -/
  ok : ∀ t, PcOk s (s.pc t)

/-- What a step of thread `t` leaves alone. -/
structure Frame (s s' : State) (t : ℕ) : Prop where
  current_le : s.currentEpoch ≤ s'.currentEpoch
  owed_le : ∀ e u, e < s.currentEpoch → s'.owed e u = true → s.owed e u = true
  slots : ∀ i, (s.drainList i).epoch = .locked → holding (s.pc t) ≠ some i →
    s'.drainList i = s.drainList i

section

variable {s s' : State} {t u v i epoch oldest idx : ℕ} {p : Pc} {prior : Option ℕ}

/-- What is clear stays clear: later epochs are bumped later. -/
theorem Clear.mono (h : Clear s v) (hf : Frame s s' t) : Clear s' v := by
  refine ⟨h.1.trans_le hf.current_le,fun e he u h1 h2 => ?_⟩
  cases hu : s'.owed e u with
  | false => rfl
  | true =>
    have hlt : e<s.currentEpoch := lt_of_le_of_lt he h.1
    rw [←h.2 e he u h1 h2,hf.owed_le e u hlt hu]

theorem PcOk.mono (h : PcOk s p) (hf : Frame s s' t)
    (hslot : ∀ i, holding p=some i → s'.drainList i=s.drainList i) : PcOk s' p := by
  cases p with
  | protectStore epoch drain | loadCount next prior => exact ⟨h.1,h.2.trans hf.current_le⟩
  | compute oldest idx prior =>
    obtain ⟨hpos,hle,hscan⟩ := h
    refine ⟨hpos,hle.trans hf.current_le,fun e he u h1 h2 => ?_⟩
    cases hu : s'.owed e u with
    | false => rfl
    | true => rw [←hscan e he u h1 h2,hf.owed_le e u (he.trans_le hle) hu]
  | tryPop i epoch prior | trySwap i epoch prior => exact Clear.mono h hf
  | popTake i prior | swapTake i prior =>
    intro e he
    rw [hslot i rfl] at he
    exact (h e he).mono hf
  | popFree i callback prior | popRun i callback prior | swapRun callback => exact fun e he => (h e he).mono hf
  | pushStore i prior =>
    have hcb : (s'.drainList i).callback=some prior := by
      rw [hslot i rfl]
      exact h
    exact hcb
  | swapStore i prior callback =>
    have hcb : (s'.drainList i).callback=some prior := by
      rw [hslot i rfl]
      exact h.1
    exact ⟨hcb,fun e he => (h.2 e he).mono hf⟩
  | _ => trivial

/-- The step of one thread: what it leaves to the others, and what it has
established itself. -/
theorem Inv.advance (h : Inv s) (hpc : s'.pc=update s.pc t p) (hf : Frame s s' t)
    (howed : ∀ e u, s'.owed e u=true → s'.table u ≠ 0 ∧ s'.table u≤e ∧ e<s'.currentEpoch)
    (hsafe : Clear s' s'.safeToReclaimEpoch)
    (hslot : ∀ i e, (s'.drainList i).epoch=.at e → (s'.drainList i).callback=some e)
    (hheld : ∀ i, holding p=some i → (s'.drainList i).epoch=.locked ∧
      (holding (s.pc t)=some i ∨ (s.drainList i).epoch ≠ .locked)) (hok : PcOk s' p) : Inv s' := by
  have hother : ∀ u, u ≠ t → s'.pc u=s.pc u := by
    intro u hu
    rw [hpc,update_of_ne hu]
  have hself : s'.pc t=p := by rw [hpc,update_self]
  -- A slot that another thread holds is not touched.
  have hkeep : ∀ u i, u ≠ t → holding (s.pc u)=some i → s'.drainList i=s.drainList i := by
    intro u i hu hi
    refine hf.slots i (h.locked u i hi) fun ht => hu (h.lock_unique u t i hi ht)
  have hclash : ∀ u i, u ≠ t → holding (s.pc u)=some i → holding p ≠ some i := by
    intro u i hu hi hp
    rcases (hheld i hp).2 with ht | hne
    · exact hu (h.lock_unique u t i hi ht)
    · exact hne (h.locked u i hi)
  refine ⟨h.current_pos.trans hf.current_le,howed,hsafe,hslot,?_,?_,?_⟩
  · intro u i hi
    by_cases hu : u=t
    · rw [hu,hself] at hi
      exact (hheld i hi).1
    · rw [hother u hu] at hi
      rw [hkeep u i hu hi]
      exact h.locked u i hi
  · intro u v i hu hv
    by_cases hut : u=t <;> by_cases hvt : v=t
    · rw [hut,hvt]
    · rw [hut,hself] at hu
      rw [hother v hvt] at hv
      exact absurd hu (hclash v i hvt hv)
    · rw [hvt,hself] at hv
      rw [hother u hut] at hu
      exact absurd hv (hclash u i hut hu)
    · rw [hother u hut] at hu
      rw [hother v hvt] at hv
      exact h.lock_unique u v i hu hv
  · intro u
    by_cases hu : u=t
    · rw [hu,hself]
      exact hok
    · rw [hother u hu]
      exact (h.ok u).mono hf fun i hi => hkeep u i hu hi

/-- Program counters are not read. -/
theorem PcOk.goto (h : PcOk s p) (q : Pc) : PcOk (s.goto t q) p := by cases p <;> exact h

/-- A thread that only moves on, and locks nothing. -/
theorem Inv.quiet (h : Inv s) (hhold : ∀ i, holding p=some i → holding (s.pc t)=some i)
    (hok : PcOk s p) : Inv (s.goto t p) := by
  refine h.advance rfl ⟨le_rfl,fun _ _ _ ho => ho,fun _ _ _ => rfl⟩ h.owed h.safe h.slot ?_ (hok.goto p)
  intro i hi
  exact ⟨h.locked t i (hhold i hi),.inl (hhold i hi)⟩

/-- A thread writes a slot that it holds, or locks one that nobody holds. -/
theorem Inv.write (h : Inv s) {a : EpochAction} (hmine : holding (s.pc t)=some i ∨ (s.drainList i).epoch ≠ .locked)
    (hpub : ∀ e, a.epoch=.at e → a.callback=some e) (hheld : ∀ j, holding p=some j → j=i ∧ a.epoch=.locked)
    (hok : PcOk (s.setAction i a) p) : Inv ((s.setAction i a).goto t p) := by
  have hf : Frame s ((s.setAction i a).goto t p) t := by
    refine ⟨le_rfl,fun _ _ _ ho => ho,fun j hj hne => ?_⟩
    refine update_of_ne ?_ ..
    rintro rfl
    rcases hmine with hm | hm
    · exact hne hm
    · exact hm hj
  refine h.advance rfl hf h.owed (h.safe.mono hf) ?_ ?_ (hok.goto p)
  · intro j e he
    by_cases hj : j=i
    · subst hj
      simp only [State.goto,State.setAction,update_self] at he ⊢
      exact hpub e he
    · simp only [State.goto,State.setAction,update_of_ne hj] at he ⊢
      exact h.slot j e he
  · intro j hj
    obtain ⟨rfl,hlock⟩ := hheld j hj
    refine ⟨?_,hmine⟩
    simp only [State.goto,State.setAction,update_self]
    exact hlock

theorem holding_resume : holding (resume prior)=none := by cases prior <;> rfl

theorem pcOk_resume : PcOk s (resume prior) := by cases prior <;> trivial

theorem holding_drainFrom : holding (drainFrom i prior)=none := by
  unfold drainFrom
  split_ifs
  · rfl
  · exact holding_resume

theorem pcOk_drainFrom : PcOk s (drainFrom i prior) := by
  unfold drainFrom
  split_ifs
  · trivial
  · exact pcOk_resume

/-- The scan keeps its minimum below every epoch for which a thread already
read owes a move. -/
theorem compute_read (h : Inv s) (hok : PcOk s (.compute oldest idx prior)) :
    PcOk s (.compute (if s.table idx ≠ 0 ∧ s.table idx<oldest then s.table idx else oldest) (idx+1) prior) := by
  obtain ⟨hpos,hle,hscan⟩ := hok
  -- The thread just read owes no move for an epoch below the new minimum.
  have hread : ∀ e, e<(if s.table idx ≠ 0 ∧ s.table idx<oldest then s.table idx else oldest) → s.owed e idx=false := by
    intro e he
    cases ho : s.owed e idx with
    | false => rfl
    | true =>
      obtain ⟨hne,hte,_⟩ := h.owed e idx ho
      split_ifs at he with hlt
      · omega
      · have : ¬ s.table idx<oldest := fun hlt' => hlt ⟨hne,hlt'⟩
        omega
  refine ⟨?_,?_,?_⟩
  · split_ifs with hlt
    · exact Nat.one_le_iff_ne_zero.mpr hlt.1
    · exact hpos
  · split_ifs with hlt
    · exact hlt.2.le.trans hle
    · exact hle
  · intro e he u h1 h2
    by_cases hu : u=idx
    · subst hu
      exact hread e he
    · refine hscan e (he.trans_le ?_) u h1 (by omega)
      split_ifs with hlt
      · exact hlt.2.le
      · exact le_rfl

/-- The end of the scan publishes a clear epoch. -/
theorem compute_end (hok : PcOk s (.compute oldest idx prior)) (hidx : ¬ idx≤kMaxNumThreads) : Clear s (oldest - 1) := by
  obtain ⟨hpos,hle,hscan⟩ := hok
  refine ⟨by omega,fun e he u h1 h2 => hscan e (by omega) u h1 (by omega)⟩

/-- Announcing an epoch, or leaving. -/
theorem announce_frame (s : State) (t epoch : ℕ) (p : Pc) : Frame s ((s.announce t epoch).goto t p) t := by
  refine ⟨le_rfl,fun e u _ ho => ?_,fun _ _ _ => rfl⟩
  simp only [State.goto,State.announce,Bool.and_eq_true] at ho
  exact ho.1

theorem Inv.announce (h : Inv s) (hp : holding p=none) (hok : PcOk s p) : Inv ((s.announce t epoch).goto t p) := by
  have hf := announce_frame s t epoch p
  refine h.advance rfl hf ?_ (h.safe.mono hf) h.slot ?_ ?_
  · intro e u ho
    simp only [State.goto,State.announce,Bool.and_eq_true,Bool.or_eq_true, decide_eq_true_eq] at ho ⊢
    obtain ⟨ho,hcase⟩ := ho
    obtain ⟨hne,hle,hlt⟩ := h.owed e u ho
    by_cases hu : u=t
    · subst hu
      rw [update_self]
      rcases hcase with hc | hc
      · exact absurd rfl hc
      · exact ⟨hc.1,hc.2,hlt⟩
    · rw [update_of_ne hu]
      exact ⟨hne,hle,hlt⟩
  · intro i hi
    rw [hp] at hi
    cases hi
  · exact hok.mono hf fun i hi => by rw [hp] at hi; cases hi

/-- Bumping the epoch. -/
theorem bump_frame (s : State) (t : ℕ) (p : Pc) : Frame s (s.bump.goto t p) t := by
  refine ⟨Nat.le_succ _,fun e u he ho => ?_,fun _ _ _ => rfl⟩
  simp only [State.goto,State.bump] at ho
  rw [if_neg he.ne] at ho
  exact ho

theorem Inv.bump (h : Inv s) : Inv (s.bump.goto t (.loadCount (s.currentEpoch+1) prior)) := by
  have hf := bump_frame s t (.loadCount (s.currentEpoch+1) prior)
  refine h.advance rfl hf ?_ (h.safe.mono hf) h.slot (fun i hi => by cases hi) ⟨Nat.succ_pos _,le_rfl⟩
  intro e u ho
  simp only [State.goto,State.bump] at ho ⊢
  split_ifs at ho with he
  · simp only [Bool.and_eq_true,decide_eq_true_eq] at ho
    exact ⟨ho.1,ho.2,by omega⟩
  · obtain ⟨hne,hle,hlt⟩ := h.owed e u ho
    exact ⟨hne,hle,by omega⟩

/-- Every step of a call keeps the invariant. -/
theorem Inv.callStep (h : Inv s) (hp : s.pc t=p) (hs : callStep s t p=some s') : Inv s' := by
  have hok := h.ok t
  rw [hp] at hok
  have hnone : ∀ {q : Pc}, holding q=none → ∀ i, holding q=some i → holding (s.pc t)=some i := by
    intro q hq i hi
    rw [hq] at hi
    cases hi
  cases p with
  | idle => cases hs
  | protectStore epoch drain =>
    cases hs
    split_ifs
    · exact h.announce rfl hok
    · exact h.announce rfl trivial
  | loadCount next prior =>
    cases hs
    split_ifs
    · exact h.quiet (hnone rfl) ⟨hok.1,hok.2,fun e _ u h1 h2 => by omega⟩
    · exact h.quiet (hnone holding_resume) pcOk_resume
  | compute oldest idx prior =>
    by_cases hidx : idx≤kMaxNumThreads
    · simp only [callStep,if_pos hidx] at hs
      cases hs
      exact h.quiet (hnone rfl) (compute_read h hok)
    · simp only [callStep,if_neg hidx] at hs
      cases hs
      have hclear := compute_end hok hidx
      exact h.advance rfl ⟨le_rfl,fun _ _ _ ho => ho,fun _ _ _ => rfl⟩ h.owed hclear h.slot
        (fun i hi => by rw [holding_drainFrom] at hi; cases hi) pcOk_drainFrom
  | drainLoad i prior =>
    simp only [callStep] at hs
    split at hs
    · cases hs
      exact h.quiet (hnone rfl) trivial
    · cases hs
      exact h.quiet (hnone holding_drainFrom) pcOk_drainFrom
  | drainCheck i epoch prior =>
    cases hs
    split_ifs with hle
    · refine h.quiet (hnone rfl) ⟨hle.trans_lt h.safe.1,fun e he => h.safe.2 e (he.trans hle)⟩
    · exact h.quiet (hnone holding_drainFrom) pcOk_drainFrom
  | tryPop i epoch prior =>
    simp only [callStep] at hs
    split_ifs at hs with hcas
    · cases hs
      refine h.write (.inr (by rw [hcas]; exact fun he => by cases he)) (fun e he => by cases he)
        (fun j hj => ⟨(Option.some.inj hj).symm,rfl⟩) ?_
      intro e he
      simp only [State.setAction,update_self] at he
      rw [h.slot i epoch hcas] at he
      cases he
      exact hok
    · cases hs
      exact h.quiet (hnone holding_drainFrom) pcOk_drainFrom
  | popTake i prior =>
    cases hs
    have hmine : holding (s.pc t)=some i := by
      rw [hp]
      rfl
    have hlock := h.locked t i hmine
    refine h.write (.inl hmine) (fun e he => ?_) (fun j hj => ⟨(Option.some.inj hj).symm,hlock⟩) hok
    rw [hlock] at he
    cases he
  | popFree i callback prior =>
    cases hs
    exact h.write (.inl (by rw [hp]; rfl)) (fun e he => by cases he) (fun j hj => by cases hj) hok
  | popRun i callback prior | swapRun callback =>
    cases hs
    exact h.quiet (hnone rfl) trivial
  | popCount i prior =>
    cases hs
    refine h.advance rfl ⟨le_rfl,fun _ _ _ ho => ho,fun _ _ _ => rfl⟩ h.owed h.safe h.slot ?_ ?_
    · intro j hj
      split_ifs at hj
      · rw [holding_resume] at hj
        cases hj
      · rw [holding_drainFrom] at hj
        cases hj
    · split_ifs
      · exact pcOk_resume
      · exact pcOk_drainFrom
  | pushLoad i prior =>
    simp only [callStep] at hs
    split at hs <;> cases hs <;> exact h.quiet (hnone rfl) trivial
  | pushCheck i epoch prior =>
    cases hs
    split_ifs with hle
    · exact h.quiet (hnone rfl) ⟨hle.trans_lt h.safe.1,fun e he => h.safe.2 e (he.trans hle)⟩
    · exact h.quiet (hnone rfl) trivial
  | tryPush i prior =>
    simp only [callStep] at hs
    split_ifs at hs with hcas
    · cases hs
      exact h.write (.inr (by rw [hcas]; exact fun he => by cases he)) (fun e he => by cases he)
        (fun j hj => ⟨(Option.some.inj hj).symm,rfl⟩) trivial
    · cases hs
      exact h.quiet (hnone rfl) trivial
  | pushWrite i prior =>
    cases hs
    have hmine : holding (s.pc t)=some i := by
      rw [hp]
      rfl
    have hlock := h.locked t i hmine
    refine h.write (.inl hmine) (fun e he => ?_) (fun j hj => ⟨(Option.some.inj hj).symm,hlock⟩) ?_
    · rw [hlock] at he
      cases he
    · simp only [PcOk,State.setAction,update_self]
  | pushStore i prior =>
    cases hs
    refine h.write (.inl (by rw [hp]; rfl)) (fun e he => ?_) (fun j hj => by cases hj) trivial
    cases he
    exact hok
  | pushCount =>
    cases hs
    exact h.advance rfl ⟨le_rfl,fun _ _ _ ho => ho,fun _ _ _ => rfl⟩ h.owed h.safe h.slot (fun i hi => by cases hi) trivial
  | trySwap i epoch prior =>
    simp only [callStep] at hs
    split_ifs at hs with hcas
    · cases hs
      refine h.write (.inr (by rw [hcas]; exact fun he => by cases he)) (fun e he => by cases he)
        (fun j hj => ⟨(Option.some.inj hj).symm,rfl⟩) ?_
      intro e he
      simp only [State.setAction,update_self] at he
      rw [h.slot i epoch hcas] at he
      cases he
      exact hok
    · cases hs
      exact h.quiet (hnone rfl) trivial
  | swapTake i prior =>
    cases hs
    have hmine : holding (s.pc t)=some i := by
      rw [hp]
      rfl
    have hlock := h.locked t i hmine
    refine h.write (.inl hmine) (fun e he => ?_) (fun j hj => ⟨(Option.some.inj hj).symm,hlock⟩) ?_
    · rw [hlock] at he
      cases he
    · refine ⟨?_,hok⟩
      simp only [State.setAction,update_self]
  | swapStore i prior callback =>
    cases hs
    refine h.write (.inl (by rw [hp]; rfl)) (fun e he => ?_) (fun j hj => by cases hj) hok.2
    cases he
    exact hok.1

/-- The start of a call keeps the invariant. -/
theorem Inv.startCall (h : Inv s) {act : Act} (hs : startCall s t act=some s') : Inv s' := by
  cases act with
  | protect | protectAndDrain =>
    cases hs
    exact h.quiet (fun i hi => by cases hi) ⟨h.current_pos,le_rfl⟩
  | unprotect =>
    cases hs
    exact h.announce rfl trivial
  | bumpCurrentEpoch | bumpCurrentEpochWith =>
    cases hs
    exact h.bump
  | step => cases hs

/-- What a step is: the next access of a call, or the start of one. -/
theorem step_cases {label : Label} (hs : step s label=some s') :
    (label.act=.step ∧ callStep s label.thread (s.pc label.thread)=some s') ∨
      startCall s label.thread label.act=some s' := by
  obtain ⟨t,act⟩ := label
  cases act with
  | step =>
    simp only [step] at hs
    split_ifs at hs
    exact .inl ⟨rfl,hs⟩
  | _ =>
    simp only [step] at hs
    split_ifs at hs
    exact .inr hs

/-- Every step keeps the invariant. -/
theorem Inv.step (h : Inv s) {label : Label} (hs : step s label=some s') : Inv s' := by
  rcases step_cases hs with ⟨_,hc⟩ | hc
  · exact h.callStep rfl hc
  · exact h.startCall hc

theorem inv_initial : Inv .initial := by
  refine ⟨le_rfl,?_,⟨Nat.one_pos,fun _ _ _ _ _ => rfl⟩,?_,?_,?_,fun _ => trivial⟩
  · intro e t h
    cases h
  · intro i e h
    cases h
  · intro t i h
    cases h
  · intro t u i h
    cases h

theorem reachable_inv {ok : Guard State Label} (hs : Reachable machine ok s) : Inv s := by
  refine hs.invariant ?_ ?_
  · rintro s rfl
    exact inv_initial
  · intro s label s' h _ hstep
    exact h.step hstep

/-- The action that a thread is about to execute has a clear epoch. -/
theorem Inv.running_clear (h : Inv s) (hr : running (s.pc u)=some v) : Clear s v := by
  have hok := h.ok u
  cases hp : s.pc u with
  | popRun i callback prior | swapRun callback =>
    rw [hp] at hok hr
    exact hok v hr
  | _ =>
    rw [hp] at hr
    cases hr

/-- In every run: an action is executed only after every thread with a scanned
identifier that was protected at or below its epoch has moved on. -/
theorem running_not_owed {ok : Guard State Label} (hs : Reachable machine ok s)
    (hr : running (s.pc u)=some v) (ht : 1≤t) (ht' : t<kMaxNumThreads) : s.owed v t=false :=
  ((reachable_inv hs).running_clear hr).2 v le_rfl t ht ht'.le

/-- The step bumps the epoch. -/
def bumps : Act → Bool
  | .bumpCurrentEpoch => true
  | .bumpCurrentEpochWith => true
  | _ => false

/-- The guard on steps: the epoch is bumped only while the thread with
identifier 0 is not protected. -/
def zeroUnprotected : Guard State Label := fun s label => bumps label.act = true → s.table 0 = 0

/-- Within a call nobody comes to owe a move. -/
theorem callStep_owed (hs : callStep s t p=some s') {e : ℕ} (ho : s'.owed e u=true) : s.owed e u=true := by
  cases p with
  | protectStore epoch drain =>
    cases hs
    simp only [State.goto,State.announce,Bool.and_eq_true] at ho
    exact ho.1
  | idle => cases hs
  | _ =>
    simp only [callStep] at hs
    first
    | cases hs
      exact ho
    | split_ifs at hs <;> cases hs <;> exact ho
    | split at hs <;> cases hs <;> exact ho

/-- Bumped while it is not protected, thread 0 owes nothing. -/
theorem zero_owes_nothing (hs : Reachable machine zeroUnprotected s) (e : ℕ) : s.owed e 0=false := by
  refine hs.invariant (P := fun s => ∀ e, s.owed e 0=false) ?_ ?_ e
  · rintro s rfl e
    rfl
  · intro s label s' h hguard hstep e
    cases ho : s'.owed e 0 with
    | false => rfl
    | true =>
      rcases step_cases hstep with ⟨_,hc⟩ | hc
      · rw [←h e,callStep_owed hc ho]
      · -- Only a bump makes anyone owe a move.
        cases hact : label.act with
        | bumpCurrentEpoch | bumpCurrentEpochWith =>
          have hzero := hguard (by rw [hact]; rfl)
          rw [hact] at hc
          cases hc
          simp only [State.goto,State.bump,hzero,ne_eq,not_true_eq_false,decide_false, Bool.false_and] at ho
          split_ifs at ho
          rw [←h e,ho]
        | unprotect =>
          rw [hact] at hc
          cases hc
          simp only [State.goto,State.announce,Bool.and_eq_true] at ho
          rw [←h e,ho.1]
        | step =>
          rw [hact] at hc
          cases hc
        | _ =>
          rw [hact] at hc
          cases hc
          rw [←h e]
          exact ho.symm

/-- Epoch protection, in runs where the epoch is bumped only while the thread
with identifier 0 is not protected: an action registered with prior epoch `e` is
executed only after every thread that was protected at or below `e` when the
epoch was bumped has announced a later epoch or has left. -/
theorem action_executed_after_protected (hs : Reachable machine zeroUnprotected s)
    (hr : running (s.pc u) = some v) : ∀ t < kMaxNumThreads, s.owed v t = false := by
  intro t ht
  by_cases h0 : t=0
  · subst h0
    exact zero_owes_nothing hs v
  · exact running_not_owed hs hr (Nat.one_le_iff_ne_zero.mpr h0) ht

/-- The steps of a thread. -/
def steps (t n : ℕ) : List Label := List.replicate n ⟨t, .step⟩

/-- The thread registers an action on an empty drain list and later drains. -/
def registerAndDrain (t : ℕ) : List Label :=
  ⟨t, .bumpCurrentEpochWith⟩ :: steps t 6 ++ ⟨t, .protectAndDrain⟩ :: steps t 104

/-- Guard of the runs above, evaluated. -/
def zeroCheck (s : State) (label : Label) : Bool := !bumps label.act || decide (s.table 0 = 0)

theorem zeroUnprotected_of_check (s : State) (label : Label) (h : zeroCheck s label=true) : zeroUnprotected s label := by
  intro hb
  unfold zeroCheck at h
  rw [hb] at h
  exact of_decide_eq_true h

/-- Thread 1 registers an action and executes it when it drains. -/
theorem action_executed_thread_one : ∃ s, Reachable machine zeroUnprotected s ∧
    running (s.pc 1) = some 1 ∧ ∀ t < kMaxNumThreads, s.owed 1 t = false := by
  have hrun : (execGuarded machine zeroCheck .initial (registerAndDrain 1)).any (fun s =>
      decide (running (s.pc 1)=some 1))=true := by decide +kernel
  obtain ⟨s,hr,hp⟩ := exists_run_of_execGuarded zeroUnprotected_of_check hrun
  have hs : Reachable machine zeroUnprotected s := ⟨_,rfl,hr⟩
  have hrunning : running (s.pc 1)=some 1 := of_decide_eq_true hp
  exact ⟨s,hs,hrunning,action_executed_after_protected hs hrunning⟩

/-- Thread 0 protects epoch 1 and stays there, while thread 1 registers an action
with prior epoch 1 and drains: the scan misses thread 0 and the action is
executed although thread 0 is still protected at epoch 1. -/
theorem action_executed_while_protected : ∃ s, Reachable machine anyStep s ∧
    running (s.pc 1) = some 1 ∧ s.table 0 = 1 ∧ s.owed 1 0 = true := by
  have hrun : (exec machine .initial (⟨0,.protect⟩::⟨0,.step⟩::registerAndDrain 1)).any
      (fun s => decide (running (s.pc 1)=some 1 ∧ s.table 0=1 ∧ s.owed 1 0=true))=true := by
    decide +kernel
  obtain ⟨s,hr,hp⟩ := exists_run_of_exec hrun
  exact ⟨s,⟨_,rfl,hr⟩,of_decide_eq_true hp⟩

end

end FishStore.EpochSafety
