import FishStore.PhaseInvariant

/-!
# The phase barrier

`FinishThreadPhase` scans the epoch table for a protected thread that has not
finished the phase. During one action an entry that holds a phase other than the
rest phase was acknowledged since the action started, because the entries were
reset before the first phase was published. The scan, like the reset, visits the
entries 1 to 96, so this covers the threads 1 to 95 and not thread 0.
-/

namespace FishStore.PhaseBarrier

open Runs Phases Bool PhaseInvariant
open LightEpoch (kMaxNumThreads)
open Function (update update_eq_self update_of_ne update_self)

/-- The phase that the entry holds was acknowledged during this action. -/
def Clean (s : State) (u : ℕ) : Prop :=
  s.phaseFinished u ≠ .rest → s.acked u (s.phaseFinished u) = true

/-- The entries from 1 up to `n` are clean. -/
def CleanBelow (s : State) (n : ℕ) : Prop := ∀ u, 1 ≤ u → u < n → Clean s u

/-- All entries are clean. -/
def Ready (s : State) : Prop := CleanBelow s (kMaxNumThreads + 1)

/-- The protected threads among the entries from 1 up to `n` acknowledged `p`. -/
def AckedBelow (s : State) (p : Phase) (n : ℕ) : Prop :=
  ∀ u, 1 ≤ u → u < n → s.isProtected u = true → s.acked u p = true

/-- The thread works on an action. -/
def engaged : Pc → Bool
  | .idle => false
  | .sessionLoad => false
  | .refresh => false
  | .refreshLoad => false
  | .handleLoad => false
  | .startLoad _ => false
  | .startSwap _ _ => false
  | _ => true

/-- What a thread has established where it stands. -/
def PcOk (s : State) (t : ℕ) : Pc → Prop
  | .idle => True
  | .sessionLoad => False
  | .refreshLoad => True
  | .handleLoad => True
  | .refresh => s.isProtected t = true
  | .startLoad _ => s.isProtected t = true
  | .startSwap _ _ => s.isProtected t = true
  | .reset _ _ idx => s.isProtected t = true ∧ CleanBelow s idx
  | .publish _ _ => s.isProtected t = true ∧ Ready s
  | .scanPhase w idx _ => Ready s ∧ AckedBelow s w.phase idx ∧ 1 ≤ idx ∧ idx ≤ kMaxNumThreads
  | .scanEpoch w idx entry _ => Ready s ∧ AckedBelow s w.phase idx ∧
      (entry = w.phase → s.acked idx w.phase = true)
  | .move w seen _ => Ready s ∧ (seen.isSome → AckedBelow s w.phase (kMaxNumThreads + 1)) ∧
      (seen = none → w.phase = .indexChkpt ∧ w.action ≠ .checkpointIndex)
  | _ => Ready s

/-- Before the first action nobody works on one. -/
def Fresh (s : State) : Prop :=
  s.started = 0 → s.systemState.phase = .rest ∧ ∀ t, engaged (s.pc t) = false

/-- The barrier's invariant. -/
structure Inv (s : State) : Prop where
  /-- The entries were reset before the first phase was published. -/
  ready : s.systemState.phase ≠ .rest → Ready s
  /-- What each thread has established. -/
  pcs : ∀ t, PcOk s t (s.pc t)

/-- Nothing that was acknowledged is forgotten, and no session appears. -/
structure Advance (s s' : State) : Prop where
  /-- Clean entries stay clean. -/
  clean : ∀ u, Clean s u → Clean s' u
  /-- Acknowledgements stay. -/
  acked : ∀ u p, s.acked u p = true → s'.acked u p = true
  /-- No thread becomes protected. -/
  enter : ∀ u, s'.isProtected u = true → s.isProtected u = true

section

variable {s s' : State} {t u n : ℕ} {p : Phase} {pc : Pc} {ready : Bool} {label : Label}

theorem CleanBelow.advance (h : CleanBelow s n) (ha : Advance s s') : CleanBelow s' n :=
  fun u h1 hn => ha.clean u (h u h1 hn)

theorem Ready.advance (h : Ready s) (ha : Advance s s') : Ready s' := CleanBelow.advance h ha

theorem AckedBelow.advance (h : AckedBelow s p n) (ha : Advance s s') : AckedBelow s' p n :=
  fun u h1 hn hu => ha.acked u p (h u h1 hn (ha.enter u hu))

/-- What a thread has established stays, as long as it stays protected. -/
theorem PcOk.advance (h : PcOk s t pc) (ha : Advance s s')
    (hkeep : s.isProtected t=true → s'.isProtected t=true) : PcOk s' t pc := by
  cases pc with
  | idle => trivial
  | refreshLoad => trivial
  | handleLoad => trivial
  | sessionLoad => exact h
  | refresh => exact hkeep h
  | startLoad a => exact hkeep h
  | startSwap a v => exact hkeep h
  | reset a v idx | publish a v => exact ⟨hkeep h.1,h.2.advance ha⟩
  | scanPhase w idx r => exact ⟨h.1.advance ha,h.2.1.advance ha,h.2.2⟩
  | scanEpoch w idx entry r => exact ⟨h.1.advance ha,h.2.1.advance ha,fun he => ha.acked _ _ (h.2.2 he)⟩
  | move w seen r => exact ⟨h.1.advance ha,fun hseen => (h.2.1 hseen).advance ha,h.2.2⟩
  | _ => exact Ready.advance h ha

theorem Advance.same (hf : s'.phaseFinished=s.phaseFinished) (ha : s'.acked=s.acked)
    (hp : s'.isProtected=s.isProtected) : Advance s s' := by
  refine ⟨?_,?_,?_⟩
  · intro u hu
    unfold Clean
    rw [hf,ha]
    exact hu
  · intro u p h
    rwa [ha]
  · intro u h
    rwa [hp] at h

theorem Advance.goto (h : Advance s s') : Advance s (s'.goto t pc) := ⟨h.clean,h.acked,h.enter⟩

/-- Acknowledging a phase. -/
theorem Advance.acknowledge (s : State) (t : ℕ) (p : Phase) : Advance s (s.acknowledge t p) := by
  have hacked : ∀ u q, s.acked u q=true → (s.acknowledge t p).acked u q=true := by
    intro u q h
    simp only [State.acknowledge,h,Bool.true_or]
  refine ⟨?_,hacked,fun _ h => h⟩
  intro u hu hne
  by_cases hut : u=t
  · subst hut
    simp only [State.acknowledge,update_self,decide_true,Bool.and_self,Bool.or_true]
  · have hsame : (s.acknowledge t p).phaseFinished u=s.phaseFinished u := update_of_ne hut _ _
    rw [hsame] at hne ⊢
    exact hacked _ _ (hu hne)

/-- Resetting an entry. -/
theorem Advance.reset (s : State) (idx : ℕ) :
    Advance s { s with phaseFinished := update s.phaseFinished idx .rest } := by
  refine ⟨?_,fun _ _ h => h,fun _ h => h⟩
  intro u hu hne
  by_cases hui : u=idx
  · subst hui
    exact absurd (update_self _ _ _) hne
  · have hsame : update s.phaseFinished idx .rest u=s.phaseFinished u := update_of_ne hui _ _
    change update s.phaseFinished idx .rest u ≠ .rest at hne
    change s.acked u (update s.phaseFinished idx .rest u)=true
    rw [hsame] at hne ⊢
    exact hu hne

/-- The thread moves on, and the word stays as it is. -/
theorem Inv.advance (h : Inv s) (ha : Advance s s') (hpc : s'.pc=s.pc)
    (hsys : s'.systemState=s.systemState) (hprot : s'.isProtected=s.isProtected)
    (hok : PcOk s' t pc) : Inv (s'.goto t pc) := by
  refine ⟨?_,?_⟩
  · intro hne
    exact (h.ready (hsys ▸ hne)).advance ha.goto
  · intro u
    by_cases hu : u=t
    · subst hu
      rw [goto_self]
      exact hok.advance (.goto (.same rfl rfl rfl)) id
    · rw [goto_of_ne hu,hpc]
      refine (h.pcs u).advance ha.goto fun hp => ?_
      change s'.isProtected u=true
      rwa [hprot]

/-- The thread moves on and writes a word after the entries were reset. -/
theorem Inv.publish (h : Inv s) (w : SystemState) (hready : Ready s) (hok : PcOk s t pc) :
    Inv ({ s with systemState := w }.goto t pc) := by
  refine ⟨fun _ => hready,?_⟩
  intro u
  by_cases hu : u=t
  · subst hu
    rw [goto_self]
    exact hok.advance (.same rfl rfl rfl) id
  · rw [goto_of_ne hu]
    exact (h.pcs u).advance (.same rfl rfl rfl) id

/-- What a thread that works on no action has established is not about
acknowledgements. -/
theorem PcOk.start {a : Action} {v : UInt32} (h : PcOk s t pc) (hen : engaged pc=false) : PcOk (s.start a v) t pc := by
  cases pc with
  | idle => trivial
  | refreshLoad => trivial
  | handleLoad => trivial
  | sessionLoad => exact h
  | refresh => exact h
  | startLoad a => exact h
  | startSwap a v => exact h
  | _ => cases hen

/-- An action starts while nobody works on one. -/
theorem Inv.start {a : Action} {v : UInt32} (h : Inv s) (hidle : ∀ u, engaged (s.pc u)=false)
    (hprot : s.isProtected t=true) : Inv ((s.start a v).goto t (.reset a v 1)) := by
  refine ⟨fun hne => absurd rfl hne,?_⟩
  intro u
  by_cases hu : u=t
  · subst hu
    rw [goto_self]
    refine ⟨hprot,?_⟩
    intro v h1 hlt
    omega
  · rw [goto_of_ne hu]
    have hu' : PcOk (s.start a v) u (s.pc u) := (h.pcs u).start (hidle u)
    exact hu'.advance (.goto (.same rfl rfl rfl)) id

theorem pcOk_afterMove (h : Ready s) (r : Return) : PcOk s t (afterMove r) := by
  rcases r with l | ⟨_ | l⟩
  · exact h
  · trivial
  · exact h

theorem pcOk_afterRefusal (h : Ready s) (r : Return) : PcOk s t (afterRefusal r) := by cases r <;> exact h

/-- The global move without a scan is made in one phase only. -/
theorem phaseWork_moveOn {cur prev : SystemState} {has : Bool} {ctx : Context}
    (h : (phaseWork cur prev has ready ctx).1=.moveOn) :
    cur.phase=.indexChkpt ∧ cur.action ≠ .checkpointIndex := by
  obtain ⟨act,ph,v⟩ := cur
  cases act <;> cases ph <;> simp only [phaseWork] at h <;>
    first
    | cases h
    | split_ifs at h <;> exact ⟨rfl,nofun⟩

/-- The steps that belong to one action: the sessions are those that are protected
when it starts, they refresh and may leave, and no second action starts. -/
def duringOneAction : Guard State Label := fun s label =>
  label.act ≠ .startSession ∧ label.act ≠ .heavyEnter ∧
    ∀ a v, s.pc label.thread = .startSwap a v → s.started = 0 ∨ s.systemState ≠ ⟨.none, .rest, v⟩

/-- No session runs on the thread with identifier 0. -/
def zeroUnprotected : Guard State Label := fun s _ => s.isProtected 0 = false

/-- The barrier's invariant is kept by the steps of a call, if an action starts
only while nobody works on one. -/
theorem Inv.callStep (h : Inv s) (ho : PhaseInvariant.Inv s)
    (hquiet : ∀ a v, s.pc t=.startSwap a v → s.systemState=⟨.none,.rest,v⟩ →
      ∀ u, engaged (s.pc u)=false) (hs : callStep s t ready (s.pc t)=some s') : Inv s' := by
  have hok := h.pcs t
  generalize hp : s.pc t=p at hs hok
  cases moves_of_callStep hs with
  | join => exact hok.elim
  | reject => exact hok.elim
  | refresh =>
    have hsame : (s.protect t true).isProtected=s.isProtected := by
      change update s.isProtected t true=s.isProtected
      rw [←hok,update_eq_self]
    exact h.advance (.same rfl rfl hsame) rfl rfl hsame trivial
  | enter hrest =>
    -- The word left the rest phase after the entries were reset.
    exact h.advance (.same rfl rfl rfl) rfl rfl rfl (h.ready hrest)
  | iterate _ prev cur =>
    refine h.advance (.same rfl rfl rfl) rfl rfl rfl ?_
    have hr : Ready s := hok
    cases hw : (phaseWork cur prev (decide (s.phaseFinished t=cur.phase)) ready (s.ctx t)).1 with
    | moveOn => exact ⟨hr,(by rintro ⟨⟩),fun _ => phaseWork_moveOn hw⟩
    | _ => exact hr
  | leave =>
    refine h.advance (.same rfl rfl rfl) rfl rfl rfl ?_
    split_ifs
    · trivial
    · exact hok
  | ack w =>
    have ha := Advance.acknowledge s t w.phase
    refine h.advance ha rfl rfl rfl ⟨Ready.advance hok ha,?_,le_rfl,by decide⟩
    intro u h1 hlt
    omega
  | scanPhase w idx =>
    have hw := ho.target t w (by rw [hp]; rfl)
    obtain ⟨hr,hbelow,h1,hle⟩ := hok
    refine h.advance (.same rfl rfl rfl) rfl rfl rfl ⟨hr,hbelow,?_⟩
    intro he
    have hclean := hr idx h1 (Nat.lt_succ_of_le hle)
    unfold Clean at hclean
    rw [he] at hclean
    exact hclean hw
  | refuse _ _ _ r => exact h.advance (.same rfl rfl rfl) rfl rfl rfl (pcOk_afterRefusal hok.1 r)
  | scanOn w idx _ _ hc =>
    obtain ⟨hr,hbelow,hentry⟩ := hok
    have hbelow' : AckedBelow s w.phase (idx+1) := by
      intro u h1 hlt hu
      by_cases hui : u=idx
      · subst hui
        by_contra hne
        exact hc ⟨hu,fun he => hne (hentry he)⟩
      · exact hbelow u h1 (by omega) hu
    refine h.advance (.same rfl rfl rfl) rfl rfl rfl ?_
    unfold scanFrom
    split_ifs with hle
    · exact ⟨hr,hbelow',Nat.succ_pos _,hle⟩
    · refine ⟨hr,fun _ u h1 hlt hu => hbelow' u h1 (by omega) hu,(by rintro ⟨⟩)⟩
  | move _ _ _ next => exact h.publish next hok.1 hok.1
  | overtaken _ _ r => exact h.advance (.same rfl rfl rfl) rfl rfl rfl (pcOk_afterMove hok.1 r)
  | close _ r => exact h.publish _ hok (pcOk_afterMove hok r)
  | settle _ r => exact h.advance (.same rfl rfl rfl) rfl rfl rfl (pcOk_afterMove hok r)
  | split | startLoad => exact h.advance (.same rfl rfl rfl) rfl rfl rfl hok
  | spin => exact h
  | leaveSpin l => exact h.advance (.same rfl rfl rfl) rfl rfl rfl (pcOk_afterMove (r := .split l) hok)
  | start a v hsys => exact h.start (hquiet a v hp hsys) hok
  | reset _ _ idx =>
    have ha := Advance.reset s idx
    have hbelow : CleanBelow { s with phaseFinished := update s.phaseFinished idx .rest } (idx+1) := by
      intro u h1 hlt
      by_cases hui : u=idx
      · subst hui
        exact fun hne => absurd (update_self _ _ _) hne
      · exact ha.clean u (hok.2 u h1 (by omega))
    refine h.advance ha rfl rfl rfl ?_
    split_ifs with hlt
    · exact ⟨hok.1,hbelow⟩
    · exact ⟨hok.1,fun u h1 hu => hbelow u h1 (by omega)⟩
  | publish a =>
    refine h.publish _ hok.2 ?_
    cases a <;> first | exact hok.1 | trivial
  | _ => exact h.advance (.same rfl rfl rfl) rfl rfl rfl trivial

/-- The barrier's invariant is kept by the calls of the sessions, if those that
enter to split find the entries reset. -/
theorem Inv.startCall {act : Act} (h : Inv s) (hsession : act ≠ .startSession)
    (hheavy : act=.heavyEnter → (s.ctx t).phase=.growInProgress → Ready s)
    (hidle : s.pc t=.idle) (hs : startCall s t act=some s') : Inv s' := by
  cases starts_of_startCall hs with
  | startSession => exact absurd rfl hsession
  | heavyEnter hprot =>
    refine h.advance (.same rfl rfl rfl) rfl rfl rfl ?_
    cases hphase : (s.ctx t).phase with
    | growPrepare => exact hprot
    | growInProgress => exact hheavy rfl hphase
    | _ => trivial
  | stopSession =>
    -- The session that leaves is in no call, and no other depends on it.
    have ha : Advance s (s.protect t false) := by
      refine ⟨fun _ hu => hu,fun _ _ hu => hu,fun u hu => ?_⟩
      change update s.isProtected t false u=true at hu
      by_cases hut : u=t
      · subst hut
        rw [update_self] at hu
        cases hu
      · rwa [update_of_ne hut] at hu
    refine ⟨fun hne => (h.ready hne).advance ha,fun u => ?_⟩
    change PcOk (s.protect t false) u (s.pc u)
    by_cases hut : u=t
    · subst hut
      rw [hidle]
      trivial
    · refine (h.pcs u).advance ha fun hu => ?_
      change update s.isProtected t false u=true
      rwa [update_of_ne hut]
  | refresh hprot => exact h.advance (.same rfl rfl rfl) rfl rfl rfl hprot
  | start a hprot => exact h.advance (.same rfl rfl rfl) rfl rfl rfl hprot.1

theorem Inv.of_quiescent (h : Quiescent s) : Inv s := by
  obtain ⟨_,hrest,hidle,_⟩ := h
  refine ⟨fun hne => absurd hrest hne,fun t => ?_⟩
  rw [hidle]
  trivial

/-- Who comes to work on an action saw its phase, or started it; and the word is
written by those who work on an action or start one. -/
theorem callStep_engaged (hs : callStep s t ready (s.pc t)=some s') :
    engaged (s.pc t)=true ∨ (s.pc t=.handleLoad ∧ s.systemState.phase ≠ .rest) ∨
      (∃ a v, s.pc t=.startSwap a v ∧ s.systemState=⟨.none,.rest,v⟩ ∧ s'.started=s.started+1) ∨
      (engaged (s'.pc t)=false ∧ s'.systemState=s.systemState ∧ s'.started=s.started) := by
  generalize s.pc t=p at hs ⊢
  cases moves_of_callStep hs with
  | enter hne => exact .inr (.inl ⟨rfl,hne⟩)
  | start a v hsys => exact .inr (.inr (.inl ⟨a,v,rfl,hsys,rfl⟩))
  | _ =>
    first
    | exact .inl rfl
    | exact .inr (.inr (.inr ⟨by rw [goto_self]; rfl,rfl,rfl⟩))

theorem Fresh.of_quiescent (h : Quiescent s) : Fresh s := by
  obtain ⟨_,hrest,hidle,_⟩ := h
  refine fun _ => ⟨hrest,fun t => ?_⟩
  rw [hidle]
  rfl

/-- A step after which no action was started leaves everybody out of it. -/
theorem Fresh.keep (h : Fresh s) (hother : ∀ u, u ≠ t → s'.pc u=s.pc u)
    (hstep : engaged (s'.pc t)=false ∧ s'.systemState=s.systemState ∧ s'.started=s.started) : Fresh s' := by
  obtain ⟨hen,hsys,hstarted⟩ := hstep
  intro h0
  obtain ⟨hrest,hidle⟩ := h (hstarted.symm.trans h0)
  refine ⟨hsys ▸ hrest,fun u => ?_⟩
  by_cases hu : u=t
  · subst hu
    exact hen
  · rw [hother u hu]
    exact hidle u

theorem Fresh.callStep (h : Fresh s) (hs : callStep s t ready (s.pc t)=some s')
    (hstarted : s.started ≤ s'.started) : Fresh s' := by
  rcases callStep_engaged hs with hen | ⟨_,hrest⟩ | ⟨a,v,_,_,hone⟩ | hkeep
  · intro h0
    rw [(h (by omega)).2 t] at hen
    cases hen
  · intro h0
    exact absurd (h (by omega)).1 hrest
  · intro h0
    omega
  · exact h.keep (fun u hu => PhaseInvariant.callStep_other hs hu) hkeep

theorem Fresh.startCall {act : Act} (h : Fresh s) (hheavy : act ≠ .heavyEnter)
    (hs : startCall s t act=some s') : Fresh s' := by
  cases starts_of_startCall hs with
  | heavyEnter => exact absurd rfl hheavy
  | stopSession => exact h
  | _ =>
    refine h.keep (fun u hu => goto_of_ne hu) ⟨?_,rfl,rfl⟩
    rw [goto_self]
    rfl

theorem callStep_started (hs : callStep s t ready (s.pc t)=some s') : s.started ≤ s'.started := by
  generalize s.pc t=p at hs
  cases moves_of_callStep hs with
  | start => exact Nat.le_succ _
  | _ => exact le_rfl

/-- Both invariants during one action. -/
theorem Inv.step (h : Inv s) (hfresh : Fresh s) (ho : PhaseInvariant.Inv s)
    (hone : duringOneAction s label) (hs : step s label=some s') : Inv s' ∧ Fresh s' := by
  rcases (step_cases hs).2 with ⟨ready,_,hc⟩ | ⟨hidle,hc⟩
  · refine ⟨h.callStep ho ?_ hc,hfresh.callStep hc (callStep_started hc)⟩
    intro a v hp hsys
    exact (hfresh ((hone.2.2 a v hp).resolve_right fun hne => hne hsys)).2
  · exact ⟨h.startCall hone.1 (fun ha => absurd ha hone.2.1) hidle hc,hfresh.startCall hone.2.1 hc⟩

/-- Only `Refresh` protects a thread. -/
theorem callStep_protected (hs : callStep s t ready (s.pc t)=some s') : s.pc t=.refresh ∨ s'.isProtected=s.isProtected := by
  generalize s.pc t=p at hs ⊢
  cases moves_of_callStep hs with
  | refresh => exact .inl rfl
  | _ => exact .inr rfl

/-- During the action no thread becomes protected. -/
theorem Inv.step_protected (h : Inv s) (hone : duringOneAction s label)
    (hs : Phases.step s label=some s') (hu : s'.isProtected u=true) : s.isProtected u=true := by
  rcases (step_cases hs).2 with ⟨ready,_,hc⟩ | ⟨_,hc⟩
  · rcases callStep_protected hc with hp | hp
    · have hok := h.pcs label.thread
      rw [hp] at hc hok
      cases hc
      change update s.isProtected label.thread true u=true at hu
      by_cases hut : u=label.thread
      · rw [hut]
        exact hok
      · rwa [update_of_ne hut] at hu
    · rwa [hp] at hu
  · generalize hact : label.act=act at hc
    cases starts_of_startCall hc with
    | startSession => exact absurd hact hone.1
    | stopSession =>
      change update s.isProtected label.thread false u=true at hu
      by_cases hut : u=label.thread
      · rw [hut,update_self] at hu
        cases hu
      · rwa [update_of_ne hut] at hu
    | _ => exact hu

/-- The executions of one action without a session on thread 0. -/
def trackedAction : Guard State Label := fun s label =>
  duringOneAction s label ∧ zeroUnprotected s label

/-- The barrier's invariant, and thread 0 is not protected once anything happened. -/
theorem reachable_inv (hs : Reachable machine trackedAction s) :
    Inv s ∧ Fresh s ∧ (s.isProtected 0=true → Quiescent s) := by
  refine (hs.invariant (P := fun s => PhaseInvariant.Inv s ∧ Inv s ∧ Fresh s ∧
    (s.isProtected 0=true → Quiescent s)) ?_ ?_).2
  · intro s hi
    exact ⟨.of_quiescent hi,.of_quiescent hi,.of_quiescent hi,fun _ => hi⟩
  · rintro s label s' ⟨ho,h,hfresh,_⟩ ⟨hone,hzero⟩ hstep
    obtain ⟨h',hfresh'⟩ := h.step hfresh ho hone hstep
    refine ⟨ho.step hstep,h',hfresh',fun h0 => ?_⟩
    rw [zeroUnprotected,←not_eq_true] at hzero
    exact absurd (h.step_protected hone hstep h0) hzero

theorem engaged_of_seenIn {w : SystemState} {i : ℕ} (h : seenIn pc=some (w, i)) : engaged pc=true := by
  unfold seenIn at h
  split at h
  · rfl
  · cases h

/-- Every protected thread has acknowledged the phase for which
`FinishThreadPhase` has returned true. -/
theorem acked_of_seenIn {w : SystemState} {i : ℕ} (hs : Reachable machine trackedAction s)
    (hp : seenIn (s.pc t)=some (w, i)) (hu : u<kMaxNumThreads) (hprot : s.isProtected u=true) : s.acked u w.phase=true := by
  obtain ⟨h,_,hzero⟩ := reachable_inv hs
  have hok := h.pcs t
  by_cases h0 : u=0
  · subst h0
    -- The state is not quiescent, so thread 0 is not protected.
    rw [(hzero hprot).2.2.1 t] at hp
    cases hp
  · unfold seenIn at hp
    split at hp
    · next w' i' r hpc =>
      cases hp
      rw [hpc] at hok
      exact hok.2.1 rfl u (Nat.one_le_iff_ne_zero.mpr h0) (by omega) hprot
    · cases hp

/-- A step that changes the word outside the rest phase is a global move. -/
theorem step_moves (ho : PhaseInvariant.Inv s) (hs : Phases.step s label=some s')
    (hne : s'.systemState ≠ s.systemState) (hrest : s.systemState.phase ≠ .rest) :
    ∃ seen r, s.pc label.thread=.move s.systemState seen r ∧ s.systemState.getNextState.isSome := by
  rcases (step_cases hs).2 with ⟨ready,_,hc⟩ | ⟨_,hc⟩
  · generalize hp : s.pc label.thread=p at hc ⊢
    cases moves_of_callStep hc with
    | move w seen r next hnext hw =>
      subst hw
      exact ⟨seen,r,rfl,by rw [hnext]; rfl⟩
    | close next r hnext =>
      obtain ⟨hsys,hr,_⟩ := ho.owner label.thread next (by rw [hp]; exact if_pos hnext)
      exact absurd (hsys ▸ hr) hrest
    | publish a v =>
      obtain ⟨hsys,hr,_⟩ := ho.owner label.thread ⟨a,.rest,v⟩ (by rw [hp]; rfl)
      exact absurd (hsys ▸ hr) hrest
    | start a v hw => exact absurd (by rw [hw]) hrest
    | _ => exact absurd rfl hne
  · generalize label.act=act at hc
    cases starts_of_startCall hc <;> exact absurd rfl hne

theorem action_of_indexChkpt {w : SystemState} (hphase : w.phase=.indexChkpt)
    (haction : w.action ≠ .checkpointIndex) (hnext : w.getNextState.isSome) : w.action=.checkpointFull := by
  obtain ⟨act,ph,v⟩ := w
  cases hphase
  cases act <;> first | rfl | exact absurd rfl haction | cases hnext

/-- The phase barrier, during one action and without a session on thread 0:
when `FinishThreadPhase` has returned true for a phase, every protected thread
has acknowledged that phase since the action started; and the word leaves a phase
only when every protected thread has acknowledged it, except that a full checkpoint
leaves the index checkpoint without asking. -/
theorem finishThreadPhase_barrier (hs : Reachable machine trackedAction s) :
    (∀ t w i, seenIn (s.pc t) = some (w, i) → ∀ u < kMaxNumThreads,
      s.isProtected u = true → s.acked u w.phase = true) ∧
    (∀ label s', Phases.step s label = some s' → s'.systemState ≠ s.systemState →
      s.systemState.phase ≠ .rest →
      (s.systemState.action = .checkpointFull ∧ s.systemState.phase = .indexChkpt) ∨
        ∀ u < kMaxNumThreads, s.isProtected u = true → s.acked u s.systemState.phase = true) := by
  refine ⟨fun t w i hp u hu hprot => acked_of_seenIn hs hp hu hprot,?_⟩
  intro label s' hstep hne hrest
  obtain ⟨seen,r,hp,hnext⟩ := step_moves (PhaseInvariant.reachable_inv hs) hstep hne hrest
  cases seen with
  | some i =>
    refine Or.inr fun u hu hprot => acked_of_seenIn (t := label.thread) (i := i) hs ?_ hu hprot
    rw [hp]
    rfl
  | none =>
    have hok := (reachable_inv hs).1.pcs label.thread
    rw [hp] at hok
    obtain ⟨hphase,haction⟩ := hok.2.2 rfl
    exact Or.inl ⟨action_of_indexChkpt hphase haction hnext,hphase⟩

/-- Steps of the call that the thread is in. -/
def steps (t n : ℕ) : List Label := List.replicate n ⟨t, .step true⟩

/-- The thread starts an action, resets the entries and publishes the first phase. -/
def startAction (t : ℕ) (a : Action) : List Label := ⟨t, .start a⟩ :: steps t 99

/-- Sessions in the rest phase, before any action. -/
def sessions (p : ℕ → Bool) : State :=
  ⟨⟨.none, .rest, 1⟩, p, fun _ => .rest, fun _ => ⟨.rest, 1⟩, fun _ => .idle, 0, ⟨.none, .rest, 1⟩,
    fun _ _ => false⟩

theorem sessions_quiescent (p : ℕ → Bool) : Quiescent (sessions p) := ⟨rfl,rfl,fun _ => rfl,rfl⟩

/-- The parser shift of thread 1 has found every entry acknowledged. -/
def shiftFinished : List Label := startAction 1 .parserShift ++ steps 1 197

/-- The guards of the runs above, evaluated. -/
def oneActionCheck (s : State) (label : Label) : Bool :=
  label.act != .startSession && label.act != .heavyEnter &&
    (s.started == 0 || match s.pc label.thread with | .startSwap _ _ => false | _ => true)

def trackedCheck (s : State) (label : Label) : Bool := oneActionCheck s label && !s.isProtected 0

theorem duringOneAction_of_check (s : State) (label : Label) (h : oneActionCheck s label=true) :
    duringOneAction s label := by
  unfold oneActionCheck at h
  simp only [and_eq_true,bne_iff_ne,ne_eq,or_eq_true,beq_iff_eq] at h
  obtain ⟨⟨hsession,hheavy⟩,hfirst⟩ := h
  refine ⟨hsession,hheavy,fun a v hp => ?_⟩
  rw [hp] at hfirst
  exact Or.inl (hfirst.resolve_right false_ne_true)

theorem trackedAction_of_check (s : State) (label : Label) (h : trackedCheck s label=true) : trackedAction s label := by
  unfold trackedCheck at h
  rw [and_eq_true,not_eq_true'] at h
  exact ⟨duringOneAction_of_check s label h.1,h.2⟩

/-- The word of a parser shift at version 1. -/
def shifting : SystemState := ⟨.parserShift, .psPending, 1⟩

/-- Thread 1 alone shifts the parser, and its scan has ended. -/
theorem exists_shiftFinished : ∃ s i, Reachable machine trackedAction s ∧
    seenIn (s.pc 1)=some (shifting, i) ∧ s.systemState=shifting ∧ s.isProtected 1=true := by
  have hrun : (execGuarded machine trackedCheck (sessions (fun u => u == 1)) shiftFinished).any
      (fun s => decide (seenIn (s.pc 1)=some (shifting, 1)) && decide (s.systemState=shifting) &&
        s.isProtected 1)=true := by decide +kernel
  obtain ⟨s,hr,hp⟩ := exists_run_of_execGuarded trackedAction_of_check hrun
  simp only [and_eq_true,decide_eq_true_eq] at hp
  obtain ⟨⟨hseen,hsys⟩,hprot⟩ := hp
  exact ⟨s,1,⟨_,sessions_quiescent _,hr⟩,hseen,hsys,hprot⟩

/-- When the scan of thread 1 has ended, it has itself acknowledged the phase. -/
theorem finishThreadPhase_one : ∃ s i, Reachable machine trackedAction s ∧
    seenIn (s.pc 1) = some (shifting, i) ∧ s.isProtected 1 = true ∧
    s.acked 1 .psPending = true := by
  obtain ⟨s,i,hs,hseen,_,hprot⟩ := exists_shiftFinished
  exact ⟨s,i,hs,hseen,hprot,
    (finishThreadPhase_barrier hs).1 1 shifting i hseen 1 (by decide) hprot⟩

/-- Sessions on threads 0 and 1: thread 1 shifts the parser, its scan does not
look at entry 0 and returns true, and the word leaves the phase although thread
0 is protected and has not acknowledged it. -/
theorem finishThreadPhase_misses_zero : ∃ s s', Reachable machine duringOneAction s ∧
    seenIn (s.pc 1) = some (shifting, 1) ∧ s.systemState = shifting ∧ s.isProtected 0 = true ∧
    s.acked 0 .psPending = false ∧ Phases.step s ⟨1, .step true⟩ = some s' ∧
    s'.systemState.phase = .rest := by
  have hrun : (execGuarded machine oneActionCheck (sessions (fun u => u == 0 || u == 1))
      shiftFinished).any (fun s => decide (seenIn (s.pc 1)=some (shifting, 1)) &&
        decide (s.systemState=shifting) && s.isProtected 0 && !s.acked 0 .psPending &&
        (Phases.step s ⟨1,.step true⟩).any fun s' => decide (s'.systemState.phase=.rest))=true := by
    decide +kernel
  obtain ⟨s,hr,hp⟩ := exists_run_of_execGuarded duringOneAction_of_check hrun
  simp only [and_eq_true,not_eq_true',decide_eq_true_eq,Option.any_eq_true] at hp
  obtain ⟨⟨⟨⟨hseen,hsys⟩,hprot⟩,hack⟩,s',hstep,hrest⟩ := hp
  exact ⟨s,s',⟨_,sessions_quiescent _,hr⟩,hseen,hsys,hprot,hack,hstep,hrest⟩

/-- In every execution, while a thread owns the word no other thread changes it. -/
theorem systemState_owned {ok : Guard State Label} (hs : Reachable machine ok s) {w : SystemState}
    (hown : owned (s.pc t) = some w) (hstep : Phases.step s label = some s') (hne : label.thread ≠ t) :
    s'.systemState = w := by
  have h := PhaseInvariant.reachable_inv hs
  obtain ⟨rfl,hrest,haction⟩ := h.owner t w hown
  have hother : ∀ v, owned (s.pc label.thread) ≠ some v := fun v hv => hne (h.unique _ t v _ hv hown)
  rcases (step_cases hstep).2 with ⟨ready,_,hc⟩ | ⟨_,hc⟩
  · have htarget := h.target label.thread
    generalize s.pc label.thread=p at hc hother htarget
    cases moves_of_callStep hc with
    | move w _ _ _ _ hsys => exact absurd hrest (hsys ▸ htarget w rfl)
    | close next _ hclose => exact absurd (if_pos hclose) (hother next)
    | start _ _ hsys => exact absurd (congrArg SystemState.action hsys) haction
    | publish => exact absurd rfl (hother _)
    | _ => rfl
  · generalize label.act=act at hc
    cases starts_of_startCall hc <;> rfl

theorem systemState_owned_refresh : ∃ s s', Reachable machine anyStep s ∧
    Phases.step s ⟨2, .refresh⟩ = some s' ∧ s'.systemState = ⟨.gc, .rest, 1⟩ := by
  have hrun : (exec machine (sessions fun _ => true) (⟨1,.start .gc⟩::steps 1 2)).any (fun s => decide
      (owned (s.pc 1)=some ⟨.gc,.rest,1⟩ ∧ (Phases.step s ⟨2,.refresh⟩).isSome))=true := by decide +kernel
  obtain ⟨s,hr,hp⟩ := exists_run_of_exec hrun
  obtain ⟨hown,hsome⟩ := of_decide_eq_true hp
  obtain ⟨s',hstep⟩ := Option.isSome_iff_exists.mp hsome
  have hs : Reachable machine anyStep s := ⟨_,sessions_quiescent _,hr⟩
  exact ⟨s,s',hs,hstep,systemState_owned hs hown hstep (by decide)⟩

end

end FishStore.PhaseBarrier
