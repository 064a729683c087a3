import FishStore.PhaseWalk

/-!
# The loop of HandleSpecialPhases

A call of `HandleSpecialPhases` that has loaded a system state in a phase other than
the rest phase goes through the loop until it has come to that state. If actions
start only when all sessions are back in the rest phase, a bounded number of the
session's own steps takes it there, whatever the other sessions do meanwhile; steps
in which `SplitHashTableBuckets` waits for the others to split their buckets are not
counted.
-/

namespace FishStore.PhaseLoop

open Runs Phases PhaseWalk PhaseInvariant
open LightEpoch (kMaxNumThreads)
open PhaseBarrier (steps startAction sessions sessions_quiescent)

/-- The loop to which `FinishThreadPhase` returns. -/
def loopOf : Return → Option Loop
  | .loop l => some l
  | .split l => l

/-- The system state that the call of `HandleSpecialPhases` has loaded. -/
def loaded : Pc → Option SystemState
  | .iterate final _ => some final
  | .leave l => some l.final
  | .ack _ r => (loopOf r).map Loop.final
  | .scanPhase _ _ r => (loopOf r).map Loop.final
  | .scanEpoch _ _ _ r => (loopOf r).map Loop.final
  | .move _ _ r => (loopOf r).map Loop.final
  | .settle _ r => (loopOf r).map Loop.final
  | .split l => l.map Loop.final
  | .spin l => l.map Loop.final
  | _ => none

/-- More than the steps of one turn of the loop. -/
def stepsPerTurn : ℕ := 2 * kMaxNumThreads + 9

/-- The steps of the turns after this one. -/
def laterSteps (l : Loop) : ℕ := stepsPerTurn * (rank l.final.phase - rank l.cur.phase)

/-- A bound on the steps that are left to the loop. -/
def stepsLeft : Pc → ℕ
  | .iterate final prev => if prev = final then stepsPerTurn else laterSteps ⟨final, prev⟩
  | .leave l => laterSteps l + 1
  | .spin l => l.elim 0 laterSteps + 2
  | .settle _ r => (loopOf r).elim 0 laterSteps + 3
  | .move _ _ r => (loopOf r).elim 0 laterSteps + 4
  | .scanEpoch _ idx _ r => (loopOf r).elim 0 laterSteps + 5 + 2 * (kMaxNumThreads + 1 - idx)
  | .scanPhase _ idx r => (loopOf r).elim 0 laterSteps + 6 + 2 * (kMaxNumThreads + 1 - idx)
  | .ack _ r => (loopOf r).elim 0 laterSteps + 7 + 2 * kMaxNumThreads
  | .split l => l.elim 0 laterSteps + 8 + 2 * kMaxNumThreads
  | _ => 0

/-- A run in which the session on thread `t` stays in a call that has loaded `w`, and
takes `n` steps in it. Waiting does not change the state, and is not counted. -/
inductive Within (t : ℕ) (w : SystemState) : ℕ → State → State → Prop
  | refl (s : State) : Within t w 0 s s
  | other {n : ℕ} {s s₁ s₂ : State} {label : Label} : Within t w n s s₁ → startsFresh s₁ label →
    step s₁ label = some s₂ → label.thread ≠ t → Within t w n s s₂
  | own {n : ℕ} {s s₁ s₂ : State} {ready : Bool} : Within t w n s s₁ →
    step s₁ ⟨t, .step ready⟩ = some s₂ → s₂ ≠ s₁ → loaded (s₂.pc t) = some w → Within t w (n + 1) s s₂

section

variable {s s' : State} {t n : ℕ} {w : SystemState} {ready : Bool}

theorem loaded_afterMove {r : Return} (h : (loopOf r).map Loop.final=some w) :
    loaded (afterMove r)=some w ∧ stepsLeft (afterMove r)=(loopOf r).elim 0 laterSteps+1 := by
  rcases r with l | ⟨_ | l⟩
  · exact ⟨h,rfl⟩
  · cases h
  · exact ⟨h,rfl⟩

theorem loaded_afterRefusal {r : Return} (h : (loopOf r).map Loop.final=some w) :
    loaded (afterRefusal r)=some w ∧ stepsLeft (afterRefusal r)≤(loopOf r).elim 0 laterSteps+2 := by
  rcases r with l | ⟨_ | l⟩
  · exact ⟨h,Nat.le_succ _⟩
  · cases h
  · exact ⟨h,le_rfl⟩

/-- A turn of the loop takes fewer steps than those left before it. -/
theorem stepsLeft_afterWork (l : Loop) (work : Work) : loaded (afterWork l work)=some l.final ∧
      stepsLeft (afterWork l work)<laterSteps l+stepsPerTurn := by
  unfold stepsPerTurn
  cases work with
  | skip =>
    refine ⟨rfl,?_⟩
    change laterSteps l+1<_
    omega
  | finish =>
    refine ⟨rfl,?_⟩
    change laterSteps l+7+2*kMaxNumThreads<_
    omega
  | moveOn =>
    refine ⟨rfl,?_⟩
    change laterSteps l+4<_
    omega
  | split =>
    refine ⟨rfl,?_⟩
    change laterSteps l+8+2*kMaxNumThreads<_
    omega

/-- What the session's next step does: it waits for the others to split their buckets,
or has fewer steps left, or returns with the phase and version that were loaded. -/
def Proceeds (s s' : State) (t : ℕ) (w : SystemState) : Prop :=
  (s' = s ∧ s.systemState.phase = .growInProgress) ∨
    (s' ≠ s ∧ loaded (s'.pc t) = some w ∧ stepsLeft (s'.pc t) < stepsLeft (s.pc t)) ∨
    (s'.pc t = .idle ∧ s'.ctx t = ⟨w.phase, w.version⟩)

/-- A step that leaves fewer steps. -/
theorem proceeds_goto {pc p : Pc} (hp : s.pc t=p) (hw : loaded pc=some w)
    (hlt : stepsLeft pc<stepsLeft p) : Proceeds s (s'.goto t pc) t w := by
  refine .inr (.inl ⟨?_,?_,?_⟩)
  · intro heq
    have hpc : (s'.goto t pc).pc t=p := by rw [heq,hp]
    rw [goto_self] at hpc
    rw [hpc] at hlt
    exact lt_irrefl _ hlt
  · rw [goto_self]
    exact hw
  · rw [goto_self,hp]
    exact hlt

/-- The loop's next turn. -/
theorem turn_proceeds {final prev : SystemState} (h : LoopOk s ⟨final,prev⟩)
    (hp : s.pc t=.iterate final prev) (ready : Bool) :
    ∃ s', callStep s t ready (.iterate final prev)=some s' ∧ Proceeds s s' t final := by
  obtain ⟨cur,hcur,hl,hup⟩ := h.step
  refine ⟨_,by rw [callStep,hcur]; rfl,?_⟩
  obtain ⟨hload,hlt⟩ := stepsLeft_afterWork ⟨final,cur⟩
    (phaseWork cur prev (decide (s.phaseFinished t=cur.phase)) ready (s.ctx t)).1
  refine proceeds_goto hp hload (hlt.trans_le ?_)
  have hle := hl.le
  change _ ≤ if prev=final then stepsPerTurn else laterSteps ⟨final,prev⟩
  split_ifs with heq
  · -- The loop is at its last turn.
    rw [if_pos heq] at hcur
    cases hcur
    unfold laterSteps
    rw [Nat.sub_self,Nat.mul_zero,Nat.zero_add]
  · have hlt' := hup heq
    dsimp only at hle
    unfold laterSteps
    dsimp only
    rw [←Nat.mul_succ]
    exact Nat.mul_le_mul_left _ (by omega)

/-- In the loop every step is defined, and it leads on. -/
theorem callStep_proceeds (h : WalkInv s) (hw : loaded (s.pc t)=some w) (ready : Bool) :
    ∃ s', callStep s t ready (s.pc t)=some s' ∧ Proceeds s s' t w := by
  have hok := h.pcs t
  cases hp : s.pc t with
  | iterate final prev =>
    rw [hp] at hok hw
    cases hw
    exact turn_proceeds hok.1 hp ready
  | leave l =>
    rw [hp] at hw
    cases hw
    refine ⟨_,rfl,?_⟩
    by_cases hend : l.cur=l.final
    · refine .inr (.inr ⟨?_,?_⟩)
      · rw [goto_self,if_pos hend]
      · rw [←hend]
        exact Function.update_self _ _ _
    · rw [if_neg hend]
      refine proceeds_goto hp rfl ?_
      change (if l.cur=l.final then _ else laterSteps ⟨l.final,l.cur⟩)<laterSteps l+1
      rw [if_neg hend]
      exact Nat.lt_succ_self _
  | ack word r =>
    rw [hp] at hw
    refine ⟨_,rfl,proceeds_goto hp hw ?_⟩
    change (loopOf r).elim 0 laterSteps+6+2*(kMaxNumThreads+1 - 1) < (loopOf r).elim 0 laterSteps+7+2*kMaxNumThreads
    omega
  | scanPhase word idx r =>
    rw [hp] at hw
    refine ⟨_,rfl,proceeds_goto hp hw ?_⟩
    change (loopOf r).elim 0 laterSteps+5+2*(kMaxNumThreads+1 - idx) <
      (loopOf r).elim 0 laterSteps+6+2*(kMaxNumThreads+1 - idx)
    omega
  | scanEpoch word idx entry r =>
    rw [hp] at hw
    by_cases hrefused : s.isProtected idx=true ∧ entry ≠ word.phase
    · refine ⟨_,if_pos hrefused,?_⟩
      obtain ⟨hload,hle⟩ := loaded_afterRefusal hw
      refine proceeds_goto hp hload (hle.trans_lt ?_)
      change _<(loopOf r).elim 0 laterSteps+5+2*(kMaxNumThreads+1 - idx)
      omega
    · refine ⟨_,if_neg hrefused,?_⟩
      unfold scanFrom
      split_ifs with hle
      · refine proceeds_goto hp hw ?_
        change (loopOf r).elim 0 laterSteps+6+2*(kMaxNumThreads+1 - (idx+1)) <
          (loopOf r).elim 0 laterSteps+5+2*(kMaxNumThreads+1 - idx)
        omega
      · refine proceeds_goto hp hw ?_
        change (loopOf r).elim 0 laterSteps+4 < (loopOf r).elim 0 laterSteps+5+2*(kMaxNumThreads+1 - idx)
        omega
  | move word seen r =>
    rw [hp] at hok hw
    have hwo : WordOk s t word r := hok
    have hn : s.started ≠ 0 := by
      rcases r with l | ⟨_ | l⟩
      · exact (show LoopOk s l from hwo.ret).started
      · cases hw
      · exact (show LoopOk s l from hwo.ret).started
    obtain ⟨next,hnext⟩ := (hwo.word hn).exists_next
    refine ⟨_,by rw [callStep,hnext]; rfl,?_⟩
    split_ifs with hsys
    · exact proceeds_goto hp hw (Nat.lt_succ_self _)
    · obtain ⟨hload,heq⟩ := loaded_afterMove hw
      refine proceeds_goto hp hload ?_
      rw [heq]
      change _<(loopOf r).elim 0 laterSteps+4
      omega
  | settle next r =>
    rw [hp] at hw
    obtain ⟨hload,heq⟩ := loaded_afterMove hw
    have hlt : stepsLeft (afterMove r)<stepsLeft (.settle next r) := by
      rw [heq]
      change _<(loopOf r).elim 0 laterSteps+3
      omega
    by_cases hrest : next.phase=.rest
    · exact ⟨_,if_pos hrest,proceeds_goto hp hload hlt⟩
    · exact ⟨_,if_neg hrest,proceeds_goto hp hload hlt⟩
  | split l =>
    rw [hp] at hw
    refine ⟨_,rfl,proceeds_goto hp hw ?_⟩
    change l.elim 0 laterSteps+7+2*kMaxNumThreads<l.elim 0 laterSteps+8+2*kMaxNumThreads
    omega
  | spin l =>
    rw [hp] at hw
    cases l with
    | none => cases hw
    | some l =>
      by_cases hwait : s.systemState.phase=.growInProgress
      · exact ⟨s,if_pos hwait,.inl ⟨rfl,hwait⟩⟩
      · exact ⟨_,if_neg hwait,proceeds_goto hp hw (Nat.lt_succ_self _)⟩
  | _ =>
    rw [hp] at hw
    cases hw

theorem startsFresh_of_loaded (hw : loaded (s.pc t)=some w) (act : Act) : startsFresh s ⟨t,act⟩ := by
  intro a v hp
  have hp' : s.pc t=.startSwap a v := hp
  rw [hp'] at hw
  cases hw

/-- A step of the session in the loop leads on. -/
theorem step_proceeds (h : WalkInv s) (hw : loaded (s.pc t)=some w)
    (hs : step s ⟨t,.step ready⟩=some s') : Proceeds s s' t w := by
  obtain ⟨-,hs⟩ := Option.ite_none_right_eq_some.mp hs
  obtain ⟨s₁,hc,hproceeds⟩ := callStep_proceeds h hw ready
  cases hs.symm.trans hc
  exact hproceeds

/-- The number of steps in the loop is bounded by those that were left. -/
theorem Within.bound (h : WalkInv s) (ho : Inv s) (hw : loaded (s.pc t)=some w)
    (hr : Within t w n s s') : Inv s' ∧ WalkInv s' ∧ loaded (s'.pc t)=some w ∧
      n+stepsLeft (s'.pc t) ≤ stepsLeft (s.pc t) := by
  induction hr with
  | refl s => exact ⟨ho,h,hw,by omega⟩
  | other _ hguard hstep hne ih =>
    obtain ⟨ho₁,h₁,hw₁,hle⟩ := ih h ho hw
    rw [step_other hstep hne.symm]
    exact ⟨ho₁.step hstep,h₁.step ho₁ hguard hstep,hw₁,hle⟩
  | own _ hstep hne hload ih =>
    obtain ⟨ho₁,h₁,hw₁,hle⟩ := ih h ho hw
    refine ⟨ho₁.step hstep,h₁.step ho₁ (startsFresh_of_loaded hw₁ _) hstep,hload,?_⟩
    rcases step_proceeds h₁ hw₁ hstep with ⟨heq,-⟩ | ⟨-,-,hlt⟩ | ⟨hidle,-⟩
    · exact absurd heq hne
    · omega
    · rw [hidle] at hload
      cases hload

theorem rank_le (p : Phase) : rank p≤7 := by cases p <;> decide

/-- No call has more than the steps of seven turns left. -/
theorem stepsLeft_iterate (final prev : SystemState) :
    stepsLeft (.iterate final prev)≤7*stepsPerTurn := by
  change (if prev=final then stepsPerTurn else laterSteps ⟨final,prev⟩)≤_
  split_ifs
  · unfold stepsPerTurn
    omega
  · unfold laterSteps
    rw [mul_comm]
    exact Nat.mul_le_mul_right _ ((Nat.sub_le _ _).trans (rank_le _))

/-- A call of `HandleSpecialPhases` ends and catches up. The first step loads the system
state. If that is in the rest phase, the call returns with its phase and version. Else,
after `n` steps of the session in the loop and any steps of the others, `n` is bounded,
and each further step of the session is defined; it waits for the others to split their
buckets, or stays in the loop, or returns with the phase and version that were loaded. -/
theorem handleSpecialPhases_ends (hs : Reachable machine startsFresh s) (ht : t < kMaxNumThreads)
    (hp : s.pc t = .handleLoad) (ready : Bool) : ∃ s₁, step s ⟨t, .step ready⟩ = some s₁ ∧
      ((s₁.pc t = .idle ∧ s₁.ctx t = ⟨s.systemState.phase, s.systemState.version⟩) ∨
        ∀ n s₂, Within t s.systemState n s₁ s₂ → n ≤ 7 * stepsPerTurn ∧
          ∀ ready, ∃ s₃, step s₂ ⟨t, .step ready⟩ = some s₃ ∧
            ((s₃ = s₂ ∧ s₂.systemState.phase = .growInProgress) ∨
              Within t s.systemState (n + 1) s₁ s₃ ∨
              (s₃.pc t = .idle ∧ s₃.ctx t = ⟨s.systemState.phase, s.systemState.version⟩))) := by
  obtain ⟨ho,h⟩ := reachable_walk hs
  have hstep : ∀ s ready, step s ⟨t,.step ready⟩=callStep s t ready (s.pc t) :=
    fun s ready => if_pos ht
  have hguard : startsFresh s ⟨t,.step ready⟩ := by
    intro a v hswap
    have hswap' : s.pc t=.startSwap a v := hswap
    rw [hp] at hswap'
    cases hswap'
  by_cases hrest : s.systemState.phase=.rest
  · refine ⟨(s.setCtx t ⟨.rest,s.systemState.version⟩).goto t .idle,?_,.inl ⟨goto_self _ _ _,?_⟩⟩
    · rw [hstep,hp]
      exact if_pos hrest
    · rw [hrest]
      exact Function.update_self _ _ _
  · obtain ⟨s₁,hs₁⟩ : ∃ s₁, s₁=s.goto t (.iterate s.systemState
        ⟨s.systemState.action,(s.ctx t).phase,(s.ctx t).version⟩) := ⟨_,rfl⟩
    have hload : step s ⟨t,.step ready⟩=some s₁ := by
      rw [hstep,hp,hs₁]
      exact if_neg hrest
    have hpc : s₁.pc t=.iterate s.systemState
        ⟨s.systemState.action,(s.ctx t).phase,(s.ctx t).version⟩ := by
      rw [hs₁,goto_self]
    have hw : loaded (s₁.pc t)=some s.systemState := by
      rw [hpc]
      rfl
    refine ⟨s₁,hload,.inr fun n s₂ hr => ?_⟩
    obtain ⟨ho₂,h₂,hw₂,hle⟩ := hr.bound (h.step ho hguard hload) (ho.step hload) hw
    have hbound : stepsLeft (s₁.pc t)≤7*stepsPerTurn := by
      rw [hpc]
      exact stepsLeft_iterate _ _
    refine ⟨by omega,fun ready => ?_⟩
    obtain ⟨s₃,hc,hproceeds⟩ := callStep_proceeds h₂ hw₂ ready
    rw [←hstep] at hc
    refine ⟨s₃,hc,?_⟩
    rcases hproceeds with hwait | ⟨hne,hload₃,-⟩ | hend
    · exact .inl hwait
    · exact .inr (.inl (hr.own hc hne hload₃))
    · exact .inr (.inr hend)

/-- A thread that does not move stays as protected as it was. -/
theorem step_protected_other {label : Label} {u : ℕ} (hs : step s label=some s')
    (hu : u ≠ label.thread) : s'.isProtected u=s.isProtected u := by
  rcases (step_cases hs).2 with ⟨ready,-,hc⟩ | ⟨-,hc⟩
  · exact (callStep_local hc hu).2.1
  · exact (startCall_local hc hu).2.1

/-- Thread 1 moves alone, and starts actions in the rest phase. -/
def aloneCheck (s : State) (label : Label) : Bool :=
  decide (label.thread = 1) &&
    match s.pc 1 with
    | .startSwap _ v => decide (s.ctx 1 = ⟨.rest, v⟩)
    | _ => true

/-- No thread but thread 1 takes part. -/
def Alone (s : State) : Prop := ∀ u, u ≠ 1 → s.isProtected u = false ∧ s.pc u = .idle

theorem alone_sessions : Alone (sessions fun u => u == 1) := by
  intro u hu
  refine ⟨?_,rfl⟩
  change (u == 1)=false
  rw [beq_eq_false_iff_ne]
  exact hu

theorem startsFresh_of_alone {label : Label} (h : Alone s) (hcheck : aloneCheck s label=true)
    (hs : step s label=some s') : startsFresh s label ∧ Alone s' := by
  rw [aloneCheck,Bool.and_eq_true,decide_eq_true_eq] at hcheck
  obtain ⟨ht,hctx⟩ := hcheck
  refine ⟨?_,?_⟩
  · intro a v hp hsys u hlive
    rw [ht] at hp
    rw [hp,decide_eq_true_eq] at hctx
    have hu : u=1 := by
      by_contra hne
      obtain ⟨hoff,hidle⟩ := h u hne
      rcases hlive with hon | ⟨hbusy,-⟩
      · rw [hoff] at hon
        cases hon
      · exact hbusy hidle
    rw [hu,hp]
    exact ⟨hctx,rfl⟩
  · intro u hu
    have hne : u ≠ label.thread := by
      rw [ht]
      exact hu
    rw [step_protected_other hs hne,step_other hs hne]
    exact h u hu

/-- A session alone starts a checkpoint of the index and refreshes: it takes at most the
steps of seven turns. -/
theorem handleSpecialPhases_ends_one : ∃ s s₁, Reachable machine startsFresh s ∧
    s.systemState = ⟨.checkpointIndex, .prepIndexChkpt, 1⟩ ∧ step s ⟨1, .step true⟩ = some s₁ ∧
    loaded (s₁.pc 1) = some s.systemState ∧
    ∀ n s₂, Within 1 s.systemState n s₁ s₂ → n ≤ 7 * stepsPerTurn := by
  have hrun : (execGuarded machine aloneCheck (sessions fun u => u == 1)
      (startAction 1 .checkpointIndex ++ ⟨1,.refresh⟩::steps 1 2)).any (fun s =>
        decide (s.pc 1=.handleLoad ∧ s.systemState=⟨.checkpointIndex,.prepIndexChkpt,1⟩))=true := by
    decide +kernel
  obtain ⟨s,hr,hend⟩ := exists_run_of_execGuarded (fun _ _ => id) hrun
  obtain ⟨hp,hsys⟩ := of_decide_eq_true hend
  have hs : Reachable machine startsFresh s :=
    ⟨_,sessions_quiescent _,(hr.strengthen (fun _ _ _ => startsFresh_of_alone) alone_sessions).1⟩
  obtain ⟨s₁,hstep,hends⟩ := handleSpecialPhases_ends hs (t := 1) (by decide) hp true
  have hload : loaded (s₁.pc 1)=some s.systemState := by
    obtain ⟨-,hc⟩ := Option.ite_none_right_eq_some.mp hstep
    change callStep s 1 true (s.pc 1)=some s₁ at hc
    rw [hp] at hc
    simp only [callStep,hsys] at hc
    rw [if_neg (by rintro ⟨⟩)] at hc
    cases hc
    rw [goto_self,hsys]
    rfl
  refine ⟨s,s₁,hs,hsys,hstep,hload,?_⟩
  rcases hends with ⟨hidle,-⟩ | hbound
  · rw [hidle] at hload
    cases hload
  · exact fun n s₂ hw => (hbound n s₂ hw).1

/-- A session alone makes a checkpoint of the index and then starts a garbage collection. -/
def staleSession : List Label :=
  startAction 1 .checkpointIndex ++ (⟨1, .refresh⟩ :: steps 1 200) ++ (⟨1, .refresh⟩ :: steps 1 200) ++
  startAction 1 .gc ++ ⟨1, .refresh⟩ :: steps 1 3

/-- When it refreshes, its phase is still the last one of the checkpoint, which has no
successor in a garbage collection. -/
theorem handleSpecialPhases_not_reached : ∃ s final prev, Reachable machine anyStep s ∧
    s.pc 1 = .iterate final prev ∧ s.systemState = final ∧ prev ≠ final ∧ prev.getNextState = none := by
  have hrun : (exec machine (sessions fun u => u == 1) staleSession).any (fun s =>
      decide (s.pc 1=.iterate ⟨.gc,.gcIoPending,1⟩ ⟨.gc,.indexChkpt,1⟩ ∧
        s.systemState=⟨.gc,.gcIoPending,1⟩))=true := by
    decide +kernel
  obtain ⟨s,hr,hend⟩ := exists_run_of_exec hrun
  obtain ⟨hp,hsys⟩ := of_decide_eq_true hend
  exact ⟨s,_,_,⟨_,sessions_quiescent _,hr⟩,hp,hsys,by decide,rfl⟩

end

end FishStore.PhaseLoop
