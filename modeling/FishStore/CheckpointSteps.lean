import FishStore.CheckpointFiles

/-!
# What a step does during a checkpoint

Most steps of the phase protocol leave the system state, the work that the sessions have
finished and the thread that has moved the system state where they are. What the others do
is one of five things: an iteration of the loop, a move of the system state, the end of that
move, the start of an action, and the publication of its first phase. `Change` lists them
together with what they do to the checkpoint.
-/

namespace FishStore.CheckpointSteps

open Runs Phases PhaseWalk PhaseRounds PhaseAcks CheckpointFiles PhaseInvariant PhaseBarrier
open PendingIo (nextWord)

/-- The session has done its work of the phase: it has acknowledged it or is about to. -/
def Finishing (b : Phases.State) (u : ℕ) (q : Phase) : Prop :=
  b.acked u q = true ∨ ∃ w r, b.pc u = .ack w r ∧ w.phase = q

/-- The step of the thread is one of those that matter. -/
def special (b : Phases.State) : Pc → Bool
  | .iterate _ _ => true
  | .move w _ _ => decide (b.systemState = w)
  | .settle _ _ => true
  | .startSwap _ v => decide (b.systemState = ⟨.none, .rest, v⟩)
  | .publish _ _ => true
  | _ => false

/-- The action and its phase stay, and nobody moves the system state. -/
structure Calm (b b' : Phases.State) : Prop where
  sys : b'.systemState = b.systemState
  started : b'.started = b.started
  origin : b'.origin = b.origin
  settle : ∀ u next r, b'.pc u = .settle next r ↔ b.pc u = .settle next r
  opening : ∀ u, opening (b'.pc u) = opening (b.pc u)

/-- Nobody finishes a phase either. -/
structure Still (b b' : Phases.State) : Prop extends Calm b b' where
  finishing : ∀ u q, q ≠ .growInProgress → Finishing b' u q → Finishing b u q
  target : ∀ u w, target (b'.pc u) = some w → target (b.pc u) = some w ∨ w.phase = .growInProgress

section

variable {b b' : Phases.State} {t u : ℕ} {pc p : Pc} {ready : Bool} {l : Phases.Label} {next : SystemState}
  {q : Phase} {r : Return}

/-- A thread goes on, and has neither moved the system state nor is about to acknowledge. -/
theorem Still.goto (hp : b.pc t=p) (hpc : b'.pc=b.pc) (hsys : b'.systemState=b.systemState)
    (hstarted : b'.started=b.started) (horigin : b'.origin=b.origin) (hacked : b'.acked=b.acked)
    (hold : ∀ next r, p ≠ .settle next r) (hnew : ∀ next r, pc ≠ .settle next r)
    (hopen : PhaseWalk.opening pc=PhaseWalk.opening p) (hack : ∀ w r, pc=.ack w r → w.phase=.growInProgress)
    (htarget : ∀ w, PhaseInvariant.target pc=some w → PhaseInvariant.target p=some w ∨ w.phase=.growInProgress) :
    Still b (b'.goto t pc) := by
  have hother : ∀ u, u ≠ t → (b'.goto t pc).pc u=b.pc u := by
    intro u hu
    rw [goto_of_ne hu,hpc]
  refine ⟨⟨hsys,hstarted,horigin,?_,?_⟩,?_,?_⟩
  · intro u next r
    by_cases hut : u=t
    · rw [hut,goto_self,hp]
      exact ⟨fun h => absurd h (hnew next r),fun h => absurd h (hold next r)⟩
    · rw [hother u hut]
  · intro u
    by_cases hut : u=t
    · rw [hut,goto_self,hp,hopen]
    · rw [hother u hut]
  · rintro u q hq (ha | ⟨w,r,hw,hwq⟩)
    · refine .inl ?_
      rw [←hacked]
      exact ha
    · by_cases hut : u=t
      · rw [hut,goto_self] at hw
        exact absurd (hwq.symm.trans (hack w r hw)) hq
      · rw [hother u hut] at hw
        exact .inr ⟨w,r,hw,hwq⟩
  · intro u w
    by_cases hut : u=t
    · rw [hut,goto_self,hp]
      exact htarget w
    · rw [hother u hut]
      exact .inl

/-- A thread that goes on to something else than an acknowledgement finishes no phase. -/
theorem finishing_goto (hpc : b'.pc=b.pc) (hacked : b'.acked=b.acked) (hack : ∀ w r, pc ≠ .ack w r)
    (hu : Finishing (b'.goto t pc) u q) : Finishing b u q := by
  rcases hu with ha | ⟨w,r,hw,hwq⟩
  · refine .inl ?_
    rw [←hacked]
    exact ha
  · by_cases hut : u=t
    · rw [hut,goto_self] at hw
      exact absurd hw (hack w r)
    · rw [goto_of_ne hut,hpc] at hw
      exact .inr ⟨w,r,hw,hwq⟩

/-- The acknowledgement of a phase. -/
theorem still_acknowledge {w : SystemState} (hp : b.pc t=.ack w r) :
    Still b ((b.acknowledge t w.phase).goto t (.scanPhase w 1 r)) := by
  refine ⟨⟨rfl,rfl,rfl,?_,?_⟩,?_,?_⟩
  · intro u next r'
    by_cases hut : u=t
    · rw [hut,goto_self,hp]
      refine ⟨?_,?_⟩ <;> rintro ⟨⟩
    · rw [goto_of_ne hut]
      exact Iff.rfl
  · intro u
    by_cases hut : u=t
    · rw [hut,goto_self,hp]
      rfl
    · rw [goto_of_ne hut]
      rfl
  · rintro u q hq (ha | ⟨w',r',hw,hwq⟩)
    · have ha' : (b.acked u q || (decide (u=t) && decide (q=w.phase)))=true := ha
      rcases Bool.or_eq_true_iff.mp ha' with hold | hnew
      · exact .inl hold
      · obtain ⟨hut,hqw⟩ := Bool.and_eq_true_iff.mp hnew
        refine .inr ⟨w,r,?_,(of_decide_eq_true hqw).symm⟩
        rw [of_decide_eq_true hut]
        exact hp
    · by_cases hut : u=t
      · rw [hut,goto_self] at hw
        cases hw
      · rw [goto_of_ne hut] at hw
        exact .inr ⟨w',r',hw,hwq⟩
  · intro u w'
    by_cases hut : u=t
    · rw [hut,goto_self,hp]
      exact .inl
    · rw [goto_of_ne hut]
      exact .inl

theorem afterMove_ne_settle (r : Return) (next : SystemState) (r' : Return) : afterMove r ≠ .settle next r' := by
  rcases r with l | ⟨_ | l⟩ <;> rintro ⟨⟩

theorem afterMove_ne_ack (r : Return) (w : SystemState) (r' : Return) : afterMove r ≠ .ack w r' := by
  rcases r with l | ⟨_ | l⟩ <;> rintro ⟨⟩

theorem target_afterMove (r : Return) : PhaseInvariant.target (afterMove r)=none := by rcases r with l | ⟨_ | l⟩ <;> rfl

/-- A thread leaves `FinishThreadPhase` or `SplitHashTableBuckets`. -/
theorem still_afterMove {p : Pc} (hp : b.pc t=p) (hpub : ∀ w r, p ≠ .settle w r) (hopen : opening p=none)
    (r : Return) : Still b (b.goto t (afterMove r)) := by
  refine .goto hp rfl rfl rfl rfl rfl hpub (fun _ _ => afterMove_ne_settle r _ _) ?_ ?_ ?_
  · rw [opening_afterMove,hopen]
  · exact fun w' r' hw => absurd hw (afterMove_ne_ack r w' r')
  · rw [target_afterMove]
    rintro _ ⟨⟩

/-- The steps of a call that leave the checkpoint. -/
theorem callStep_still (hs : callStep b t ready (b.pc t)=some b') (hq : special b (b.pc t)=false) : Still b b' := by
  generalize hp : b.pc t=p at hs hq
  cases moves_of_callStep hs with
  | ack => exact still_acknowledge hp
  | iterate => cases hq
  | close => cases hq
  | settle => cases hq
  | publish => cases hq
  | move w seen r next hnext hsys | start a v hsys => exact absurd hsys (of_decide_eq_false hq)
  | overtaken w seen r => exact still_afterMove hp (by rintro _ _ ⟨⟩) rfl r
  | leaveSpin l => exact still_afterMove hp (by rintro _ _ ⟨⟩) rfl (.split l)
  | split =>
    refine .goto hp rfl rfl rfl rfl rfl (by rintro _ _ ⟨⟩) (by rintro _ _ ⟨⟩) rfl ?_ ?_
    · rintro w r ⟨⟩
      rfl
    · rintro w ⟨⟩
      exact .inr rfl
  | spin => exact ⟨⟨rfl,rfl,rfl,fun _ _ _ => Iff.rfl,fun _ => rfl⟩,fun _ _ _ => id,fun _ _ => .inl⟩
  | refuse w idx entry r =>
    refine .goto hp rfl rfl rfl rfl rfl (by rintro _ _ ⟨⟩) ?_ ?_ ?_ ?_ <;> cases r <;> first
      | rfl
      | rintro _ _ ⟨⟩
      | rintro _ ⟨⟩
  | scanOn =>
    refine .goto hp rfl rfl rfl rfl rfl (by rintro _ _ ⟨⟩) ?_ ?_ ?_ ?_ <;> unfold scanFrom <;> split_ifs <;> first
      | rfl
      | exact fun _ => .inl
      | rintro _ _ ⟨⟩
  | reset | leave =>
    refine .goto hp rfl rfl rfl rfl rfl (by rintro _ _ ⟨⟩) ?_ ?_ ?_ ?_ <;> split_ifs <;> first
      | rfl
      | rintro _ _ ⟨⟩
      | rintro _ ⟨⟩
  | _ => exact .goto hp rfl rfl rfl rfl rfl (by rintro _ _ ⟨⟩) (by rintro _ _ ⟨⟩) rfl (by rintro _ _ ⟨⟩) fun _ => .inl

/-- So do the calls. -/
theorem startCall_still {act : Act} (hp : b.pc t=.idle) (hs : startCall b t act=some b') : Still b b' := by
  cases starts_of_startCall hs with
  | stopSession => exact ⟨⟨rfl,rfl,rfl,fun _ _ _ => Iff.rfl,fun _ => rfl⟩,fun _ _ _ => id,fun _ _ => .inl⟩
  | heavyEnter =>
    refine .goto hp rfl rfl rfl rfl rfl (by rintro _ _ ⟨⟩) ?_ ?_ ?_ ?_ <;> cases (b.ctx t).phase <;> first
      | rfl
      | rintro _ _ ⟨⟩
      | rintro _ ⟨⟩
  | _ => exact .goto hp rfl rfl rfl rfl rfl (by rintro _ _ ⟨⟩) (by rintro _ _ ⟨⟩) rfl (by rintro _ _ ⟨⟩) fun _ => .inl

/-- Only the thread that moves can become protected. -/
theorem step_protected (hs : Phases.step b l=some b') (hu : b'.isProtected u=true) : b.isProtected u=true ∨ u=l.thread := by
  by_cases hut : u=l.thread
  · exact .inr hut
  · refine .inl ?_
    rcases (step_cases hs).2 with ⟨ready,-,hc⟩ | ⟨-,hc⟩
    · exact (PhaseInvariant.callStep_local hc hut).2.1.symm.trans hu
    · exact (PhaseInvariant.startCall_local hc hut).2.1.symm.trans hu

/-- An iteration of the loop. -/
theorem callStep_iterate {final prev : SystemState} (hp : b.pc t=.iterate final prev)
    (hs : callStep b t ready (b.pc t)=some b') :
    ∃ cur, nextWord final prev=some cur ∧ Calm b b' ∧ b'.acked=b.acked ∧ b'.isProtected=b.isProtected ∧
      b'.pc t=afterWork ⟨final,cur⟩ (phaseWork cur prev (decide (b.phaseFinished t=cur.phase)) ready (b.ctx t)).1 ∧
      ∀ u q, Finishing b' u q → Finishing b u q ∨ (u=t ∧ cur.phase=q ∧
        (phaseWork cur prev (decide (b.phaseFinished t=cur.phase)) ready (b.ctx t)).1=.finish) := by
  rw [hp] at hs
  obtain ⟨cur,hcur,rfl⟩ := Option.map_eq_some_iff.mp hs
  refine ⟨cur,hcur,⟨rfl,rfl,rfl,?_,?_⟩,rfl,rfl,goto_self _ _ _,?_⟩
  · intro u next r
    by_cases hut : u=t
    · rw [hut,goto_self,hp]
      refine ⟨?_,by rintro ⟨⟩⟩
      generalize (phaseWork _ _ _ _ _).1=work
      cases work <;> rintro ⟨⟩
    · rw [goto_of_ne hut]
      exact Iff.rfl
  · intro u
    by_cases hut : u=t
    · rw [hut,goto_self,opening_afterWork,hp]
      rfl
    · rw [goto_of_ne hut]
      rfl
  · rintro u q (ha | ⟨w,r,hw,hwq⟩)
    · exact .inl (.inl ha)
    · by_cases hut : u=t
      · rw [hut,goto_self] at hw
        refine .inr ⟨hut,?_⟩
        cases hwork : (phaseWork cur prev (decide (b.phaseFinished t=cur.phase)) ready (b.ctx t)).1 <;>
          rw [hwork] at hw <;> cases hw
        exact ⟨hwq,rfl⟩
      · rw [goto_of_ne hut] at hw
        exact .inl (.inr ⟨w,r,hw,hwq⟩)

end

/-- When a transition of the loop does something beyond the phase protocol. -/
inductive LoopEvent (cur prev : SystemState) (has ready : Bool) : Event → Prop
  | quiet : LoopEvent cur prev has ready .quiet
  | indexResult (hc : cur.phase = .indexChkpt) : LoopEvent cur prev has ready .indexResult
  | register (hc : cur.phase = .prepare) (hp : prev.phase ≠ .prepare) : LoopEvent cur prev has ready .register
  | swap (hc : cur.phase = .inProgress) (hp : prev.phase = .prepare) : LoopEvent cur prev has ready (.swap true)
  | collect (hc : cur.phase = .gcIoPending) : LoopEvent cur prev has ready (.swap false)
  | writeCprContext (hc : cur.phase = .waitFlush) (hr : ready = true) :
    LoopEvent cur prev has ready .writeCprContext
  | persistenceCallback (hc : cur.phase = .persistenceCallback) (hp : prev.phase = .waitFlush) :
    LoopEvent cur prev has ready .persistenceCallback

theorem loopEvent_spec (cur prev : SystemState) (has ready : Bool) :
    LoopEvent cur prev has ready (loopEvent cur prev has ready) := by
  unfold loopEvent
  split <;> rename_i hc
  · split_ifs
    · exact .indexResult hc
    · exact .quiet
  · split_ifs with h
    · exact .register hc (of_decide_eq_true (Bool.and_eq_true_iff.mp h).2)
    · exact .quiet
  · split_ifs with h
    · exact .swap hc (of_decide_eq_true (Bool.and_eq_true_iff.mp h).2)
    · exact .quiet
  · split_ifs with h
    · exact .writeCprContext hc (Bool.and_eq_true_iff.mp (Bool.and_eq_true_iff.mp h).2).2
    · exact .quiet
  · split_ifs with h
    · exact .persistenceCallback hc (of_decide_eq_true (Bool.and_eq_true_iff.mp h).2)
    · exact .quiet
  · split_ifs
    · exact .collect hc
    · exact .quiet
  · exact .quiet

/-- A session acknowledges the flush when it has written its context. -/
theorem loopEvent_of_finish {cur prev : SystemState} {has ready : Bool} {ctx : Context}
    (hc : cur.phase=.waitFlush) (h : (phaseWork cur prev has ready ctx).1=.finish) :
    loopEvent cur prev has ready=.writeCprContext := by
  obtain ⟨a,ph,v⟩ := cur
  dsimp only at hc
  subst hc
  cases a <;> cases has <;> cases ready <;> first
    | rfl
    | cases h

/-- When the end of a move does something beyond the phase protocol. -/
inductive SettleEvent (next : SystemState) : Event → Prop
  | quiet : SettleEvent next .quiet
  | checkpointFuzzyIndex (hn : next.phase = .indexChkpt) : SettleEvent next .checkpointFuzzyIndex
  | prepare (hn : next.phase = .prepare) : SettleEvent next (.indexDone false)
  | writeCprMetadata (hn : next.phase = .waitFlush) : SettleEvent next .writeCprMetadata
  | indexDone (hn : next.phase = .rest) (ha : next.action = .checkpointIndex) : SettleEvent next (.indexDone true)
  | checkpointDone (hn : next.phase = .rest) : SettleEvent next .checkpointDone

theorem settleEvent_spec (next : SystemState) : SettleEvent next (settleEvent next) := by
  unfold settleEvent
  by_cases hc : isCheckpoint next.action=true
  · rw [if_pos hc]
    split <;> rename_i hn
    · exact .checkpointFuzzyIndex hn
    · exact .prepare hn
    · exact .writeCprMetadata hn
    · split_ifs with ha
      · exact .indexDone hn ha
      · exact .checkpointDone hn
    · exact .quiet
  · rw [if_neg hc]
    exact .quiet

/-- What is known of the phase protocol, when no session runs on thread 0. -/
structure Base (b : Phases.State) : Prop where
  rounds : Rounds b
  acks : AckInv b
  tracked : ∀ u, b.isProtected u = true → Tracked u

/-- The latest action is a checkpoint of the log. -/
def Log (b : Phases.State) : Prop := IsLogCheckpoint b.origin.action

section

variable {b b' : Phases.State} {t u : ℕ} {ready : Bool} {l : Phases.Label} {w next : SystemState}
  {q : Phase} {r : Return} {seen : Option ℕ}

theorem Base.step (h : Base b) (hjoins : joinsBetween b l) (hne : l.thread ≠ 0)
    (hs : Phases.step b l=some b') : Base b' := by
  refine ⟨h.rounds.step hjoins hs,h.acks.step h.rounds hjoins hs,fun u hu => ?_⟩
  rcases step_protected hs hu with hold | rfl
  · exact h.tracked u hold
  · exact ⟨Nat.one_le_iff_ne_zero.mpr hne,(step_cases hs).1⟩

theorem Base.of_quiescent (h : Quiescent b) (hoff : ∀ t, b.isProtected t=false) : Base b := by
  refine ⟨.of_quiescent h,.of_quiescent h,fun u hu => ?_⟩
  rw [hoff] at hu
  cases hu

/-- The phases that only a checkpoint of the log has. -/
theorem log_of_phase {o : SystemState} (h : OnWalk o w) (hle : 3≤rank w.phase) : IsLogCheckpoint o.action := by
  have hmem := h.phase
  cases ho : o.action <;> rw [ho] at hmem <;>
    simp only [phases,List.mem_cons,List.not_mem_nil,or_false] at hmem <;> first
    | exact .inl rfl
    | exact .inr rfl
    | (rcases hmem with hp | hp | hp <;> rw [hp] at hle <;> exact absurd hle (by decide))
    | (rcases hmem with hp | hp <;> rw [hp] at hle <;> exact absurd hle (by decide))

theorem asked_of_log {o : SystemState} (h : IsLogCheckpoint o.action) (hle : 3≤rank q) : Asked o.action q := by
  rcases h with ho | ho <;> rw [ho] <;> cases q <;> first
    | exact ⟨by decide,by decide,by decide⟩
    | exact absurd hle (by decide)

/-- The word before the flush. -/
theorem before_waitFlush (h : w.getNextState=some next) (hp : next.phase=.waitFlush) :
    w.phase=.waitPending ∧ isCheckpoint next.action=true ∧ next.action ≠ .checkpointIndex := by
  obtain ⟨a,ph,v⟩ := w
  cases a <;> cases ph <;> cases h <;> first
    | exact ⟨rfl,rfl,by rintro ⟨⟩⟩
    | cases hp

/-- A session in the loop holds a log checkpoint back. -/
theorem Base.holds_back (h : Base b) (hn : b.started ≠ 0) (hlog : Log b) (hin : inLoop (b.pc t)=true)
    (hle : 3≤rank q) (hlt : progress (b.ctx t) (b.pc t)<rank q) :
    b.systemState.phase ≠ .rest ∧ rank b.systemState.phase≤rank q := by
  have hprot : b.isProtected t=true := by
    refine h.acks.on t ?_
    cases hp : b.pc t <;> rw [hp] at hin <;> first | rfl | cases hin
  exact h.acks.holds_back hn hlog (h.tracked t hprot) hprot (.inl hin) (asked_of_log hlog hle) hlt

/-- The words of an iteration. -/
theorem Base.iterate {final prev cur : SystemState} (h : Base b) (hp : b.pc t=.iterate final prev)
    (hn : nextWord final prev=some cur) : LoopOk b ⟨final,cur⟩ ∧ cur.phase ≠ .rest ∧
      (prev=cur ∨ (prev.getNextState=some cur ∧ rank prev.phase<rank cur.phase)) := by
  have hok := h.rounds.walk.pcs t
  rw [hp] at hok
  obtain ⟨cur',hn',hloop,hlt⟩ := LoopOk.step hok.1
  obtain rfl : cur'=cur := Option.some_inj.mp (hn'.symm.trans hn)
  refine ⟨hloop,?_⟩
  by_cases heq : prev=final
  · rw [if_pos heq] at hn'
    cases hn'
    exact ⟨hloop.ne_rest,.inl heq⟩
  · rw [if_neg heq] at hn'
    refine ⟨fun hrest => ?_,.inr ⟨hn',hlt heq⟩⟩
    have hup := hlt heq
    rw [hrest] at hup
    exact absurd hup (Nat.not_lt_zero _)

/-- A session that has not come to a phase holds the checkpoint back at it. -/
theorem Base.behind {final prev : SystemState} (h : Base b) (hp : b.pc t=.iterate final prev) (hlog : Log b)
    (hle : 3≤rank q) (hlt : rank prev.phase<rank q) : b.systemState.phase ≠ .rest ∧ rank b.systemState.phase≤rank q := by
  have hok := h.rounds.walk.pcs t
  rw [hp] at hok
  refine h.holds_back (t := t) hok.1.started hlog ?_ hle ?_ <;> rw [hp]
  · rfl
  · exact hlt

/-- The word that a thread has moved on. -/
theorem Base.moved (h : Base b) (hp : b.pc t=.settle next r) : ∃ w, w.phase ≠ .rest ∧ w.getNextState=some next ∧
    (w.phase=.growInProgress ∨ ∃ lp, r=.loop lp ∧ w=lp.cur ∧ LoopOk b lp) := by
  have hpk := h.acks.pcs t
  have hok := h.rounds.walk.pcs t
  rw [hp] at hpk hok
  obtain ⟨w,hret,hne,hnext⟩ := hpk
  refine ⟨w,hne,hnext,?_⟩
  rcases r with lp | lp
  · exact .inr ⟨lp,rfl,hret,hok⟩
  · exact .inl hret

/-- A thread that has moved the system state to the flush has not finished its part. -/
theorem Base.settling (h : Base b) (hp : b.pc t=.settle next r) (hphase : next.phase=.waitFlush) :
    Log b ∧ b.systemState.phase ≠ .rest ∧ rank b.systemState.phase≤6 := by
  obtain ⟨w,-,hnext,hgrow | ⟨lp,rfl,hcur,hloop⟩⟩ := h.moved hp
  · rw [(before_waitFlush hnext hphase).1] at hgrow
    cases hgrow
  · -- The loop stands before the flush.
    have hwait : lp.cur.phase=.waitPending := by
      rw [←hcur]
      exact (before_waitFlush hnext hphase).1
    have hlog : Log b := log_of_phase hloop.cur (by rw [hwait]; decide)
    refine ⟨hlog,h.holds_back (q := .waitFlush) hloop.started hlog (by rw [hp]; rfl) (by decide) ?_⟩
    rw [hp]
    change rank lp.cur.phase<_
    rw [hwait]
    decide

/-- A session that has done its part of the flush has come to it. -/
theorem Base.reached {final prev : SystemState} (h : Base b) (hlog : Log b) (hp : b.pc t=.iterate final prev)
    (hfin : Finishing b t q) : rank q≤rank prev.phase := by
  have hok := h.rounds.walk.pcs t
  rw [hp] at hok
  rcases hfin with hacked | ⟨w,r,hw,-⟩
  · have hle := h.acks.reached hok.1.started hlog t (.inr (.inl (by rw [hp]; rfl))) q hacked
    rw [hp] at hle
    exact hle
  · rw [hp] at hw
    cases hw

end

/-- The word of the phase protocol when the thread ends its move to `next`. -/
def settled (b : Phases.State) (next : SystemState) : Phases.State :=
  if next.phase = .rest then { b with systemState := ⟨.none, .rest, next.version⟩ } else b

theorem settled_pc (b : Phases.State) (next : SystemState) : (settled b next).pc=b.pc := by
  unfold settled
  split_ifs <;> rfl

theorem settled_started (b : Phases.State) (next : SystemState) :
    (settled b next).started=b.started ∧ (settled b next).origin=b.origin := by
  unfold settled
  split_ifs <;> exact ⟨rfl,rfl⟩

/-- The end of a move leaves the phase. -/
theorem settled_phase {b : Phases.State} {t : ℕ} {next : SystemState} {r : Return} (h : Base b)
    (hp : b.pc t=.settle next r) : (settled b next).systemState.phase=b.systemState.phase ∧
      (next.phase=.rest → b.systemState.phase=.rest) := by
  have howner : next.phase=.rest → b.systemState.phase=.rest := by
    intro hrest
    obtain ⟨hsys,hphase,-⟩ := h.rounds.inv.owner t next (by rw [hp]; exact if_pos hrest)
    rw [hsys,hphase]
  refine ⟨?_,howner⟩
  unfold settled
  split_ifs with hrest
  · rw [howner hrest]
  · rfl

/-- What a step of the phase protocol by thread `t` does to the checkpoint. -/
inductive Change (s : CheckpointFiles.State) (t : ℕ) (x : Choice) : CheckpointFiles.State → Prop
  | still {b' : Phases.State} (hb : Still s.base b') (hne : ∀ final prev, s.base.pc t ≠ .iterate final prev)
      (hjoin : s.base.pc t = .sessionLoad → s.base.systemState.phase ≠ .rest) :
    Change s t x { s with base := b' }
  | join {b' : Phases.State} (hb : Still s.base b') (hp : s.base.pc t = .sessionLoad)
      (hrest : s.base.systemState.phase = .rest) (hin : s.Admits x.session) :
    Change s t x { s.apply t x .join with base := b' }
  | iterate {final prev cur : SystemState} {b' : Phases.State} {ready : Bool}
      (hp : s.base.pc t = .iterate final prev) (hn : nextWord final prev = some cur)
      (hs : callStep s.base t (s.ready ready (.iterate final prev)) (s.base.pc t) = some b') :
    Change s t x { s.apply t x (loopEvent cur prev (decide (s.base.phaseFinished t = cur.phase))
      (s.ready ready (.iterate final prev))) with base := b' }
  | move {w next : SystemState} {seen : Option ℕ} {r : Return} (hp : s.base.pc t = .move w seen r)
      (hsys : s.base.systemState = w) (hn : w.getNextState = some next) :
    Change s t x { s.apply t x (if completes w then .complete else .quiet) with
      base := { s.base with systemState := next }.goto t (.settle next r) }
  | settle {next : SystemState} {r : Return} (hp : s.base.pc t = .settle next r) :
    Change s t x { s.apply t x (settleEvent next) with base := (settled s.base next).goto t (afterMove r) }
  | start {a : Action} {v : UInt32} (hp : s.base.pc t = .startSwap a v)
      (hsys : s.base.systemState = ⟨.none, .rest, v⟩) :
    Change s t x { s with base := (s.base.start a v).goto t (.reset a v 1) }
  | publish {a : Action} {v : UInt32} {p : Phase} (hp : s.base.pc t = .publish a v)
      (hn : a.firstPhase = some p) :
    Change s t x { s.apply t x (if isCheckpoint a then .init a else .quiet) with
      base := { s.base with systemState := ⟨a, p, v⟩ }.goto t (afterPublish a) }

section

variable {s s' : CheckpointFiles.State} {t bufferSize : ℕ} {l : Phases.Label} {x : Choice} {b' : Phases.State}
  {ready : Bool}

theorem label_thread (s : CheckpointFiles.State) (l : Phases.Label) : (s.label l).thread=l.thread := by
  unfold State.label
  cases l.act <;> rfl

/-- A step of a call. -/
theorem change_of_callStep (hs : callStep s.base t (s.ready ready (s.base.pc t)) (s.base.pc t)=some b')
    (hin : event s.base t (s.ready ready (s.base.pc t)) (s.base.pc t)=.join → s.Admits x.session) :
    Change s t x { s.apply t x (event s.base t (s.ready ready (s.base.pc t)) (s.base.pc t)) with base := b' } := by
  cases hp : s.base.pc t with
  | iterate final prev =>
    obtain ⟨cur,hn,-⟩ := callStep_iterate hp hs
    rw [hp] at hs
    simp only [event,hn]
    exact .iterate hp hn (by rw [hp]; exact hs)
  | move w seen r =>
    by_cases hsys : s.base.systemState=w
    · rw [hp] at hs
      obtain ⟨next,hn,rfl⟩ := Option.map_eq_some_iff.mp hs
      simp only [event,true_and,hsys]
      exact .move hp hsys hn
    · have hb := callStep_still hs (by rw [hp]; exact decide_eq_false hsys)
      simp only [event,hsys,false_and,if_false]
      exact .still hb (by rw [hp]; rintro _ _ ⟨⟩) (by rw [hp]; rintro ⟨⟩)
  | settle next r =>
    rw [hp] at hs
    have hb : b'=(settled s.base next).goto t (afterMove r) := by
      simp only [Phases.callStep] at hs
      unfold settled
      split_ifs at hs ⊢ <;> cases hs <;> rfl
    rw [hb]
    exact .settle hp
  | startSwap a v =>
    by_cases hsys : s.base.systemState=⟨.none,.rest,v⟩
    · rw [hp] at hs
      simp only [Phases.callStep] at hs
      rw [if_pos hsys] at hs
      cases hs
      exact .start hp hsys
    · have hb := callStep_still hs (by rw [hp]; exact decide_eq_false hsys)
      exact .still hb (by rw [hp]; rintro _ _ ⟨⟩) (by rw [hp]; rintro ⟨⟩)
  | publish a v =>
    rw [hp] at hs
    obtain ⟨p,hn,rfl⟩ := Option.map_eq_some_iff.mp hs
    exact .publish hp hn
  | sessionLoad =>
    have hb := callStep_still hs (by rw [hp]; rfl)
    rw [hp] at hin
    simp only [event] at hin ⊢
    split_ifs at hin ⊢ with hrest
    · exact .join hb hp hrest (hin rfl)
    · exact .still hb (by rw [hp]; rintro _ _ ⟨⟩) fun _ => hrest
  | _ => exact .still (callStep_still hs (by rw [hp]; rfl)) (by rw [hp]; rintro _ _ ⟨⟩) (by rw [hp]; rintro ⟨⟩)

/-- What the steps of the phase protocol are. -/
theorem change_of_step (hs : step bufferSize s (.phase l x)=some s') :
    Phases.step s.base (s.label l)=some s'.base ∧ Change s l.thread x s' := by
  obtain ⟨hin,hs⟩ := Option.ite_none_left_eq_some.mp hs
  obtain ⟨b',hb,rfl⟩ := Option.map_eq_some_iff.mp hs
  refine ⟨hb,?_⟩
  have hadm : s.eventOf l=.join → s.Admits x.session := by
    intro he
    by_contra hno
    exact hin ⟨he,hno⟩
  cases hact : l.act with
  | step ready =>
    have hlabel : s.label l=⟨l.thread,.step (s.ready ready (s.base.pc l.thread))⟩ := by
      unfold State.label
      rw [hact]
    have hevent : s.eventOf l=event s.base l.thread (s.ready ready (s.base.pc l.thread)) (s.base.pc l.thread) := by
      unfold State.eventOf
      rw [hact]
    rw [hlabel] at hb
    rw [hevent] at hadm ⊢
    rcases (step_cases hb).2 with ⟨ready',⟨⟩,hc⟩ | ⟨-,hc⟩
    · exact change_of_callStep hc hadm
    · cases hc
  | _ =>
    have hlabel : s.label l=l := by
      unfold State.label
      rw [hact]
    have hevent : s.eventOf l=.quiet := by
      unfold State.eventOf
      rw [hact]
    rw [hlabel] at hb
    rw [hevent]
    rcases (step_cases hb).2 with ⟨ready',hr,-⟩ | ⟨hp,hc⟩
    · rw [hact] at hr
      cases hr
    · exact .still (startCall_still hp hc) (by rw [hp]; rintro _ _ ⟨⟩) (by rw [hp]; rintro ⟨⟩)

end

end FishStore.CheckpointSteps
