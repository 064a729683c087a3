import FishStore.Phases

/-!
# Who may write the system state

Between a swap that leaves the word in the rest phase and the store that ends
this, one thread owns the word: the starter of an action until it publishes the
first phase, or the thread that ended the action until it has stored that no
action is in progress. Every other change of the word is a swap of
`GlobalMoveToNextState` out of a phase that is not the rest phase.
-/

namespace FishStore.PhaseInvariant

open Runs Phases Function
open LightEpoch (kMaxNumThreads)

/-- The word in the rest phase that the thread is going to overwrite. -/
def owned : Pc → Option SystemState
  | .reset a version _ => some ⟨a, .rest, version⟩
  | .publish a version => some ⟨a, .rest, version⟩
  | .settle next _ => if next.phase = .rest then some next else none
  | _ => none

/-- The word that the thread is about to move, or may move after its scan. -/
def target : Pc → Option SystemState
  | .ack w _ => some w
  | .scanPhase w _ _ => some w
  | .scanEpoch w _ _ _ => some w
  | .move w _ _ => some w
  | _ => none

/-- The action that the thread is starting. -/
def starting : Pc → Option Action
  | .startLoad a => some a
  | .startSwap a _ => some a
  | .reset a _ _ => some a
  | .publish a _ => some a
  | _ => none

/-- The thread has nothing to do with the word for now. -/
def Quiet (pc : Pc) : Prop := owned pc = none ∧ target pc = none ∧ starting pc = none

/-- Ownership of the word in the rest phase. -/
structure Inv (s : State) : Prop where
  /-- Only phases other than the rest phase are moved. -/
  target : ∀ t w, target (s.pc t) = some w → w.phase ≠ .rest
  /-- Only actions that have a first phase are started. -/
  starting : ∀ t a, starting (s.pc t) = some a → a.firstPhase.isSome
  /-- The owner's word is the word of the system. -/
  owner : ∀ t w, owned (s.pc t) = some w →
    s.systemState = w ∧ w.phase = .rest ∧ w.action ≠ .none
  /-- There is at most one owner. -/
  unique : ∀ t u v w, owned (s.pc t) = some v → owned (s.pc u) = some w → t = u
  /-- Without an action the word is in the rest phase. -/
  none_rest : s.systemState.action = .none → s.systemState.phase = .rest

section

variable {s s' : State} {t u : ℕ} {w next : SystemState} {a : Action} {ready : Bool} {label : Label}

/-- The next state belongs to the same action, which is not the absence of one. -/
theorem getNextState_action (h : w.getNextState=some next) : next.action=w.action ∧ w.action ≠ .none := by
  obtain ⟨act,ph,v⟩ := w
  cases act <;> cases ph <;> cases h <;> exact ⟨rfl,nofun⟩

theorem firstPhase_ne_rest {p : Phase} (h : a.firstPhase=some p) : p ≠ .rest := by cases a <;> cases h <;> decide

theorem ne_none_of_firstPhase (h : a.firstPhase.isSome) : a ≠ .none := by
  rintro rfl
  cases h

/-- Work is asked for in no rest phase. -/
theorem phaseWork_rest {prev : SystemState} {has : Bool} {ctx : Context} (h : w.phase=.rest) :
    (phaseWork w prev has ready ctx).1=.skip := by
  obtain ⟨act,ph,v⟩ := w
  cases h
  cases act <;> rfl

/-- A step is one of a call, or a call of a session that is in none. -/
theorem step_cases (hs : step s label=some s') : label.thread<kMaxNumThreads ∧
    ((∃ ready, label.act=.step ready ∧ callStep s label.thread ready (s.pc label.thread)=some s') ∨
      (s.pc label.thread=.idle ∧ startCall s label.thread label.act=some s')) := by
  unfold step at hs
  obtain ⟨ht,hs⟩ := Option.ite_none_right_eq_some.mp hs
  refine ⟨ht,?_⟩
  cases hact : label.act with
  | step ready =>
    rw [hact] at hs
    exact Or.inl ⟨ready,rfl,hs⟩
  | _ =>
    rw [hact] at hs
    obtain ⟨hidle,hc⟩ := Option.ite_none_right_eq_some.mp hs
    exact Or.inr ⟨hidle,hc⟩

/-- A call moves only its own session. -/
theorem callStep_other (hs : callStep s t ready (s.pc t)=some s') (hu : u ≠ t) : s'.pc u=s.pc u := by
  generalize s.pc t=p at hs
  cases moves_of_callStep hs with
  | spin => rfl
  | _ => exact update_of_ne hu _ _

/-- A call of a function moves only its own session. -/
theorem startCall_other {act : Act} (hs : startCall s t act=some s') (hu : u ≠ t) : s'.pc u=s.pc u := by
  cases starts_of_startCall hs with
  | stopSession => rfl
  | _ => exact update_of_ne hu _ _

/-- A step moves only its own session. -/
theorem step_other (hs : step s label=some s') (hu : u ≠ label.thread) : s'.pc u=s.pc u := by
  rcases (step_cases hs).2 with ⟨ready,_,hc⟩ | ⟨_,hc⟩
  · exact callStep_other hc hu
  · exact startCall_other hc hu

/-- A step of a call leaves the contexts, the protection and the acknowledgements of the
other sessions alone; a new action clears the acknowledgements. -/
theorem callStep_local (hs : callStep s t ready (s.pc t)=some s') (hu : u ≠ t) :
    s'.ctx u=s.ctx u ∧ s'.isProtected u=s.isProtected u ∧ ∀ q, s'.acked u q=true → s.acked u q=true := by
  generalize s.pc t=p at hs
  cases moves_of_callStep hs with
  | refresh => exact ⟨rfl,update_of_ne hu _ _,fun _ => id⟩
  | ack w r =>
    refine ⟨rfl,rfl,fun q hq => ?_⟩
    change (s.acked u q || (decide (u=t) && decide (q=w.phase)))=true at hq
    rw [decide_eq_false hu,Bool.false_and,Bool.or_false] at hq
    exact hq
  | start => exact ⟨rfl,rfl,nofun⟩
  | _ =>
    first
    | exact ⟨rfl,rfl,fun _ => id⟩
    | exact ⟨update_of_ne hu _ _,rfl,fun _ => id⟩

/-- So does a call of a function. -/
theorem startCall_local {act : Act} (hs : startCall s t act=some s') (hu : u ≠ t) :
    s'.ctx=s.ctx ∧ s'.isProtected u=s.isProtected u ∧ s'.acked=s.acked := by
  cases starts_of_startCall hs with
  | stopSession => exact ⟨rfl,update_of_ne hu _ _,rfl⟩
  | _ => exact ⟨rfl,rfl,rfl⟩

theorem target_of_seenIn {pc : Pc} {i : ℕ} (h : seenIn pc=some (w, i)) : target pc=some w := by
  unfold seenIn at h
  split at h
  · cases h
    rfl
  · cases h

theorem goto_self (s : State) (t : ℕ) (pc : Pc) : (s.goto t pc).pc t=pc := update_self _ _ _

theorem goto_of_ne {pc : Pc} (hu : u ≠ t) : (s.goto t pc).pc u=s.pc u := update_of_ne hu _ _

theorem Inv.not_owned (h : Inv s) (hw : s.systemState.phase=.rest → s.systemState.action=.none) :
    owned (s.pc u)=none := by
  cases ho : owned (s.pc u) with
  | none => rfl
  | some v =>
    obtain ⟨rfl,hrest,hne⟩ := h.owner u v ho
    exact absurd (hw hrest) hne

/-- A step that leaves the word alone keeps ownership, if the thread does not
come to own anything. -/
theorem Inv.keep {pc : Pc} (h : Inv s) (hsys : s'.systemState=s.systemState) (hpc : s'.pc=s.pc)
    (howned : ∀ w, owned pc=some w → owned (s.pc t)=some w)
    (htarget : ∀ w, PhaseInvariant.target pc=some w → w.phase ≠ .rest)
    (hstarting : ∀ a, PhaseInvariant.starting pc=some a → a.firstPhase.isSome) : Inv (s'.goto t pc) := by
  have hback : ∀ u w, owned ((s'.goto t pc).pc u)=some w → owned (s.pc u)=some w := by
    intro u w hw
    by_cases hu : u=t
    · subst hu
      rw [goto_self] at hw
      exact howned w hw
    · rwa [goto_of_ne hu,hpc] at hw
  refine ⟨?_,?_,?_,?_,?_⟩
  · intro u w hw
    by_cases hu : u=t
    · subst hu
      rw [goto_self] at hw
      exact htarget w hw
    · rw [goto_of_ne hu,hpc] at hw
      exact h.target u w hw
  · intro u a ha
    by_cases hu : u=t
    · subst hu
      rw [goto_self] at ha
      exact hstarting a ha
    · rw [goto_of_ne hu,hpc] at ha
      exact h.starting u a ha
  · intro u w hw
    change s'.systemState=w ∧ _
    rw [hsys]
    exact h.owner u w (hback u w hw)
  · intro u u' v w hv hw
    exact h.unique u u' v w (hback u v hv) (hback u' w hw)
  · change s'.systemState.action=.none → s'.systemState.phase=.rest
    rw [hsys]
    exact h.none_rest

/-- A step that neither writes the word nor comes near doing so. -/
theorem Inv.pass {pc : Pc} (h : Inv s) (hsys : s'.systemState=s.systemState) (hpc : s'.pc=s.pc)
    (hquiet : Quiet pc) : Inv (s'.goto t pc) := by
  obtain ⟨howned,htarget,hstarting⟩ := hquiet
  refine h.keep hsys hpc ?_ ?_ ?_
  · intro w hw
    rw [howned] at hw
    cases hw
  · intro w hw
    rw [htarget] at hw
    cases hw
  · intro a ha
    rw [hstarting] at ha
    cases ha

/-- A step that writes the word keeps ownership, if no other thread owned it. -/
theorem Inv.write {pc : Pc} (h : Inv s) (hpc : s'.pc=s.pc) (hfree : ∀ u, u ≠ t → owned (s.pc u)=none)
    (howned : ∀ w, owned pc=some w → s'.systemState=w ∧ w.phase=.rest ∧ w.action ≠ .none)
    (htarget : PhaseInvariant.target pc=none) (hstarting : ∀ a, PhaseInvariant.starting pc=some a → a.firstPhase.isSome)
    (hnone : s'.systemState.action=.none → s'.systemState.phase=.rest) : Inv (s'.goto t pc) := by
  have hmine : ∀ u w, owned ((s'.goto t pc).pc u)=some w → u=t := by
    intro u w hw
    by_contra hu
    rw [goto_of_ne hu,hpc,hfree u hu] at hw
    cases hw
  refine ⟨?_,?_,?_,?_,hnone⟩
  · intro u w hw
    by_cases hu : u=t
    · subst hu
      rw [goto_self,htarget] at hw
      cases hw
    · rw [goto_of_ne hu,hpc] at hw
      exact h.target u w hw
  · intro u a ha
    by_cases hu : u=t
    · subst hu
      rw [goto_self] at ha
      exact hstarting a ha
    · rw [goto_of_ne hu,hpc] at ha
      exact h.starting u a ha
  · intro u w hw
    have hu := hmine u w hw
    subst hu
    rw [goto_self] at hw
    exact howned w hw
  · intro u u' v w hv hw
    rw [hmine u v hv,hmine u' w hw]

/-- The owner gives the word up. -/
theorem Inv.release {pc : Pc} (h : Inv s) (hpc : s'.pc=s.pc) (hmine : owned (s.pc t)=some w) (hquiet : Quiet pc)
    (hnone : s'.systemState.action=.none → s'.systemState.phase=.rest) : Inv (s'.goto t pc) := by
  obtain ⟨howned,htarget,hstarting⟩ := hquiet
  refine h.write hpc ?_ ?_ htarget ?_ hnone
  · intro u hu
    cases ho : owned (s.pc u) with
    | none => rfl
    | some v => exact absurd (h.unique u t v w ho hmine) hu
  · intro v hv
    rw [howned] at hv
    cases hv
  · intro a ha
    rw [hstarting] at ha
    cases ha

theorem quiet_afterSplit (l : Option Loop) : Quiet (afterSplit l) := by cases l <;> exact ⟨rfl,rfl,rfl⟩

theorem quiet_afterMove (r : Return) : Quiet (afterMove r) := by
  cases r with
  | loop l => exact ⟨rfl,rfl,rfl⟩
  | split l => exact quiet_afterSplit l

theorem quiet_afterRefusal (r : Return) : Quiet (afterRefusal r) := by cases r <;> exact ⟨rfl,rfl,rfl⟩

theorem quiet_afterPublish (a : Action) : Quiet (afterPublish a) := by cases a <;> exact ⟨rfl,rfl,rfl⟩

/-- The thread keeps its word to move. -/
theorem Inv.retarget {pc : Pc} (h : Inv s) (hsys : s'.systemState=s.systemState)
    (hpc : s'.pc=s.pc) (hw : w.phase ≠ .rest) (howned : owned pc=none)
    (htarget : PhaseInvariant.target pc=some w) (hstarting : PhaseInvariant.starting pc=none) :
    Inv (s'.goto t pc) := by
  refine h.keep hsys hpc ?_ ?_ ?_
  · intro v hv
    rw [howned] at hv
    cases hv
  · intro v hv
    rw [htarget] at hv
    cases hv
    exact hw
  · intro a ha
    rw [hstarting] at ha
    cases ha

/-- The loop's body asks for a move only outside the rest phase. -/
theorem Inv.work (h : Inv s) (hsys : s'.systemState=s.systemState) (hpc : s'.pc=s.pc) (l : Loop) {work : Work}
    (hrest : l.cur.phase=.rest → work=.skip) : Inv (s'.goto t (afterWork l work)) := by
  cases work with
  | skip => exact h.pass hsys hpc ⟨rfl,rfl,rfl⟩
  | split => exact h.pass hsys hpc ⟨rfl,rfl,rfl⟩
  | finish | moveOn =>
    refine h.retarget hsys hpc (w := l.cur) ?_ rfl rfl rfl
    intro hw
    cases hrest hw

/-- Ownership is kept by the steps of a call. -/
theorem Inv.callStep (h : Inv s) (hs : callStep s t ready (s.pc t)=some s') : Inv s' := by
  generalize hp : s.pc t=p at hs
  cases moves_of_callStep hs with
  | iterate final prev cur _ => refine h.work ?_ ?_ ⟨final,cur⟩ phaseWork_rest <;> rfl
  | leave l =>
    refine h.pass rfl rfl ?_
    split_ifs <;> exact ⟨rfl,rfl,rfl⟩
  | ack w r | scanPhase w idx r =>
    have hw := h.target t w (by rw [hp]; rfl)
    exact h.retarget rfl rfl hw rfl rfl rfl
  | refuse w idx entry r _ => exact h.pass rfl rfl (quiet_afterRefusal r)
  | scanOn w idx entry r _ =>
    have hw := h.target t w (by rw [hp]; rfl)
    unfold scanFrom
    split_ifs <;> exact h.retarget rfl rfl hw rfl rfl rfl
  | move w seen r next hnext hsys =>
    have hw := h.target t w (by rw [hp]; rfl)
    obtain ⟨hact,hne⟩ := getNextState_action hnext
    -- The word was not in the rest phase, so nobody owned it.
    refine h.write rfl ?_ ?_ rfl ?_ ?_
    · intro u _
      apply h.not_owned
      rw [hsys]
      exact fun hrest => absurd hrest hw
    · intro v hv
      obtain ⟨hrest,rfl⟩ := of_guard hv
      exact ⟨rfl,hrest,hact ▸ hne⟩
    · intro a ha
      cases ha
    · intro hn
      exact absurd (hact.symm.trans hn) hne
  | overtaken w seen r next hnext hsys | settle next r hrest => exact h.pass rfl rfl (quiet_afterMove r)
  | close next r hrest =>
    refine h.release rfl (w := next) ?_ (quiet_afterMove r) fun _ => rfl
    rw [hp]
    exact if_pos hrest
  | spin l _ => exact h
  | leaveSpin l _ => exact h.pass rfl rfl (quiet_afterSplit l)
  | split l => exact h.retarget rfl rfl (w := ⟨.growIndex,.growInProgress,(s.ctx t).version⟩) nofun rfl rfl rfl
  | startLoad a =>
    have ha := h.starting t a (by rw [hp]; rfl)
    refine h.keep rfl rfl nofun nofun ?_
    intro b hb
    cases hb
    exact ha
  | start a v hsys =>
    have ha := h.starting t a (by rw [hp]; rfl)
    -- Without an action in progress nobody owned the word.
    refine h.write rfl ?_ ?_ rfl ?_ (fun _ => rfl)
    · intro u _
      apply h.not_owned
      rw [hsys]
      exact fun _ => rfl
    · intro w hw
      cases hw
      exact ⟨rfl,rfl,ne_none_of_firstPhase ha⟩
    · intro b hb
      cases hb
      exact ha
  | reset a v idx =>
    have ha := h.starting t a (by rw [hp]; rfl)
    refine h.keep rfl rfl ?_ ?_ ?_
    · intro w hw
      rw [hp]
      split_ifs at hw <;> exact hw
    · intro w hw
      split_ifs at hw <;> cases hw
    · intro b hb
      split_ifs at hb <;> cases hb <;> exact ha
  | publish a v p hfirst =>
    have ha := h.starting t a (by rw [hp]; rfl)
    have hmine : owned (s.pc t)=some ⟨a,.rest,v⟩ := by
      rw [hp]
      rfl
    exact h.release rfl hmine (quiet_afterPublish a) fun hn => absurd hn (ne_none_of_firstPhase ha)
  | _ => exact h.pass rfl rfl ⟨rfl,rfl,rfl⟩

/-- Ownership is kept by the calls of the sessions. -/
theorem Inv.startCall {act : Act} (h : Inv s) (hs : startCall s t act=some s') : Inv s' := by
  cases starts_of_startCall hs with
  | stopSession => exact ⟨h.target,h.starting,h.owner,h.unique,h.none_rest⟩
  | heavyEnter =>
    refine h.pass rfl rfl ?_
    cases (s.ctx t).phase <;> exact ⟨rfl,rfl,rfl⟩
  | start a ha =>
    refine h.keep rfl rfl nofun nofun ?_
    intro b hb
    cases hb
    exact ha.2
  | _ => exact h.pass rfl rfl ⟨rfl,rfl,rfl⟩

theorem Inv.of_quiescent (h : Quiescent s) : Inv s := by
  obtain ⟨hnone,hrest,hidle,_⟩ := h
  refine ⟨?_,?_,?_,?_,fun _ => hrest⟩ <;> intro t <;> rw [hidle]
  · nofun
  · nofun
  · nofun
  · intro u v w hv
    cases hv

theorem Inv.step (h : Inv s) (hs : step s label=some s') : Inv s' := by
  rcases (step_cases hs).2 with ⟨ready,_,hc⟩ | ⟨_,hc⟩
  · exact h.callStep hc
  · exact h.startCall hc

/-- Ownership holds in all executions. -/
theorem reachable_inv {ok : Guard State Label} (hs : Reachable machine ok s) : Inv s :=
  hs.invariant (fun _ hi => .of_quiescent hi) (fun _ _ _ h _ hstep => h.step hstep)

end

end FishStore.PhaseInvariant
