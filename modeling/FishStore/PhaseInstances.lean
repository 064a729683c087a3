import FishStore.PhaseBarrier

/-!
# Moves of the word and the action they belong to

The word holds the action, the phase and the version, and most actions leave the
version as it is: two actions of the same kind pass through the same words. A
thread that has seen `FinishThreadPhase` return true and is delayed before its
swap may find the same word again during a later action. It cannot when no thread
is delayed with one of the words of an action that is about to start.
-/

namespace FishStore.PhaseInstances

open Runs Phases List PhaseInvariant PhaseBarrier

/-- The words of a checkpoint of the log that starts at version `v`. -/
def logWords (a : Action) (v : UInt32) : List SystemState :=
  [⟨a, .prepare, v⟩, ⟨a, .inProgress, v + 1⟩, ⟨a, .waitPending, v + 1⟩, ⟨a, .waitFlush, v + 1⟩,
    ⟨a, .persistenceCallback, v + 1⟩, ⟨a, .rest, v + 1⟩]

/-- The words that an action started at version `v` passes through. -/
def words : Action → UInt32 → List SystemState
  | .checkpointFull, v =>
    [⟨.checkpointFull, .rest, v⟩, ⟨.checkpointFull, .prepIndexChkpt, v⟩,
      ⟨.checkpointFull, .indexChkpt, v⟩] ++ logWords .checkpointFull v
  | .checkpointIndex, v =>
    [⟨.checkpointIndex, .rest, v⟩, ⟨.checkpointIndex, .prepIndexChkpt, v⟩,
      ⟨.checkpointIndex, .indexChkpt, v⟩]
  | .checkpointHybridLog, v => ⟨.checkpointHybridLog, .rest, v⟩ :: logWords .checkpointHybridLog v
  | .gc, v => [⟨.gc, .rest, v⟩, ⟨.gc, .gcIoPending, v⟩, ⟨.gc, .gcInProgress, v⟩]
  | .growIndex, v =>
    [⟨.growIndex, .rest, v⟩, ⟨.growIndex, .growPrepare, v⟩, ⟨.growIndex, .growInProgress, v⟩]
  | .parserShift, v => [⟨.parserShift, .rest, v⟩, ⟨.parserShift, .psPending, v⟩]
  | _, _ => []

/-- The word that the thread has started an action with and not yet published. -/
def startedWith : Pc → Option SystemState
  | .reset a version _ => some ⟨a, .rest, version⟩
  | .publish a version => some ⟨a, .rest, version⟩
  | _ => none

/-- The thread saw `FinishThreadPhase` return true during this action, or the word
that it is about to move is none of this action. -/
def SeenOk (s : State) (pc : Pc) : Prop :=
  ∀ w i, seenIn pc = some (w, i) → i = s.started ∨ w ∉ words s.origin.action s.origin.version

/-- The invariant of the actions. -/
structure Inv (s : State) : Prop where
  /-- The word is one of the latest action. -/
  word : s.systemState.action ≠ .none → s.systemState ∈ words s.origin.action s.origin.version
  /-- An action that is being started is the latest. -/
  starter : ∀ t w, startedWith (s.pc t) = some w → s.origin = w
  /-- Delayed threads hold no word of a later action. -/
  seen : ∀ t, SeenOk s (s.pc t)

section

variable {s s' : State} {t u : ℕ} {a : Action} {v : UInt32} {w next : SystemState} {pc : Pc}
  {ready : Bool} {label : Label}

/-- An action stays within its words. -/
theorem getNextState_mem (hw : w ∈ words a v) (hrest : w.phase ≠ .rest)
    (hnext : w.getNextState=some next) : next ∈ words a v := by
  cases a <;> simp only [words,logWords,cons_append,nil_append,mem_cons, not_mem_nil,or_false] at hw
  all_goals
    casesm* _ ∨ _ <;> subst w <;>
      first
      | exact absurd rfl hrest
      | (cases hnext
         simp only [words,logWords,cons_append,nil_append,mem_cons,true_or, or_true])

theorem firstPhase_mem {p : Phase} (h : a.firstPhase=some p) : ⟨a,p,v⟩ ∈ words a v := by
  cases a <;> cases h <;>
    simp only [words,logWords,cons_append,nil_append,mem_cons,true_or,or_true]

theorem rest_mem (h : a.firstPhase.isSome) : ⟨a,.rest,v⟩ ∈ words a v := by cases a <;> first | exact mem_cons_self | cases h

theorem owned_of_startedWith (h : startedWith pc=some w) : PhaseInvariant.owned pc=some w := by
  cases pc <;> first | exact h | cases h

/-- The thread moves on without starting an action. -/
theorem Inv.keep (h : Inv s) (hpc : s'.pc=s.pc) (horigin : s'.origin=s.origin)
    (hstarted : s'.started=s.started) (hword : s'.systemState.action ≠ .none →
      s'.systemState ∈ words s.origin.action s.origin.version)
    (hstarter : ∀ w, startedWith pc=some w → s.origin=w) (hseen : SeenOk s pc) : Inv (s'.goto t pc) := by
  have hback : ∀ pc, SeenOk s pc → SeenOk (s'.goto t pc) pc := by
    intro pc h w i hp
    change i=s'.started ∨ w ∉ words s'.origin.action s'.origin.version
    rw [hstarted,horigin]
    exact h w i hp
  refine ⟨?_,?_,?_⟩
  · change s'.systemState.action ≠ .none → s'.systemState ∈ words s'.origin.action s'.origin.version
    rw [horigin]
    exact hword
  · intro u w hw
    change s'.origin=w
    rw [horigin]
    by_cases hu : u=t
    · subst hu
      rw [goto_self] at hw
      exact hstarter w hw
    · rw [goto_of_ne hu,hpc] at hw
      exact h.starter u w hw
  · intro u
    by_cases hu : u=t
    · subst hu
      rw [goto_self]
      exact hback pc hseen
    · rw [goto_of_ne hu,hpc]
      exact hback _ (h.seen u)

/-- The thread is about neither to start an action nor to move the word. -/
theorem Inv.pass (h : Inv s) (hpc : s'.pc=s.pc) (horigin : s'.origin=s.origin)
    (hstarted : s'.started=s.started) (hsys : s'.systemState=s.systemState)
    (hstarter : startedWith pc=none) (hseen : seenIn pc=none) : Inv (s'.goto t pc) := by
  refine h.keep hpc horigin hstarted ?_ ?_ ?_
  · rw [hsys]
    exact h.word
  · intro w hw
    rw [hstarter] at hw
    cases hw
  · intro w i hp
    rw [hseen] at hp
    cases hp

/-- Where a thread goes after a move or a refusal it is idle for our purposes. -/
theorem quiet_afterSplit (l : Option Loop) : startedWith (afterSplit l)=none ∧ seenIn (afterSplit l)=none := by
  cases l <;> exact ⟨rfl,rfl⟩

theorem quiet_afterMove (r : Return) : startedWith (afterMove r)=none ∧ seenIn (afterMove r)=none := by
  cases r with
  | loop l => exact ⟨rfl,rfl⟩
  | split l => exact quiet_afterSplit l

theorem quiet_afterRefusal (r : Return) : startedWith (afterRefusal r)=none ∧ seenIn (afterRefusal r)=none := by
  cases r <;> exact ⟨rfl,rfl⟩

theorem quiet_afterPublish (a : Action) : startedWith (afterPublish a)=none ∧ seenIn (afterPublish a)=none := by
  cases a <;> exact ⟨rfl,rfl⟩

theorem quiet_afterWork (l : Loop) (work : Work) :
    startedWith (afterWork l work)=none ∧ seenIn (afterWork l work)=none := by
  cases work <;> exact ⟨rfl,rfl⟩

/-- The steps of a run in which, whenever an action starts, no session is still
about to move one of its words, having seen `FinishThreadPhase` return true. -/
def noneDelayed : Guard State Label := fun s label => ∀ a v,
  s.pc label.thread = .startSwap a v → s.systemState = ⟨.none, .rest, v⟩ →
    ∀ t w i, seenIn (s.pc t) = some (w, i) → w ∉ words a v

theorem Inv.callStep (h : Inv s) (ho : PhaseInvariant.Inv s)
    (hdelay : ∀ a v, s.pc t=.startSwap a v → s.systemState=⟨.none,.rest,v⟩ →
      ∀ u w i, seenIn (s.pc u)=some (w, i) → w ∉ words a v) (hs : callStep s t ready (s.pc t)=some s') : Inv s' := by
  generalize hp : s.pc t=p at hs
  cases moves_of_callStep hs with
  | iterate final prev cur =>
    obtain ⟨hstarter,hseen⟩ := quiet_afterWork ⟨final,cur⟩
      (phaseWork cur prev (decide (s.phaseFinished t=cur.phase)) ready (s.ctx t)).1
    exact h.pass rfl rfl rfl rfl hstarter hseen
  | leave =>
    split_ifs
    · exact h.pass rfl rfl rfl rfl rfl rfl
    · exact h.pass rfl rfl rfl rfl rfl rfl
  | refuse _ _ _ r =>
    obtain ⟨hstarter,hseen⟩ := quiet_afterRefusal r
    exact h.pass rfl rfl rfl rfl hstarter hseen
  | scanOn =>
    unfold scanFrom
    split_ifs
    · exact h.pass rfl rfl rfl rfl rfl rfl
    · -- The scan has ended: the action is the one that is seen.
      refine h.keep rfl rfl rfl h.word (by rintro _ ⟨⟩) fun w' i he => ?_
      cases he
      exact Or.inl rfl
  | move w _ _ _ hnext hsys =>
    have hrest := ho.target t w (by rw [hp]; rfl)
    obtain ⟨_,hne⟩ := getNextState_action hnext
    refine h.keep rfl rfl rfl (fun _ => ?_) (by rintro _ ⟨⟩) (by rintro _ _ ⟨⟩)
    rw [←hsys] at hne hrest hnext
    exact getNextState_mem (h.word hne) hrest hnext
  | overtaken w _ r _ hnext | settle _ r =>
    obtain ⟨hstarter,hseen⟩ := quiet_afterMove r
    exact h.pass rfl rfl rfl rfl hstarter hseen
  | close _ r =>
    obtain ⟨hstarter,hseen⟩ := quiet_afterMove r
    refine h.keep rfl rfl rfl (fun hne => absurd rfl hne) ?_ ?_
    · intro w hw
      rw [hstarter] at hw
      cases hw
    · intro w i he
      rw [hseen] at he
      cases he
  | spin => exact h
  | leaveSpin l =>
    obtain ⟨hstarter,hseen⟩ := quiet_afterSplit l
    exact h.pass rfl rfl rfl rfl hstarter hseen
  | start a v hsys =>
    have ha := ho.starting t a (by rw [hp]; rfl)
    have hfree := hdelay a v hp
    -- A new action: nobody is starting another, and no delayed thread holds its words.
    refine ⟨fun _ => rest_mem ha,?_,?_⟩
    · intro u w hw
      by_cases hu : u=t
      · subst hu
        rw [goto_self] at hw
        exact Option.some.inj hw
      · rw [goto_of_ne hu] at hw
        have hown : PhaseInvariant.owned (s.pc u)=none := ho.not_owned (by rw [hsys]; exact fun _ => rfl)
        cases hown.symm.trans (owned_of_startedWith hw)
    · intro u w i hu
      by_cases hut : u=t
      · subst hut
        rw [goto_self] at hu
        cases hu
      · rw [goto_of_ne hut] at hu
        exact Or.inr (hfree hsys u w i hu)
  | reset a v =>
    have hstart := h.starter t ⟨a,.rest,v⟩ (by rw [hp]; rfl)
    refine h.keep rfl rfl rfl h.word ?_ ?_
    · intro w hw
      rw [hstart]
      split_ifs at hw <;> exact Option.some.inj hw
    · intro w i he
      split_ifs at he <;> cases he
  | publish a v _ hfirst =>
    have hstart := h.starter t ⟨a,.rest,v⟩ (by rw [hp]; rfl)
    obtain ⟨hstarter,hseen⟩ := quiet_afterPublish a
    refine h.keep rfl rfl rfl ?_ ?_ ?_
    · intro _
      rw [hstart]
      exact firstPhase_mem hfirst
    · intro w hw
      rw [hstarter] at hw
      cases hw
    · intro w i he
      rw [hseen] at he
      cases he
  | _ => exact h.pass rfl rfl rfl rfl rfl rfl

theorem Inv.startCall {act : Act} (h : Inv s) (hs : startCall s t act=some s') : Inv s' := by
  cases starts_of_startCall hs with
  | stopSession => exact ⟨h.word,h.starter,h.seen⟩
  | heavyEnter => cases (s.ctx t).phase <;> exact h.pass rfl rfl rfl rfl rfl rfl
  | _ => exact h.pass rfl rfl rfl rfl rfl rfl

theorem Inv.of_quiescent (h : Quiescent s) : Inv s := by
  obtain ⟨hnone,_,hidle,_⟩ := h
  refine ⟨fun hne => absurd hnone hne,fun t w hw => ?_,fun t w i hp => ?_⟩
  · rw [hidle] at hw
    cases hw
  · rw [hidle] at hp
    cases hp

theorem reachable_inv (hs : Reachable machine noneDelayed s) : Inv s := by
  refine (hs.invariant (P := fun s => PhaseInvariant.Inv s ∧ Inv s) ?_ ?_).2
  · intro s hi
    exact ⟨.of_quiescent hi,.of_quiescent hi⟩
  · rintro s label s' ⟨ho,h⟩ hdelay hstep
    refine ⟨ho.step hstep,?_⟩
    rcases (step_cases hstep).2 with ⟨ready,_,hc⟩ | ⟨_,hc⟩
    · exact h.callStep ho hdelay hc
    · exact h.startCall hc

/-- In runs where no action starts while a session is still about to move one of
its words, a swap of `GlobalMoveToNextState` that succeeds belongs to the action
during which its thread saw `FinishThreadPhase` return true. -/
theorem globalMove_same_action (hs : Reachable machine noneDelayed s) :
    ∀ t w i, seenIn (s.pc t) = some (w, i) → s.systemState = w → i = s.started := by
  intro t w i hseen hw
  have ho := PhaseInvariant.reachable_inv hs
  have h := reachable_inv hs
  have hrest := ho.target t w (PhaseInvariant.target_of_seenIn hseen)
  have hne : s.systemState.action ≠ .none := by
    intro hnone
    rw [←hw] at hrest
    exact hrest (ho.none_rest hnone)
  rcases h.seen t w i hseen with hi | hnot
  · exact hi
  · exact absurd (hw ▸ h.word hne) hnot

/-- One action alone finds no thread delayed. -/
theorem reachable_noneDelayed (hs : Reachable machine PhaseBarrier.trackedAction s) : Reachable machine noneDelayed s := by
  refine (hs.strengthen (P := fun s => PhaseInvariant.Inv s ∧ PhaseBarrier.Inv s ∧ PhaseBarrier.Fresh s) ?_ ?_).1
  · intro s hi
    exact ⟨.of_quiescent hi,.of_quiescent hi,.of_quiescent hi⟩
  · rintro s label s' ⟨ho,h,hfresh⟩ ⟨hone,_⟩ hstep
    refine ⟨?_,ho.step hstep,h.step hfresh ho hone hstep⟩
    intro a v hp hsys u w i hseen
    have h0 := (hone.2.2 a v hp).resolve_right fun hne => hne hsys
    have hidle := (hfresh h0).2 u
    rw [PhaseBarrier.engaged_of_seenIn hseen] at hidle
    cases hidle

/-- The move after the scan of thread 1 belongs to the action that it started. -/
theorem globalMove_same_action_one : ∃ s i, Reachable machine noneDelayed s ∧
    seenIn (s.pc 1) = some (shifting, i) ∧ s.systemState = shifting ∧
    i = s.started := by
  obtain ⟨s,i,hs,hseen,hsys,_⟩ := PhaseBarrier.exists_shiftFinished
  have hs' := reachable_noneDelayed hs
  exact ⟨s,i,hs',hseen,hsys,globalMove_same_action hs' 1 _ i hseen hsys⟩

/-- Threads 1 and 2 take part in a shift of the parser; both find every entry
acknowledged, and thread 2 is delayed before its swap. Thread 1 ends the action
and starts the next shift. -/
def shiftTwice : List Label :=
  startAction 1 .parserShift ++ steps 1 10 ++
  (⟨2, .refresh⟩ :: steps 2 197) ++ (⟨1, .refresh⟩ :: steps 1 200) ++
  startAction 1 .parserShift

/-- The swap of thread 2, which saw the first shift finish, then ends the second
one, although thread 2 has not acknowledged it. -/
theorem globalMove_stale : ∃ s s', Reachable machine anyStep s ∧
    seenIn (s.pc 2) = some (shifting, 1) ∧ s.started = 2 ∧
    s.systemState = shifting ∧ s.isProtected 2 = true ∧ s.acked 2 .psPending = false ∧
    Phases.step s ⟨2, .step true⟩ = some s' ∧ s'.systemState.phase = .rest := by
  have hrun : (exec machine (sessions (fun u => u == 1 || u == 2)) shiftTwice).any
      (fun s => decide (seenIn (s.pc 2)=some (shifting, 1)) && decide (s.started=2) &&
        decide (s.systemState=shifting) && s.isProtected 2 && !s.acked 2 .psPending &&
        (Phases.step s ⟨2,.step true⟩).any fun s' => decide (s'.systemState.phase=.rest))=true := by
    decide +kernel
  obtain ⟨s,hr,hp⟩ := exists_run_of_exec hrun
  simp only [Bool.and_eq_true,Bool.not_eq_true',decide_eq_true_eq,Option.any_eq_true] at hp
  obtain ⟨⟨⟨⟨⟨hseen,hstarted⟩,hsys⟩,hprot⟩,hack⟩,s',hstep,hrest⟩ := hp
  exact ⟨s,s',⟨_,PhaseBarrier.sessions_quiescent _,hr⟩,hseen,hstarted,hsys,hprot,hack,hstep,
    hrest⟩

end

end FishStore.PhaseInstances
