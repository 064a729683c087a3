import FishStore.PhaseBarrier

/-!
# The walk of a session through the phases

`HandleSpecialPhases` takes a session from the phase and version that it remembers
to those of the system state, by the transitions of the action that is in progress.
If every action starts when all sessions are back in the rest phase with the current
version, then a session's phase and version always lie on the walk of the action, not
beyond the system state: the loop ends there, after a bounded number of its steps.
The end of an action leaves its last phase in the contexts of the sessions. A session
that does not refresh before another action starts asks for the successor of a phase
that the new action does not have.
-/

namespace FishStore.PhaseWalk

open Runs Phases List PhaseInvariant
open PhaseBarrier (engaged)
open Function (update update_eq_self update_of_ne update_self)

/-- The phases of an action, in the order in which it goes through them. -/
def phases : Action → List Phase
  | .checkpointFull => [.rest, .prepIndexChkpt, .indexChkpt, .prepare, .inProgress, .waitPending,
      .waitFlush, .persistenceCallback]
  | .checkpointIndex => [.rest, .prepIndexChkpt, .indexChkpt]
  | .checkpointHybridLog => [.rest, .prepare, .inProgress, .waitPending, .waitFlush, .persistenceCallback]
  | .gc => [.rest, .gcIoPending, .gcInProgress]
  | .growIndex => [.rest, .growPrepare, .growInProgress]
  | .parserShift => [.rest, .psPending]
  | _ => []

/-- The place of a phase in its actions. -/
def rank : Phase → ℕ
  | .prepIndexChkpt => 1
  | .indexChkpt => 2
  | .prepare => 3
  | .inProgress => 4
  | .waitPending => 5
  | .waitFlush => 6
  | .persistenceCallback => 7
  | .gcIoPending => 1
  | .gcInProgress => 2
  | .growPrepare => 1
  | .growInProgress => 2
  | .psPending => 1
  | _ => 0

/-- The version in a phase of an action that started with version `v`. -/
def versionIn (v : UInt32) (p : Phase) : UInt32 := if 4 ≤ rank p then v + 1 else v

/-- The word is one that the action passes through, started by the word `o`. -/
structure OnWalk (o w : SystemState) : Prop where
  action : w.action = o.action
  phase : w.phase ∈ phases o.action
  version : w.version = versionIn o.version w.phase

section

variable {o w w' : SystemState} {p q : Phase} {a : Action}

/-- A phase has one place in an action. -/
theorem rank_inj (hp : p ∈ phases a) (hq : q ∈ phases a) (h : rank p=rank q) : p=q := by
  cases a <;> simp only [phases,mem_cons,not_mem_nil,or_false] at hp hq <;>
    rcases hp with rfl | rfl | rfl | rfl | rfl | rfl | rfl | rfl <;>
    rcases hq with rfl | rfl | rfl | rfl | rfl | rfl | rfl | rfl <;> first | rfl | cases h

theorem OnWalk.eq_of_phase (h : OnWalk o w) (h' : OnWalk o w') (hp : w.phase=w'.phase) : w=w' := by
  obtain ⟨act,ph,v⟩ := w
  obtain ⟨act',ph',v'⟩ := w'
  obtain ⟨ha,-,hv⟩ := h
  obtain ⟨ha',-,hv'⟩ := h'
  cases hp
  cases ha.trans ha'.symm
  cases hv.trans hv'.symm
  rfl

/-- The transitions of an action stay on its walk until it ends. -/
theorem OnWalk.next (h : OnWalk o w) (hn : w.getNextState=some w') (hne : w'.phase ≠ .rest) :
    OnWalk o w' ∧ rank w.phase<rank w'.phase := by
  obtain ⟨act,start,v⟩ := o
  obtain ⟨act',ph,v'⟩ := w
  obtain ⟨ha,hph,hv⟩ := h
  dsimp only at ha hph hv
  subst ha hv
  cases act' <;> simp only [phases,mem_cons,not_mem_nil,or_false] at hph <;>
    rcases hph with rfl | rfl | rfl | rfl | rfl | rfl | rfl | rfl <;> cases hn <;>
    first
    | exact absurd rfl hne
    | exact ⟨⟨rfl,by simp [phases],rfl⟩,by simp [rank]⟩

/-- Every word of the walk has a successor. -/
theorem OnWalk.exists_next (h : OnWalk o w) : ∃ w', w.getNextState=some w' := by
  obtain ⟨act,start,v⟩ := o
  obtain ⟨act',ph,v'⟩ := w
  obtain ⟨ha,hph,hv⟩ := h
  dsimp only at ha hph hv
  subst ha hv
  cases act' <;> simp only [phases,mem_cons,not_mem_nil,or_false] at hph <;>
    rcases hph with rfl | rfl | rfl | rfl | rfl | rfl | rfl | rfl <;> exact ⟨_,rfl⟩

/-- From a phase before another one the walk goes on, not beyond that one. -/
theorem OnWalk.next_le (h : OnWalk o w) (hp : p ∈ phases o.action) (hlt : rank w.phase<rank p) :
    ∃ w', w.getNextState=some w' ∧ OnWalk o w' ∧ rank w.phase<rank w'.phase ∧ rank w'.phase≤rank p := by
  obtain ⟨act,start,v⟩ := o
  obtain ⟨act',ph,v'⟩ := w
  obtain ⟨ha,hph,hv⟩ := h
  dsimp only at ha hph hv
  subst ha hv
  cases act' <;> simp only [phases,mem_cons,not_mem_nil,or_false] at hph hp <;>
    rcases hph with rfl | rfl | rfl | rfl | rfl | rfl | rfl | rfl <;>
    rcases hp with rfl | rfl | rfl | rfl | rfl | rfl | rfl | rfl <;>
    first
    | (simp [rank] at hlt; done)
    | exact ⟨_,rfl,⟨rfl,by simp [phases],rfl⟩,by simp [rank],by simp [rank]⟩

end

/-- The system state has come to the phase of the word, unless the action is over. -/
def Passed (s : State) (p : Phase) : Prop :=
  s.systemState.phase ≠ .rest → rank p ≤ rank s.systemState.phase

/-- The session's context as a word of the latest action. -/
def wordOf (s : State) (c : Context) : SystemState := ⟨s.origin.action, c.phase, c.version⟩

/-- The session's context lies on the walk of the latest action. -/
structure CtxOk (s : State) (c : Context) : Prop where
  inPhase : s.started ≠ 0 → c.phase ≠ .rest → OnWalk s.origin (wordOf s c)
  during : s.systemState.phase ≠ .rest →
    OnWalk s.origin (wordOf s c) ∧ rank c.phase ≤ rank s.systemState.phase

/-- The words of the loop lie on the walk of the latest action. -/
structure LoopOk (s : State) (l : Loop) : Prop where
  started : s.started ≠ 0
  final : OnWalk s.origin l.final
  cur : OnWalk s.origin l.cur
  le : rank l.cur.phase ≤ rank l.final.phase
  ne_rest : l.final.phase ≠ .rest
  passed : Passed s l.final.phase

/-- What the caller of `FinishThreadPhase` has established. -/
def RetOk (s : State) (t : ℕ) : Return → Prop
  | .loop l => LoopOk s l
  | .split (some l) => LoopOk s l
  | .split none => CtxOk s (s.ctx t)

/-- The word that the thread acknowledges lies on the walk. -/
structure WordOk (s : State) (t : ℕ) (w : SystemState) (r : Return) : Prop where
  ret : RetOk s t r
  word : s.started ≠ 0 → OnWalk s.origin w
  passed : Passed s w.phase

/-- What a thread has established. -/
def PcWalk (s : State) (t : ℕ) : Pc → Prop
  | .idle => s.isProtected t = true → CtxOk s (s.ctx t)
  | .sessionLoad => s.isProtected t = false
  | .iterate final prev => LoopOk s ⟨final, prev⟩ ∧ s.ctx t = ⟨prev.phase, prev.version⟩
  | .leave l => LoopOk s l
  | .ack w r => WordOk s t w r
  | .scanPhase w _ r => WordOk s t w r
  | .scanEpoch w _ _ r => WordOk s t w r
  | .move w _ r => WordOk s t w r
  | .settle _ r => RetOk s t r
  | .split l => (s.started ≠ 0 → OnWalk s.origin ⟨.growIndex, .growInProgress, (s.ctx t).version⟩) ∧
      Passed s .growInProgress ∧ ∀ l', l = some l' → LoopOk s l'
  | .spin l => RetOk s t (.split l)
  | _ => CtxOk s (s.ctx t)

/-- The action that the thread is about to publish. -/
def opening : Pc → Option (Action × UInt32)
  | .reset a v _ => some (a, v)
  | .publish a v => some (a, v)
  | _ => none

/-- The thread belongs to a session, or to one that is joining. -/
def Live (s : State) (t : ℕ) : Prop :=
  s.isProtected t = true ∨ (s.pc t ≠ .idle ∧ s.pc t ≠ .sessionLoad)

/-- The walk's invariant. -/
structure WalkInv (s : State) : Prop where
  sys : s.systemState.phase ≠ .rest → s.started ≠ 0 ∧ OnWalk s.origin s.systemState
  pcs : ∀ t, PcWalk s t (s.pc t)
  /-- Until the first phase is published all sessions are in the rest phase. -/
  opened : ∀ t a v, opening (s.pc t) = some (a, v) → (s.started ≠ 0 ∧ s.origin = ⟨a, .rest, v⟩) ∧
    ∀ u, Live s u → s.ctx u = ⟨.rest, v⟩ ∧ (u ≠ t → engaged (s.pc u) = false)

/-- An action starts only when every session, and every one that is joining, is back in
the rest phase with the current version. -/
def startsFresh : Guard State Label := fun s label => ∀ a v,
  s.pc label.thread = .startSwap a v → s.systemState = ⟨.none, .rest, v⟩ →
    ∀ u, Live s u → s.ctx u = ⟨.rest, v⟩ ∧ engaged (s.pc u) = false

section

variable {s s' : State} {t u : ℕ} {pc p : Pc} {ready : Bool} {label : Label} {r : Return} {l : Loop}
  {w : SystemState}

/-- What the other threads rely on: the same action, and the system state goes on. -/
structure Onward (s s' : State) : Prop where
  started : s'.started = s.started
  origin : s'.origin = s.origin
  sys : s'.systemState.phase ≠ .rest →
    s.systemState.phase ≠ .rest ∧ rank s.systemState.phase ≤ rank s'.systemState.phase

theorem Onward.same (hn : s'.started=s.started) (ho : s'.origin=s.origin)
    (hs : s'.systemState=s.systemState) : Onward s s' := by
  refine ⟨hn,ho,?_⟩
  rw [hs]
  exact fun h => ⟨h,le_rfl⟩

theorem Passed.mono {p : Phase} (h : Passed s p) (ho : Onward s s') : Passed s' p := by
  intro hne
  obtain ⟨hne',hle⟩ := ho.sys hne
  exact (h hne').trans hle

theorem CtxOk.mono {c : Context} (h : CtxOk s c) (ho : Onward s s') : CtxOk s' c := by
  refine ⟨?_,?_⟩
  · unfold wordOf
    rw [ho.origin,ho.started]
    exact h.inPhase
  · intro hne
    obtain ⟨hne',hle⟩ := ho.sys hne
    obtain ⟨hw,hr⟩ := h.during hne'
    unfold wordOf
    rw [ho.origin]
    exact ⟨hw,hr.trans hle⟩

theorem LoopOk.mono (h : LoopOk s l) (ho : Onward s s') : LoopOk s' l := by
  refine ⟨?_,?_,?_,h.le,h.ne_rest,h.passed.mono ho⟩
  · rw [ho.started]
    exact h.started
  · rw [ho.origin]
    exact h.final
  · rw [ho.origin]
    exact h.cur

theorem RetOk.mono (h : RetOk s t r) (ho : Onward s s') (hctx : s'.ctx t=s.ctx t) : RetOk s' t r := by
  rcases r with l | ⟨_ | l⟩
  · exact LoopOk.mono h ho
  · unfold RetOk
    rw [hctx]
    exact CtxOk.mono h ho
  · exact LoopOk.mono h ho

theorem WordOk.mono (h : WordOk s t w r) (ho : Onward s s') (hctx : s'.ctx t=s.ctx t) : WordOk s' t w r := by
  refine ⟨h.ret.mono ho hctx,?_,h.passed.mono ho⟩
  rw [ho.origin,ho.started]
  exact h.word

/-- What a thread has established stays. -/
theorem PcWalk.mono (h : PcWalk s t pc) (ho : Onward s s') (hctx : s'.ctx t=s.ctx t)
    (hprot : s'.isProtected t=s.isProtected t) : PcWalk s' t pc := by
  cases pc with
  | idle =>
    intro hp
    rw [hprot] at hp
    rw [hctx]
    exact (h hp).mono ho
  | sessionLoad => exact hprot.trans h
  | iterate final prev => exact ⟨h.1.mono ho,hctx.trans h.2⟩
  | leave l => exact LoopOk.mono h ho
  | ack w r | scanPhase w idx r | scanEpoch w idx entry r | move w seen r => exact WordOk.mono h ho hctx
  | settle next r | spin l => exact RetOk.mono h ho hctx
  | split l =>
    obtain ⟨hw,hp,hl⟩ := h
    refine ⟨?_,hp.mono ho,fun l' hl' => (hl l' hl').mono ho⟩
    rw [ho.origin,ho.started,hctx]
    exact hw
  | _ =>
    unfold PcWalk
    rw [hctx]
    exact CtxOk.mono h ho

theorem live_of_pc (hp : s.pc t=p) (hne : p ≠ .idle ∧ p ≠ .sessionLoad) : Live s t := by
  refine .inr ?_
  rw [hp]
  exact hne

theorem live_of_engaged (h : engaged (s.pc t)=true) : Live s t := by
  refine .inr ⟨?_,?_⟩ <;> intro hp <;> rw [hp] at h <;> cases h

theorem engaged_of_opening {a : Action} {v : UInt32} (h : opening pc=some (a, v)) : engaged pc=true := by
  cases pc <;> first | rfl | cases h

theorem live_of_opening {a : Action} {v : UInt32} (h : opening (s.pc t)=some (a, v)) : Live s t :=
  live_of_engaged (engaged_of_opening h)

/-- The steps of one thread that leave the action. -/
theorem WalkInv.advance (h : WalkInv s) (pc : Pc) (hpc : s'.pc=update s.pc t pc) (ho : Onward s s')
    (hsys : s'.systemState.phase ≠ .rest → s'.started ≠ 0 ∧ OnWalk s'.origin s'.systemState)
    (hctx : ∀ u, u ≠ t → s'.ctx u=s.ctx u) (hprot : ∀ u, u ≠ t → s'.isProtected u=s.isProtected u)
    (hok : PcWalk s' t pc) (hopen : ∀ a v, opening pc=some (a, v) → opening (s.pc t)=some (a, v) ∧ s'.ctx t=s.ctx t)
    (hwin : ∀ u a v, u ≠ t → opening (s.pc u)=some (a, v) → Live s' t →
      s'.ctx t=⟨.rest,v⟩ ∧ engaged pc=false) : WalkInv s' := by
  have hself : s'.pc t=pc := by
    rw [hpc]
    exact update_self _ _ _
  have hother : ∀ u, u ≠ t → s'.pc u=s.pc u := by
    intro u hu
    rw [hpc]
    exact update_of_ne hu _ _
  have hlive : ∀ u, u ≠ t → Live s' u → Live s u := by
    intro u hu hl
    unfold Live at hl
    rw [hother u hu,hprot u hu] at hl
    exact hl
  refine ⟨hsys,?_,?_⟩
  · intro u
    by_cases hu : u=t
    · rw [hu,hself]
      exact hok
    · rw [hother u hu]
      exact (h.pcs u).mono ho (hctx u hu) (hprot u hu)
  · intro u a v hop
    rw [ho.origin,ho.started]
    by_cases hu : u=t
    · -- The thread that opens the action moves on.
      rw [hu,hself] at hop
      obtain ⟨hop',hsame⟩ := hopen a v hop
      obtain ⟨horigin,hall⟩ := h.opened t a v hop'
      refine ⟨horigin,fun x hx => ?_⟩
      by_cases hxt : x=t
      · rw [hxt,hsame,hu]
        exact ⟨(hall t (live_of_opening hop')).1,fun hne => absurd rfl hne⟩
      · rw [hctx x hxt,hother x hxt,hu]
        exact hall x (hlive x hxt hx)
    · rw [hother u hu] at hop
      obtain ⟨horigin,hall⟩ := h.opened u a v hop
      refine ⟨horigin,fun x hx => ?_⟩
      by_cases hxt : x=t
      · rw [hxt] at hx ⊢
        rw [hself]
        obtain ⟨hc,hen⟩ := hwin u a v hu hop hx
        exact ⟨hc,fun _ => hen⟩
      · rw [hctx x hxt,hother x hxt]
        exact hall x (hlive x hxt hx)

/-- While an action is opened no other thread works on one. -/
theorem WalkInv.not_opening (h : WalkInv s) (hen : engaged (s.pc t)=true) (hu : u ≠ t) {a : Action}
    {v : UInt32} : opening (s.pc u) ≠ some (a, v) := by
  intro hop
  have hoff := ((h.opened u a v hop).2 t (live_of_engaged hen)).2 hu.symm
  rw [hen] at hoff
  cases hoff

/-- A step that leaves the action, of a thread that is not about to open one. -/
theorem WalkInv.move (h : WalkInv s) (hpc : s'.pc=s.pc) (hsys : s'.systemState=s.systemState)
    (hstarted : s'.started=s.started) (horigin : s'.origin=s.origin) (hctx : ∀ u, u ≠ t → s'.ctx u=s.ctx u)
    (hprot : ∀ u, u ≠ t → s'.isProtected u=s.isProtected u) (hclosed : opening pc=none) (hok : PcWalk s' t pc)
    (hwin : ∀ u a v, u ≠ t → opening (s.pc u)=some (a, v) → s'.ctx t=⟨.rest,v⟩ ∧ engaged pc=false) :
    WalkInv (s'.goto t pc) := by
  refine h.advance (t := t) pc ?_ (.same hstarted horigin hsys) ?_ hctx hprot ?_ ?_ fun u a v hu hop _ => hwin u a v hu hop
  · rw [←hpc]
    rfl
  · change s'.systemState.phase ≠ .rest → s'.started ≠ 0 ∧ OnWalk s'.origin s'.systemState
    rw [hsys,horigin,hstarted]
    exact h.sys
  · exact hok.mono (.same rfl rfl rfl) rfl rfl
  · intro a v hop
    rw [hclosed] at hop
    cases hop

/-- A step of a thread that works on the action and does not write the word. -/
theorem WalkInv.work (h : WalkInv s) (hp : s.pc t=p) (hen : engaged p=true)
    (hpc : s'.pc=s.pc) (hsys : s'.systemState=s.systemState) (hstarted : s'.started=s.started)
    (horigin : s'.origin=s.origin) (hctx : ∀ u, u ≠ t → s'.ctx u=s.ctx u) (hprot : s'.isProtected=s.isProtected)
    (hclosed : opening pc=none) (hok : PcWalk s' t pc) : WalkInv (s'.goto t pc) := by
  rw [←hp] at hen
  refine h.move hpc hsys hstarted horigin hctx (fun u _ => congrFun hprot u) hclosed hok ?_
  exact fun u a v hu hop => absurd hop (h.not_opening hen hu)

/-- A step of a session outside the action. -/
theorem WalkInv.pass (h : WalkInv s) (hlive : Live s t) (hpc : s'.pc=s.pc) (hsys : s'.systemState=s.systemState)
    (hstarted : s'.started=s.started) (horigin : s'.origin=s.origin) (hctx : s'.ctx=s.ctx)
    (hprot : ∀ u, u ≠ t → s'.isProtected u=s.isProtected u) (hclosed : opening pc=none) (hidle : engaged pc=false)
    (hok : PcWalk s' t pc) : WalkInv (s'.goto t pc) := by
  refine h.move hpc hsys hstarted horigin (fun u _ => congrFun hctx u) hprot hclosed hok fun u a v hu hop => ⟨?_,hidle⟩
  rw [hctx]
  exact ((h.opened u a v hop).2 t hlive).1

/-- The word of the system while an action is opened. -/
theorem opened_word (ho : Inv s) {a : Action} {v : UInt32}
    (hop : opening (s.pc u)=some (a, v)) : s.systemState=⟨a,.rest,v⟩ := by
  cases hp : s.pc u with
  | reset a' v' idx | publish a' v' =>
    rw [hp] at hop
    cases hop
    refine (ho.owner u ⟨a,.rest,v⟩ ?_).1
    rw [hp]
    rfl
  | _ =>
    rw [hp] at hop
    cases hop

theorem CtxOk.of_rest {c : Context} (hc : c.phase=.rest) (hs : s.systemState.phase=.rest) :
    CtxOk s c := ⟨fun _ hne => absurd hc hne,fun hne => absurd hs hne⟩

/-- A session takes the version from the system state, which is in the rest phase. -/
theorem WalkInv.reload (h : WalkInv s) (ho : Inv s)
    (hclosed : opening pc=none) (hidle : engaged pc=false)
    (hok : PcWalk (s.setCtx t ⟨.rest,s.systemState.version⟩) t pc) :
    WalkInv ((s.setCtx t ⟨.rest,s.systemState.version⟩).goto t pc) := by
  refine h.move rfl rfl rfl rfl (fun u hu => update_of_ne hu _ _) (fun _ _ => rfl) hclosed hok fun u a v hu hop => ⟨?_,hidle⟩
  change update s.ctx t _ t=_
  rw [update_self,opened_word ho hop]

theorem growInProgress_action {o : SystemState} {v : UInt32} {a : Action}
    (h : OnWalk o ⟨a,.growInProgress,v⟩) : o.action=.growIndex := by
  have hmem := h.phase
  cases ha : o.action <;> rw [ha] at hmem <;> simp [phases] at hmem

/-- In an action that grows the index the version does not change. -/
theorem grow_version {o w : SystemState} (h : OnWalk o w) (ha : o.action=.growIndex) : w.version=o.version := by
  have hmem := h.phase
  have hv := h.version
  rw [ha] at hmem
  simp only [phases,mem_cons,not_mem_nil,or_false] at hmem
  rcases hmem with hp | hp | hp <;> rw [hp] at hv <;> exact hv

theorem onWalk_growInProgress {o : SystemState} (ha : o.action=.growIndex) :
    OnWalk o ⟨.growIndex,.growInProgress,o.version⟩ := by
  refine ⟨ha.symm,?_,rfl⟩
  rw [ha]
  exact .tail _ (.tail _ (.head _))

theorem onWalk_rest {o : SystemState} (h : OnWalk o w) : OnWalk o ⟨o.action,.rest,o.version⟩ := by
  refine ⟨rfl,?_,rfl⟩
  have hmem := h.phase
  cases ha : o.action <;> rw [ha] at hmem <;> first | (simp [phases]; done) | simp [phases] at hmem

/-- A session comes to `HeavyEnter`. -/
theorem WalkInv.heavyEnter (h : WalkInv s) (hp : s.pc t=.idle) (hprot : s.isProtected t=true) :
    WalkInv (s.goto t (heavyEnter (s.ctx t).phase)) := by
  have hc : CtxOk s (s.ctx t) := by
    have hok := h.pcs t
    rw [hp] at hok
    exact hok hprot
  by_cases hgrow : (s.ctx t).phase=.growInProgress
  · have hw : s.started ≠ 0 → OnWalk s.origin ⟨s.origin.action,.growInProgress,(s.ctx t).version⟩ := by
      rw [←hgrow]
      refine fun hn => hc.inPhase hn ?_
      rw [hgrow]
      nofun
    rw [hgrow]
    refine h.advance (t := t) (.split none) rfl (.same rfl rfl rfl) h.sys (fun _ _ => rfl) (fun _ _ => rfl) ⟨?_,?_,?_⟩ ?_ ?_
    · intro hn
      have hon := hw hn
      rw [growInProgress_action hon] at hon
      exact hon
    · intro hne
      have hle := (hc.during hne).2
      rw [hgrow] at hle
      exact hle
    · intro l' hl'
      cases hl'
    · intro a v hop
      cases hop
    · intro u a v hu hop _
      have hrest := ((h.opened u a v hop).2 t (.inl hprot)).1
      rw [hrest] at hgrow
      cases hgrow
  · by_cases hprep : (s.ctx t).phase=.growPrepare
    · rw [hprep]
      change WalkInv (s.goto t .refresh)
      exact h.pass (.inl hprot) rfl rfl rfl rfl rfl (fun _ _ => rfl) rfl rfl hc
    · have hidle : Phases.heavyEnter (s.ctx t).phase=.idle := by
        cases hph : (s.ctx t).phase <;> first | rfl | exact absurd hph hgrow | exact absurd hph hprep
      rw [hidle]
      exact h.pass (.inl hprot) rfl rfl rfl rfl rfl (fun _ _ => rfl) rfl rfl fun _ => hc

/-- The calls of the sessions keep the invariant. -/
theorem WalkInv.startCall {act : Act} (h : WalkInv s) (hp : s.pc t=.idle)
    (hs : startCall s t act=some s') : WalkInv s' := by
  have hok := h.pcs t
  rw [hp] at hok
  cases starts_of_startCall hs with
  | startSession hprot =>
    refine h.advance (t := t) .sessionLoad rfl (.same rfl rfl rfl) h.sys (fun _ _ => rfl) (fun _ _ => rfl) hprot nofun ?_
    rintro u a v - - (hl | ⟨-,hl⟩)
    · have hl' : s.isProtected t=true := hl
      rw [hprot] at hl'
      cases hl'
    · rw [goto_self] at hl
      exact absurd rfl hl
  | stopSession =>
    have hoff : (s.protect t false).isProtected t=false := update_self _ _ _
    refine h.advance (t := t) .idle ?_ (.same rfl rfl rfl) h.sys (fun _ _ => rfl) ?_ ?_ nofun ?_
    · change s.pc=_
      rw [←hp,update_eq_self]
    · exact fun u hu => update_of_ne hu _ _
    · intro hon
      rw [hoff] at hon
      cases hon
    · rintro u a v - - (hl | ⟨hl,-⟩)
      · rw [hoff] at hl
        cases hl
      · exact absurd hp hl
  | refresh hprot => exact h.pass (.inl hprot) rfl rfl rfl rfl rfl (fun _ _ => rfl) rfl rfl (hok hprot)
  | heavyEnter hprot => exact h.heavyEnter hp hprot
  | start a hon =>
    obtain ⟨hprot,-⟩ := hon
    exact h.pass (.inl hprot) rfl rfl rfl rfl rfl (fun _ _ => rfl) rfl rfl (hok hprot)

theorem pcWalk_afterSplit {l : Option Loop} (h : RetOk s t (.split l)) : PcWalk s t (afterSplit l) := by
  cases l with
  | none => exact fun _ => h
  | some l => exact h

theorem pcWalk_afterMove (h : RetOk s t r) : PcWalk s t (afterMove r) := by
  cases r with
  | loop l => exact h
  | split l => exact pcWalk_afterSplit h

theorem pcWalk_afterRefusal (h : RetOk s t r) : PcWalk s t (afterRefusal r) := by cases r <;> exact h

theorem opening_afterSplit (l : Option Loop) : opening (afterSplit l)=none := by cases l <;> rfl

theorem opening_afterMove (r : Return) : opening (afterMove r)=none := by
  cases r with
  | loop l => rfl
  | split l => exact opening_afterSplit l

theorem opening_afterRefusal (r : Return) : opening (afterRefusal r)=none := by cases r <;> rfl

/-- The loop's next word is defined and lies on the walk, up to the final word. -/
theorem LoopOk.step {final prev : SystemState} (h : LoopOk s ⟨final,prev⟩) :
    ∃ cur, (if prev=final then some final else prev.getNextState)=some cur ∧
      LoopOk s ⟨final,cur⟩ ∧ (prev ≠ final → rank prev.phase<rank cur.phase) := by
  by_cases heq : prev=final
  · rw [if_pos heq]
    exact ⟨final,rfl,⟨h.started,h.final,h.final,le_rfl,h.ne_rest,h.passed⟩,fun hne => absurd heq hne⟩
  · rw [if_neg heq]
    have hlt : rank prev.phase<rank final.phase := by
      refine lt_of_le_of_ne h.le fun hr => heq ?_
      exact h.cur.eq_of_phase h.final (rank_inj h.cur.phase h.final.phase hr)
    obtain ⟨cur,hnext,hon,hup,hle⟩ := h.cur.next_le h.final.phase hlt
    exact ⟨cur,hnext,⟨h.started,h.final,hon,hle,h.ne_rest,h.passed⟩,fun _ => hup⟩

/-- The buckets are split in one phase only, and the context stays as it was. -/
theorem phaseWork_split {cur prev : SystemState} {has : Bool} {ctx : Context}
    (h : (phaseWork cur prev has ready ctx).1=.split) :
    cur.action=.growIndex ∧ cur.phase=.growInProgress ∧ (phaseWork cur prev has ready ctx).2=ctx := by
  obtain ⟨act,ph,v⟩ := cur
  cases act <;> cases ph <;> simp only [phaseWork] at h <;> first
    | exact ⟨rfl,rfl,rfl⟩
    | split_ifs at h
    | cases h

/-- The body of the loop: what it is about to do concerns a word of the walk. -/
theorem pcWalk_afterWork {final prev cur : SystemState} (h : LoopOk s ⟨final,prev⟩)
    (hcur : LoopOk s ⟨final,cur⟩) (hctx : s.ctx t=⟨prev.phase,prev.version⟩) (has : Bool) :
    PcWalk (s.setCtx t (phaseWork cur prev has ready (s.ctx t)).2) t
      (afterWork ⟨final,cur⟩ (phaseWork cur prev has ready (s.ctx t)).1) := by
  have ho : Onward s (s.setCtx t (phaseWork cur prev has ready (s.ctx t)).2) := .same rfl rfl rfl
  have hpassed : Passed s cur.phase := fun hne => hcur.le.trans (hcur.passed hne)
  cases hw : (phaseWork cur prev has ready (s.ctx t)).1 with
  | skip => exact hcur.mono ho
  | finish | moveOn => exact ⟨hcur.mono ho,fun _ => hcur.cur,hpassed.mono ho⟩
  | split =>
    obtain ⟨hact,hph,hsame⟩ := phaseWork_split hw
    have hgrow : s.origin.action=.growIndex := hcur.cur.action.symm.trans hact
    have hver : (s.ctx t).version=s.origin.version := by
      rw [hctx]
      exact grow_version h.cur hgrow
    refine ⟨?_,?_,?_⟩
    · have hset : (s.setCtx t (phaseWork cur prev has ready (s.ctx t)).2).ctx t=s.ctx t := by
        rw [hsame]
        exact update_self _ _ _
      rw [hset,hver]
      exact fun _ => onWalk_growInProgress hgrow
    · rw [hph] at hpassed
      exact hpassed.mono ho
    · intro l' hl'
      cases hl'
      exact hcur.mono ho

theorem opening_afterWork (l : Loop) (work : Work) : opening (afterWork l work)=none := by cases work <;> rfl

theorem opening_scanFrom (s : State) (w : SystemState) (idx : ℕ) (r : Return) :
    opening (scanFrom s w idx r)=none := by
  unfold scanFrom
  split_ifs <;> rfl

/-- A thread outside the action has established what its context says. -/
theorem PcWalk.outside (h : PcWalk s u (s.pc u)) (hctx : Live s u → CtxOk s' (s'.ctx u))
    (hoff : Live s u → engaged (s.pc u)=false) (hprot : s'.isProtected u=s.isProtected u) : PcWalk s' u (s.pc u) := by
  have hen : engaged (s.pc u) ≠ true := by
    intro hen
    rw [hoff (live_of_engaged hen)] at hen
    cases hen
  cases hp : s.pc u with
  | idle => exact fun hon => hctx (.inl (hprot ▸ hon))
  | sessionLoad =>
    rw [hp] at h
    exact hprot.trans h
  | refresh | refreshLoad | handleLoad | startLoad a | startSwap a v => exact hctx (live_of_pc hp ⟨nofun,nofun⟩)
  | _ => exact absurd (by rw [hp]; rfl) hen

/-- An action starts when every session is back in the rest phase. -/
theorem WalkInv.start (h : WalkInv s) {a : Action} {v : UInt32} (hp : s.pc t=.startSwap a v)
    (hfresh : ∀ u, Live s u → s.ctx u=⟨.rest,v⟩ ∧ engaged (s.pc u)=false) :
    WalkInv ((s.start a v).goto t (.reset a v 1)) := by
  have hctx : ∀ u, Live s u → CtxOk (s.start a v) ((s.start a v).ctx u) := by
    intro u hu
    refine .of_rest ?_ rfl
    change (s.ctx u).phase=.rest
    rw [(hfresh u hu).1]
  have hlt : Live s t := by refine .inr ⟨?_,?_⟩ <;> rw [hp] <;> nofun
  refine ⟨fun hne => absurd rfl hne,?_,?_⟩
  · intro u
    by_cases hu : u=t
    · rw [hu,goto_self]
      exact (hctx t hlt).mono (.same rfl rfl rfl)
    · rw [goto_of_ne hu]
      exact (h.pcs u).outside (fun hl => (hctx u hl).mono (.same rfl rfl rfl)) (fun hl => (hfresh u hl).2) rfl
  · intro u a' v' hop
    by_cases hu : u=t
    · rw [hu,goto_self] at hop
      cases hop
      refine ⟨⟨Nat.succ_ne_zero _,rfl⟩,fun x hx => ?_⟩
      by_cases hxt : x=t
      · rw [hxt]
        exact ⟨(hfresh t hlt).1,fun hne => absurd hu.symm hne⟩
      · have hlx : Live s x := by
          unfold Live at hx
          rw [goto_of_ne hxt] at hx
          exact hx
        rw [goto_of_ne hxt]
        exact ⟨(hfresh x hlx).1,fun _ => (hfresh x hlx).2⟩
    · rw [goto_of_ne hu] at hop
      have hpu : opening (s.pc u)=some (a', v') := hop
      have hfalse := (hfresh u (live_of_opening hpu)).2
      rw [engaged_of_opening hpu] at hfalse
      cases hfalse

/-- The first phase of an action is published. -/
theorem WalkInv.publish (h : WalkInv s) {a : Action} {v : UInt32} {p : Phase}
    (hp : s.pc t=.publish a v) (hfirst : a.firstPhase=some p) :
    WalkInv ({ s with systemState := ⟨a,p,v⟩ }.goto t (afterPublish a)) := by
  have hop : opening (s.pc t)=some (a, v) := by
    rw [hp]
    rfl
  obtain ⟨⟨hstarted,horigin⟩,hall⟩ := h.opened t a v hop
  have hsys : OnWalk s.origin ⟨a,p,v⟩ := by
    rw [horigin]
    cases a <;> cases hfirst <;> exact ⟨rfl,by simp [phases],rfl⟩
  have hctx : ∀ u, Live s u → CtxOk { s with systemState := ⟨a,p,v⟩ } (s.ctx u) := by
    intro u hu
    rw [(hall u hu).1]
    refine ⟨fun _ hne => absurd rfl hne,fun _ => ⟨?_,Nat.zero_le _⟩⟩
    have hrest := onWalk_rest hsys
    rw [horigin] at hrest
    unfold wordOf
    change OnWalk s.origin ⟨s.origin.action,.rest,v⟩
    rw [horigin]
    exact hrest
  have hother : ∀ u, u ≠ t → Live s u → engaged (s.pc u)=false := fun u hu hl => (hall u hl).2 hu
  refine ⟨fun _ => ⟨hstarted,hsys⟩,?_,?_⟩
  · intro u
    by_cases hu : u=t
    · rw [hu,goto_self]
      have hc := hctx t (live_of_opening hop)
      cases a <;> cases hfirst <;> first
        | exact hc.mono (.same rfl rfl rfl)
        | exact fun _ => hc.mono (.same rfl rfl rfl)
    · rw [goto_of_ne hu]
      exact (h.pcs u).outside (fun hl => (hctx u hl).mono (.same rfl rfl rfl)) (hother u hu) rfl
  · intro u a' v' hop'
    by_cases hu : u=t
    · rw [hu,goto_self] at hop'
      cases a <;> cases hop'
    · rw [goto_of_ne hu] at hop'
      have hpu : opening (s.pc u)=some (a', v') := hop'
      have hfalse := hother u hu (live_of_opening hpu)
      rw [engaged_of_opening hpu] at hfalse
      cases hfalse

/-- The steps of a call keep the invariant. -/
theorem WalkInv.callStep (h : WalkInv s) (ho : Inv s)
    (hguard : ∀ a v, s.pc t=.startSwap a v → s.systemState=⟨.none,.rest,v⟩ →
      ∀ u, Live s u → s.ctx u=⟨.rest,v⟩ ∧ engaged (s.pc u)=false)
    (hs : callStep s t ready (s.pc t)=some s') : WalkInv s' := by
  have hok := h.pcs t
  have hset : ∀ c u, u ≠ t → (s.setCtx t c).ctx u=s.ctx u := fun c u hu => update_of_ne hu _ _
  generalize hp : s.pc t=p at hs hok
  cases moves_of_callStep hs with
  | join hrest => exact h.reload ho rfl rfl (.of_rest (by rw [show (s.setCtx t _).ctx t=_ from update_self _ _ _]) hrest)
  | reject hrest =>
    have hoff : s.isProtected t=false := hok
    refine h.advance (t := t) .idle rfl (.same rfl rfl rfl) h.sys (fun _ _ => rfl) (fun _ _ => rfl) ?_ (by rintro _ _ ⟨⟩) ?_
    · intro hon
      rw [show (s.goto t .idle).isProtected t=s.isProtected t from rfl,hoff] at hon
      cases hon
    · intro u a v _ hop _
      rw [opened_word ho hop] at hrest
      exact absurd rfl hrest
  | refresh =>
    refine h.pass (live_of_pc hp ⟨(by rintro ⟨⟩),(by rintro ⟨⟩)⟩) rfl rfl rfl rfl rfl ?_ rfl rfl
      (CtxOk.mono hok (.same rfl rfl rfl))
    exact fun u hu => update_of_ne hu _ _
  | special | startLoad =>
    exact h.pass (live_of_pc hp ⟨(by rintro ⟨⟩),(by rintro ⟨⟩)⟩) rfl rfl rfl rfl rfl (fun _ _ => rfl) rfl rfl hok
  | reload hrest =>
    exact h.reload ho rfl rfl fun _ => .of_rest (by rw [show (s.setCtx t _).ctx t=_ from update_self _ _ _]) hrest
  | enter hrest =>
    obtain ⟨hw,hle⟩ := CtxOk.during hok hrest
    obtain ⟨hn,hsys⟩ := h.sys hrest
    refine h.advance (t := t) (.iterate s.systemState
      ⟨s.systemState.action,(s.ctx t).phase,(s.ctx t).version⟩) rfl (.same rfl rfl rfl) h.sys
      (fun _ _ => rfl) (fun _ _ => rfl) ⟨⟨hn,hsys,?_,hle,hrest,fun _ => le_rfl⟩,rfl⟩ ?_ ?_
    · rw [hsys.action]
      exact hw
    · intro a v hop
      cases hop
    · intro u a v _ hop _
      rw [opened_word ho hop] at hrest
      exact absurd rfl hrest
  | iterate _ _ _ hcur =>
    obtain ⟨hl,hctx⟩ := hok
    obtain ⟨cur',hcur',hl',-⟩ := hl.step
    cases hcur.symm.trans hcur'
    exact h.work hp rfl rfl rfl rfl rfl (hset _) rfl (opening_afterWork _ _) (pcWalk_afterWork hl hl' hctx _)
  | leave l =>
    have hcl : LoopOk s l := hok
    have hself : (s.setCtx t ⟨l.cur.phase,l.cur.version⟩).ctx t=⟨l.cur.phase,l.cur.version⟩ := update_self _ _ _
    refine h.work hp rfl rfl rfl rfl rfl (hset _) rfl ?_ ?_
    · split_ifs <;> rfl
    · split_ifs
      · intro _
        have hword : OnWalk s.origin ⟨s.origin.action,l.cur.phase,l.cur.version⟩ := by
          rw [←hcl.cur.action]
          exact hcl.cur
        rw [hself]
        exact ⟨fun _ _ => hword,fun hne => ⟨hword,hcl.le.trans (hcl.passed hne)⟩⟩
      · exact ⟨hcl.mono (.same rfl rfl rfl),hself⟩
  | ack => exact h.work hp rfl rfl rfl rfl rfl (fun _ _ => rfl) rfl rfl (WordOk.mono hok (.same rfl rfl rfl) rfl)
  | scanPhase => exact h.work hp rfl rfl rfl rfl rfl (fun _ _ => rfl) rfl rfl hok
  | refuse _ _ _ r =>
    exact h.work hp rfl rfl rfl rfl rfl (fun _ _ => rfl) rfl (opening_afterRefusal r) (pcWalk_afterRefusal (WordOk.ret hok))
  | scanOn =>
    refine h.work hp rfl rfl rfl rfl rfl (fun _ _ => rfl) rfl (opening_scanFrom _ _ _ _) ?_
    unfold scanFrom
    split_ifs <;> exact hok
  | move w _ r next hnext hsys =>
    have hwo : WordOk s t w r := hok
    -- The word goes on to the next phase, or the action ends.
    have hw := ho.target t w (by rw [hp]; rfl)
    have hn : s.started ≠ 0 := (h.sys (by rw [hsys]; exact hw)).1
    have hon : Onward s ({ s with systemState := next }.goto t (.settle next r)) := by
      refine ⟨rfl,rfl,fun hne => ?_⟩
      have hup := ((hwo.word hn).next hnext hne).2
      rw [hsys]
      exact ⟨hw,hup.le⟩
    refine h.advance (t := t) (.settle next r) rfl hon ?_ (fun _ _ => rfl) (fun _ _ => rfl)
      (RetOk.mono hwo.ret hon rfl) (by rintro _ _ ⟨⟩) ?_
    · exact fun hne => ⟨hn,((hwo.word hn).next hnext hne).1⟩
    · intro u a v hu hop _
      exact absurd hop (h.not_opening (by rw [hp]; rfl) hu)
  | overtaken w _ r =>
    have hwo : WordOk s t w r := hok
    exact h.work hp rfl rfl rfl rfl rfl (fun _ _ => rfl) rfl (opening_afterMove r) (pcWalk_afterMove hwo.ret)
  | close next r =>
    have hon : Onward s ({ s with systemState := ⟨.none,.rest,next.version⟩ }.goto t (afterMove r)) :=
      ⟨rfl,rfl,fun hne => absurd rfl hne⟩
    refine h.advance (t := t) (afterMove r) rfl hon (fun hne => absurd rfl hne) (fun _ _ => rfl)
      (fun _ _ => rfl) ((pcWalk_afterMove hok).mono hon rfl rfl) ?_ ?_
    · intro a v hop
      rw [opening_afterMove] at hop
      cases hop
    · intro u a v hu hop _
      exact absurd hop (h.not_opening (by rw [hp]; rfl) hu)
  | settle _ r => exact h.work hp rfl rfl rfl rfl rfl (fun _ _ => rfl) rfl (opening_afterMove r) (pcWalk_afterMove hok)
  | split l =>
    obtain ⟨hw,hpassed,hl⟩ := hok
    refine h.work hp rfl rfl rfl rfl rfl (hset _) rfl rfl ⟨?_,hw,hpassed⟩
    cases l with
    | some l => exact (hl l rfl).mono (.same rfl rfl rfl)
    | none =>
      have hself : (s.setCtx t { s.ctx t with phase := .rest }).ctx t=⟨.rest,(s.ctx t).version⟩ := update_self _ _ _
      unfold RetOk
      rw [hself]
      refine ⟨fun _ hne => absurd rfl hne,fun hne => ⟨?_,Nat.zero_le _⟩⟩
      have hon := hw (h.sys hne).1
      have hrest := onWalk_rest hon
      rw [←grow_version hon (growInProgress_action hon)] at hrest
      exact hrest
  | spin => exact h
  | leaveSpin l => exact h.work hp rfl rfl rfl rfl rfl (fun _ _ => rfl) rfl (opening_afterSplit l) (pcWalk_afterSplit hok)
  | start a v hsys => exact h.start hp (hguard a v hp hsys)
  | reset a v =>
    have hop : opening (s.pc t)=some (a, v) := by
      rw [hp]
      rfl
    refine h.advance (t := t) _ rfl (.same rfl rfl rfl) h.sys (fun _ _ => rfl) (fun _ _ => rfl) ?_ ?_ ?_
    · split_ifs <;> exact CtxOk.mono hok (.same rfl rfl rfl)
    · intro a' v' hop'
      rw [hop]
      split_ifs at hop' <;> exact ⟨hop',rfl⟩
    · intro u a' v' hu hop' _
      exact absurd hop' (h.not_opening (by rw [hp]; rfl) hu)
  | publish _ _ _ hfirst => exact h.publish hp hfirst
  | _ =>
    exact h.pass (live_of_pc hp ⟨(by rintro ⟨⟩),(by rintro ⟨⟩)⟩) rfl rfl rfl rfl rfl (fun _ _ => rfl) rfl rfl fun _ => hok

theorem WalkInv.of_quiescent (h : Quiescent s) : WalkInv s := by
  obtain ⟨-,hrest,hidle,hzero⟩ := h
  refine ⟨fun hne => absurd hrest hne,?_,?_⟩
  · intro t
    rw [hidle]
    exact fun _ => ⟨fun hn => absurd hzero hn,fun hne => absurd hrest hne⟩
  · intro t a v hop
    rw [hidle] at hop
    cases hop

theorem WalkInv.step (h : WalkInv s) (ho : Inv s) (hguard : startsFresh s label)
    (hs : step s label=some s') : WalkInv s' := by
  rcases (step_cases hs).2 with ⟨ready,-,hc⟩ | ⟨hidle,hc⟩
  · exact h.callStep ho hguard hc
  · exact h.startCall hidle hc

/-- The walk's invariant holds in every run whose actions start fresh. -/
theorem reachable_walk (hs : Reachable machine startsFresh s) : Inv s ∧ WalkInv s := by
  refine hs.invariant (P := fun s => Inv s ∧ WalkInv s) ?_ ?_
  · exact fun s hi => ⟨.of_quiescent hi,.of_quiescent hi⟩
  · rintro s label s' ⟨ho,h⟩ hguard hstep
    exact ⟨ho.step hstep,h.step ho hguard hstep⟩

end

end FishStore.PhaseWalk
