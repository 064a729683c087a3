import FishStore.PendingIo

/-!
# What `CompletePending` and `StopSession` wait for

`CompletePending` returns when the current context has nothing outstanding and the
session is at rest. That the previous context is empty then is due to the phases: after
the contexts were swapped, the others wait until the session has acknowledged a later
phase, and it does so when `pending_ios` of the previous context is empty. Full scans are
not entered there, and `StopSession` looks at `pending_ios` of the current context only. So
both wait for everything as long as no full scan is outstanding when the contexts are
swapped or the session stops.
-/

namespace FishStore.SessionPending

open Layout Runs DiskCallbacks PendingIo List PhaseWalk
open Phases (Action Phase SystemState Context phaseWork)

/-- How far the session and the others have come. -/
structure Progress where
  /-- The word that has started the action. -/
  origin : SystemState
  /-- `system_state_`. -/
  word : SystemState
  /-- The phase that the session has acknowledged last. -/
  finished : Phase
  /-- The phase and version of `thread_ctx()`. -/
  ctx : Context

/-- The progress of a state. -/
def progress (s : State) : Progress :=
  ⟨s.origin, s.systemState, s.phaseFinished, ⟨s.threadCtx.phase, s.threadCtx.version⟩⟩

/-- The session's context as a word of the action. -/
def Progress.ctxWord (g : Progress) : SystemState := ⟨g.origin.action, g.ctx.phase, g.ctx.version⟩

/-- An action is in progress: the word has not passed a phase that the session has to
acknowledge and has not come to. -/
structure InAction (g : Progress) : Prop where
  word : OnWalk g.origin g.word
  ctx : OnWalk g.origin g.ctxWord
  le : rank g.ctx.phase ≤ rank g.word.phase
  lag : ∀ p ∈ phases g.origin.action, needsAck g.origin.action p → rank g.ctx.phase < rank p →
    rank g.word.phase ≤ rank p
  acked : rank g.finished ≤ rank g.ctx.phase

/-- The session is in the loop of `HandleSpecialPhases`. -/
structure Iterating (g : Progress) (final prev : SystemState) : Prop where
  prev_eq : prev = g.ctxWord
  final_walk : OnWalk g.origin final
  prev_walk : OnWalk g.origin prev
  le : rank prev.phase ≤ rank final.phase
  acked : rank g.finished ≤ rank prev.phase
  ahead : g.word.phase ≠ .rest → rank final.phase ≤ rank g.word.phase
  /-- The action has ended only if the session has acknowledged the phase. -/
  ended : g.word.phase = .rest → rank final.phase ≤ rank g.finished

/-- The phase that swaps the contexts, and the one that waits for the previous context. -/
def swapPhases : Action → Option (Phase × Phase)
  | .checkpointFull => some (.inProgress, .waitPending)
  | .checkpointHybridLog => some (.inProgress, .waitPending)
  | .gc => some (.gcIoPending, .gcIoPending)
  | _ => none

/-- The contexts were swapped, and the session has not acknowledged yet that nothing of the
previous one is outstanding. -/
structure Draining (g : Progress) : Prop where
  active : g.word.phase ≠ .rest
  exists_phases : ∃ p q, swapPhases g.origin.action = some (p, q) ∧ rank p ≤ rank g.ctx.phase ∧
    rank g.word.phase ≤ rank q ∧ rank g.finished < rank q

/-- An operation of the previous context is outstanding. -/
def Busy (s : State) : Prop := ∃ g ∈ s.tags, g.ctx = !s.current

/-- The invariant of a session that the others wait for. -/
structure Inv (s : State) : Prop where
  accounts : Accounts s
  inAction : s.pc ≠ .stopped → s.systemState.phase ≠ .rest → InAction (progress s)
  iterating : ∀ final prev r, s.pc = .iterate final prev r → Iterating (progress s) final prev
  rest : s.systemState.phase = .rest → s.systemState.action = .none
  busy : Busy s → Draining (progress s)
  noFullScan : ∀ g ∈ s.tags, g.ctx = (!s.current) → g.type ≠ .fullScan
  stopped : s.pc = .stopped → s.tags = []

/-- Every read succeeds. The counter does not wrap. An action starts when the session has
come to rest since the last one. No full scan is outstanding when the contexts are swapped
or the session stops. -/
def noFullScanLeft : Guard State Label := fun s label =>
  match label with
  | .issue _ _ _ _ accepted => accepted = true ∧ s.threadCtx.pendingIoCnt + 1 < 2 ^ 32
  | .complete _ _ _ result accepted => result = .ok ∧ accepted = true
  | .start _ => s.pc ≠ .stopped → s.threadCtx.phase = .rest ∧
      s.threadCtx.version = s.systemState.version ∧ ∀ final prev r, s.pc ≠ .iterate final prev r
  | .step _ =>
    (∀ final prev r cur, s.pc = .iterate final prev r → nextWord final prev = some cur →
      swaps cur prev = true → ∀ g ∈ s.tags, g.ctx = s.current → g.type ≠ .fullScan) ∧
    (s.pc = .stopping → ∀ g ∈ s.tags, g.type ≠ .fullScan)
  | _ => True

section

variable {c : Setting} {s s' : State} {label : Label} {g : Progress} {final prev cur : SystemState}

theorem swapPhases_spec {a : Action} {p q : Phase} (h : swapPhases a=some (p, q)) :
    p ∈ phases a ∧ q ∈ phases a ∧ 0<rank p ∧ rank p≤rank q ∧ needsAck a p ∧ needsAck a q := by
  cases a <;> cases h <;> decide

/-- The transition that swaps the contexts is the one to the swapping phase. -/
theorem swaps_spec (h : swaps cur prev=true) : ∃ q, swapPhases cur.action=some (cur.phase, q) ∧ cur.phase ≠ prev.phase := by
  obtain ⟨a,p,v⟩ := cur
  cases a <;> simp only [swaps,decide_eq_true_eq,Bool.false_eq_true] at h <;>
    obtain ⟨rfl,hp⟩ := h <;> rw [hp] <;> exact ⟨_,rfl,by rintro ⟨⟩⟩

/-- A phase that waits for the previous context is not acknowledged before that is ready. -/
theorem acknowledges_phaseWork {has : Bool} {ctx : Context} (hw : waitsForPending cur=true) :
    acknowledges (phaseWork cur prev has false ctx).1=false := by
  obtain ⟨a,p,v⟩ := cur
  rcases of_decide_eq_true hw with hp | hp <;> dsimp only at hp <;> subst hp <;> cases a <;>
    simp only [phaseWork,acknowledges,Bool.and_false,Bool.false_eq_true,if_false]

/-- The session acknowledges such a phase only when `pending_ios` of the previous context
is empty. -/
theorem finished_eq (s : State) (cur prev : SystemState) (ready : Bool) :
    s.finished cur prev ready=s.phaseFinished ∨ s.finished cur prev ready=cur.phase ∧
      (waitsForPending cur=true → s.prevThreadCtx.pendingIos=[]) := by
  unfold State.finished
  dsimp only
  split_ifs with hw hack hack
  · refine .inr ⟨rfl,fun _ => ?_⟩
    by_contra hne
    rw [isEmpty_eq_false_iff.mpr hne,acknowledges_phaseWork hw] at hack
    cases hack
  · exact .inl rfl
  · exact .inr ⟨rfl,fun hwait => absurd hwait hw⟩
  · exact .inl rfl

/-- A context whose `pending_ios` is empty has nothing outstanding but full scans. -/
theorem not_outstanding (h : Accounts s) {b : Bool} (hempty : (s.ctx b).pendingIos=[])
    (hfull : ∀ t ∈ s.tags, t.ctx=b → t.type ≠ .fullScan) : ∀ t ∈ s.tags, t.ctx ≠ b := by
  intro t ht hb
  have hios := h.ios b t.ioId
  rw [hempty,count_nil] at hios
  exact countP_eq_zero.mp hios.symm t ht (decide_eq_true ⟨hb,rfl,hfull t ht hb⟩)

theorem pendingIoCnt_eq_zero (h : Accounts s) {b : Bool} (hnone : ∀ t ∈ s.tags, t.ctx ≠ b) : (s.ctx b).pendingIoCnt=0 := by
  rw [h.cnt b]
  exact countP_eq_zero.mpr fun t ht htrue => hnone t ht (of_decide_eq_true htrue)

/-- The word moves on, when the session has acknowledged its phase. -/
theorem InAction.move (h : InAction g) {next : SystemState} (hnext : g.word.getNextState=some next)
    (hne : next.phase ≠ .rest) (hack : needsAck g.word.action g.word.phase → g.finished=g.word.phase) :
    InAction { g with word := next } := by
  obtain ⟨hwalk,hlt⟩ := h.word.next hnext hne
  refine ⟨hwalk,h.ctx,h.le.trans hlt.le,fun p hp hneeds hbehind => ?_,h.acked⟩
  have hle := h.lag p hp hneeds hbehind
  rcases Nat.lt_or_eq_of_le hle with hless | heq
  · obtain ⟨w',hw',-,-,hw'le⟩ := h.word.next_le hp hless
    rw [hnext] at hw'
    cases hw'
    exact hw'le
  · -- The word was in this phase, and the session has acknowledged it.
    have hphase := rank_inj h.word.phase hp heq
    have hfin := hack (by rw [h.word.action,hphase]; exact hneeds)
    have hacked := h.acked
    rw [hfin,heq] at hacked
    exact absurd hbehind (not_lt.mpr hacked)

/-- While the session drains the previous context the action does not end. -/
theorem Draining.move (h : Draining g) (hin : InAction g) {next : SystemState}
    (hnext : g.word.getNextState=some next)
    (hack : needsAck g.word.action g.word.phase → g.finished=g.word.phase) :
    next.phase ≠ .rest ∧ Draining { g with word := next } := by
  obtain ⟨p,q,hpq,hp,hle,hfin⟩ := h.exists_phases
  obtain ⟨-,hq,-,-,-,hneeds⟩ := swapPhases_spec hpq
  rcases Nat.lt_or_eq_of_le hle with hlt | heq
  · obtain ⟨w',hw',-,hless,hw'le⟩ := hin.word.next_le hq hlt
    rw [hnext] at hw'
    cases hw'
    have hne : next.phase ≠ .rest := by
      intro hrest
      rw [hrest] at hless
      exact Nat.not_lt_zero _ hless
    exact ⟨hne,hne,p,q,hpq,hp,hw'le,hfin⟩
  · have hphase := rank_inj hin.word.phase hq heq
    have hacked := hack (by rw [hin.word.action,hphase]; exact hneeds)
    rw [hacked,hphase] at hfin
    exact absurd hfin (lt_irrefl _)

theorem Iterating.move (h : Iterating g final prev) (hin : InAction g) {next : SystemState}
    (hnext : g.word.getNextState=some next) (hne : next.phase ≠ .rest) (hrest : g.word.phase ≠ .rest) :
    Iterating { g with word := next } final prev := by
  obtain ⟨-,hlt⟩ := hin.word.next hnext hne
  exact ⟨h.prev_eq,h.final_walk,h.prev_walk,h.le,h.acked,fun _ => (h.ahead hrest).trans hlt.le, fun heq => absurd heq hne⟩

/-- The last phase of an action is acknowledged by all. -/
theorem needsAck_of_last {w next : SystemState} (hnext : w.getNextState=some next)
    (hrest : next.phase=.rest) : needsAck w.action w.phase := by
  obtain ⟨a,p,v⟩ := w
  rintro ⟨ha,hp⟩
  dsimp only at ha hp
  subst ha hp
  cases hnext
  cases hrest

theorem Iterating.finish (h : Iterating g final prev) (hrest : g.word.phase ≠ .rest)
    (hack : g.finished=g.word.phase) (v : UInt32) :
    Iterating { g with word := ⟨.none,.rest,v⟩ } final prev := by
  refine ⟨h.prev_eq,h.final_walk,h.prev_walk,h.le,h.acked,fun hne => absurd rfl hne,fun _ => ?_⟩
  change rank final.phase≤rank g.finished
  rw [hack]
  exact h.ahead hrest

theorem firstPhase_spec {a : Action} {p : Phase} (h : a.firstPhase=some p) :
    p ∈ phases a ∧ .rest ∈ phases a ∧ rank p<4 ∧ ∀ q ∈ phases a, 0<rank q → rank p≤rank q := by
  cases a <;> cases h <;> decide

/-- An action starts, with the session at rest. -/
theorem inAction_start {a : Action} {p : Phase} {v : UInt32} (hp : a.firstPhase=some p) :
    InAction ⟨⟨a,.rest,v⟩,⟨a,p,v⟩,.rest,⟨.rest,v⟩⟩ := by
  obtain ⟨hmem,hrest,hfour,hfirst⟩ := firstPhase_spec hp
  refine ⟨⟨rfl,hmem,?_⟩,⟨rfl,hrest,rfl⟩,Nat.zero_le _,fun q hq _ hlt => hfirst q hq hlt,le_rfl⟩
  exact (if_neg (not_le.mpr hfour)).symm

/-- A step of the loop goes on to the word that it was started for, or towards it. -/
theorem Iterating.next (h : Iterating g final prev) (hcur : nextWord final prev=some cur) :
    cur=prev ∧ cur=final ∨ g.word.phase ≠ .rest ∧ OnWalk g.origin cur ∧
      rank prev.phase<rank cur.phase ∧ rank cur.phase≤rank final.phase := by
  unfold nextWord at hcur
  split_ifs at hcur with heq
  · cases hcur
    exact .inl ⟨heq.symm,rfl⟩
  · have hlt : rank prev.phase<rank final.phase := by
      refine lt_of_le_of_ne h.le fun hrank => heq ?_
      have hwalk := h.prev_walk
      have hphase := rank_inj h.prev_walk.phase h.final_walk.phase hrank
      exact hwalk.eq_of_phase h.final_walk hphase
    obtain ⟨w',hw',hwalk,hless,hle⟩ := h.prev_walk.next_le h.final_walk.phase hlt
    rw [hcur] at hw'
    cases hw'
    refine .inr ⟨fun hrest => ?_,hwalk,hless,hle⟩
    have hend := h.ended hrest
    have hacked := h.acked
    omega

theorem progress_setCtx {b : Bool} {x : ExecutionContext} (hphase : x.phase=(s.ctx b).phase)
    (hversion : x.version=(s.ctx b).version) : progress (s.setCtx b x)=progress s := by
  have hctx : (⟨((s.setCtx b x).ctx s.current).phase,((s.setCtx b x).ctx s.current).version⟩ : Context) =
      ⟨(s.ctx s.current).phase,(s.ctx s.current).version⟩ := by
    by_cases hb : s.current=b
    · rw [hb,setCtx_self,hphase,hversion]
    · rw [setCtx_of_ne x hb]
  exact congrArg (Progress.mk s.origin s.systemState s.phaseFinished) hctx

/-- A step that only moves requests, or issues new ones on the current context. -/
theorem Inv.of_tags (h : Inv s) (haccounts : Accounts s') (hprogress : progress s'=progress s)
    (hcurrent : s'.current=s.current) (hpc : s'.pc=s.pc) (htags : ∀ t ∈ s'.tags, t ∈ s.tags ∨ t.ctx=s.current)
    (hstopped : s.pc=.stopped → s'.tags=[]) : Inv s' := by
  have hword : s'.systemState=s.systemState := congrArg Progress.word hprogress
  have hold : ∀ t ∈ s'.tags, t.ctx=(!s'.current) → t ∈ s.tags := by
    intro t ht hne
    refine (htags t ht).resolve_right fun heq => ?_
    rw [heq,hcurrent] at hne
    exact Bool.not_ne_self _ hne.symm
  refine ⟨haccounts,?_,?_,?_,?_,?_,?_⟩
  · rw [hpc,hword,hprogress]
    exact h.inAction
  · rw [hpc,hprogress]
    exact h.iterating
  · rw [hword]
    exact h.rest
  · rintro ⟨t,ht,hne⟩
    rw [hprogress]
    exact h.busy ⟨t,hold t ht hne,hcurrent ▸ hne⟩
  · intro t ht hne
    exact h.noFullScan t (hold t ht hne) (hcurrent ▸ hne)
  · rw [hpc]
    exact hstopped

/-- A step that only moves the session on, out of the loop of `HandleSpecialPhases`. -/
theorem Inv.goto (h : Inv s) {pc : Pc} (hrun : s.pc ≠ .stopped)
    (hiter : ∀ final prev r, pc ≠ .iterate final prev r) (hstopped : pc=.stopped → s.tags=[]) :
    Inv { s with pc := pc } := by
  have haccounts := h.accounts.goto pc
  exact ⟨haccounts,fun _ => h.inAction hrun,fun final prev r hp => absurd hp (hiter final prev r),
    h.rest,h.busy,h.noFullScan,hstopped⟩

/-- Nothing of the previous context is outstanding when the session is at rest. -/
theorem Inv.not_busy (h : Inv s) (hrest : s.threadCtx.phase=.rest) : ¬Busy s := by
  intro hb
  obtain ⟨p,q,hpq,hle,-⟩ := (h.busy hb).exists_phases
  obtain ⟨-,-,hpos,-⟩ := swapPhases_spec hpq
  have hzero : rank (progress s).ctx.phase=0 := by
    change rank s.threadCtx.phase=0
    rw [hrest]
    rfl
  omega

/-- Nothing is outstanding when the session is at rest and the current context is done. -/
theorem Inv.tags_eq_nil (h : Inv s) (hrest : s.threadCtx.phase=.rest)
    (hnone : ∀ t ∈ s.tags, t.ctx ≠ s.current) : s.tags=[] := by
  refine eq_nil_iff_forall_not_mem.mpr fun t ht => h.not_busy hrest ⟨t,ht,?_⟩
  exact Bool.eq_not_of_ne (hnone t ht)

theorem Inv.respond (h : Inv s) {b : Bool} {r : Request} {rest : List Request}
    (hrun : s.pc ≠ .stopped) (hq : (s.ctx b).ioResponses=r::rest) : Inv (s.respond b r rest) := by
  have hperm : s.tags.Perm (r.tag::(s.respond b r rest).tags) := tags_respond hq
  refine h.of_tags (h.accounts.respond hq) ?_ rfl rfl (fun t ht => .inl ?_) fun hp => absurd hp hrun
  · exact progress_setCtx (s := s) rfl rfl
  · exact hperm.mem_iff.mpr (mem_cons_of_mem _ ht)

theorem Inv.issue (h : Inv s) (hidle : s.pc=.idle) (hsmall : s.threadCtx.pendingIoCnt+1<2^32) (type : OperationType)
    (address startAddr endAddr : ℕ) : Inv (s.issue c type address startAddr endAddr true) := by
  refine h.of_tags (h.accounts.issue hsmall type address startAddr endAddr) ?_ rfl rfl (fun t ht => ?_) fun hp => ?_
  · exact progress_setCtx (s := s) rfl rfl
  · rcases mem_cons.mp ((tags_issue s c type address startAddr endAddr).mem_iff.mp ht) with rfl | ht
    · exact .inr rfl
    · exact .inl ht
  · rw [hidle] at hp
    cases hp

theorem Inv.apply (h : Inv s) {r : Request} (hr : r ∈ s.inFlight) (io : Io) {e : Effect}
    (he : e.settles=true) : Inv ({ s with inFlight := s.inFlight.erase r }.apply c true r.tag io e) := by
  have hperm := tags_apply (c := c) hr io he
  have hsame : ∀ u : State, u.current=s.current → u.pc=s.pc → progress u=progress s →
      Accounts u → u.tags.Perm s.tags → Inv u := by
    intro u hcur hpc hprogress haccounts hperm
    refine h.of_tags haccounts hprogress hcur hpc (fun t ht => .inl (hperm.mem_iff.mp ht)) fun hp => ?_
    rw [h.stopped hp] at hperm
    exact hperm.eq_nil
  have haccounts := h.accounts.apply (c := c) hr io he
  cases e with
  | touch a => cases he
  | read a n => exact hsame _ rfl rfl rfl haccounts hperm
  | push => exact hsame _ rfl rfl (progress_setCtx (s := s) rfl rfl) haccounts hperm

theorem waitsForPending_of_swapPhases {a : Action} {p : Phase} (h : swapPhases a=some (p, cur.phase)) :
    waitsForPending cur=true := by
  obtain ⟨b,q,v⟩ := cur
  cases a <;> cases h <;> rfl

theorem InAction.advance (h : InAction g) (hcur : OnWalk g.origin cur)
    (hge : rank g.ctx.phase≤rank cur.phase) (hle : rank cur.phase≤rank g.word.phase) {f : Phase}
    (hf : f=g.finished ∨ f=cur.phase) :
    InAction { g with finished := f, ctx := ⟨cur.phase,cur.version⟩ } := by
  refine ⟨h.word,?_,hle,fun p hp hneeds hlt => h.lag p hp hneeds (hge.trans_lt hlt),?_⟩
  · have heq : (⟨g.origin.action,cur.phase,cur.version⟩ : SystemState)=cur := by rw [←hcur.action]
    change OnWalk g.origin ⟨g.origin.action,cur.phase,cur.version⟩
    rw [heq]
    exact hcur
  · rcases hf with rfl | rfl
    · exact h.acked.trans hge
    · exact le_rfl

theorem afterRefresh_ne (r : Caller) :
    afterRefresh r ≠ .stopped ∧ ∀ final prev r', afterRefresh r ≠ .iterate final prev r' := by
  cases r with
  | user | current d => exact ⟨by rintro ⟨⟩,by rintro _ _ _ ⟨⟩⟩
  | previous d =>
    cases d with
    | completePending wait => cases wait <;> exact ⟨by rintro ⟨⟩,by rintro _ _ _ ⟨⟩⟩
    | stopSession => exact ⟨by rintro ⟨⟩,by rintro _ _ _ ⟨⟩⟩

/-- After a swap the contexts have changed their places, and the other one is as it was. -/
theorem swapped_of_swaps (s : State) (hsw : swaps cur prev=true) :
    (s.swapped cur prev).current=(!s.current) ∧ (s.swapped cur prev).prevThreadCtx=s.threadCtx := by
  have hcurrent : (s.swapped cur prev).current=!s.current := by
    unfold State.swapped
    rw [if_pos hsw]
    rfl
  refine ⟨hcurrent,?_⟩
  unfold State.prevThreadCtx
  rw [hcurrent,Bool.not_not]
  unfold State.swapped
  rw [if_pos hsw]
  exact setCtx_of_ne _ (Bool.not_ne_self _).symm

theorem swapped_eq (s : State) (cur prev : SystemState) :
    (s.swapped cur prev).origin=s.origin ∧ (s.swapped cur prev).systemState=s.systemState ∧
      (s.swapped cur prev).phaseFinished=s.phaseFinished := by
  unfold State.swapped
  split_ifs <;> exact ⟨rfl,rfl,rfl⟩

theorem threadCtx_handle (s : State) (final prev cur : SystemState) (ready : Bool) (r : Caller) :
    (s.handle final prev cur ready r).threadCtx =
      { (s.swapped cur prev).threadCtx with phase := cur.phase, version := cur.version } :=
  Function.update_self _ _ _

theorem progress_handle (s : State) (final prev cur : SystemState) (ready : Bool) (r : Caller) :
    progress (s.handle final prev cur ready r) = { progress s with
        finished := (s.swapped cur prev).finished cur prev ready, ctx := ⟨cur.phase,cur.version⟩ } := by
  obtain ⟨ho,hw,-⟩ := swapped_eq s cur prev
  unfold progress
  rw [threadCtx_handle,←ho,←hw]
  rfl

/-- The loop leaves what is outstanding. -/
theorem tags_handle {ready : Bool} {r : Caller} (hempty : swaps cur prev=true → (s.ctx !s.current).ioResponses=[]) :
    (s.handle final prev cur ready r).tags.Perm s.tags := by
  have hswap : (s.swapped cur prev).tags.Perm s.tags := by
    unfold State.swapped
    split_ifs with hsw
    · refine (tags_setCtx s (!s.current) _).trans (List.Perm.trans ?_ (tags_perm s !s.current).symm)
      rw [hempty hsw]
      exact List.Perm.refl _
    · exact List.Perm.refl _
  have hsame : (s.handle final prev cur ready r).tags=(s.swapped cur prev).tags := by
    refine tags_congr (fun b => ?_) rfl
    change (Function.update (s.swapped cur prev).ctx _ _ b).ioResponses=_
    by_cases hb : b=(s.swapped cur prev).current
    · rw [hb,Function.update_self]
      rfl
    · rw [Function.update_of_ne hb]
  rw [hsame]
  exact hswap

/-- The word that the session goes on to, in the action. -/
theorem Iterating.cur_spec (h : Iterating g final prev) (hcur : nextWord final prev=some cur) :
    OnWalk g.origin cur ∧ rank g.ctx.phase≤rank cur.phase ∧ rank cur.phase≤rank final.phase := by
  have hprev : prev.phase=g.ctx.phase := by rw [h.prev_eq]; rfl
  rw [←hprev]
  rcases h.next hcur with ⟨rfl,rfl⟩ | ⟨-,hwalk,hlt,hle⟩
  · exact ⟨h.prev_walk,le_rfl,h.le⟩
  · exact ⟨hwalk,hlt.le,hle⟩

/-- When the contexts are swapped, the word is in the swapping phase. -/
theorem Iterating.swap_spec (h : Iterating g final prev) (hin : g.word.phase ≠ .rest → InAction g)
    (hcur : nextWord final prev=some cur) (hsw : swaps cur prev=true) :
    g.word.phase ≠ .rest ∧ rank g.ctx.phase<rank cur.phase ∧
      ∃ q, swapPhases g.origin.action=some (cur.phase, q) ∧ rank g.word.phase≤rank q := by
  obtain ⟨q,hq,hne⟩ := swaps_spec hsw
  have hprev : prev.phase=g.ctx.phase := by rw [h.prev_eq]; rfl
  rcases h.next hcur with ⟨rfl,-⟩ | ⟨hrest,hwalk,hlt,-⟩
  · exact absurd rfl hne
  · rw [hprev] at hlt
    rw [hwalk.action] at hq
    obtain ⟨hmem,-,-,hle,hneeds,-⟩ := swapPhases_spec hq
    exact ⟨hrest,hlt,q,hq,((hin hrest).lag _ hmem hneeds hlt).trans hle⟩

theorem Iterating.advance (h : Iterating g final prev) (hcur : nextWord final prev=some cur)
    (hne : cur ≠ final) {f : Phase} (hf : f=g.finished ∨ f=cur.phase) :
    Iterating { g with finished := f, ctx := ⟨cur.phase,cur.version⟩ } final cur := by
  rcases h.next hcur with ⟨-,heq⟩ | ⟨hrest,hwalk,hlt,hle⟩
  · exact absurd heq hne
  · refine ⟨?_,h.final_walk,hwalk,hle,?_,h.ahead,fun heq => absurd heq hrest⟩
    · change cur=⟨g.origin.action,cur.phase,cur.version⟩
      rw [←hwalk.action]
    · rcases hf with rfl | rfl
      · exact h.acked.trans hlt.le
      · exact le_rfl

/-- The session goes on and does not acknowledge the phase that waits for the previous context. -/
theorem Draining.advance (h : Draining g) (hcur : OnWalk g.origin cur)
    (hge : rank g.ctx.phase≤rank cur.phase) (hle : rank cur.phase≤rank g.word.phase) {f : Phase}
    (hf : f=g.finished ∨ f=cur.phase ∧ waitsForPending cur=false) :
    Draining { g with finished := f, ctx := ⟨cur.phase,cur.version⟩ } := by
  obtain ⟨p,q,hpq,hp,hq,hlt⟩ := h.exists_phases
  refine ⟨h.active,p,q,hpq,hp.trans hge,hq,?_⟩
  rcases hf with rfl | ⟨rfl,hnot⟩
  · exact hlt
  · refine lt_of_le_of_ne (hle.trans hq) fun heq => ?_
    have hphase := rank_inj hcur.phase (swapPhases_spec hpq).2.1 heq
    rw [←hphase] at hpq
    rw [waitsForPending_of_swapPhases hpq] at hnot
    cases hnot

/-- The contexts are swapped, and the phase that waits for them is not acknowledged. -/
theorem draining_swap (hit : Iterating g final prev) (hin : g.word.phase ≠ .rest → InAction g)
    (hcur : nextWord final prev=some cur) (hsw : swaps cur prev=true) {f : Phase}
    (hf : f=g.finished ∨ f=cur.phase ∧ waitsForPending cur=false) :
    Draining { g with finished := f, ctx := ⟨cur.phase,cur.version⟩ } := by
  obtain ⟨hrest,hlt,q,hpq,hq⟩ := hit.swap_spec hin hcur hsw
  obtain ⟨-,hqmem,-,hle,-,-⟩ := swapPhases_spec hpq
  refine ⟨hrest,cur.phase,q,hpq,le_rfl,hq,?_⟩
  rcases hf with rfl | ⟨rfl,hnot⟩
  · exact ((hin hrest).acked.trans_lt hlt).trans_le hle
  · refine lt_of_le_of_ne hle fun heq => ?_
    have hphase := rank_inj (hit.cur_spec hcur).1.phase hqmem heq
    rw [←hphase] at hpq
    rw [waitsForPending_of_swapPhases hpq] at hnot
    cases hnot

/-- An iteration of the loop of `HandleSpecialPhases`. -/
theorem Inv.handle (h : Inv s) {ready : Bool} {r : Caller} (hp : s.pc=.iterate final prev r)
    (hcur : nextWord final prev=some cur)
    (hfull : swaps cur prev=true → ∀ t ∈ s.tags, t.ctx=s.current → t.type ≠ .fullScan) :
    Inv (s.handle final prev cur ready r) := by
  have hrun : s.pc ≠ .stopped := by
    rw [hp]
    rintro ⟨⟩
  have hit := h.iterating final prev r hp
  obtain ⟨hwalk,hge,hlefinal⟩ := hit.cur_spec hcur
  have hle : s.systemState.phase ≠ .rest → rank cur.phase≤rank s.systemState.phase :=
    fun hrest => hlefinal.trans (hit.ahead hrest)
  -- The context that is cleared has nothing outstanding.
  have hclear : swaps cur prev=true → ∀ t ∈ s.tags, t.ctx ≠ !s.current := by
    intro hsw t ht heq
    obtain ⟨-,hlt,q,hq,-⟩ := hit.swap_spec (h.inAction hrun) hcur hsw
    obtain ⟨p',q',hpq,hp',-⟩ := (h.busy ⟨t,ht,heq⟩).exists_phases
    rw [hpq] at hq
    cases hq
    omega
  have hempty : swaps cur prev=true → (s.ctx !s.current).ioResponses=[] := by
    intro hsw
    refine eq_nil_iff_forall_not_mem.mpr fun x hx => hclear hsw x.tag ?_ (h.accounts.queue _ x hx)
    exact (tags_perm s _).mem_iff.mpr (mem_append_right _ (mem_map_of_mem hx))
  have htags : (s.handle final prev cur ready r).tags.Perm s.tags := tags_handle hempty
  have hprogress := progress_handle s final prev cur ready r
  have hfin := finished_eq (s.swapped cur prev) cur prev ready
  rw [(swapped_eq s cur prev).2.2] at hfin
  have hword : (s.handle final prev cur ready r).systemState=s.systemState := (swapped_eq s cur prev).2.1
  refine ⟨?_,?_,?_,?_,?_,?_,?_⟩
  · exact h.accounts.handle fun hsw => pendingIoCnt_eq_zero h.accounts (hclear hsw)
  · intro _ hrest
    rw [hword] at hrest
    rw [hprogress]
    exact (h.inAction hrun hrest).advance hwalk hge (hle hrest) (hfin.imp_right And.left)
  · intro final' prev' r' hp'
    rw [hprogress]
    change (if cur=final then afterRefresh r else .iterate final cur r)=.iterate final' prev' r' at hp'
    split_ifs at hp' with heq
    · exact absurd hp' ((afterRefresh_ne r).2 final' prev' r')
    · cases hp'
      exact hit.advance hcur heq (hfin.imp_right And.left)
  · rw [hword]
    exact h.rest
  · rintro ⟨t,ht,hne⟩
    rw [hprogress]
    have htold := htags.mem_iff.mp ht
    -- If the phase that waits for the previous context was acknowledged, that is empty.
    have hacked : ∀ b, (s.swapped cur prev).prevThreadCtx=s.ctx b → t.ctx=b → (∀ x ∈ s.tags, x.ctx=b → x.type ≠ .fullScan) →
        (s.swapped cur prev).finished cur prev ready=s.phaseFinished ∨
          (s.swapped cur prev).finished cur prev ready=cur.phase ∧ waitsForPending cur=false := by
      intro b hb htb hnofull
      rcases hfin with hsame | ⟨heq,hpending⟩
      · exact .inl hsame
      · refine .inr ⟨heq,Bool.eq_false_iff.mpr fun hwait => ?_⟩
        have hnil := hpending hwait
        rw [hb] at hnil
        exact not_outstanding h.accounts hnil hnofull t htold htb
    change t.ctx=!(s.swapped cur prev).current at hne
    by_cases hsw : swaps cur prev=true
    · obtain ⟨hcurrent,hprevctx⟩ := swapped_of_swaps s hsw
      rw [hcurrent,Bool.not_not] at hne
      exact draining_swap hit (h.inAction hrun) hcur hsw (hacked s.current hprevctx hne (hfull hsw))
    · have hcurrent : s.swapped cur prev=s := if_neg hsw
      rw [hcurrent] at hne
      have hdrain := h.busy ⟨t,htold,hne⟩
      refine hdrain.advance hwalk hge (hle hdrain.active) ?_
      exact hacked (!s.current) (by rw [hcurrent]; rfl) hne h.noFullScan
  · intro t ht hne
    have htold := htags.mem_iff.mp ht
    change t.ctx=!(s.swapped cur prev).current at hne
    by_cases hsw : swaps cur prev=true
    · rw [(swapped_of_swaps s hsw).1,Bool.not_not] at hne
      exact hfull hsw t htold hne
    · have hcurrent : s.swapped cur prev=s := if_neg hsw
      rw [hcurrent] at hne
      exact h.noFullScan t htold hne
  · intro hstop
    change (if cur=final then afterRefresh r else .iterate final cur r)=.stopped at hstop
    split_ifs at hstop
    exact absurd hstop (afterRefresh_ne r).1

/-- `Refresh` finds the word at rest. -/
theorem Inv.setRest (h : Inv s) (hrest : s.systemState.phase=.rest) (v : UInt32) (r : Caller) :
    Inv { s.setCtx s.current { s.threadCtx with phase := .rest, version := v } with
      pc := afterRefresh r } := by
  have hidle : ¬Busy s := fun hb => (h.busy hb).active hrest
  have htags : (s.setCtx s.current { s.threadCtx with phase := .rest, version := v }).tags.Perm s.tags :=
    (tags_setCtx s s.current _).trans (tags_perm s s.current).symm
  refine ⟨?_,fun _ hne => absurd hrest hne,fun final prev r' hp => ?_,h.rest,?_,?_,fun hp => ?_⟩
  · exact h.accounts.setPhase _ _ _ _ _
  · exact absurd hp ((afterRefresh_ne r).2 final prev r')
  · rintro ⟨t,ht,hne⟩
    exact absurd ⟨t,htags.mem_iff.mp ht,hne⟩ hidle
  · exact fun t ht => h.noFullScan t (htags.mem_iff.mp ht)
  · exact absurd hp (afterRefresh_ne r).1

/-- The steps of a call keep the invariant. -/
theorem Inv.callStep (h : Inv s) {ready : Bool} (hguard : noFullScanLeft s (.step ready))
    (hs : callStep s ready s.pc=some s') : Inv s' := by
  obtain ⟨hswap,hstop⟩ := hguard
  cases hp : s.pc with
  | idle | stopped =>
    rw [hp] at hs
    cases hs
  | loop d =>
    have hrun : s.pc ≠ .stopped := by rw [hp]; rintro ⟨⟩
    rw [hp] at hs
    simp only [PendingIo.callStep] at hs
    split_ifs at hs <;> cases hs <;> exact h.goto hrun (by rintro _ _ _ ⟨⟩) (by rintro ⟨⟩)
  | drain d =>
    have hrun : s.pc ≠ .stopped := by rw [hp]; rintro ⟨⟩
    rw [hp] at hs
    cases hq : s.threadCtx.ioResponses with
    | nil =>
      simp only [PendingIo.callStep,hq] at hs
      cases hs
      exact h.goto hrun (by rintro _ _ _ ⟨⟩) (by rintro ⟨⟩)
    | cons r rest =>
      simp only [PendingIo.callStep,hq] at hs
      cases hs
      exact h.respond hrun hq
  | refresh r =>
    have hrun : s.pc ≠ .stopped := by rw [hp]; rintro ⟨⟩
    rw [hp] at hs
    simp only [PendingIo.callStep] at hs
    by_cases hrest : s.systemState.phase=.rest
    · rw [if_pos hrest] at hs
      cases hs
      exact h.setRest hrest _ r
    · rw [if_neg hrest] at hs
      cases hs
      have hin := h.inAction hrun hrest
      have haction : s.systemState.action=s.origin.action := hin.word.action
      have hprev : (⟨s.systemState.action,s.threadCtx.phase,s.threadCtx.version⟩ : SystemState) = (progress s).ctxWord := by
        rw [haction]
        rfl
      refine ⟨h.accounts.goto _,fun _ _ => hin,?_,h.rest,h.busy,h.noFullScan,by rintro ⟨⟩⟩
      intro final prev r' hp'
      cases hp'
      rw [hprev]
      exact ⟨rfl,hin.word,hin.ctx,hin.le,hin.acked,fun _ => le_rfl,fun heq => absurd heq hrest⟩
  | iterate final prev r =>
    rw [hp] at hs
    obtain ⟨cur,hcur,rfl⟩ := Option.map_eq_some_iff.mp hs
    exact h.handle hp hcur (hswap final prev r cur hp hcur)
  | done d =>
    have hrun : s.pc ≠ .stopped := by rw [hp]; rintro ⟨⟩
    rw [hp] at hs
    simp only [PendingIo.callStep] at hs
    split_ifs at hs with hphase hzero <;> cases hs
    · exact h.goto hrun (by rintro _ _ _ ⟨⟩) (by rintro ⟨⟩)
    · cases d <;> exact h.goto hrun (by rintro _ _ _ ⟨⟩) (by rintro ⟨⟩)
    · exact h.goto hrun (afterRefresh_ne _).2 fun heq => absurd heq (afterRefresh_ne _).1
  | drainPrev d =>
    have hrun : s.pc ≠ .stopped := by rw [hp]; rintro ⟨⟩
    rw [hp] at hs
    cases hq : s.prevThreadCtx.ioResponses with
    | nil =>
      simp only [PendingIo.callStep,hq] at hs
      cases hs
      exact h.goto hrun (by rintro _ _ _ ⟨⟩) (by rintro ⟨⟩)
    | cons r rest =>
      simp only [PendingIo.callStep,hq] at hs
      cases hs
      exact h.respond hrun hq
  | stopping =>
    have hrun : s.pc ≠ .stopped := by rw [hp]; rintro ⟨⟩
    rw [hp] at hs
    simp only [PendingIo.callStep] at hs
    split_ifs at hs with hmore <;> cases hs
    · exact h.goto hrun (by rintro _ _ _ ⟨⟩) (by rintro ⟨⟩)
    · rw [not_or,not_not,not_not] at hmore
      refine h.goto hrun (by rintro _ _ _ ⟨⟩) fun _ => h.tags_eq_nil hmore.1 ?_
      exact not_outstanding h.accounts hmore.2 fun t ht _ => hstop hp t ht

/-- The word moves on. -/
theorem Inv.move (h : Inv s) {next : SystemState} (hnext : s.systemState.getNextState=some next)
    (hack : s.pc ≠ .stopped → needsAck s.systemState.action s.systemState.phase →
      s.phaseFinished=s.systemState.phase) : Inv { s with
      systemState := if next.phase=.rest then ⟨.none,.rest,next.version⟩ else next } := by
  have hrest : s.systemState.phase ≠ .rest := by
    intro heq
    have hnone := h.rest heq
    unfold SystemState.getNextState at hnext
    rw [hnone] at hnext
    cases hnext
  have haccounts : ∀ w, Accounts { s with systemState := w } :=
    fun w => h.accounts.of_eq rfl (fun _ => ⟨rfl,rfl,rfl,rfl⟩) rfl rfl
  have hrun_of_busy : Busy s → s.pc ≠ .stopped := by
    rintro ⟨t,ht,-⟩ hp
    rw [h.stopped hp] at ht
    cases ht
  have hrun_of_iterate : ∀ {final prev r}, s.pc=.iterate final prev r → s.pc ≠ .stopped := by
    intro final prev r hp
    rw [hp]
    rintro ⟨⟩
  split_ifs with hend
  · refine ⟨haccounts _,fun _ hne => absurd rfl hne,fun final prev r hp => ?_,fun _ => rfl,
      fun hb => ?_,h.noFullScan,h.stopped⟩
    · have hacked := hack (hrun_of_iterate hp) (needsAck_of_last hnext hend)
      exact (h.iterating final prev r hp).finish hrest hacked next.version
    · have hrun := hrun_of_busy hb
      exact absurd hend ((h.busy hb).move (h.inAction hrun hrest) hnext (hack hrun)).1
  · refine ⟨haccounts _,fun hrun _ => (h.inAction hrun hrest).move hnext hend (hack hrun),
      fun final prev r hp => ?_,fun heq => absurd heq hend,fun hb => ?_,h.noFullScan,h.stopped⟩
    · have hrun := hrun_of_iterate hp
      exact (h.iterating final prev r hp).move (h.inAction hrun hrest) hnext hend hrest
    · have hrun := hrun_of_busy hb
      exact ((h.busy hb).move (h.inAction hrun hrest) hnext (hack hrun)).2

/-- A session starts, with nothing outstanding. -/
theorem Inv.startSession (h : Inv s) (hstopped : s.pc=.stopped) (hrest : s.systemState.phase=.rest) :
    Inv { s.setCtx s.current (.cleared .rest s.systemState.version) with pc := .idle } := by
  have hnil := h.stopped hstopped
  have hzero : (s.ctx s.current).pendingIoCnt=0 := by
    refine pendingIoCnt_eq_zero h.accounts ?_
    rw [hnil]
    rintro t ⟨⟩
  have hnone : ∀ t, t ∉ (s.setCtx s.current (.cleared .rest s.systemState.version)).tags := by
    intro t ht
    have hmem : t ∈ s.tags := by
      refine (tags_perm s s.current).mem_iff.mpr (mem_append_left _ ?_)
      have ht' := (tags_setCtx s s.current (.cleared .rest s.systemState.version)).mem_iff.mp ht
      exact (mem_append.mp ht').resolve_right (by rintro ⟨⟩)
    rw [hnil] at hmem
    cases hmem
  refine ⟨?_,fun _ hne => absurd hrest hne,by rintro _ _ _ ⟨⟩,h.rest,?_,?_,by rintro ⟨⟩⟩
  · exact (h.accounts.clear s.current hzero .rest s.systemState.version).goto .idle
  · rintro ⟨t,ht,-⟩
    exact absurd ht (hnone t)
  · exact fun t ht => absurd ht (hnone t)

/-- An action starts. -/
theorem Inv.start (h : Inv s) {a : Action} {p : Phase} (hguard : noFullScanLeft s (.start a))
    (hrest : s.systemState.phase=.rest) (hp : a.firstPhase=some p) : Inv { s with
      systemState := ⟨a,p,s.systemState.version⟩
      phaseFinished := .rest
      origin := ⟨a,.rest,s.systemState.version⟩ } := by
  refine ⟨h.accounts.of_eq rfl (fun _ => ⟨rfl,rfl,rfl,rfl⟩) rfl rfl,fun hrun _ => ?_,
    fun final prev r hpc => ?_,fun heq => ?_,fun hb => absurd hrest (h.busy hb).active,h.noFullScan,
    h.stopped⟩
  · obtain ⟨hphase,hversion,-⟩ := hguard hrun
    have hin := inAction_start (v := s.systemState.version) hp
    have hctx : (⟨s.threadCtx.phase,s.threadCtx.version⟩ : Context)=⟨.rest,s.systemState.version⟩ := by rw [hphase,hversion]
    rw [←hctx] at hin
    exact hin
  · refine absurd hpc ((hguard ?_).2.2 final prev r)
    change s.pc=_ at hpc
    rw [hpc]
    rintro ⟨⟩
  · change p=.rest at heq
    rw [heq] at hp
    cases a <;> cases hp

/-- Every step that meets the condition keeps the invariant. -/
theorem Inv.step (h : Inv s) (hguard : noFullScanLeft s label) (hs : step c true s label=some s') : Inv s' := by
  cases label with
  | issue type address startAddr endAddr accepted =>
    obtain ⟨rfl,hsmall⟩ := hguard
    obtain ⟨hidle,rfl⟩ := of_guard hs
    exact h.issue hidle hsmall type address startAddr endAddr
  | startSession =>
    obtain ⟨⟨hstopped,hrest⟩,rfl⟩ := of_guard hs
    exact h.startSession hstopped hrest
  | step ready => exact h.callStep hguard hs
  | complete r mem loads result accepted =>
    obtain ⟨rfl,rfl⟩ := hguard
    obtain ⟨hr,rfl⟩ := of_guard hs
    obtain ⟨io,e,he,heq⟩ := complete_ok s c r mem loads true
    rw [heq]
    exact h.apply hr io he
  | start a =>
    obtain ⟨⟨-,hrest⟩,hs⟩ := Option.ite_none_right_eq_some.mp hs
    obtain ⟨p,hp,rfl⟩ := Option.map_eq_some_iff.mp hs
    exact h.start hguard hrest hp
  | move =>
    obtain ⟨hack,hs⟩ := Option.ite_none_right_eq_some.mp hs
    obtain ⟨next,hnext,rfl⟩ := Option.map_eq_some_iff.mp hs
    exact h.move hnext (hack rfl)
  | _ =>
    obtain ⟨hidle,rfl⟩ := of_guard hs
    have hrun : s.pc ≠ .stopped := by rw [hidle]; rintro ⟨⟩
    exact h.goto hrun (by rintro _ _ _ ⟨⟩) (by rintro ⟨⟩)

theorem inv_initial (version : UInt32) : Inv (initial version) := by
  have hnone : ∀ t, t ∉ (initial version).tags := by rintro t ⟨⟩
  refine ⟨accounts_initial version,fun _ hne => absurd rfl hne,by rintro _ _ _ ⟨⟩,fun _ => rfl,?_,
    fun t ht => absurd ht (hnone t),by rintro ⟨⟩⟩
  rintro ⟨t,ht,-⟩
  exact absurd ht (hnone t)

theorem reachable_inv (hs : Reachable (machine c true) noFullScanLeft s) : Inv s := by
  refine hs.invariant (P := Inv) ?_ ?_
  · rintro s ⟨version,rfl⟩
    exact inv_initial version
  · exact fun s label s' h hguard hstep => h.step hguard hstep

/-- `CompletePending` is about to return true. -/
def ReturnsTrue (s : State) : Prop :=
  ∃ wait, s.pc = .done (.completePending wait) ∧ s.threadCtx.phase = .rest ∧ s.threadCtx.pendingIoCnt = 0

/-- Where nothing is outstanding, every operation was called back. -/
theorem called_of_nil (h : Accounts s) (hnil : s.tags=[]) {n : ℕ} (hn : n<s.issued) : s.called n=1 := by
  have hops := h.ops n
  rw [hnil,if_pos hn] at hops
  exact hops

/-- The callback of an operation is called at most once, and an operation that was not
called back is outstanding. When `CompletePending` returns true, and when `StopSession`
has returned, every operation that was issued has been called back. -/
theorem operations_completed (hs : Reachable (machine c true) noFullScanLeft s) :
    (∀ n, s.called n ≤ 1) ∧
    (∀ n < s.issued, s.called n = 0 → ∃ t ∈ s.tags, t.op = n) ∧
    (ReturnsTrue s ∨ s.pc = .stopped → ∀ n < s.issued, s.called n = 1) := by
  have h := reachable_inv hs
  refine ⟨fun n => ?_,fun n hn hzero => ?_,?_⟩
  · have hops := h.accounts.ops n
    split_ifs at hops <;> omega
  · have hops := h.accounts.ops n
    rw [if_pos hn,hzero,zero_add] at hops
    obtain ⟨t,ht,htrue⟩ := countP_pos_iff.mp (hops ▸ Nat.one_pos)
    exact ⟨t,ht,of_decide_eq_true htrue⟩
  · rintro (⟨wait,-,hrest,hzero⟩ | hstopped) n hn
    · refine called_of_nil h.accounts (h.tags_eq_nil hrest ?_) hn
      have hcnt := h.accounts.cnt s.current
      rw [show (s.ctx s.current).pendingIoCnt=0 from hzero] at hcnt
      exact fun t ht heq => countP_eq_zero.mp hcnt.symm t ht (decide_eq_true heq)
    · exact called_of_nil h.accounts (h.stopped hstopped) hn

/-- A check of the condition, for runs in which no action starts and the session does
not stop. -/
def leftCheck (s : State) : Label → Bool
  | .issue _ _ _ _ accepted => accepted && decide (s.threadCtx.pendingIoCnt + 1 < 2 ^ 32)
  | .complete _ _ _ result accepted => decide (result = .ok) && accepted
  | .start _ => false
  | .step _ =>
    match s.pc with
    | .iterate _ _ _ => false
    | .stopping => false
    | _ => true
  | _ => true

theorem noFullScanLeft_of_check (s : State) (label : Label) (h : leftCheck s label=true) : noFullScanLeft s label := by
  cases label with
  | issue | complete => simpa only [leftCheck,noFullScanLeft,Bool.and_eq_true,decide_eq_true_eq] using h
  | start a => cases h
  | step ready =>
    refine ⟨fun final prev r cur hp => ?_,fun hp => ?_⟩
    · simp only [leftCheck,hp,Bool.false_eq_true] at h
    · simp only [leftCheck,hp,Bool.false_eq_true] at h
  | _ => trivial

/-- One read, with its response, and `CompletePending(true)` up to its last test. -/
def readAndComplete : List Label :=
  [.issue .read 72 0 0 true, .complete firstRead (fun _ => 0) (fun _ => 64) .ok true,
    .completePending true] ++ List.replicate 4 (.step true)

theorem operations_completed_one : ∃ s, Reachable (machine noMatch true) noFullScanLeft s ∧
    ReturnsTrue s ∧ s.issued = 1 ∧ s.called 0 = 1 := by
  have hrun : (execGuarded (machine noMatch true) leftCheck (initial 0) readAndComplete).any
      (fun s => decide (s.pc=.done (.completePending true) ∧ s.threadCtx.phase=.rest ∧
        s.threadCtx.pendingIoCnt=0) && decide (s.issued=1))=true := by
    decide +kernel
  obtain ⟨s,hr,hend⟩ := exists_run_of_execGuarded noFullScanLeft_of_check hrun
  simp only [Bool.and_eq_true,decide_eq_true_eq] at hend
  have hs : Reachable (machine noMatch true) noFullScanLeft s := ⟨_,⟨0,rfl⟩,hr⟩
  have hreturns : ReturnsTrue s := ⟨true,hend.1⟩
  refine ⟨s,hs,hreturns,hend.2,(operations_completed hs).2.2 (.inl hreturns) 0 ?_⟩
  rw [hend.2]
  exact Nat.one_pos

/-- A garbage collection that the session goes through alone. -/
def collect : List Label :=
  [.start .gc, .refresh, .step true, .step true, .move, .refresh, .step true, .step true, .move]

/-- A full scan is outstanding: `StopSession` returns without it; and after a garbage
collection, which has swapped the contexts, so does `CompletePending(true)`. -/
theorem full_scan_forgotten :
    (∃ s, Reachable (machine noMatch true) anyStep s ∧ s.pc = .stopped ∧ s.issued = 1 ∧
      s.called 0 = 0) ∧
    ∃ s, Reachable (machine noMatch true) anyStep s ∧ ReturnsTrue s ∧ s.issued = 1 ∧ s.called 0 = 0 := by
  refine ⟨?_,?_⟩
  · have hrun : (exec (machine noMatch true) (initial 0)
        [.issue .fullScan 0 64 4096 true,.stopSession,.step true]).any
        (fun s => decide (s.pc=.stopped ∧ s.issued=1 ∧ s.called 0=0))=true := by
      decide +kernel
    obtain ⟨s,hr,hend⟩ := exists_run_of_exec hrun
    exact ⟨s,⟨_,⟨0,rfl⟩,hr⟩,of_decide_eq_true hend⟩
  · have hrun : (exec (machine noMatch true) (initial 0)
        (.issue .fullScan 0 64 4096 true::collect ++
          .completePending true::replicate 3 (.step true))).any
        (fun s => decide (s.pc=.done (.completePending true) ∧ s.threadCtx.phase=.rest ∧
          s.threadCtx.pendingIoCnt=0) && decide (s.issued=1 ∧ s.called 0=0))=true := by
      decide +kernel
    obtain ⟨s,hr,hend⟩ := exists_run_of_exec hrun
    simp only [Bool.and_eq_true,decide_eq_true_eq] at hend
    exact ⟨s,⟨_,⟨0,rfl⟩,hr⟩,⟨true,hend.1⟩,hend.2⟩

end

end FishStore.SessionPending
