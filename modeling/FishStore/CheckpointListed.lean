import FishStore.CheckpointInfo
import FishStore.NamesRecovered

/-!
# What a completed checkpoint lists

In the prepare phase a session counts itself in `num_threads` and stores its guid in the
metadata at the place of its thread. When it moves to the next version it keeps its serial
number and offset, and it writes them to its context file before it acknowledges the flush.
As every session that is listed acknowledges the flush before the checkpoint ends, the
metadata of a completed checkpoint list exactly the sessions whose context files there are,
and `ReadCprMetadata` and `ReadCprContexts` succeed.

This needs that the sessions have different guids, and that the session of every listed
thread is waited for. Thread 0 is listed, but `FinishThreadPhase` begins at entry 1.
-/

namespace FishStore.CheckpointListed

open Runs Recovery Naming PhaseWalk PhaseRounds PhaseAcks CheckpointFiles CheckpointSteps
open CheckpointInfo List Bool PhaseInvariant PhaseBarrier
open Phases (Action Phase SystemState Pc Return Act afterPublish callStep startCall)
open LightEpoch (kMaxNumThreads)
open PendingIo (nextWord)
open Function (update update_of_ne update_self)

/-- The place of the phase that the session has come to. -/
def prog (b : Phases.State) (u : ℕ) : ℕ := progress (b.ctx u) (b.pc u)

/-- The session has entered itself in the metadata of the checkpoint in progress. -/
def entered (b : Phases.State) (u : ℕ) : Bool := b.isProtected u && decide (3 ≤ prog b u)

section

variable {b b' : Phases.State} {t u : ℕ} {l : Phases.Label} {ready : Bool}

/-- The other threads stay where they are. -/
theorem step_elsewhere (hs : Phases.step b l=some b') (hu : u ≠ l.thread) :
    b'.pc u=b.pc u ∧ b'.ctx u=b.ctx u ∧ b'.isProtected u=b.isProtected u := by
  refine ⟨PhaseInvariant.step_other hs hu,?_⟩
  rcases (step_cases hs).2 with ⟨ready,-,hc⟩ | ⟨-,hc⟩
  · obtain ⟨hctx,hprot,-⟩ := PhaseInvariant.callStep_local hc hu
    exact ⟨hctx,hprot⟩
  · obtain ⟨hctx,hprot,-⟩ := PhaseInvariant.startCall_local hc hu
    exact ⟨congrFun hctx u,hprot⟩

theorem elsewhere_entered (hs : Phases.step b l=some b') (hu : u ≠ l.thread) :
    prog b' u=prog b u ∧ entered b' u=entered b u := by
  obtain ⟨hpc,hctx,hprot⟩ := step_elsewhere hs hu
  have hprog : prog b' u=prog b u := by
    unfold prog
    rw [hpc,hctx]
  refine ⟨hprog,?_⟩
  unfold entered
  rw [hprog,hprot]

/-- A thread that goes on with its entry as it is. -/
theorem entered_goto {c : Phases.State} {p pc : Pc} (hp : b.pc t=p) (hprot : c.isProtected t=b.isProtected t)
    (hprog : progress (c.ctx t) pc=progress (b.ctx t) p) :
    prog (c.goto t pc) t=prog b t ∧ entered (c.goto t pc) t=entered b t := by
  have heq : prog (c.goto t pc) t=prog b t := by
    unfold prog
    rw [goto_self,hp]
    exact hprog
  refine ⟨heq,?_⟩
  unfold entered
  rw [heq]
  exact congrArg (· && _) hprot

/-- In a log checkpoint the sessions come to another phase only in the loop. -/
theorem callStep_entered (hb : Base b) (hne : b.systemState.phase ≠ .rest) (hlog : Log b)
    (hni : ∀ final prev, b.pc t ≠ .iterate final prev) (hs : callStep b t ready (b.pc t)=some b') :
    prog b' t=prog b t ∧ entered b' t=entered b t := by
  generalize hp : b.pc t=p at hs hni
  cases Phases.moves_of_callStep hs with
  | iterate final prev => exact absurd rfl (hni final prev)
  | join hrest | reload hrest => exact absurd hrest hne
  | split =>
    have hok := hb.rounds.walk.pcs t
    rw [hp] at hok
    exact absurd hlog (not_log_of_grow (hok.1 (hb.rounds.walk.sys hne).1))
  | refresh =>
    have hon := hb.rounds.rounds.joined hne t (live_of_pc hp ⟨by rintro ⟨⟩,by rintro ⟨⟩⟩)
    refine entered_goto hp ?_ rfl
    rw [hon]
    exact update_self _ _ _
  | leave lp =>
    refine entered_goto hp rfl ?_
    rw [show (b.setCtx t ⟨lp.cur.phase,lp.cur.version⟩).ctx t=⟨lp.cur.phase,lp.cur.version⟩ from update_self _ _ _]
    split_ifs <;> rfl
  | refuse w idx entry r => exact entered_goto hp rfl (progress_afterRefusal _ r)
  | scanOn w idx entry r => exact entered_goto hp rfl (progress_scanFrom _ b w _ r)
  | overtaken w seen r | close next r | settle next r => exact entered_goto hp rfl (progress_afterMove _ r)
  | spin => exact ⟨rfl,rfl⟩
  | leaveSpin lp => exact entered_goto hp rfl (progress_afterMove _ (.split lp))
  | reset =>
    refine entered_goto hp rfl ?_
    split_ifs <;> rfl
  | publish a =>
    refine entered_goto hp rfl ?_
    cases a <;> rfl
  | _ => exact entered_goto hp rfl rfl

/-- A session that leaves has not entered itself. -/
theorem startCall_entered {act : Act} (hp : b.pc t=.idle) (hs : startCall b t act=some b') :
    prog b' t=prog b t ∧ entered b' t=entered b t := by
  cases Phases.starts_of_startCall hs with
  | stopSession hon =>
    have hprog : prog b t=0 := by
      unfold prog
      rw [hp]
      change rank (b.ctx t).phase=0
      rw [hon.2]
      rfl
    have hprog' : prog (b.protect t false) t=0 := hprog
    refine ⟨rfl,?_⟩
    unfold entered
    rw [hprog,hprog',decide_eq_false (by decide),Bool.and_false,Bool.and_false]
  | heavyEnter =>
    refine entered_goto hp rfl ?_
    cases (b.ctx t).phase <;> rfl
  | _ => exact entered_goto hp rfl rfl

/-- A step outside the loop leaves what is listed. -/
theorem step_entered (hb : Base b) (hne : b.systemState.phase ≠ .rest) (hlog : Log b)
    (hni : ∀ final prev, b.pc l.thread ≠ .iterate final prev) (hs : Phases.step b l=some b') (u : ℕ) :
    prog b' u=prog b u ∧ entered b' u=entered b u := by
  by_cases hut : u=l.thread
  · rw [hut]
    rcases (step_cases hs).2 with ⟨ready,-,hc⟩ | ⟨hp,hc⟩
    · exact callStep_entered hb hne hlog hni hc
    · exact startCall_entered hp hc
  · exact elsewhere_entered hs hut

/-- A session appears only by joining. -/
theorem step_live (hs : Phases.step b l=some b') (hu : Live b' u) :
    Live b u ∨ (u=l.thread ∧ b.pc u=.sessionLoad ∧ b.systemState.phase=.rest) := by
  by_cases hut : u=l.thread
  · subst hut
    rcases (step_cases hs).2 with ⟨ready,-,hc⟩ | ⟨hp,hc⟩
    · by_cases hidle : b.pc l.thread=.idle
      · rw [hidle] at hc
        cases hc
      by_cases hload : b.pc l.thread=.sessionLoad
      · rw [hload] at hc
        cases Phases.moves_of_callStep hc with
        | join hrest => exact .inr ⟨rfl,hload,hrest⟩
        | reject =>
          rcases hu with hon | ⟨hne,-⟩
          · exact .inl (.inl hon)
          · exact absurd (goto_self b l.thread .idle) hne
      · exact .inl (.inr ⟨hidle,hload⟩)
    · -- Every call but `StartSession` needs a session.
      refine .inl (.inl ?_)
      generalize l.act=act at hc
      cases Phases.starts_of_startCall hc with
      | startSession =>
        rcases hu with hon | ⟨-,hne⟩
        · exact hon
        · exact absurd (goto_self b l.thread .sessionLoad) hne
      | stopSession hon => exact hon.1
      | refresh hon => exact hon
      | heavyEnter hon => exact hon
      | start a hon => exact hon.1
  · obtain ⟨hpc,-,hprot⟩ := step_elsewhere hs hut
    refine .inl ?_
    unfold Live at hu ⊢
    rw [hpc,hprot] at hu
    exact hu

end

/-- One guid for each thread. -/
def roster (f : ℕ → Guid) : List Guid := (List.range kMaxNumThreads).map f

/-- The sessions in a list of guids. -/
def sessions (guids : List Guid) : List Guid := guids.filter fun g => decide (g ≠ 0)

section

variable {f : ℕ → Guid} {t : ℕ} {g : Guid}

theorem mem_roster : g ∈ roster f ↔ ∃ u<kMaxNumThreads, f u=g := by simp [roster]

theorem roster_set (f : ℕ → Guid) (t : ℕ) (g : Guid) : (roster f).set t g=roster (update f t g) := by
  unfold roster
  refine ext_getElem (by simp) fun i h _ => ?_
  rw [getElem_set]
  split_ifs with hi
  · simp [←hi]
  · simp [update_of_ne (Ne.symm hi)]

/-- A session that enters itself is counted once. -/
theorem sessions_set (ht : t<kMaxNumThreads) (hold : f t=0) (hg : g ≠ 0) :
    (sessions ((roster f).set t g)).length=(sessions (roster f)).length+1 := by
  unfold sessions
  have hlen : t<(roster f).length := by
    unfold roster
    rw [length_map,length_range]
    exact ht
  rw [←countP_eq_length_filter,←countP_eq_length_filter,countP_set hlen]
  have hget : (roster f)[t]=0 := by
    simp only [roster,getElem_map,getElem_range]
    exact hold
  rw [hget,if_neg (by decide),if_pos (by simpa using hg),Nat.sub_zero]

theorem sessions_length_le (f : ℕ → Guid) : (sessions (roster f)).length≤kMaxNumThreads := by
  refine (length_filter_le _ _).trans ?_
  unfold roster
  rw [length_map,length_range]

/-- Different threads have different sessions. -/
theorem sessions_nodup (h : ∀ u u', f u ≠ 0 → f u=f u' → u=u') : (sessions (roster f)).Nodup := by
  unfold sessions roster
  rw [filter_map]
  refine List.Nodup.map_on ?_ (nodup_range.filter _)
  intro u hu u' _ heq
  obtain ⟨-,hne⟩ := mem_filter.mp hu
  exact h u u' (by simpa using hne) heq

end

/-- The files of a checkpoint are complete: the metadata list as many different sessions as
they count, and for each of them there is a context file with the serial number and the
offset at which it moved to the next version. -/
def Recoverable (files : Files) (point : Guid → Guid → Option (ℕ × ℕ)) (token : Guid) : Prop :=
  ∃ m, files.cprInfo token = some m ∧ (sessions m.guids).Nodup ∧
    (sessions m.guids).length = m.numThreads.toNat ∧
    ∀ g ∈ sessions m.guids, ∃ c, files.cprContext token g = some c ∧ c.guid = g ∧
      point token g = some (c.serialNum, c.offset)

section

variable {F L : Type} {files : Files} {token : Guid} {point : Guid → Guid → Option (ℕ × ℕ)}

/-- The loop of `ReadCprContexts` continues every session that is listed. -/
theorem readContexts_ok (guids : List Guid) (tokens : List (Guid × ℕ × ℕ))
    (hctx : ∀ g ∈ sessions guids, ∃ c, files.cprContext token g=some c ∧ c.guid=g)
    (hnodup : (tokens.map Prod.fst ++ sessions guids).Nodup) :
    ∃ added, readContexts files token guids tokens=(tokens ++ added, .ok) ∧ added.map Prod.fst=sessions guids := by
  induction guids generalizing tokens with
  | nil => exact ⟨[],by rw [append_nil]; rfl,rfl⟩
  | cons g guids ih =>
    by_cases hg : g=0
    · have hskip : sessions (g::guids)=sessions guids := filter_cons_of_neg (by simpa using hg)
      rw [hskip] at hctx hnodup ⊢
      obtain ⟨added,hread,hmap⟩ := ih tokens hctx hnodup
      refine ⟨added,?_,hmap⟩
      rw [←hread]
      exact if_pos hg
    · have hcons : sessions (g::guids)=g::sessions guids := filter_cons_of_pos (by simpa using hg)
      rw [hcons] at hctx hnodup ⊢
      obtain ⟨c,hfile,hguid⟩ := hctx g mem_cons_self
      -- The guid is new, so that its token is added at the end.
      have hnew : emplace tokens (c.guid, c.serialNum, c.offset)=tokens ++ [(c.guid, c.serialNum, c.offset)] := by
        refine NamesRecovered.foldl_emplace (l := [(c.guid, c.serialNum, c.offset)]) ?_
        rw [map_append,hguid]
        exact hnodup.sublist ((List.Sublist.refl _).append ((nil_sublist _).cons_cons g))
      obtain ⟨added,hread,hmap⟩ := ih (tokens ++ [(c.guid, c.serialNum, c.offset)])
        (fun g' hg' => hctx g' (mem_cons_of_mem _ hg')) (by
          rw [map_append,map_singleton,hguid,append_assoc]
          exact hnodup)
      refine ⟨(c.guid, c.serialNum, c.offset)::added,?_,?_⟩
      · rw [append_cons,←hread]
        simp only [readContexts,if_neg hg,hfile,hnew]
      · rw [map_cons,hmap,hguid]

/-- Such a checkpoint is read by a store that holds no sessions of another one. -/
theorem Recoverable.reads (h : Recoverable files point token) (st : Store F L)
    (hst : st.checkpoint.continueTokens=[]) : (readCprMetadata files token st).2=.ok ∧
      (readCprContexts files token (readCprMetadata files token st).1).2=.ok := by
  obtain ⟨m,hinfo,hnodup,hlen,hctx⟩ := h
  have hmeta : readCprMetadata files token st =
      ({ st with checkpoint := { st.checkpoint with logMetadata := m } }, .ok) := by
    unfold readCprMetadata
    rw [hinfo]
  rw [hmeta]
  refine ⟨rfl,?_⟩
  have hfiles : ∀ g ∈ sessions m.guids, ∃ c, files.cprContext token g=some c ∧ c.guid=g := by
    intro g hg
    obtain ⟨c,hfile,hguid,-⟩ := hctx g hg
    exact ⟨c,hfile,hguid⟩
  obtain ⟨added,hread,hmap⟩ := readContexts_ok m.guids [] hfiles hnodup
  unfold readCprContexts
  dsimp only
  rw [hst,hread,if_neg (by simp),if_neg]
  rw [←hlen,←hmap,length_map,nil_append]
  exact fun hne => hne rfl

end

/-- What the metadata list at the place of a thread. -/
def listed (s : State) (u : ℕ) : Guid := if entered s.base u then (s.own u).guid else 0

/-- A log checkpoint in progress. -/
structure During (s : State) : Prop where
  guids : s.checkpoint.logMetadata.guids = roster (listed s)
  count : s.checkpoint.logMetadata.numThreads.toNat = (sessions (roster (listed s))).length
  /-- The sessions that have moved to the next version. -/
  left : ∀ u, entered s.base u = true → 4 ≤ prog s.base u → (s.prev u).guid = (s.own u).guid ∧
    s.point s.base.started (s.own u).guid = some ((s.prev u).serialNum, (s.prev u).offset)
  /-- The sessions that have written their contexts. -/
  written : ∀ u, entered s.base u = true → Finishing s.base u .waitFlush →
    s.files.cprContext s.base.started (s.own u).guid = some (s.prev u)

/-- The sessions have guids of their own. -/
structure Guids (s : State) : Prop where
  nonzero : ∀ u, Live s.base u → (s.own u).guid ≠ 0
  distinct : ∀ u u', Live s.base u → Live s.base u' → (s.own u).guid = (s.own u').guid → u = u'

/-- The invariant of the listed sessions. -/
structure Listed (s : State) : Prop where
  base : Base s.base
  info : Info s
  guids : Guids s
  during : s.base.systemState.phase ≠ .rest → Log s.base → During s
  past : ∀ n ∈ s.completed, Recoverable s.files s.point n

/-- What the list depends on stays. -/
structure Same (s s' : State) : Prop where
  started : s'.base.started = s.base.started
  guid : ∀ u, (s'.own u).guid = (s.own u).guid
  prev : s'.prev = s.prev
  guids : s'.checkpoint.logMetadata.guids = s.checkpoint.logMetadata.guids
  numThreads : s'.checkpoint.logMetadata.numThreads = s.checkpoint.logMetadata.numThreads
  context : s'.files.cprContext = s.files.cprContext
  point : s'.point = s.point

section

variable {s s' : State} {t u n : ℕ} {l : Phases.Label} {x : Choice} {b' : Phases.State}
  {w next final prev cur : SystemState} {r : Return} {seen : Option ℕ} {ready has : Bool}

theorem live_of_entered {b : Phases.State} (h : entered b u=true) : Live b u := .inl (and_eq_true_iff.mp h).1

theorem During.keep (h : During s) (hk : Same s s')
    (hent : ∀ u, entered s'.base u=entered s.base u ∧ (4≤prog s'.base u → 4≤prog s.base u))
    (hfin : ∀ u, Finishing s'.base u .waitFlush → Finishing s.base u .waitFlush) : During s' := by
  have hlisted : listed s'=listed s := by
    funext u
    unfold listed
    rw [(hent u).1,hk.guid]
  refine ⟨?_,?_,?_,?_⟩
  · rw [hk.guids,hlisted]
    exact h.guids
  · rw [hk.numThreads,hlisted]
    exact h.count
  · intro u hu hle
    rw [(hent u).1] at hu
    rw [hk.prev,hk.guid,hk.point,hk.started]
    exact h.left u hu ((hent u).2 hle)
  · intro u hu hf
    rw [(hent u).1] at hu
    rw [hk.prev,hk.guid,hk.context,hk.started]
    exact h.written u hu (hfin u hf)

/-- The place of a session crosses the prepare phase and the next one only at these. -/
theorem cross_of_next (hlog : IsLogCheckpoint prev.action) (hn : prev.getNextState=some cur)
    (hne : cur.phase ≠ .rest) : (cur.phase=.prepare ∨ (3≤rank prev.phase ↔ 3≤rank cur.phase)) ∧
      ((cur.phase=.inProgress ∧ prev.phase=.prepare) ∨ (4≤rank prev.phase ↔ 4≤rank cur.phase)) := by
  obtain ⟨a,ph,v⟩ := prev
  rcases hlog with ha | ha <;> dsimp only at ha <;> subst ha <;> cases ph <;> cases hn <;> first
    | exact absurd rfl hne
    | simp [rank]

/-- An iteration of the loop, in a log checkpoint. -/
structure Iterates (s : State) (t : ℕ) (b' : Phases.State) (prev cur : SystemState) (e : Event) : Prop where
  calm : Calm s.base b'
  thread : t < kMaxNumThreads
  on : s.base.isProtected t = true
  isProtected : b'.isProtected = s.base.isProtected
  before : prog s.base t = rank prev.phase
  after : prog b' t = rank cur.phase
  elsewhere : ∀ u, u ≠ t → prog b' u = prog s.base u ∧ entered b' u = entered s.base u
  finishing : ∀ u, Finishing b' u .waitFlush → Finishing s.base u .waitFlush ∨ (u = t ∧ e = .writeCprContext)
  reached : Finishing s.base t .waitFlush → 6 ≤ rank prev.phase

theorem iterates_of_step (hb : Base s.base) (hlog : Log s.base) (hp : s.base.pc t=.iterate final prev)
    (hn : nextWord final prev=some cur) (hc : callStep s.base t ready (s.base.pc t)=some b')
    (hl : l.thread=t) (hs : Phases.step s.base l=some b') :
    Iterates s t b' prev cur (loopEvent cur prev (decide (s.base.phaseFinished t=cur.phase)) ready) := by
  obtain ⟨cur',hn',hcalm,-,hprot,hpc,hfin⟩ := callStep_iterate hp hc
  obtain rfl : cur'=cur := Option.some_inj.mp (hn'.symm.trans hn)
  refine ⟨hcalm,hl ▸ (step_cases hs).1,hb.acks.on t (by rw [hp]; rfl),hprot,?_,?_,
    fun u hu => elsewhere_entered hs (hl ▸ hu),fun u hu => ?_,?_⟩
  · unfold prog
    rw [hp]
    rfl
  · unfold prog
    rw [hpc]
    exact progress_afterWork _ _ _
  · rcases hfin u .waitFlush hu with hold | ⟨hut,hphase,hwork⟩
    · exact .inl hold
    · exact .inr ⟨hut,loopEvent_of_finish hphase hwork⟩
  · exact hb.reached hlog hp

section

variable {e : Event} (hit : Iterates s t b' prev cur e)
include hit

theorem Iterates.entered_before : entered s.base t=decide (3≤rank prev.phase) := by
  unfold entered
  rw [hit.on,hit.before,Bool.true_and]

theorem Iterates.entered_after : entered b' t=decide (3≤rank cur.phase) := by
  unfold entered
  rw [hit.isProtected,hit.on,hit.after,Bool.true_and]

/-- The session stays on its side of the two phases. -/
theorem Iterates.stays (h3 : 3≤rank prev.phase ↔ 3≤rank cur.phase) (h4 : 4≤rank cur.phase → 4≤rank prev.phase)
    (u : ℕ) : entered b' u=entered s.base u ∧ (4≤prog b' u → 4≤prog s.base u) := by
  by_cases hut : u=t
  · rw [hut,hit.entered_before,hit.entered_after,hit.before,hit.after]
    exact ⟨decide_eq_decide.mpr h3.symm,h4⟩
  · obtain ⟨hprog,hent⟩ := hit.elsewhere u hut
    rw [hprog]
    exact ⟨hent,id⟩

/-- The session enters itself. -/
theorem During.register (h : During s) (hg : Guids s) (hlt : rank prev.phase<3) (hcur : cur.phase=.prepare)
    (he : e=.register) : During { s.apply t x e with base := b' } := by
  subst he
  have hbefore : entered s.base t=false := by
    rw [hit.entered_before]
    exact decide_eq_false (Nat.not_le.mpr hlt)
  have hafter : entered b' t=true := by
    rw [hit.entered_after,hcur]
    rfl
  have hlive : Live s.base t := .inl hit.on
  have hlisted : listed { s.apply t x .register with base := b' } = update (listed s) t (s.own t).guid := by
    funext u
    by_cases hut : u=t
    · rw [hut,update_self]
      exact if_pos hafter
    · rw [update_of_ne hut]
      unfold listed
      rw [show entered _ u=entered s.base u from (hit.elsewhere u hut).2]
      rfl
  have hold : listed s t=0 := if_neg (by rw [hbefore]; decide)
  have hcount := sessions_set hit.thread hold (hg.nonzero t hlive)
  refine ⟨?_,?_,?_,?_⟩
  · rw [hlisted,←roster_set,←h.guids]
    rfl
  · rw [hlisted,←roster_set,hcount,←h.count]
    refine (UInt32.toNat_add _ _).trans (Nat.mod_eq_of_lt ?_)
    rw [h.count]
    exact Nat.lt_of_le_of_lt (Nat.succ_le_succ (sessions_length_le _)) (by decide)
  · intro u hu hle
    have hut : u ≠ t := by
      rintro rfl
      have hle' : 4≤rank cur.phase := hit.after ▸ hle
      rw [hcur] at hle'
      exact absurd hle' (by decide)
    obtain ⟨hprog,hent⟩ := hit.elsewhere u hut
    have hpoint := h.left u (hent ▸ hu) (hprog ▸ hle)
    rw [←hit.calm.started] at hpoint
    exact hpoint
  · intro u hu hf
    have hf' := (hit.finishing u hf).resolve_right (by rintro ⟨-,⟨⟩⟩)
    have hut : u ≠ t := by
      rintro rfl
      exact absurd (hit.reached hf') (by omega)
    have hfile := h.written u ((hit.elsewhere u hut).2 ▸ hu) hf'
    rw [←hit.calm.started] at hfile
    exact hfile

/-- The session moves to the next version. -/
theorem During.swap (h : During s) (hg : Guids s) (hprev : prev.phase=.prepare) (hcur : cur.phase=.inProgress)
    (htoken : s.checkpoint.hybridLogToken=s.base.started) (he : e=.swap true) :
    During { s.apply t x e with base := b' } := by
  subst he
  have hent : ∀ u, entered b' u=entered s.base u := by
    intro u
    by_cases hut : u=t
    · rw [hut,hit.entered_before,hit.entered_after,hprev,hcur]
      rfl
    · exact (hit.elsewhere u hut).2
  have hlisted : listed { s.apply t x (.swap true) with base := b' }=listed s := by
    funext u
    unfold listed
    rw [show entered _ u=entered s.base u from hent u]
    rfl
  refine ⟨?_,?_,?_,?_⟩
  · rw [hlisted]
    exact h.guids
  · rw [hlisted]
    exact h.count
  · intro u hu hle
    rw [show entered _ u=entered s.base u from hent u] at hu
    by_cases hut : u=t
    · rw [hut]
      refine ⟨?_,?_⟩
      · exact congrArg PersistentExecContext.guid (update_self t (s.left t) s.prev)
      · change update s.point s.checkpoint.hybridLogToken _ b'.started (s.own t).guid =
          some ((update s.prev t (s.left t) t).serialNum, (update s.prev t (s.left t) t).offset)
        rw [htoken,hit.calm.started,update_self,update_self,update_self]
        rfl
    · have hne : (s.own u).guid ≠ (s.own t).guid := fun heq =>
        hut (hg.distinct u t (live_of_entered hu) (.inl hit.on) heq)
      obtain ⟨hguid,hpoint⟩ := h.left u hu ((hit.elsewhere u hut).1 ▸ hle)
      change (update s.prev t (s.left t) u).guid=(s.own u).guid ∧
        update s.point s.checkpoint.hybridLogToken _ b'.started (s.own u).guid =
          some ((update s.prev t (s.left t) u).serialNum, (update s.prev t (s.left t) u).offset)
      rw [update_of_ne hut,htoken,hit.calm.started,update_self,update_of_ne hne]
      exact ⟨hguid,hpoint⟩
  · intro u hu hf
    rw [show entered _ u=entered s.base u from hent u] at hu
    have hf' := (hit.finishing u hf).resolve_right (by rintro ⟨-,⟨⟩⟩)
    have hut : u ≠ t := by
      rintro rfl
      have hle := hit.reached hf'
      rw [hprev] at hle
      exact absurd hle (by decide)
    change s.files.cprContext b'.started (s.own u).guid=some (update s.prev t (s.left t) u)
    rw [update_of_ne hut,hit.calm.started]
    exact h.written u hu hf'

/-- The session writes its context. -/
theorem During.write (h : During s) (hg : Guids s) (h3 : 3≤rank prev.phase ↔ 3≤rank cur.phase)
    (h4 : 4≤rank cur.phase → 4≤rank prev.phase) (hcur : cur.phase=.waitFlush)
    (htoken : s.checkpoint.hybridLogToken=s.base.started) (hok : x.writeOk=true) (he : e=.writeCprContext) :
    During { s.apply t x e with base := b' } := by
  subst he
  have hfour : 4≤rank prev.phase := h4 (by rw [hcur]; decide)
  have hself : entered s.base t=true := by
    rw [hit.entered_before]
    exact decide_eq_true (by omega)
  have hguid := (h.left t hself (by rw [hit.before]; exact hfour)).1
  have happly : s.apply t x .writeCprContext={ s with
      files := { s.files with
        cprContext := update s.files.cprContext s.base.started
          (update (s.files.cprContext s.base.started) (s.own t).guid (some (s.prev t))) } } := by
    unfold State.apply
    dsimp only
    rw [if_pos hok,htoken,hguid]
  rw [happly]
  have hlisted : listed { { s with
      files := { s.files with
        cprContext := update s.files.cprContext s.base.started
          (update (s.files.cprContext s.base.started) (s.own t).guid (some (s.prev t))) } } with
      base := b' }=listed s := by
    funext u
    unfold listed
    rw [show entered _ u=entered s.base u from (hit.stays h3 h4 u).1]
  refine ⟨?_,?_,?_,?_⟩
  · rw [hlisted]
    exact h.guids
  · rw [hlisted]
    exact h.count
  · intro u hu hle
    have hpoint := h.left u ((hit.stays h3 h4 u).1 ▸ hu) ((hit.stays h3 h4 u).2 hle)
    rw [←hit.calm.started] at hpoint
    exact hpoint
  · intro u hu hf
    rw [show entered _ u=entered s.base u from (hit.stays h3 h4 u).1] at hu
    change update s.files.cprContext s.base.started _ b'.started (s.own u).guid=some (s.prev u)
    rw [hit.calm.started,update_self]
    by_cases hut : u=t
    · rw [hut,update_self]
    · have hne : (s.own u).guid ≠ (s.own t).guid := fun heq =>
        hut (hg.distinct u t (live_of_entered hu) (.inl hit.on) heq)
      rw [update_of_ne hne]
      exact h.written u hu ((hit.finishing u hf).resolve_right fun hnew => hut hnew.1)

/-- Other transitions of the loop. -/
theorem During.stay (h : During s) (h3 : 3≤rank prev.phase ↔ 3≤rank cur.phase)
    (h4 : 4≤rank cur.phase → 4≤rank prev.phase) (hne : e ≠ .writeCprContext)
    (hk : Same s { s.apply t x e with base := b' }) : During { s.apply t x e with base := b' } :=
  h.keep hk (hit.stays h3 h4) fun u hu => (hit.finishing u hu).resolve_right fun hnew => hne hnew.2

end

/-- An iteration of the loop during a log checkpoint. -/
theorem During.iterate (h : During s) (hb : Base s.base) (hg : Guids s) (hlog : Log s.base)
    (htoken : s.checkpoint.hybridLogToken=s.base.started) (hp : s.base.pc t=.iterate final prev)
    (hn : nextWord final prev=some cur) (hok : x.writeOk=true)
    (hit : Iterates s t b' prev cur (loopEvent cur prev has ready)) :
    During { s.apply t x (loopEvent cur prev has ready) with base := b' } := by
  obtain ⟨hloop,hne,hnext⟩ := hb.iterate hp hn
  have hact : cur.action=s.base.origin.action := hloop.cur.action
  have hcheck : isCheckpoint cur.action=true := by
    rw [hact]
    rcases hlog with ha | ha <;> rw [ha] <;> rfl
  have hcross : (cur.phase=.prepare ∨ (3≤rank prev.phase ↔ 3≤rank cur.phase)) ∧
      ((cur.phase=.inProgress ∧ prev.phase=.prepare) ∨ (4≤rank prev.phase ↔ 4≤rank cur.phase)) := by
    rcases hnext with rfl | ⟨hstate,-⟩
    · exact ⟨.inr Iff.rfl,.inr Iff.rfl⟩
    · refine cross_of_next ?_ hstate hne
      rw [←(PhaseInvariant.getNextState_action hstate).1,hact]
      exact hlog
  by_cases hreg : cur.phase=.prepare ∧ prev.phase ≠ .prepare
  · obtain ⟨hcur,hprev⟩ := hreg
    refine h.register hit hg ?_ hcur ?_
    · refine ((hnext.resolve_left ?_).2).trans_eq (by rw [hcur]; rfl)
      rintro rfl
      exact hprev hcur
    · unfold loopEvent
      rw [hcur,hcheck,decide_eq_true hprev]
      rfl
  by_cases hswap : cur.phase=.inProgress ∧ prev.phase=.prepare
  · refine h.swap hit hg hswap.2 hswap.1 htoken ?_
    unfold loopEvent
    rw [hswap.1,hcheck,decide_eq_true hswap.2]
    rfl
  -- The session stays where it is with respect to both phases.
  have h3 : 3≤rank prev.phase ↔ 3≤rank cur.phase := by
    refine hcross.1.elim (fun hcur => ?_) id
    have hprev : prev.phase=.prepare := by
      by_contra hno
      exact hreg ⟨hcur,hno⟩
    rw [hcur,hprev]
  have h4 := (hcross.2.resolve_left hswap).mpr
  have hspec := loopEvent_spec cur prev has ready
  generalize loopEvent cur prev has ready=e at hspec hit ⊢
  cases hspec with
  | quiet => exact h.stay hit h3 h4 (by rintro ⟨⟩) ⟨hit.calm.started,fun _ => rfl,rfl,rfl,rfl,rfl,rfl⟩
  | indexResult =>
    refine h.stay hit h3 h4 (by rintro ⟨⟩) ?_
    unfold State.apply
    dsimp only
    split_ifs <;> exact ⟨hit.calm.started,fun _ => rfl,rfl,rfl,rfl,rfl,rfl⟩
  | register hcur hprev => exact absurd ⟨hcur,hprev⟩ hreg
  | swap hcur hprev => exact absurd ⟨hcur,hprev⟩ hswap
  | collect hcur =>
    have hmem := hloop.cur.phase
    rcases hlog with ha | ha <;> rw [ha,show (Phases.Loop.mk final cur).cur.phase=.gcIoPending from hcur] at hmem <;>
      exact absurd hmem (by decide)
  | writeCprContext hcur => exact h.write hit hg h3 h4 hcur htoken hok rfl
  | persistenceCallback => exact h.stay hit h3 h4 (by rintro ⟨⟩) ⟨hit.calm.started,fun _ => rfl,rfl,rfl,rfl,rfl,rfl⟩

theorem Guids.keep (h : Guids s) (hlive : ∀ u, Live s'.base u → Live s.base u)
    (hguid : ∀ u, (s'.own u).guid=(s.own u).guid) : Guids s' := by
  refine ⟨fun u hu => ?_,fun u u' hu hu' heq => ?_⟩
  · rw [hguid]
    exact h.nonzero u (hlive u hu)
  · rw [hguid,hguid] at heq
    exact h.distinct u u' (hlive u hu) (hlive u' hu') heq

/-- A session joins with a guid of its own. -/
theorem Guids.join (h : Guids s) (hb : Base s.base) (hp : s.base.pc t=.sessionLoad)
    (hlive : ∀ u, u ≠ t → Live b' u → Live s.base u) (hne : x.session.guid ≠ 0)
    (hnew : ∀ u, Live s.base u → (s.own u).guid ≠ x.session.guid) :
    Guids { s.apply t x .join with base := b' } := by
  have hoff : ∀ u, Live s.base u → u ≠ t := by
    rintro u (hon | ⟨-,hload⟩) rfl
    · have hpc := hb.rounds.walk.pcs u
      rw [hp] at hpc
      exact absurd (hon.symm.trans hpc) (by decide)
    · exact hload hp
  have hself : (update s.own t x.session t).guid=x.session.guid := by rw [update_self]
  have hother : ∀ u, u ≠ t → (update s.own t x.session u).guid=(s.own u).guid := by
    intro u hu
    rw [update_of_ne hu]
  refine ⟨fun u hu => ?_,fun u u' hu hu' heq => ?_⟩
  · change (update s.own t x.session u).guid ≠ 0
    by_cases hut : u=t
    · rw [hut,hself]
      exact hne
    · rw [hother u hut]
      exact h.nonzero u (hlive u hut hu)
  · change (update s.own t x.session u).guid=(update s.own t x.session u').guid at heq
    by_cases hut : u=t <;> by_cases hut' : u'=t
    · rw [hut,hut']
    · rw [hut,hself,hother u' hut'] at heq
      exact absurd heq.symm (hnew u' (hlive u' hut' hu'))
    · rw [hut',hself,hother u hut] at heq
      exact absurd heq (hnew u (hlive u hut hu))
    · rw [hother u hut,hother u' hut'] at heq
      exact h.distinct u u' (hlive u hut hu) (hlive u' hut' hu') heq

/-- The files of other checkpoints do not matter. -/
theorem Recoverable.congr {files files' : Files} {point point' : Guid → Guid → Option (ℕ × ℕ)}
    (h : Recoverable files point n) (hinfo : files'.cprInfo n=files.cprInfo n)
    (hctx : files'.cprContext n=files.cprContext n) (hpoint : point' n=point n) : Recoverable files' point' n := by
  unfold Recoverable
  rw [hinfo,hctx,hpoint]
  exact h

/-- The first phase of a checkpoint is published: nobody has entered himself. -/
theorem During.publish {a : Action} {v : UInt32} {p : Phase} (hb : Base s.base)
    (hp : s.base.pc t=.publish a v) (hlog : Log s.base) :
    During { s.apply t x (if isCheckpoint a then .init a else .quiet) with
      base := { s.base with systemState := ⟨a,p,v⟩ }.goto t (afterPublish a) } := by
  have hop : opening (s.base.pc t)=some (a, v) := by
    rw [hp]
    rfl
  obtain ⟨⟨-,horigin⟩,hctx⟩ := hb.rounds.walk.opened t a v hop
  have ha : isCheckpoint a=true ∧ a ≠ .checkpointIndex := by
    unfold Log at hlog
    rw [horigin] at hlog
    rcases hlog with ha | ha <;> dsimp only at ha <;> subst ha <;> exact ⟨rfl,by decide⟩
  have hnot : ∀ u, entered ({ s.base with systemState := ⟨a,p,v⟩ }.goto t (afterPublish a)) u=false := by
    intro u
    by_contra hyes
    rw [not_eq_false] at hyes
    obtain ⟨hon,hle⟩ := and_eq_true_iff.mp hyes
    have hle' := of_decide_eq_true hle
    have hlive : Live s.base u := .inl hon
    obtain ⟨hrest,hengaged⟩ := hctx u hlive
    unfold prog at hle'
    by_cases hut : u=t
    · rw [hut] at hle' hrest
      rw [goto_self] at hle'
      change 3≤progress (s.base.ctx t) (afterPublish a) at hle'
      rw [hrest] at hle'
      cases a <;> exact absurd hle' (Nat.not_le.mpr (Nat.zero_lt_succ 2))
    · have hquiet := hengaged hut
      rw [goto_of_ne hut] at hle'
      change 3≤progress (s.base.ctx u) (s.base.pc u) at hle'
      rw [hrest] at hle'
      cases hpu : s.base.pc u <;> rw [hpu] at hquiet hle' <;> first
        | exact absurd hle' (Nat.not_le.mpr (Nat.zero_lt_succ 2))
        | cases hquiet
  rw [if_pos ha.1]
  have hlisted : listed { s.apply t x (.init a) with
      base := { s.base with systemState := ⟨a,p,v⟩ }.goto t (afterPublish a) }=fun _ => 0 := by
    funext u
    exact if_neg (by rw [hnot u]; decide)
  have hmeta : (initCheckpoint a s.base.started s.base.systemState.version x.indexMetadata).logMetadata =
      .init false s.base.systemState.version Layout.kInvalidAddress := if_neg ha.2
  have hguids : (s.apply t x (.init a)).checkpoint.logMetadata.guids=roster fun _ => 0 := by
    change (initCheckpoint a s.base.started s.base.systemState.version x.indexMetadata).logMetadata.guids=_
    rw [hmeta]
    exact (by decide : replicate kMaxNumThreads 0=roster fun _ => 0)
  have hcount : (s.apply t x (.init a)).checkpoint.logMetadata.numThreads=0 := by
    change (initCheckpoint a s.base.started s.base.systemState.version x.indexMetadata).logMetadata.numThreads=_
    rw [hmeta]
    rfl
  refine ⟨?_,?_,?_,?_⟩
  · rw [hlisted]
    exact hguids
  · rw [hlisted]
    refine (congrArg UInt32.toNat hcount).trans ?_
    decide
  · intro u hu
    rw [hnot u] at hu
    cases hu
  · intro u hu
    rw [hnot u] at hu
    cases hu

/-- The end of a move, in the course of a checkpoint. -/
theorem same_settle {e : Event} (h : SettleEvent next e) (hne : next.phase ≠ .rest)
    (hb : b'.started=s.base.started) : Same s { s.apply t x e with base := b' } := by
  cases h with
  | quiet => exact ⟨hb,fun _ => rfl,rfl,rfl,rfl,rfl,rfl⟩
  | checkpointFuzzyIndex =>
    unfold State.apply
    cases x.refused <;> exact ⟨hb,fun _ => rfl,rfl,rfl,rfl,rfl,rfl⟩
  | prepare | writeCprMetadata =>
    unfold State.apply
    cases x.writeOk <;> exact ⟨hb,fun _ => rfl,rfl,rfl,rfl,rfl,rfl⟩
  | indexDone hn | checkpointDone hn => exact absurd hn hne

/-- What is listed during a checkpoint. -/
theorem Listed.during_change (h : Listed s) (hl : l.thread=t) (hok : x.writeOk=true)
    (hs : Phases.step s.base l=some s'.base) (hc : Change s t x s') (hne : s'.base.systemState.phase ≠ .rest)
    (hlog : Log s'.base) : During s' := by
  subst hl
  -- Outside the loop the sessions stay where they are.
  have hstay : s.base.systemState.phase ≠ .rest → Log s.base →
      (∀ final prev, s.base.pc l.thread ≠ .iterate final prev) → ∀ u,
      entered s'.base u=entered s.base u ∧ (4≤prog s'.base u → 4≤prog s.base u) := by
    intro hne hlog hni u
    obtain ⟨hprog,hent⟩ := step_entered h.base hne hlog hni hs u
    rw [hprog]
    exact ⟨hent,id⟩
  cases hc with
  | still hst hni =>
    have hne' : s.base.systemState.phase ≠ .rest := hst.sys ▸ hne
    have hlog' : Log s.base := by
      unfold Log
      rw [←hst.origin]
      exact hlog
    exact (h.during hne' hlog').keep ⟨hst.started,fun _ => rfl,rfl,rfl,rfl,rfl,rfl⟩
      (hstay hne' hlog' hni) fun u => hst.finishing u _ (by decide)
  | join hst hp hrest =>
    have hne' : s.base.systemState.phase ≠ .rest := hst.sys ▸ hne
    exact absurd hrest hne'
  | iterate hp hn hcs =>
    obtain ⟨-,-,hcalm,-⟩ := callStep_iterate hp hcs
    have hne' : s.base.systemState.phase ≠ .rest := hcalm.sys ▸ hne
    have hlog' : Log s.base := by
      unfold Log
      rw [←hcalm.origin]
      exact hlog
    exact (h.during hne' hlog').iterate h.base h.guids hlog' (h.info.token hne' hlog') hp hn hok
      (iterates_of_step h.base hlog' hp hn hcs rfl hs)
  | @move w next seen r hp hsys hn =>
    have hne' : s.base.systemState.phase ≠ .rest := by
      rw [hsys]
      exact h.base.rounds.inv.target l.thread w (by rw [hp]; rfl)
    refine (h.during hne' hlog).keep ?_ (hstay hne' hlog (by rw [hp]; rintro _ _ ⟨⟩))
      fun u => finishing_goto rfl rfl (by rintro _ _ ⟨⟩)
    split_ifs <;> exact ⟨rfl,fun _ => rfl,rfl,rfl,rfl,rfl,rfl⟩
  | @settle next r hp =>
    have hnext : next.phase ≠ .rest := by
      intro hrest
      refine hne ?_
      change (settled s.base next).systemState.phase=.rest
      unfold settled
      rw [if_pos hrest]
    have hsettled : settled s.base next=s.base := if_neg hnext
    rw [hsettled] at hne hlog hs hstay ⊢
    exact (h.during hne hlog).keep (same_settle (settleEvent_spec next) hnext rfl)
      (hstay hne hlog (by rw [hp]; rintro _ _ ⟨⟩)) fun u => finishing_goto rfl rfl fun w' r' => afterMove_ne_ack r w' r'
  | start hp hsys => exact absurd rfl hne
  | publish hp hn => exact .publish h.base hp hlog

/-- When the last phase ends, every session that is listed has written its context. -/
theorem During.recoverable (h : During s) (hb : Base s.base) (hg : Guids s) (hlog : Log s.base)
    (hinfo : info s=some s.checkpoint.logMetadata) (hphase : s.base.systemState.phase=.persistenceCallback) :
    Recoverable s.files s.point s.base.started := by
  have hne : s.base.systemState.phase ≠ .rest := by
    rw [hphase]
    decide
  have hentered : ∀ u, listed s u ≠ 0 → entered s.base u=true ∧ listed s u=(s.own u).guid := by
    intro u hu
    by_cases hent : entered s.base u=true
    · exact ⟨hent,if_pos hent⟩
    · exact absurd (if_neg hent) hu
  refine ⟨_,hinfo,?_,?_,?_⟩
  · rw [h.guids]
    refine sessions_nodup fun u u' hu heq => ?_
    obtain ⟨hent,hself⟩ := hentered u hu
    obtain ⟨hent',hself'⟩ := hentered u' (heq ▸ hu)
    rw [hself,hself'] at heq
    exact hg.distinct u u' (live_of_entered hent) (live_of_entered hent') heq
  · rw [h.guids,h.count]
  · intro g hmem
    rw [h.guids] at hmem
    obtain ⟨hroster,hg0⟩ := mem_filter.mp hmem
    obtain ⟨u,-,rfl⟩ := mem_roster.mp hroster
    obtain ⟨hent,hself⟩ := hentered u (of_decide_eq_true hg0)
    have hon := (and_eq_true_iff.mp hent).1
    have hacked := hb.acks.passed hne .waitFlush (asked_of_log hlog (by decide)) (by rw [hphase]; decide) u
      (hb.tracked u hon) hon
    have hle := hb.acks.reached (hb.rounds.walk.sys hne).1 hlog u (.inl hne) .waitFlush hacked
    obtain ⟨hguid,hpoint⟩ := h.left u hent ((by decide : 4≤rank Phase.waitFlush).trans hle)
    rw [hself]
    exact ⟨s.prev u,h.written u hent (.inl hacked),hguid,hpoint⟩

/-- The last phase of a log checkpoint. -/
theorem persistenceCallback_of_rest (hlog : IsLogCheckpoint w.action) (hn : w.getNextState=some next)
    (hrest : next.phase=.rest) : w.phase=.persistenceCallback := by
  obtain ⟨a,ph,v⟩ := w
  rcases hlog with ha | ha <;> dsimp only at ha <;> subst ha <;> cases ph <;> cases hn <;> first
    | rfl
    | cases hrest

/-- A session that swaps its contexts or writes one does so for a checkpoint in progress. -/
theorem Listed.token_of_behind (h : Listed s) (hp : s.base.pc t=.iterate final prev)
    (hn : nextWord final prev=some cur) (hle : 3≤rank cur.phase) (hlt : rank cur.phase<7) :
    s.checkpoint.hybridLogToken=s.base.started ∧ s.base.started ∉ s.completed := by
  obtain ⟨hloop,-,hnext⟩ := h.base.iterate hp hn
  have hlog : Log s.base := log_of_phase hloop.cur hle
  have hprev : rank prev.phase≤rank cur.phase := by
    rcases hnext with rfl | ⟨-,hup⟩
    · exact le_rfl
    · exact hup.le
  have hne := (h.base.behind (q := .persistenceCallback) hp hlog (by decide) (hprev.trans_lt hlt)).1
  exact ⟨h.info.token hne hlog,fun hmem => hne (h.info.completed hmem).1⟩

/-- The files of completed checkpoints stay complete. -/
theorem Listed.past_change (h : Listed s) (hc : Change s t x s') : ∀ n ∈ s'.completed, Recoverable s'.files s'.point n := by
  cases hc with
  | still => exact h.past
  | join => exact h.past
  | start => exact h.past
  | @iterate final prev cur b' ready hp hn hcs =>
    have hspec := loopEvent_spec cur prev (decide (s.base.phaseFinished t=cur.phase)) (s.ready ready (.iterate final prev))
    generalize loopEvent cur prev (decide (s.base.phaseFinished t=cur.phase)) (s.ready ready (.iterate final prev))=e
      at hspec ⊢
    cases hspec with
    | quiet => exact h.past
    | indexResult =>
      unfold State.apply
      dsimp only
      split_ifs <;> exact h.past
    | register => exact h.past
    | collect => exact h.past
    | persistenceCallback => exact h.past
    | swap hcur =>
      obtain ⟨htoken,hnot⟩ := h.token_of_behind hp hn (by rw [hcur]; decide) (by rw [hcur]; decide)
      intro n hmem
      refine (h.past n hmem).congr rfl rfl (update_of_ne ?_ _ _)
      rintro rfl
      rw [htoken] at hmem
      exact hnot hmem
    | writeCprContext hcur =>
      obtain ⟨htoken,hnot⟩ := h.token_of_behind hp hn (by rw [hcur]; decide) (by rw [hcur]; decide)
      intro n hmem
      unfold State.apply at hmem ⊢
      dsimp only at hmem ⊢
      split_ifs at hmem ⊢
      · refine (h.past n hmem).congr rfl (update_of_ne ?_ _ _) rfl
        rintro rfl
        have hmem' : s.checkpoint.hybridLogToken ∈ s.completed := hmem
        rw [htoken] at hmem'
        exact hnot hmem'
      · exact h.past n hmem
  | @move w next seen r hp hsys hn =>
    have hne : s.base.systemState.phase ≠ .rest := by
      rw [hsys]
      exact h.base.rounds.inv.target t w (by rw [hp]; rfl)
    split_ifs with hcomp
    · have hon := (h.base.rounds.walk.sys hne).2
      rw [hsys] at hon
      obtain ⟨hlog,hrest⟩ := (completes_iff hon hn).mp hcomp
      have hphase : s.base.systemState.phase=.persistenceCallback := by
        rw [hsys]
        exact persistenceCallback_of_rest (by rw [hon.action]; exact hlog) hn hrest
      intro n hmem
      rcases mem_cons.mp hmem with rfl | hold
      · rw [h.info.token hne hlog]
        exact (h.during hne hlog).recoverable h.base h.guids hlog (h.info.calling hphase) hphase
      · exact h.past n hold
    · exact h.past
  | @settle next r hp =>
    have hspec := settleEvent_spec next
    generalize settleEvent next=e at hspec ⊢
    cases hspec with
    | quiet => exact h.past
    | checkpointDone => exact h.past
    | checkpointFuzzyIndex =>
      unfold State.apply
      cases x.refused <;> exact h.past
    | prepare | indexDone =>
      unfold State.apply
      cases x.writeOk <;> exact h.past
    | writeCprMetadata hwf =>
      obtain ⟨hlog,hne,-⟩ := h.base.settling hp hwf
      have htoken := h.info.token hne hlog
      intro n hmem
      unfold State.apply at hmem ⊢
      dsimp only at hmem ⊢
      split_ifs
      · refine (h.past n hmem).congr (update_of_ne ?_ _ _) rfl rfl
        rintro rfl
        have hmem' : s.checkpoint.hybridLogToken ∈ s.completed := hmem
        rw [htoken] at hmem'
        exact hne (h.info.completed hmem').1
      · exact h.past n hmem
  | publish => split_ifs <;> exact h.past

/-- Only a session that joins gets a new context. -/
theorem apply_own {e : Event} (he : e ≠ .join) : (s.apply t x e).own=s.own := by
  unfold State.apply
  split <;> first
    | rfl
    | exact absurd rfl he
    | (split_ifs <;> rfl)
    | (cases x.refused <;> rfl)

theorem loopEvent_ne_join (cur prev : SystemState) (has ready : Bool) : loopEvent cur prev has ready ≠ .join := by
  intro he
  have hspec := loopEvent_spec cur prev has ready
  rw [he] at hspec
  cases hspec

theorem settleEvent_ne_join (next : SystemState) : settleEvent next ≠ .join := by
  intro he
  have hspec := settleEvent_spec next
  rw [he] at hspec
  cases hspec

/-- What the guids of the sessions are after a step. -/
theorem Listed.guids_change (h : Listed s) (hl : l.thread=t) (hs : Phases.step s.base l=some s'.base)
    (hc : Change s t x s') (hguid : s.base.pc t=.sessionLoad → s.base.systemState.phase=.rest →
      x.session.guid ≠ 0 ∧ ∀ u, Live s.base u → (s.own u).guid ≠ x.session.guid) : Guids s' := by
  subst hl
  have hlive : (s.base.pc l.thread=.sessionLoad → s.base.systemState.phase ≠ .rest) →
      ∀ u, Live s'.base u → Live s.base u := by
    intro hno u hu
    refine (step_live hs hu).resolve_right ?_
    rintro ⟨rfl,hp,hrest⟩
    exact hno hp hrest
  have hkeep : ∀ e, e ≠ .join → s'.own=(s.apply l.thread x e).own → (s.base.pc l.thread ≠ .sessionLoad) → Guids s' := by
    intro e he hown hp
    refine h.guids.keep (hlive fun hload => absurd hload hp) fun u => ?_
    rw [hown,apply_own he]
  cases hc with
  | still _ _ hjoin => exact h.guids.keep (hlive hjoin) fun _ => rfl
  | join hst hp hrest =>
    obtain ⟨hne,hnew⟩ := hguid hp hrest
    refine h.guids.join h.base hp (fun u hu hu' => ?_) hne hnew
    exact (step_live hs hu').resolve_right fun hjoin => hu hjoin.1
  | iterate hp => exact hkeep _ (loopEvent_ne_join _ _ _ _) rfl (by rw [hp]; rintro ⟨⟩)
  | move hp | publish hp => exact hkeep _ (by split_ifs <;> rintro ⟨⟩) rfl (by rw [hp]; rintro ⟨⟩)
  | settle hp => exact hkeep _ (settleEvent_ne_join _) rfl (by rw [hp]; rintro ⟨⟩)
  | start hp => exact hkeep .quiet (by rintro ⟨⟩) rfl (by rw [hp]; rintro ⟨⟩)

end

/-- Actions start when the sessions are back in the rest phase, and publish their first phase
when nobody is joining. No session runs on thread 0, and every session that joins has a guid
of its own. The files are written. -/
def steady : Guard State Label := fun s label =>
  match label with
  | .phase l x => joinsBetween s.base (s.label l) ∧ l.thread ≠ 0 ∧ x.writeOk = true ∧
      (s.base.pc l.thread = .sessionLoad → s.base.systemState.phase = .rest →
        x.session.guid ≠ 0 ∧ ∀ u, Live s.base u → (s.own u).guid ≠ x.session.guid)
  | _ => True

section

variable {s s' : State} {n bufferSize : ℕ} {label : Label} {F L : Type}

theorem Listed.of_fresh (h : Fresh bufferSize s) : Listed s := by
  obtain ⟨-,hrest,hidle,-⟩ := h.quiescent
  have hlive : ∀ u, ¬Live s.base u := by
    rintro u (hon | ⟨hbusy,-⟩)
    · rw [h.unprotected] at hon
      cases hon
    · exact hbusy (hidle u)
  refine ⟨.of_quiescent h.quiescent h.unprotected,.of_fresh h,
    ⟨fun u hu => absurd hu (hlive u),fun u _ hu => absurd hu (hlive u)⟩,fun hne => absurd hrest hne,?_⟩
  rw [h.completed]
  exact fun n hmem => absurd hmem not_mem_nil

/-- Steps beside the phase protocol. -/
theorem Listed.aside (h : Listed s) (hbase : s'.base=s.base) (hcheckpoint : s'.checkpoint=s.checkpoint)
    (hfiles : s'.files=s.files) (hprev : s'.prev=s.prev) (hpoint : s'.point=s.point)
    (hcompleted : s'.completed=s.completed) (hguid : ∀ u, (s'.own u).guid=(s.own u).guid) : Listed s' := by
  refine ⟨hbase ▸ h.base,h.info.keep ?_,h.guids.keep (fun u hu => hbase ▸ hu) hguid,?_,?_⟩
  · refine ⟨by rw [hbase],by rw [hbase],by rw [hbase],fun u => by rw [hbase],fun u o ho => hbase ▸ ho,
      by rw [hcheckpoint],fun _ => by rw [hcheckpoint],by rw [hfiles],hcompleted⟩
  · intro hne hlog
    rw [hbase] at hne hlog
    refine (h.during hne hlog).keep ⟨by rw [hbase],hguid,hprev,by rw [hcheckpoint],by rw [hcheckpoint],
      by rw [hfiles],hpoint⟩ (fun u => ?_) fun u hu => hbase ▸ hu
    rw [hbase]
    exact ⟨rfl,id⟩
  · rw [hcompleted,hfiles,hpoint]
    exact h.past

/-- Every step keeps the invariant. -/
theorem Listed.step (h : Listed s) (hguard : steady s label) (hs : step bufferSize s label=some s') : Listed s' := by
  cases label with
  | phase l x =>
    obtain ⟨hjoins,hzero,hok,hguid⟩ := hguard
    obtain ⟨hstep,hc⟩ := change_of_step hs
    have hthread := label_thread s l
    have hb' := h.base.step hjoins (by rw [hthread]; exact hzero) hstep
    exact ⟨hb',h.info.change h.base hb' hok hc,h.guids_change hthread hstep hc hguid,
      h.during_change hthread hok hstep hc,h.past_change hc⟩
  | log l ok =>
    obtain ⟨log,-,rfl⟩ := Option.map_eq_some_iff.mp hs
    exact h.aside rfl rfl rfl rfl rfl rfl fun _ => rfl
  | indexWrite w ok closed =>
    obtain ⟨-,rfl⟩ := of_guard hs
    exact h.aside rfl rfl rfl rfl rfl rfl fun _ => rfl
  | operate t serialNum offset =>
    obtain ⟨-,rfl⟩ := of_guard hs
    refine h.aside rfl rfl rfl rfl rfl rfl fun u => ?_
    change (update s.own t { s.own t with serialNum, offset } u).guid=(s.own u).guid
    by_cases hut : u=t
    · rw [hut,update_self]
    · rw [update_of_ne hut]

theorem reachable_listed (hs : Reachable (machine bufferSize) steady s) : Listed s :=
  hs.invariant (fun _ => .of_fresh) fun _ _ _ h hok hstep => h.step hok hstep

/-- The metadata of every completed checkpoint list exactly `num_threads` different sessions,
there is a context file for each of them, and `Recover` can read them. -/
theorem checkpoints_recoverable (hs : Reachable (machine bufferSize) steady s) (hn : n ∈ s.completed)
    (st : Store F L) (hst : st.checkpoint.continueTokens = []) :
    Recoverable s.files s.point n ∧ (readCprMetadata s.files n st).2 = .ok ∧
      (readCprContexts s.files n (readCprMetadata s.files n st).1).2 = .ok := by
  have h := (reachable_listed hs).past n hn
  exact ⟨h,h.reads st hst⟩

/-- A check of the guard for sessions on the given threads. -/
def steadyCheck (threads : List ℕ) (s : State) : Label → Bool
  | .phase l x => (joinsCheck threads s.base (s.label l) && (decide (l.thread ≠ 0) && x.writeOk)) &&
      (decide (x.session.guid ≠ 0) && threads.all fun u =>
        decide (s.base.pc l.thread = .sessionLoad → (s.own u).guid ≠ x.session.guid))
  | _ => true

theorem steady_of_check {threads : List ℕ} (h : Among threads s.base)
    (hcheck : steadyCheck threads s label=true) (hs : step bufferSize s label=some s') :
    steady s label ∧ Among threads s'.base := by
  cases label with
  | phase l x =>
    rw [steadyCheck,and_eq_true,and_eq_true,and_eq_true,and_eq_true] at hcheck
    obtain ⟨⟨hjoins,hzero,hok⟩,hguid,hall⟩ := hcheck
    obtain ⟨hstep,-⟩ := change_of_step hs
    have hmem : (s.label l).thread ∈ threads := by
      rw [joinsCheck,and_eq_true] at hjoins
      exact contains_iff_mem.mp hjoins.1
    refine ⟨⟨h.joinsBetween hjoins,of_decide_eq_true hzero,hok,fun hp _ =>
      ⟨of_decide_eq_true hguid,fun u hu => ?_⟩⟩,h.step hmem hstep⟩
    exact of_decide_eq_true (all_eq_true.mp hall u (h.mem hu)) hp
  | log l ok =>
    obtain ⟨log,-,rfl⟩ := Option.map_eq_some_iff.mp hs
    exact ⟨trivial,h⟩
  | indexWrite w ok closed | operate t serialNum offset =>
    obtain ⟨-,rfl⟩ := of_guard hs
    exact ⟨trivial,h⟩

end

/-- A new store of version 1. -/
def newStore : State where
  base := ⟨⟨.none, .rest, 1⟩, fun _ => false, fun _ => .rest, fun _ => ⟨.invalid, 0⟩, fun _ => .idle, 0,
    ⟨.none, .rest, 1⟩, fun _ _ => false⟩
  log := PersistentMemoryMalloc.initial
  own := fun _ => ⟨0, 0, 0⟩
  prev := fun _ => ⟨0, 0, 0, 0⟩
  checkpoint := ⟨false, 0, 0, .reset, .reset, []⟩
  index := .idle
  files := ⟨fun _ => none, fun _ => none, fun _ _ => none, fun _ => none, fun _ => none, fun _ => none⟩
  lost := []
  issued := fun _ => []
  written := fun _ => []
  point := fun _ _ => none
  completed := []
  reports := []

theorem newStore_fresh : Fresh 64 newStore :=
  ⟨⟨rfl,rfl,fun _ => rfl,rfl⟩,fun _ => rfl,DurablePrefix.inv_initial,rfl,by decide,fun _ => rfl,rfl,rfl,rfl⟩

/-- The thread calls a function and takes some steps of it; its session has the guid `t + 10`. -/
def calls (t : ℕ) (act : Phases.Act) (n : ℕ) : List Label :=
  let x : Choice := ⟨⟨t + 10, 0, 0⟩, true, 1, none, .reset⟩
  .phase ⟨t, act⟩ x :: List.replicate n (.phase ⟨t, .step true⟩ x)

/-- A record of 64 bytes is allocated, and its page is flushed. -/
def flushes : List Label :=
  let thread := fun act => Label.log (.thread 1 act) true
  [thread (.allocate 64), thread .shiftReadOnlyToTail, thread .step, thread .step,
    thread (.runAction (.onPagesMarkedReadOnly 128))] ++ List.replicate 4 (thread .step) ++
    [thread (.complete ⟨0, 128, 128⟩)] ++ List.replicate 6 (thread .step)

/-- The thread starts a checkpoint of the log. -/
def checkpoints (t : ℕ) : List Label := calls t (.start .checkpointHybridLog) 99

/-- In each phase of the checkpoint thread 1 refreshes, and then thread 2 refreshes and moves
it on. -/
def bothRefresh : List Label := calls 1 .refresh 10 ++ calls 2 .refresh 200

/-- The new store that reads the checkpoint. -/
def reader : Store ℕ Unit := Recovery.newStore ⟨.none, .rest, 1⟩

/-- A checkpoint of two sessions, one of which has ingested a record. -/
theorem checkpoints_recoverable_two : ∃ s, Reachable (machine 64) steady s ∧ 1 ∈ s.completed ∧
    s.files.cprContext 1 11 = some ⟨5, 100, 1, 11⟩ ∧ Recoverable s.files s.point 1 ∧
    (readCprContexts s.files 1 (readCprMetadata s.files 1 reader).1).2 = .ok := by
  have hrun : (execGuarded (machine 64) (steadyCheck [1,2]) newStore
      (flushes ++ calls 1 .startSession 3 ++ calls 2 .startSession 3 ++ [.operate 1 5 100] ++ checkpoints 1 ++
        (replicate 5 bothRefresh).flatten)).any (fun s =>
          decide (1 ∈ s.completed ∧ s.files.cprContext 1 11=some ⟨5,100,1,11⟩))=true := by
    decide +kernel
  obtain ⟨s,hr,hend⟩ := exists_run_of_execGuarded (fun _ _ => id) hrun
  obtain ⟨hcompleted,hfile⟩ := of_decide_eq_true hend
  have hs : Reachable (machine 64) steady s := ⟨_,newStore_fresh,
    (hr.strengthen (P := fun s => Among [1,2] s.base) (fun _ _ _ h hc hstep => steady_of_check h hc hstep)
      fun _ _ => ⟨rfl,rfl⟩).1⟩
  obtain ⟨hrec,-,hread⟩ := checkpoints_recoverable hs hcompleted reader rfl
  exact ⟨s,hs,hcompleted,hfile,hrec,hread⟩

/-- Sessions on the threads 0 and 1 enter themselves in the prepare phase, and then only
thread 1 refreshes. The checkpoint completes without the context file of thread 0, and
`ReadCprContexts` returns `IOError`. -/
theorem context_file_missing : ∃ s m, Fresh 64 newStore ∧ Run (machine 64) anyStep newStore s ∧
    1 ∈ s.completed ∧ s.base.systemState = ⟨.none, .rest, 2⟩ ∧ s.files.cprInfo 1 = some m ∧ m.numThreads = 2 ∧
    m.guids.take 3 = [10, 11, 0] ∧ s.files.cprContext 1 10 = none ∧
    (readCprContexts s.files 1 (readCprMetadata s.files 1 reader).1).2 = .ioError := by
  have hrun : (exec (machine 64) newStore
      (flushes ++ calls 0 .startSession 3 ++ calls 1 .startSession 3 ++ checkpoints 1 ++ calls 0 .refresh 8 ++
        (replicate 5 (calls 1 .refresh 200)).flatten)).any (fun s =>
          (decide (1 ∈ s.completed ∧ s.base.systemState=⟨.none,.rest,2⟩ ∧ s.files.cprContext 1 10=none ∧
            (readCprContexts s.files 1 (readCprMetadata s.files 1 reader).1).2=.ioError)) &&
          (s.files.cprInfo 1).any fun m => decide (m.numThreads=2 ∧ m.guids.take 3=[10,11,0]))=true := by
    decide +kernel
  obtain ⟨s,hr,hend⟩ := exists_run_of_exec hrun
  rw [and_eq_true] at hend
  obtain ⟨hcompleted,hsys,hfile,hread⟩ := of_decide_eq_true hend.1
  obtain ⟨m,hm,hlist⟩ := (Option.any_eq_true _ _).mp hend.2
  obtain ⟨hcount,hguids⟩ := of_decide_eq_true hlist
  exact ⟨s,m,newStore_fresh,hr,hcompleted,hsys,hm,hcount,hguids,hfile,hread⟩

end FishStore.CheckpointListed
