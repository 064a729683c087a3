import FishStore.CheckpointListed

/-!
# Recovered sessions and their continuation

`Recover` puts the sessions of the checkpoint with their serial numbers and offsets into
`continue_tokens`, and `ContinueSession` looks a session up there. Each of the functions that
start a checkpoint clears the table, so that a session that was not continued before is lost,
and the new checkpoint lists running sessions only. `ContinueSession` leaves the entry in the
table, so that one session can be continued twice.

The sessions and checkpoints of a store after `Recover` are the executions of the checkpoint
files, with the guids of the sessions that have joined as history.
-/

namespace FishStore.ContinuedSessions

open Runs Recovery Naming CheckpointFiles CheckpointSteps CheckpointListed List Option Prod
open PhaseWalk PhaseAcks PhaseInvariant
open Phases (Action SystemState Pc)
open Function (update update_of_ne update_self)

/-- The store after `Recover`, and the history of its sessions. -/
structure History where
  /-- The store, its sessions and files. -/
  store : State
  /-- History: the guids of the sessions that have joined. -/
  joined : List Guid
  /-- History: those of them that had joined when a checkpoint began. -/
  begun : Guid → List Guid

/-- The guid of the session that joins in the step. -/
def joining (s : State) : Label → List Guid
  | .phase l x =>
    if s.base.pc l.thread = .sessionLoad ∧ s.base.systemState.phase = .rest then [x.session.guid] else []
  | _ => []

/-- A checkpoint of any kind begins in the step. -/
def begins (s : State) : Label → Bool
  | .phase l _ =>
    match s.base.pc l.thread with
    | .publish a _ => isCheckpoint a
    | _ => false
  | _ => false

/-- One step of an execution. -/
def step (bufferSize : ℕ) (s : History) (l : Label) : Option History :=
  (CheckpointFiles.step bufferSize s.store l).map fun store =>
    { store
      joined := joining s.store l ++ s.joined
      begun := if begins s.store l then update s.begun s.store.base.started s.joined else s.begun }

/-- `Recover` has returned `Ok`, with sessions at the given points. -/
def RecoveredAt (points : List (Guid × ℕ × ℕ)) (c : CheckpointState) : Prop :=
  ∃ (F L : Type) (p : Platform F) (log : LogSteps L) (files : Files) (s s' : Store F L)
    (indexToken hybridLogToken : Guid) (r : Result),
    (s.checkpoint.continueTokens.map Prod.fst).Nodup ∧
      recover p log files s indexToken hybridLogToken = some (r, s') ∧ r.status = .ok ∧
      r.sessionIds = points.map Prod.fst ∧ c = s'.checkpoint ∧ c.continueTokens = points

/-- A store right after `Recover`. -/
structure Recovered (bufferSize : ℕ) (points : List (Guid × ℕ × ℕ)) (s : History) : Prop where
  fresh : Fresh bufferSize s.store
  recovered : RecoveredAt points s.store.checkpoint
  joined : s.joined = []

/-- The executions of a store after `Recover`. -/
def machine (bufferSize : ℕ) (points : List (Guid × ℕ × ℕ)) : Machine History Label :=
  ⟨Recovered bufferSize points, step bufferSize⟩

/-- `ContinueSession`: the point that it returns, where it does not throw. -/
def continueSession (s : State) (guid : Guid) : Option (ℕ × ℕ) :=
  if s.base.systemState.phase = .rest then s.checkpoint.continueTokens.lookup guid else none

/-- What a later `Recover` from the checkpoint reads of a session. -/
def recoveredPoint (files : Files) (token guid : Guid) : Option (ℕ × ℕ) :=
  (files.cprInfo token).bind fun m => (readContexts files token m.guids []).1.lookup guid

/-- The recovered sessions can be continued, and once. -/
structure Continuable (points : List (Guid × ℕ × ℕ)) (s : History) : Prop where
  /-- `ContinueSession` returns the recovered point. -/
  succeeds : ∀ guid p, (guid, p) ∈ points → guid ∉ s.joined →
    s.store.base.systemState.phase = .rest → continueSession s.store guid = some p
  /-- No two live sessions have the same guid. -/
  distinct : ∀ t u, Live s.store.base t → Live s.store.base u → t ≠ u →
    (s.store.own t).guid ≠ (s.store.own u).guid
  /-- A log checkpoint that began before keeps the recovered point. -/
  kept : ∀ token ∈ s.store.completed, ∀ guid p, (guid, p) ∈ points → guid ∉ s.begun token →
    recoveredPoint s.store.files token guid = some p

/-- All recovered sessions are among the guids. -/
def Covers (points : List (Guid × ℕ × ℕ)) (guids : List Guid) : Prop := ∀ x ∈ points, x.1 ∈ guids

instance (points : List (Guid × ℕ × ℕ)) (guids : List Guid) : Decidable (Covers points guids) :=
  inferInstanceAs (Decidable (∀ x ∈ points, x.1 ∈ guids))

/-- A session joins under a guid that no live session has, and a checkpoint begins only when
all recovered sessions have been continued. -/
def careful (points : List (Guid × ℕ × ℕ)) : Guard History Label := fun s l =>
  (∀ guid ∈ joining s.store l, ∀ u, Live s.store.base u → (s.store.own u).guid ≠ guid) ∧
    (begins s.store l = true → Covers points s.joined)

section

variable {b b' : Phases.State} {s s' : State} {l : Phases.Label} {t u bufferSize : ℕ} {x : Choice}

/-- Only the start of a checkpoint writes the table and the token of the log checkpoint. -/
theorem apply_tokens {e : Event} (he : ∀ a, e ≠ .init a) :
    (s.apply t x e).checkpoint.continueTokens=s.checkpoint.continueTokens ∧
      (s.apply t x e).checkpoint.hybridLogToken=s.checkpoint.hybridLogToken := by
  unfold State.apply
  split <;> first
    | exact ⟨rfl,rfl⟩
    | exact absurd rfl (he _)
    | (split_ifs <;> exact ⟨rfl,rfl⟩)
    | (cases x.refused <;> exact ⟨rfl,rfl⟩)

theorem apply_completed {e : Event} (he : e ≠ .complete) : (s.apply t x e).completed=s.completed := by
  unfold State.apply
  split <;> first
    | rfl
    | exact absurd rfl he
    | (split_ifs <;> rfl)
    | (cases x.refused <;> rfl)

/-- What a step of the phase protocol does to the table and the sessions. -/
structure Effect (s : State) (t : ℕ) (x : Choice) (s' : State) : Prop where
  tokens : (s'.checkpoint.continueTokens = s.checkpoint.continueTokens ∧
      s'.checkpoint.hybridLogToken = s.checkpoint.hybridLogToken) ∨
    ∃ a v, s.base.pc t = .publish a v ∧ isCheckpoint a = true
  own : (s'.own = s.own ∧ ¬(s.base.pc t = .sessionLoad ∧ s.base.systemState.phase = .rest)) ∨
    (s.base.pc t = .sessionLoad ∧ s.base.systemState.phase = .rest ∧
      s'.own = update s.own t x.session)
  completed : s'.completed = s.completed ∨ (s.base.systemState.phase ≠ .rest ∧
    IsLogCheckpoint s.base.systemState.action ∧
    s'.completed = s.checkpoint.hybridLogToken :: s.completed)
  /-- A log checkpoint in progress was in progress before, or begins. -/
  running : s'.base.systemState.phase ≠ .rest → IsLogCheckpoint s'.base.systemState.action →
    (s.base.systemState.phase ≠ .rest ∧ IsLogCheckpoint s.base.systemState.action ∧
      s'.checkpoint.hybridLogToken = s.checkpoint.hybridLogToken) ∨
    ∃ a v, s.base.pc t = .publish a v ∧ isCheckpoint a = true ∧
      s'.checkpoint.hybridLogToken = s.base.started

theorem isCheckpoint_of_log {a : Action} (h : IsLogCheckpoint a) : isCheckpoint a=true ∧ a ≠ .checkpointIndex := by
  rcases h with rfl | rfl <;> exact ⟨rfl,by rintro ⟨⟩⟩

theorem log_of_completes {w : SystemState} (h : completes w=true) : IsLogCheckpoint w.action := by
  unfold completes at h
  rw [Bool.and_eq_true,Bool.and_eq_true] at h
  obtain ⟨⟨hc,hne⟩,-⟩ := h
  cases ha : w.action <;> rw [ha] at hc hne <;> first
    | exact .inl rfl
    | exact .inr rfl
    | exact absurd hne (by decide)
    | cases hc

/-- The loop of `HandleSpecialPhases` and the end of a move begin no checkpoint. -/
theorem effect_of_event {b : Phases.State} {e : Event} (hinit : ∀ a, e ≠ .init a) (hjoin : e ≠ .join)
    (hcomplete : e ≠ .complete) (hload : ¬(s.base.pc t=.sessionLoad ∧ s.base.systemState.phase=.rest))
    (hsys : b.systemState.phase ≠ .rest → b.systemState=s.base.systemState) :
    Effect s t x { s.apply t x e with base := b } := by
  refine ⟨.inl (apply_tokens hinit),.inl ⟨apply_own hjoin,hload⟩,.inl (apply_completed hcomplete),?_⟩
  intro hphase hlog
  have heq := hsys hphase
  rw [heq] at hphase hlog
  exact .inl ⟨hphase,hlog,(apply_tokens hinit).2⟩

theorem not_load {pc : Pc} (hp : s.base.pc t=pc) (hne : pc ≠ .sessionLoad) :
    ¬(s.base.pc t=.sessionLoad ∧ s.base.systemState.phase=.rest) := fun h => hne (hp.symm.trans h.1)

theorem effect_of_change (hinv : PhaseInvariant.Inv s.base) (h : Change s t x s') : Effect s t x s' := by
  cases h with
  | still hb _ hjoin =>
    exact effect_of_event (e := .quiet) (by rintro _ ⟨⟩) (by rintro ⟨⟩) (by rintro ⟨⟩)
      (fun hload => hjoin hload.1 hload.2) fun _ => hb.sys
  | join hb hp hrest _ =>
    refine ⟨.inl ⟨rfl,rfl⟩,.inr ⟨hp,hrest,rfl⟩,.inl rfl,fun hphase _ => ?_⟩
    exact absurd (congrArg SystemState.phase hb.sys |>.trans hrest) hphase
  | @iterate final prev cur b' ready hp hn hs =>
    obtain ⟨_,_,hcalm,_⟩ := callStep_iterate hp hs
    have hspec := loopEvent_spec cur prev (decide (s.base.phaseFinished t=cur.phase)) (s.ready ready (.iterate final prev))
    refine effect_of_event ?_ ?_ ?_ (not_load hp (by rintro ⟨⟩)) fun _ => hcalm.sys
    · intro a ha
      rw [ha] at hspec
      cases hspec
    · intro ha
      rw [ha] at hspec
      cases hspec
    · intro ha
      rw [ha] at hspec
      cases hspec
  | @move w next seen r hp hsys hn =>
    have hne : w.phase ≠ .rest := hinv.target t w (by rw [hp]; rfl)
    obtain ⟨hact,_⟩ := PhaseInvariant.getNextState_action hn
    have hinit : ∀ a, (if completes w=true then Event.complete else .quiet) ≠ .init a := by
      intro a
      split_ifs <;> rintro ⟨⟩
    have hjoin : (if completes w=true then Event.complete else .quiet) ≠ .join := by split_ifs <;> rintro ⟨⟩
    refine ⟨.inl (apply_tokens hinit),.inl ⟨apply_own hjoin,not_load hp (by rintro ⟨⟩)⟩,?_,?_⟩
    · by_cases hc : completes w=true
      · rw [if_pos hc,hsys]
        exact .inr ⟨hne,log_of_completes hc,rfl⟩
      · rw [if_neg hc]
        exact .inl rfl
    · intro _ hlog
      rw [hsys]
      refine .inl ⟨hne,?_,(apply_tokens hinit).2⟩
      change IsLogCheckpoint next.action at hlog
      rwa [hact] at hlog
  | @settle next r hp =>
    have hspec := settleEvent_spec next
    refine effect_of_event ?_ ?_ ?_ (not_load hp (by rintro ⟨⟩)) ?_
    · intro a ha
      rw [ha] at hspec
      cases hspec
    · intro ha
      rw [ha] at hspec
      cases hspec
    · intro ha
      rw [ha] at hspec
      cases hspec
    · intro hphase
      change (settled s.base next).systemState.phase ≠ _ at hphase
      change (settled s.base next).systemState=_
      unfold settled at hphase ⊢
      split_ifs at hphase ⊢ with hrest
      · exact absurd rfl hphase
      · rfl
  | start hp hsys => exact ⟨.inl ⟨rfl,rfl⟩,.inl ⟨rfl,not_load hp (by rintro ⟨⟩)⟩,.inl rfl,fun hphase _ => absurd rfl hphase⟩
  | @publish a v p hp hn =>
    by_cases ha : isCheckpoint a=true
    · rw [if_pos ha]
      refine ⟨.inr ⟨a,v,hp,ha⟩,.inl ⟨rfl,not_load hp (by rintro ⟨⟩)⟩,.inl rfl,fun _ hlog => .inr ⟨a,v,hp,ha,?_⟩⟩
      exact if_neg (isCheckpoint_of_log hlog).2
    · rw [if_neg ha]
      refine ⟨.inl ⟨rfl,rfl⟩,.inl ⟨rfl,not_load hp (by rintro ⟨⟩)⟩,.inl rfl,fun _ hlog => ?_⟩
      exact absurd (isCheckpoint_of_log hlog).1 ha

end

/-- What holds in all careful executions. -/
structure Inv (points : List (Guid × ℕ × ℕ)) (s : History) : Prop where
  phases : PhaseInvariant.Inv s.store.base
  /-- The table is as `Recover` has left it, or nobody needs it any more. -/
  tokens : s.store.checkpoint.continueTokens = points ∨ Covers points s.joined
  distinct : ∀ t u, Live s.store.base t → Live s.store.base u → t ≠ u →
    (s.store.own t).guid ≠ (s.store.own u).guid
  /-- The log checkpoint in progress has begun when all recovered sessions had been continued. -/
  running : s.store.base.systemState.phase ≠ .rest → IsLogCheckpoint s.store.base.systemState.action →
    Covers points (s.begun s.store.checkpoint.hybridLogToken)
  completed : ∀ token ∈ s.store.completed, Covers points (s.begun token)

section

variable {points : List (Guid × ℕ × ℕ)} {s s' : History} {l : Label} {bufferSize : ℕ}

/-- The guids that had joined when a checkpoint began still have, when another one begins. -/
theorem covers_begun (hguard : careful points s l) {token : Guid} (h : Covers points (s.begun token)) :
    Covers points ((if begins s.store l then update s.begun s.store.base.started s.joined else s.begun) token) := by
  by_cases hb : begins s.store l=true
  · rw [if_pos hb]
    by_cases ht : token=s.store.base.started
    · rw [ht,update_self]
      exact hguard.2 hb
    · rwa [update_of_ne ht]
  · rwa [if_neg hb]

theorem Covers.append (h : Covers points s.joined) (guids : List Guid) : Covers points (guids ++ s.joined) :=
  fun x hx => mem_append_right guids (h x hx)

/-- A step that leaves the phases, the table and the guids. -/
theorem Inv.keep (h : Inv points s) (hguard : careful points s l) {store : State}
    (hbase : store.base=s.store.base) (hcheckpoint : store.checkpoint=s.store.checkpoint)
    (hown : ∀ u, (store.own u).guid=(s.store.own u).guid) (hcompleted : store.completed=s.store.completed) :
    Inv points ⟨store,joining s.store l ++ s.joined,if begins s.store l then
      update s.begun s.store.base.started s.joined else s.begun⟩ := by
  refine ⟨?_,?_,?_,?_,?_⟩
  · dsimp only
    rw [hbase]
    exact h.phases
  · dsimp only
    rw [hcheckpoint]
    exact h.tokens.imp_right fun hc => hc.append _
  · dsimp only
    intro t u ht hu hne
    rw [hbase] at ht hu
    rw [hown,hown]
    exact h.distinct t u ht hu hne
  · dsimp only
    rw [hbase,hcheckpoint]
    exact fun hphase hlog => covers_begun hguard (h.running hphase hlog)
  · dsimp only
    rw [hcompleted]
    exact fun token htoken => covers_begun hguard (h.completed token htoken)

theorem begins_publish {p : Phases.Label} {x : Choice} {a : Action} {v : UInt32}
    (hp : s.store.base.pc p.thread=.publish a v) (ha : isCheckpoint a=true) : begins s.store (.phase p x)=true := by
  simp only [begins,hp,ha]

/-- A step of the phase protocol. -/
theorem Inv.phase (h : Inv points s) {p : Phases.Label} {x : Choice} (hguard : careful points s (.phase p x))
    {store : State} (hs : CheckpointFiles.step bufferSize s.store (.phase p x)=some store) :
    Inv points ⟨store,joining s.store (.phase p x) ++ s.joined,if begins s.store (.phase p x) then
      update s.begun s.store.base.started s.joined else s.begun⟩ := by
  obtain ⟨hstep,hchange⟩ := change_of_step hs
  have he := effect_of_change h.phases hchange
  refine ⟨h.phases.step hstep,?_,?_,?_,?_⟩
  · rcases he.tokens with ⟨htokens,-⟩ | ⟨a,v,hp,ha⟩
    · exact h.tokens.imp htokens.trans fun hc => hc.append _
    · exact .inr ((hguard.2 (begins_publish hp ha)).append _)
  · intro t u ht hu hne
    dsimp only at ht hu ⊢
    -- A thread that becomes live has a guid that no live session has.
    have hlive : ∀ w, Live store.base w → Live s.store.base w ∨ (w=p.thread ∧
        s.store.base.pc p.thread=.sessionLoad ∧ s.store.base.systemState.phase=.rest) := by
      intro w hw
      rcases step_live hstep hw with hw | ⟨rfl,hload,hrest⟩
      · exact .inl hw
      · rw [label_thread] at hload ⊢
        exact .inr ⟨rfl,hload,hrest⟩
    rcases he.own with ⟨hown,hno⟩ | ⟨hload,hrest,hown⟩
    · rw [hown]
      exact h.distinct t u ((hlive t ht).resolve_right fun hj => hno hj.2)
        ((hlive u hu).resolve_right fun hj => hno hj.2) hne
    · have hfresh : ∀ w, Live s.store.base w → (s.store.own w).guid ≠ x.session.guid := by
        refine hguard.1 x.session.guid ?_
        simp only [joining,hload,hrest,and_self,if_true,mem_singleton]
      have hbefore : ∀ w, w ≠ p.thread → Live store.base w → Live s.store.base w :=
        fun w hw hl => (hlive w hl).resolve_right fun hj => hw hj.1
      rw [hown]
      by_cases htp : t=p.thread
      · have hup : u ≠ p.thread := fun h => hne (htp.trans h.symm)
        rw [htp,update_self,update_of_ne hup]
        exact (hfresh u (hbefore u hup hu)).symm
      · rw [update_of_ne htp]
        by_cases hup : u=p.thread
        · rw [hup,update_self]
          exact hfresh t (hbefore t htp ht)
        · rw [update_of_ne hup]
          exact h.distinct t u (hbefore t htp ht) (hbefore u hup hu) hne
  · intro hphase hlog
    rcases he.running hphase hlog with ⟨hphase',hlog',htoken⟩ | ⟨a,v,hp,ha,htoken⟩
    · dsimp only
      rw [htoken]
      exact covers_begun hguard (h.running hphase' hlog')
    · have hb := begins_publish (x := x) hp ha
      dsimp only
      rw [htoken,if_pos hb,update_self]
      exact hguard.2 hb
  · intro token htoken
    rcases he.completed with hsame | ⟨hphase,hlog,hnew⟩
    · dsimp only at htoken
      rw [hsame] at htoken
      exact covers_begun hguard (h.completed token htoken)
    · dsimp only at htoken
      rw [hnew] at htoken
      rcases mem_cons.mp htoken with rfl | htoken
      · exact covers_begun hguard (h.running hphase hlog)
      · exact covers_begun hguard (h.completed token htoken)

theorem Inv.step (h : Inv points s) (hguard : careful points s l)
    (hs : ContinuedSessions.step bufferSize s l=some s') : Inv points s' := by
  obtain ⟨store,hstore,rfl⟩ := map_eq_some_iff.mp hs
  cases l with
  | phase p x => exact h.phase hguard hstore
  | log p ok =>
    obtain ⟨log,-,rfl⟩ := map_eq_some_iff.mp hstore
    exact h.keep hguard rfl rfl (fun _ => rfl) rfl
  | indexWrite w ok closed =>
    obtain ⟨-,rfl⟩ := of_guard hstore
    exact h.keep hguard rfl rfl (fun _ => rfl) rfl
  | operate t serialNum offset =>
    obtain ⟨-,rfl⟩ := of_guard hstore
    refine h.keep hguard rfl rfl (fun u => ?_) rfl
    dsimp only
    by_cases hu : u=t
    · rw [hu,update_self]
    · rw [update_of_ne hu]

theorem keys_emplace {m : List (Guid × ℕ × ℕ)} (h : (m.map fst).Nodup) (x : Guid × ℕ × ℕ) :
    ((emplace m x).map fst).Nodup := by
  unfold emplace
  by_cases hx : (m.lookup x.1).isSome=true
  · rwa [if_pos hx]
  · rw [if_neg hx]
    have hnew : x.1 ∉ m.map fst := by
      rw [←NamesRecovered.lookup_eq_none]
      exact not_isSome_iff_eq_none.mp hx
    rw [map_append,map_singleton]
    exact nodup_append.mpr ⟨h,nodup_singleton _,fun a ha b hb => by
      rw [mem_singleton.mp hb]
      rintro rfl
      exact hnew ha⟩

/-- The loop of `ReadCprContexts` keeps the table a map. -/
theorem keys_readContexts (files : Files) (token : Guid) (guids : List Guid) {m : List (Guid × ℕ × ℕ)}
    (h : (m.map fst).Nodup) : ((readContexts files token guids m).1.map fst).Nodup := by
  induction guids generalizing m with
  | nil => exact h
  | cons guid guids ih =>
    unfold readContexts
    by_cases hz : guid=0
    · rw [if_pos hz]
      exact ih h
    · rw [if_neg hz]
      cases files.cprContext token guid with
      | none => exact h
      | some c => exact ih (keys_emplace h _)

/-- A property that each step of `Recover` keeps. -/
theorem runSteps_invariant {F L : Type} {P : Store F L → Prop} (steps : List (Recovery.Step F L))
    (hstep : ∀ step ∈ steps, ∀ s, P s → P (step s).1) {s : Store F L} (h : P s) : P (runSteps steps s).1 := by
  induction steps generalizing s with
  | nil => exact h
  | cons step steps ih =>
    unfold runSteps
    have hfirst := hstep step mem_cons_self s h
    by_cases hok : (step s).2=.ok
    · dsimp only
      rw [if_pos hok]
      exact ih (fun step' hmem => hstep step' (mem_cons_of_mem _ hmem)) hfirst
    · dsimp only
      rw [if_neg hok]
      exact hfirst

/-- Only `ReadCprContexts` writes the table. -/
theorem keys_of_step {F L : Type} {log : LogSteps L} {files : Files} {indexToken hybridLogToken : Guid}
    {step : Recovery.Step F L} (hmem : step ∈ recoverSteps log files indexToken hybridLogToken)
    {s : Store F L} (h : (s.checkpoint.continueTokens.map fst).Nodup) :
    ((step s).1.checkpoint.continueTokens.map fst).Nodup := by
  simp only [recoverSteps,mem_cons,not_mem_nil,or_false] at hmem
  rcases hmem with rfl | rfl | rfl | rfl | rfl | rfl | rfl | rfl | rfl | rfl
  · unfold readIndexMetadata
    cases files.indexInfo indexToken <;> exact h
  · unfold readCprMetadata
    cases files.cprInfo hybridLogToken <;> exact h
  · unfold checkVersions
    split_ifs <;> exact h
  · exact h
  · have hread := keys_readContexts files hybridLogToken s.checkpoint.logMetadata.guids h
    unfold readCprContexts
    dsimp only
    split_ifs <;> exact hread
  · unfold recoverHashTable
    cases files.ht indexToken <;> exact h
  · unfold recoverOverflowBuckets
    cases files.ofb indexToken <;> exact h
  · unfold recoverFuzzyIndexComplete
    split
    · dsimp only
      split_ifs <;> exact h
    · exact h
  · exact h
  · exact h

/-- `Recover` leaves a map. -/
theorem keys_of_recoveredAt {c : CheckpointState} (h : RecoveredAt points c) : (points.map fst).Nodup := by
  obtain ⟨F,L,p,log,files,s,s',indexToken,hybridLogToken,r,hkeys,hrec,hok,-,rfl,rfl⟩ := h
  unfold recover at hrec
  split_ifs at hrec with hidle
  · obtain ⟨names,-,hfinish⟩ := map_eq_some_iff.mp hrec
    have hrun : (((runSteps (recoverSteps log files indexToken hybridLogToken)
        (started s indexToken hybridLogToken)).1).checkpoint.continueTokens.map fst).Nodup := by
      refine runSteps_invariant (P := fun s => (s.checkpoint.continueTokens.map fst).Nodup) _
        (fun step hmem s h => ?_) hkeys
      exact keys_of_step hmem h
    cases hfinish
    exact hrun
  · cases hrec
    cases hok

theorem Inv.of_recovered (h : Recovered bufferSize points s) : Inv points s := by
  obtain ⟨-,hrest,hidle,-⟩ := h.fresh.quiescent
  have hdead : ∀ t, ¬ Live s.store.base t := by
    rintro t (hprot | ⟨hne,-⟩)
    · rw [h.fresh.unprotected t] at hprot
      cases hprot
    · exact hne (hidle t)
  obtain ⟨_,_,_,_,_,_,_,_,_,_,-,-,-,-,-,htokens⟩ := h.recovered
  refine ⟨.of_quiescent h.fresh.quiescent,.inl htokens,fun t _ ht => absurd ht (hdead t),
    fun hphase => absurd hrest hphase,fun token htoken => ?_⟩
  rw [h.fresh.completed] at htoken
  cases htoken

/-- In every execution after `Recover` whose sessions join under different guids and whose
checkpoints begin only when all recovered sessions have been continued, recovered sessions
can be continued, no two live sessions have the same guid, and checkpoints keep the
recovered points. -/
theorem recovered_continuable (hs : Reachable (machine bufferSize points) (careful points) s) :
    Continuable points s := by
  have hkeys : (points.map fst).Nodup := by
    obtain ⟨s₀,hinit,-⟩ := hs
    exact keys_of_recoveredAt hinit.recovered
  have h : Inv points s := by
    exact hs.invariant (fun s hi => .of_recovered hi) (fun _ _ _ h hguard hstep => h.step hguard hstep)
  refine ⟨fun guid p hp hnot hrest => ?_,h.distinct,fun token htoken guid p hp hnot => ?_⟩
  · rcases h.tokens with htokens | hcovers
    · unfold continueSession
      rw [if_pos hrest,htokens]
      exact NamesRecovered.lookup_of_mem hkeys hp
    · exact absurd (hcovers _ hp) hnot
  · exact absurd (h.completed token htoken _ hp) hnot

end

/-- The files of a checkpoint with token 1 and one session, with guid 30. -/
def savedFiles : Files :=
  { oneCheckpoint with
    cprInfo := fun t =>
      if t = 1 then some (registerIn (.init false 1 Layout.kInvalidAddress) 1 30) else none
    cprContext := fun t guid => if t = 1 ∧ guid = 30 then some ⟨5, 100, 1, 30⟩ else none }

/-- A store after `Recover` from these files. -/
def recoveredHistory : History where
  store := { CheckpointListed.newStore with checkpoint := ⟨false, 1, 1, .reset, .reset, [(30, 5, 100)]⟩ }
  joined := []
  begun := fun _ => []

/-- The thread continues the recovered session. -/
def continues (t : ℕ) : List Label :=
  let x : Choice := ⟨⟨30, 5, 100⟩, true, 1, none, .reset⟩
  .phase ⟨t, .startSession⟩ x :: List.replicate 3 (.phase ⟨t, .step true⟩ x)

theorem recovered_recoveredHistory : Recovered 64 [(30, 5, 100)] recoveredHistory := by
  have hrun : (recover bare quietLog savedFiles reader 1 1).any (fun x =>
      decide (x.1.status=.ok ∧ x.1.sessionIds=[30] ∧ recoveredHistory.store.checkpoint=x.2.checkpoint))=true := by
    decide +kernel
  obtain ⟨⟨r,s'⟩,hrec,hend⟩ := (any_eq_true _ _).mp hrun
  obtain ⟨hok,hids,hcheckpoint⟩ := of_decide_eq_true hend
  have hfresh := newStore_fresh
  refine ⟨⟨hfresh.quiescent,hfresh.unprotected,hfresh.log,hfresh.index,hfresh.frames,hfresh.info,hfresh.lost,
    hfresh.completed,hfresh.reports⟩,?_,rfl⟩
  exact ⟨ℕ,Unit,bare,quietLog,savedFiles,reader,s',1,1,r,nodup_nil,hrec,hok,hids,hcheckpoint,rfl⟩

/-- One of the given threads moves. -/
def movesIn (threads : List ℕ) : Label → Bool
  | .phase p _ => threads.contains p.thread
  | _ => true

/-- A check of the guard for sessions on the given threads. -/
def carefulCheck (threads : List ℕ) (points : List (Guid × ℕ × ℕ)) (s : History) (l : Label) : Bool :=
  movesIn threads l && ((joining s.store l).all fun guid => threads.all fun u => decide ((s.store.own u).guid ≠ guid)) &&
    decide (begins s.store l = true → Covers points s.joined)

theorem careful_of_check {threads : List ℕ} {points : List (Guid × ℕ × ℕ)} {s s' : History} {l : Label}
    {bufferSize : ℕ} (h : Among threads s.store.base) (hcheck : carefulCheck threads points s l=true)
    (hs : step bufferSize s l=some s') : careful points s l ∧ Among threads s'.store.base := by
  rw [carefulCheck,Bool.and_eq_true,Bool.and_eq_true] at hcheck
  obtain ⟨⟨hmem,hall⟩,hbegins⟩ := hcheck
  obtain ⟨store,hstore,rfl⟩ := map_eq_some_iff.mp hs
  refine ⟨⟨fun guid hguid u hu => ?_,of_decide_eq_true hbegins⟩,?_⟩
  · exact of_decide_eq_true (all_eq_true.mp (all_eq_true.mp hall guid hguid) u (h.mem hu))
  · cases l with
    | phase p x =>
      obtain ⟨hstep,-⟩ := change_of_step hstore
      refine h.step ?_ hstep
      rw [label_thread]
      exact contains_iff_mem.mp hmem
    | log p ok =>
      obtain ⟨log,-,rfl⟩ := map_eq_some_iff.mp hstore
      exact h
    | indexWrite w ok closed | operate t serialNum offset =>
      obtain ⟨-,rfl⟩ := of_guard hstore
      exact h

/-- After `Recover` another session starts. The recovered session can still be continued. -/
theorem recovered_continuable_started : ∃ s, Reachable (machine 64 [(30, 5, 100)]) (careful [(30, 5, 100)]) s ∧
    s.store.base.isProtected 1 = true ∧ continueSession s.store 30 = some (5, 100) := by
  have hrun : (execGuarded (machine 64 [(30, 5, 100)]) (carefulCheck [1] [(30, 5, 100)]) recoveredHistory
      (calls 1 .startSession 3)).any (fun s => decide (s.store.base.isProtected 1=true ∧ s.joined=[11] ∧
        s.store.base.systemState.phase=.rest))=true := by
    decide +kernel
  obtain ⟨s,hr,hend⟩ := exists_run_of_execGuarded (fun _ _ => id) hrun
  obtain ⟨hlive,hjoined,hrest⟩ := of_decide_eq_true hend
  have hs : Reachable (machine 64 [(30, 5, 100)]) (careful [(30, 5, 100)]) s :=
    ⟨_,recovered_recoveredHistory,(hr.strengthen (P := fun s => Among [1] s.store.base)
      (fun _ _ _ h hc hstep => careful_of_check h hc hstep) fun _ _ => ⟨rfl,rfl⟩).1⟩
  refine ⟨s,hs,hlive,(recovered_continuable hs).succeeds 30 (5, 100) mem_cons_self ?_ hrest⟩
  rw [hjoined]
  decide

/-- A session of its own takes a checkpoint of the log. Then the recovered session cannot be
continued, and the checkpoint does not have it. Without a checkpoint, the recovered session is
continued by two threads. -/
theorem recovered_session_lost : Recovered 64 [(30, 5, 100)] recoveredHistory ∧
    (∃ s, Run (machine 64 [(30, 5, 100)]) anyStep recoveredHistory s ∧ 30 ∉ s.joined ∧
      s.store.base.systemState.phase = .rest ∧ continueSession s.store 30 = none ∧
      1 ∈ s.store.completed ∧ recoveredPoint s.store.files 1 30 = none) ∧
    ∃ s, Run (machine 64 [(30, 5, 100)]) anyStep recoveredHistory s ∧ s.store.base.isProtected 1 = true ∧
      s.store.base.isProtected 2 = true ∧ (s.store.own 1).guid = (s.store.own 2).guid := by
  refine ⟨recovered_recoveredHistory,?_,?_⟩
  · have hrun : (exec (machine 64 [(30, 5, 100)]) recoveredHistory
        (flushes ++ calls 1 .startSession 3 ++ checkpoints 1 ++
          (replicate 5 (calls 1 .refresh 200)).flatten)).any (fun s =>
            decide (30 ∉ s.joined ∧ s.store.base.systemState.phase=.rest ∧
              continueSession s.store 30=none ∧ 1 ∈ s.store.completed ∧
              recoveredPoint s.store.files 1 30=none))=true := by
      decide +kernel
    obtain ⟨s,hr,hend⟩ := exists_run_of_exec hrun
    exact ⟨s,hr,of_decide_eq_true hend⟩
  · have hrun : (exec (machine 64 [(30, 5, 100)]) recoveredHistory
        (continues 1 ++ continues 2)).any (fun s =>
            decide (s.store.base.isProtected 1=true ∧ s.store.base.isProtected 2=true ∧
              (s.store.own 1).guid=(s.store.own 2).guid))=true := by
      decide +kernel
    obtain ⟨s,hr,hend⟩ := exists_run_of_exec hrun
    exact ⟨s,hr,of_decide_eq_true hend⟩

end FishStore.ContinuedSessions
