import FishStore.CheckpointSteps

/-!
# The metadata of the log are written once

The thread that moves the system state to the flush fixes the final address and writes the
metadata file of the checkpoint. Until then there is no such file, and from then on nothing
changes the metadata: a session that is yet to enter itself would hold the checkpoint back
in the prepare phase. Between the move and the write the thread has not finished its own
part of the flush, so that the phase cannot end without the file.
-/

namespace FishStore.CheckpointInfo

open Runs PhaseWalk PhaseRounds PhaseAcks CheckpointFiles CheckpointSteps PhaseInvariant
open Phases (Action Phase SystemState Pc Return afterMove afterPublish)
open PendingIo (nextWord)

/-- The metadata file of the latest action. -/
def info (s : State) : Option Recovery.LogMetadata := s.files.cprInfo s.base.started

/-- The thread has moved the system state to the flush and not yet written the metadata. -/
def Flushing (b : Phases.State) (u : ℕ) : Prop := ∃ next r, b.pc u = .settle next r ∧ next.phase = .waitFlush

/-- The metadata of the log are written once, when the flush begins. -/
structure Info (s : State) : Prop where
  token : s.base.systemState.phase ≠ .rest → Log s.base → s.checkpoint.hybridLogToken = s.base.started
  future : ∀ n, s.base.started < n → s.files.cprInfo n = none
  completed_le : ∀ n ∈ s.completed, n ≤ s.base.started
  completed : s.base.started ∈ s.completed → s.base.systemState.phase = .rest ∧ Log s.base
  opened : ∀ u x, opening (s.base.pc u) = some x → s.base.started ∉ s.completed
  unwritten : s.base.started ∉ s.completed → rank s.base.systemState.phase < 6 → info s = none
  settling : ∀ u, Flushing s.base u → s.base.systemState.phase = .waitFlush ∧ info s = none
  unique : ∀ u u', Flushing s.base u → Flushing s.base u' → u = u'
  flushing : s.base.systemState.phase = .waitFlush →
    info s = some s.checkpoint.logMetadata ∨ ∃ u, Flushing s.base u
  calling : s.base.systemState.phase = .persistenceCallback → info s = some s.checkpoint.logMetadata

/-- What the metadata file depends on stays. -/
structure Keeps (s s' : State) : Prop where
  phase : s'.base.systemState.phase = s.base.systemState.phase
  started : s'.base.started = s.base.started
  origin : s'.base.origin = s.base.origin
  flushing : ∀ u, Flushing s'.base u ↔ Flushing s.base u
  opening : ∀ u x, opening (s'.base.pc u) = some x → opening (s.base.pc u) = some x
  token : s'.checkpoint.hybridLogToken = s.checkpoint.hybridLogToken
  metadata : 6 ≤ rank s.base.systemState.phase → s'.checkpoint.logMetadata = s.checkpoint.logMetadata
  info : s'.files.cprInfo = s.files.cprInfo
  completed : s'.completed = s.completed

section

variable {s s' : State} {t u : ℕ} {l : Phases.Label} {x : Choice} {b' : Phases.State}
  {w next : SystemState} {r : Return} {seen : Option ℕ} {bufferSize : ℕ}

theorem Keeps.of_calm (hc : Calm s.base s'.base) (htoken : s'.checkpoint.hybridLogToken=s.checkpoint.hybridLogToken)
    (hmeta : 6≤rank s.base.systemState.phase → s'.checkpoint.logMetadata=s.checkpoint.logMetadata)
    (hinfo : s'.files.cprInfo=s.files.cprInfo) (hcompleted : s'.completed=s.completed) : Keeps s s' := by
  refine ⟨by rw [hc.sys],hc.started,hc.origin,fun u => ?_,fun u o ho => ?_,htoken,hmeta,hinfo,hcompleted⟩
  · unfold Flushing
    simp only [hc.settle]
  · rw [←hc.opening u]
    exact ho

/-- A step that leaves the phase. -/
theorem Info.keep (h : Info s) (hk : Keeps s s') : Info s' := by
  have hinfo : info s'=info s := by
    unfold info
    rw [hk.info,hk.started]
  have hlog : Log s'.base ↔ Log s.base := by
    unfold Log
    rw [hk.origin]
  have hmeta : 6≤rank s.base.systemState.phase → info s=some s.checkpoint.logMetadata →
      info s'=some s'.checkpoint.logMetadata := by
    intro hle heq
    rw [hinfo,heq,hk.metadata hle]
  refine ⟨?_,?_,?_,?_,?_,?_,?_,?_,?_,?_⟩
  · rw [hk.phase,hlog,hk.token,hk.started]
    exact h.token
  · rw [hk.started,hk.info]
    exact h.future
  · rw [hk.started,hk.completed]
    exact h.completed_le
  · rw [hk.started,hk.completed,hk.phase,hlog]
    exact h.completed
  · intro u x hx
    rw [hk.started,hk.completed]
    exact h.opened u x (hk.opening u x hx)
  · rw [hk.started,hk.completed,hk.phase,hinfo]
    exact h.unwritten
  · intro u hu
    rw [hk.phase,hinfo]
    exact h.settling u ((hk.flushing u).mp hu)
  · intro u u' hu hu'
    exact h.unique u u' ((hk.flushing u).mp hu) ((hk.flushing u').mp hu')
  · rw [hk.phase]
    intro hphase
    rcases h.flushing hphase with heq | ⟨u,hu⟩
    · exact .inl (hmeta (by rw [hphase]; decide) heq)
    · exact .inr ⟨u,(hk.flushing u).mpr hu⟩
  · rw [hk.phase]
    intro hphase
    exact hmeta (by rw [hphase]; decide) (h.calling hphase)

/-- Only the thread that swaps the word begins to flush. -/
theorem flushing_goto (hb : b'.pc=s.base.pc) {pc : Pc} (hu : Flushing (b'.goto t pc) u) :
    (u=t ∧ ∃ next r, pc=.settle next r ∧ next.phase=.waitFlush) ∨ (u ≠ t ∧ Flushing s.base u) := by
  obtain ⟨next,r,hp,hn⟩ := hu
  by_cases hut : u=t
  · rw [hut,goto_self] at hp
    exact .inl ⟨hut,next,r,hp,hn⟩
  · rw [goto_of_ne hut,hb] at hp
    exact .inr ⟨hut,next,r,hp,hn⟩

/-- A thread that leaves its place without swapping the word. -/
theorem flushing_goto_iff (hb : b'.pc=s.base.pc) {pc : Pc} (hp : ¬Flushing s.base t)
    (hpc : ∀ next r, pc ≠ .settle next r) : Flushing (b'.goto t pc) u ↔ Flushing s.base u := by
  refine ⟨fun hu => ?_,?_⟩
  · rcases flushing_goto hb hu with ⟨-,next,r,hset,-⟩ | ⟨-,hold⟩
    · exact absurd hset (hpc next r)
    · exact hold
  · rintro ⟨next,r,hset,hn⟩
    have hut : u ≠ t := by
      rintro rfl
      exact hp ⟨next,r,hset,hn⟩
    refine ⟨next,r,?_,hn⟩
    rw [goto_of_ne hut,hb]
    exact hset

theorem opening_goto (hb : b'.pc=s.base.pc) {pc : Pc} (hpc : opening pc=none) {o : Action × UInt32}
    (hu : opening ((b'.goto t pc).pc u)=some o) : opening (s.base.pc u)=some o := by
  by_cases hut : u=t
  · rw [hut,goto_self,hpc] at hu
    cases hu
  · rw [goto_of_ne hut,hb] at hu
    exact hu

section

variable (h : Info s) (hb : Base s.base)

include h hb

/-- An iteration of the loop. -/
theorem Info.iterate {final prev cur : SystemState} {ready has : Bool}
    (hp : s.base.pc t=.iterate final prev) (hn : nextWord final prev=some cur) (hc : Calm s.base b') :
    Info { s.apply t x (loopEvent cur prev has ready) with base := b' } := by
  obtain ⟨hloop,-,hnext⟩ := hb.iterate hp hn
  have hspec := loopEvent_spec cur prev has ready
  generalize loopEvent cur prev has ready=e at hspec ⊢
  cases hspec with
  | register hcur hprev =>
    have hrank : rank prev.phase<rank Phase.prepare := by
      rw [←hcur]
      refine (hnext.resolve_left ?_).2
      rintro rfl
      exact hprev hcur
    have hlog : Log s.base := log_of_phase hloop.cur (by change 3≤rank cur.phase; rw [hcur]; decide)
    have hle := (hb.behind hp hlog (by decide) hrank).2
    exact h.keep (.of_calm hc rfl (fun hge => absurd (hge.trans hle) (by decide)) rfl rfl)
  | indexResult hcur | writeCprContext hcur hready =>
    unfold State.apply
    dsimp only
    split_ifs <;> exact h.keep (.of_calm hc rfl (fun _ => rfl) rfl rfl)
  | _ => exact h.keep (.of_calm hc rfl (fun _ => rfl) rfl rfl)

omit h hb in
/-- The move that ends a log checkpoint. -/
theorem completes_iff (hon : OnWalk s.base.origin w) (hn : w.getNextState=some next) :
    completes w=true ↔ Log s.base ∧ next.phase=.rest := by
  unfold completes Log
  rw [hn,←hon.action,Bool.and_eq_true,Bool.and_eq_true,Option.any_some,decide_eq_true_eq,decide_eq_true_eq]
  refine and_congr_left fun _ => ?_
  cases w.action <;> simp [IsLogCheckpoint,isCheckpoint]

omit h hb in
theorem waitFlush_of_next (hn : w.getNextState=some next) (hp : next.phase=.persistenceCallback) : w.phase=.waitFlush := by
  obtain ⟨a,ph,v⟩ := w
  cases a <;> cases ph <;> cases hn <;> first | rfl | cases hp

section

variable (hp : s.base.pc t=.move w seen r) (hsys : s.base.systemState=w) (hn : w.getNextState=some next)

include hp hsys hn

/-- The system state leaves the flush only when the metadata file is written. -/
theorem Info.not_flushing
    (hb' : Base ({ s.base with systemState := next }.goto t (.settle next r))) (u : ℕ) : ¬Flushing s.base u := by
  intro hu
  have hwf : w.phase=.waitFlush := by
    rw [←hsys]
    exact (h.settling u hu).1
  obtain ⟨next',r',hpu,hn'⟩ := hu
  have hut : u ≠ t := by
    rintro rfl
    rw [hp] at hpu
    cases hpu
  -- After the move the thread would be behind a phase that it has not acknowledged.
  have hpu' : ({ s.base with systemState := next }.goto t (.settle next r)).pc u=.settle next' r' := by
    rw [goto_of_ne hut]
    exact hpu
  obtain ⟨-,hne',hle⟩ := hb'.settling hpu' hn'
  have hne : s.base.systemState.phase ≠ .rest := by
    rw [hsys,hwf]
    decide
  obtain ⟨-,hon⟩ := hb.rounds.walk.sys hne
  rw [hsys] at hon
  have hlt := (hon.next hn hne').2
  rw [hwf] at hlt
  exact absurd hlt (Nat.not_lt.mpr hle)

/-- The system state moves on. -/
theorem Info.move (hbase : s'.base={ s.base with systemState := next }.goto t (.settle next r))
    (hb' : Base s'.base) (hcheckpoint : s'.checkpoint=s.checkpoint) (hfiles : s'.files=s.files)
    (hcompleted : s'.completed=if completes w then s.checkpoint.hybridLogToken::s.completed else s.completed) :
    Info s' := by
  have hne : s.base.systemState.phase ≠ .rest := by
    rw [hsys]
    exact hb.rounds.inv.target t w (by rw [hp]; rfl)
  obtain ⟨-,hon⟩ := hb.rounds.walk.sys hne
  rw [hsys] at hon
  have hnot : s.base.started ∉ s.completed := fun hmem => hne (h.completed hmem).1
  have hnone : rank w.phase<6 → info s=none := fun hlt => h.unwritten hnot (by rw [hsys]; exact hlt)
  have hflush : ∀ u, ¬Flushing s.base u := h.not_flushing hb hp hsys hn (hbase ▸ hb')
  have hflush' : ∀ u, Flushing s'.base u → u=t ∧ next.phase=.waitFlush := by
    intro u hu
    rw [hbase] at hu
    rcases flushing_goto (s := s) rfl hu with ⟨hut,n,r',⟨⟩,hwf⟩ | ⟨-,hold⟩
    · exact ⟨hut,hwf⟩
    · exact absurd hold (hflush u)
  have hinfo : info s'=info s := by
    unfold info
    rw [hfiles,hbase]
    rfl
  have hmem : ∀ n, n ∈ s'.completed → n ∈ s.completed ∨ (n=s.base.started ∧ completes w=true) := by
    intro n hmem
    rw [hcompleted] at hmem
    split_ifs at hmem with hc
    · refine (List.mem_cons.mp hmem).symm.imp id fun heq => ⟨?_,hc⟩
      rw [heq,h.token hne ((completes_iff hon hn).mp hc).1]
    · exact .inl hmem
  have hstarted : s'.base.started=s.base.started := by
    rw [hbase]
    rfl
  refine ⟨?_,?_,?_,?_,?_,?_,?_,?_,?_,?_⟩
  · rw [hcheckpoint,hbase]
    exact fun _ => h.token hne
  · rw [hstarted,hfiles]
    exact h.future
  · rw [hstarted]
    intro n hmem'
    rcases hmem n hmem' with hold | ⟨rfl,-⟩
    · exact h.completed_le n hold
    · exact le_rfl
  · rw [hstarted]
    intro hmem'
    obtain ⟨-,hc⟩ := (hmem _ hmem').resolve_left hnot
    obtain ⟨hlog,hrest⟩ := (completes_iff hon hn).mp hc
    rw [hbase]
    exact ⟨hrest,hlog⟩
  · intro u o hu
    rw [hbase] at hu
    have hword := opened_word (a := o.1) (v := o.2) hb.rounds.inv (opening_goto (s := s) rfl rfl hu)
    rw [hword] at hne
    exact absurd rfl hne
  · rw [hstarted,hinfo]
    intro hnot' hlt
    refine hnone ?_
    by_cases hrest : next.phase=.rest
    · by_contra hge
      have hc := (completes_iff hon hn).mpr ⟨log_of_phase hon (by omega),hrest⟩
      refine hnot' ?_
      rw [hcompleted,if_pos hc,h.token hne ((completes_iff hon hn).mp hc).1]
      exact List.mem_cons_self
    · rw [hbase] at hlt
      exact (hon.next hn hrest).2.trans hlt
  · intro u hu
    obtain ⟨-,hwf⟩ := hflush' u hu
    rw [hinfo,hbase]
    refine ⟨hwf,hnone ?_⟩
    rw [(before_waitFlush hn hwf).1]
    decide
  · intro u u' hu hu'
    rw [(hflush' u hu).1,(hflush' u' hu').1]
  · rw [hbase]
    intro hwf
    exact .inr ⟨t,next,r,goto_self _ _ _,hwf⟩
  · rw [hinfo,hcheckpoint,hbase]
    intro hpc
    refine (h.flushing ?_).resolve_right fun hu => hu.elim fun u hu => hflush u hu
    rw [hsys]
    exact waitFlush_of_next hn hpc

end

/-- The metadata are written. -/
theorem Info.write (hp : s.base.pc t=.settle next r)
    (hwf : next.phase=.waitFlush) (hok : x.writeOk=true) :
    Info { s.apply t x .writeCprMetadata with base := s.base.goto t (afterMove r) } := by
  have hself : Flushing s.base t := ⟨next,r,hp,hwf⟩
  obtain ⟨hlog,hne,-⟩ := hb.settling hp hwf
  have hphase := (h.settling t hself).1
  have htoken := h.token hne hlog
  have hnone : ∀ u, ¬Flushing (s.base.goto t (afterMove r)) u := by
    intro u hu
    rcases flushing_goto (s := s) rfl hu with ⟨-,n,r',hset,-⟩ | ⟨hut,hold⟩
    · exact afterMove_ne_settle r n r' hset
    · exact hut (h.unique u t hold hself)
  generalize hs' : ({ s.apply t x .writeCprMetadata with base := s.base.goto t (afterMove r) } : State)=s'
  have hbase : s'.base=s.base.goto t (afterMove r) := by rw [←hs']
  have hmeta : s'.checkpoint.logMetadata=s.finalMetadata := by rw [←hs']; rfl
  have hcompleted : s'.completed=s.completed := by rw [←hs']; rfl
  have hfiles : s'.files.cprInfo=Function.update s.files.cprInfo s.base.started (some s.finalMetadata) := by
    rw [←hs']
    unfold State.apply
    dsimp only
    rw [if_pos hok,htoken]
  have hinfo : info s'=some s'.checkpoint.logMetadata := by
    unfold info
    rw [hfiles,hmeta,hbase]
    exact Function.update_self _ _ _
  have hsys : s'.base.systemState.phase=.waitFlush := by
    rw [hbase]
    exact hphase
  refine ⟨?_,?_,?_,?_,?_,?_,?_,?_,?_,?_⟩
  · rw [hbase,←hs']
    exact fun _ _ => htoken
  · intro n hlt
    rw [hbase] at hlt
    have hlt' : s.base.started<n := hlt
    rw [hfiles,Function.update_of_ne (Nat.ne_of_gt hlt')]
    exact h.future n hlt'
  · rw [hcompleted,hbase]
    exact h.completed_le
  · rw [hcompleted,hbase]
    exact h.completed
  · rw [hcompleted,hbase]
    exact fun u o hu => h.opened u o (opening_goto (s := s) rfl (opening_afterMove r) hu)
  · rw [hsys]
    exact fun _ hlt => absurd hlt (by decide)
  · rw [hbase]
    exact fun u hu => absurd hu (hnone u)
  · rw [hbase]
    exact fun u _ hu => absurd hu (hnone u)
  · exact fun _ => .inl hinfo
  · exact fun _ => hinfo

omit h hb in
/-- What the end of another move leaves. -/
theorem apply_settle {e : Event} (h : SettleEvent next e) (hwf : next.phase ≠ .waitFlush) :
    (s.apply t x e).checkpoint.hybridLogToken=s.checkpoint.hybridLogToken ∧
      (next.phase ≠ .rest → (s.apply t x e).checkpoint.logMetadata=s.checkpoint.logMetadata) ∧
      (s.apply t x e).files.cprInfo=s.files.cprInfo ∧ (s.apply t x e).completed=s.completed := by
  cases h with
  | quiet => exact ⟨rfl,fun _ => rfl,rfl,rfl⟩
  | checkpointFuzzyIndex =>
    unfold State.apply
    cases x.refused <;> exact ⟨rfl,fun _ => rfl,rfl,rfl⟩
  | prepare =>
    unfold State.apply
    cases x.writeOk <;> exact ⟨rfl,fun _ => rfl,rfl,rfl⟩
  | writeCprMetadata hn => exact absurd hn hwf
  | indexDone hn =>
    unfold State.apply
    cases x.writeOk <;> exact ⟨rfl,fun hne => absurd hn hne,rfl,rfl⟩
  | checkpointDone hn => exact ⟨rfl,fun hne => absurd hn hne,rfl,rfl⟩

/-- The end of the move. -/
theorem Info.settle (hp : s.base.pc t=.settle next r) (hok : x.writeOk=true) :
    Info { s.apply t x (settleEvent next) with base := (settled s.base next).goto t (afterMove r) } := by
  by_cases hwf : next.phase=.waitFlush
  · obtain ⟨w,-,hnext,-⟩ := hb.moved hp
    have hevent : settleEvent next=.writeCprMetadata := by
      unfold settleEvent
      rw [if_pos (before_waitFlush hnext hwf).2.1,hwf]
    have hsettled : settled s.base next=s.base := by
      unfold settled
      rw [hwf,if_neg (by decide)]
    rw [hevent,hsettled]
    exact h.write hb hp hwf hok
  · have hnot : ¬Flushing s.base t := by
      rintro ⟨n,r',hset,hn⟩
      rw [hp] at hset
      cases hset
      exact hwf hn
    have hpc := settled_pc s.base next
    obtain ⟨hstarted,horigin⟩ := settled_started s.base next
    obtain ⟨hphase,howner⟩ := settled_phase hb hp
    have hrest : next.phase=.rest → ¬6≤rank s.base.systemState.phase := by
      intro hn
      rw [howner hn]
      decide
    obtain ⟨htoken,hmeta,hinfo,hcompleted⟩ := apply_settle (s := s) (t := t) (x := x) (settleEvent_spec next) hwf
    exact h.keep ⟨hphase,hstarted,horigin,fun u => flushing_goto_iff hpc hnot (afterMove_ne_settle r),
      fun u o => opening_goto hpc (opening_afterMove r),htoken,
      fun hle => hmeta fun hn => hrest hn hle,hinfo,hcompleted⟩

omit h hb in
/-- An action starts. -/
theorem Info.start {a : Action} {v : UInt32} (h : Info s) (hsys : s.base.systemState=⟨.none,.rest,v⟩) :
    Info { s with base := (s.base.start a v).goto t (.reset a v 1) } := by
  have hnew : s.base.started+1 ∉ s.completed := fun hmem =>
    absurd (h.completed_le _ hmem) (Nat.not_succ_le_self _)
  have hnone : s.files.cprInfo (s.base.started+1)=none := h.future _ (Nat.lt_succ_self _)
  have hflush : ∀ u, ¬Flushing ((s.base.start a v).goto t (.reset a v 1)) u := by
    intro u hu
    rcases flushing_goto (s := s) rfl hu with ⟨-,_,_,⟨⟩,-⟩ | ⟨-,hold⟩
    have hphase := (h.settling u hold).1
    rw [hsys] at hphase
    cases hphase
  exact ⟨fun hne => absurd rfl hne,fun n hlt => h.future n (Nat.lt_of_succ_lt hlt),
    fun n hmem => (h.completed_le n hmem).trans (Nat.le_succ _),fun hmem => absurd hmem hnew,
    fun _ _ _ => hnew,fun _ _ => hnone,fun u hu => absurd hu (hflush u),
    fun u _ hu => absurd hu (hflush u),by rintro ⟨⟩,by rintro ⟨⟩⟩

/-- The first phase is published. -/
theorem Info.publish {a : Action} {v : UInt32} {p : Phase}
    (hp : s.base.pc t=.publish a v) (hn : a.firstPhase=some p) :
    Info { s.apply t x (if isCheckpoint a then .init a else .quiet) with
      base := { s.base with systemState := ⟨a,p,v⟩ }.goto t (afterPublish a) } := by
  have hop : opening (s.base.pc t)=some (a, v) := by
    rw [hp]
    rfl
  have hnot := h.opened t _ hop
  have hword := opened_word hb.rounds.inv hop
  have horigin : s.base.origin.action=a := by rw [(hb.rounds.walk.opened t a v hop).1.2]
  have hnone : info s=none := h.unwritten hnot (by rw [hword]; exact Nat.zero_lt_succ 5)
  have hflush : ∀ u, ¬Flushing ({ s.base with systemState := ⟨a,p,v⟩ }.goto t (afterPublish a)) u := by
    intro u hu
    rcases flushing_goto (s := s) rfl hu with ⟨-,n,r,hset,-⟩ | ⟨-,hold⟩
    · cases a <;> cases hset
    · have hphase := (h.settling u hold).1
      rw [hword] at hphase
      cases hphase
  have hopening : ∀ u o, opening (({ s.base with systemState := ⟨a,p,v⟩ }.goto t (afterPublish a)).pc u)=some o →
      opening (s.base.pc u)=some o := by
    intro u o
    exact opening_goto (s := s) rfl (by cases a <;> rfl)
  generalize hs' : ({ s.apply t x (if isCheckpoint a then .init a else .quiet) with
      base := { s.base with systemState := ⟨a,p,v⟩ }.goto t (afterPublish a) } : State)=s'
  have hbase : s'.base={ s.base with systemState := ⟨a,p,v⟩ }.goto t (afterPublish a) := by rw [←hs']
  have hkeep : s'.completed=s.completed ∧ s'.files=s.files := by
    rw [←hs']
    cases isCheckpoint a <;> exact ⟨rfl,rfl⟩
  have htoken : Log s.base → s'.checkpoint.hybridLogToken=s.base.started := by
    unfold Log
    rw [horigin,←hs']
    rintro (rfl | rfl) <;> rfl
  have hinfo : info s'=none := by
    unfold info
    rw [hkeep.2,hbase]
    exact hnone
  refine ⟨?_,?_,?_,?_,?_,fun _ _ => hinfo,?_,?_,?_,?_⟩
  · rw [hbase]
    exact fun _ => htoken
  · rw [hkeep.2,hbase]
    exact h.future
  · rw [hkeep.1,hbase]
    exact h.completed_le
  · rw [hkeep.1,hbase]
    exact fun hmem => absurd hmem hnot
  · rw [hkeep.1,hbase]
    exact fun _ _ _ => hnot
  · rw [hbase]
    exact fun u hu => absurd hu (hflush u)
  · rw [hbase]
    exact fun u _ hu => absurd hu (hflush u)
  · rw [hbase]
    rintro (rfl : p=_)
    cases a <;> cases hn
  · rw [hbase]
    rintro (rfl : p=_)
    cases a <;> cases hn

/-- A step of the phase protocol, with its file written. -/
theorem Info.change (hb' : Base s'.base) (hok : x.writeOk=true) (hc : Change s t x s') : Info s' := by
  cases hc with
  | still hs | join hs => exact h.keep (.of_calm hs.toCalm rfl (fun _ => rfl) rfl rfl)
  | iterate hp hn hs =>
    obtain ⟨-,-,hcalm,-⟩ := callStep_iterate hp hs
    exact h.iterate hb hp hn hcalm
  | move hp hsys hn => refine h.move hb hp hsys hn rfl hb' ?_ ?_ ?_ <;> split_ifs <;> rfl
  | settle hp => exact h.settle hb hp hok
  | start hp hsys => exact h.start hsys
  | publish hp hn => exact h.publish hb hp hn

end

theorem Info.of_fresh (h : Fresh bufferSize s) : Info s := by
  obtain ⟨-,hrest,hidle,-⟩ := h.quiescent
  have hflush : ∀ u, ¬Flushing s.base u := by
    rintro u ⟨next,r,hp,-⟩
    rw [hidle] at hp
    cases hp
  have hnone : ∀ n, n ∉ s.completed := by
    rw [h.completed]
    exact fun _ => List.not_mem_nil
  refine ⟨fun hne => absurd hrest hne,fun n _ => h.info n,fun n hmem => absurd hmem (hnone n),
    fun hmem => absurd hmem (hnone _),fun _ _ _ => hnone _,fun _ _ => h.info _,fun u hu => absurd hu (hflush u),
    fun u _ hu => absurd hu (hflush u),?_,?_⟩ <;> rw [hrest] <;> rintro ⟨⟩

end

end FishStore.CheckpointInfo
