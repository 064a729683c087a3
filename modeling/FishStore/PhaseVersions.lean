import FishStore.PhaseAcks

/-!
# The version of the system and of the sessions

The version of the system state goes up by one when a checkpoint of the log leaves its
prepare phase, and changes nowhere else. As long as it does not wrap, no session is ahead of
it. A session that is still in the prepare phase holds the action back: the system state is
in that phase too, or in the next one with the next version.
-/

namespace FishStore.PhaseVersions

open Runs Phases PhaseWalk PhaseRounds PhaseAcks PhaseInvariant PhaseBarrier

/-- The largest version. -/
def maxVersion : UInt32 := 0xffffffff

/-- The loop to which `FinishThreadPhase` returns. -/
def retLoop : Return → Option Loop
  | .loop l => some l
  | .split l => l

/-- The loop of `HandleSpecialPhases` that the thread is in. -/
def loopOf : Pc → Option Loop
  | .iterate final prev => some ⟨final, prev⟩
  | .leave l => some l
  | .ack _ r => retLoop r
  | .scanPhase _ _ r => retLoop r
  | .scanEpoch _ _ _ r => retLoop r
  | .move _ _ r => retLoop r
  | .settle _ r => retLoop r
  | .split l => l
  | .spin l => l
  | _ => none

/-- Nobody is ahead of the system. -/
structure VersionInv (s : State) : Prop where
  ctxs : ∀ u, (s.ctx u).version.toNat ≤ s.systemState.version.toNat
  finals : ∀ u l, loopOf (s.pc u) = some l → l.final.version.toNat ≤ s.systemState.version.toNat
  curs : ∀ u l, loopOf (s.pc u) = some l → (s.ctx u).version.toNat ≤ l.cur.version.toNat
  origin : s.started ≠ 0 → s.origin.version.toNat ≤ s.systemState.version.toNat
  /-- The prepare phase belongs to an action. -/
  prepared : ∀ u, (s.ctx u).phase = .prepare → s.started ≠ 0

/-- No version goes back. -/
structure Grows (s s' : State) : Prop where
  sys : s.systemState.version.toNat ≤ s'.systemState.version.toNat
  ctxs : ∀ u, (s.ctx u).version.toNat ≤ (s'.ctx u).version.toNat

section

variable {s s' : State} {t u : ℕ} {pc p : Pc} {ready : Bool} {label : Label} {w next : SystemState}
  {v : UInt32}

theorem toNat_add_one (h : v ≠ maxVersion) : (v+1).toNat=v.toNat+1 := by
  have hne : v.toNat ≠ 2^32 - 1 := fun heq => h (UInt32.toNat.inj heq)
  have hlt := v.toNat_lt
  rw [UInt32.toNat_add]
  change (v.toNat+1)%2^32=_
  exact Nat.mod_eq_of_lt (by omega)

/-- What is not larger than a version that can be counted up can be counted up. -/
theorem ne_max_of_le {v' : UInt32} (hle : v.toNat≤v'.toNat) (hne : v' ≠ maxVersion) : v ≠ maxVersion := by
  rintro rfl
  refine hne (UInt32.toNat.inj (Nat.le_antisymm ?_ hle))
  have hlt := v'.toNat_lt
  change v'.toNat≤2^32 - 1
  omega

/-- Along the walk of an action the version does not go back. -/
theorem versionIn_le {q q' : Phase} (h : v ≠ maxVersion) (hle : rank q≤rank q') :
    (versionIn v q).toNat≤(versionIn v q').toNat := by
  have hup := toNat_add_one h
  unfold versionIn
  split_ifs <;> omega

theorem version_le_of_onWalk {o w' : SystemState} (h : OnWalk o w) (h' : OnWalk o w') (hne : o.version ≠ maxVersion)
    (hle : rank w.phase≤rank w'.phase) : w.version.toNat≤w'.version.toNat := by
  rw [h.version,h'.version]
  exact versionIn_le hne hle

theorem getNextState_version_le (h : w.getNextState=some next) (hne : w.version ≠ maxVersion) :
    w.version.toNat≤next.version.toNat := by
  have hup := toNat_add_one hne
  obtain ⟨act,ph,v⟩ := w
  cases act <;> cases ph <;> cases h <;> first | exact le_rfl | exact hup.ge.trans' (Nat.le_succ _)

/-- The local part of a transition leaves the version or takes the new one. -/
theorem phaseWork_version (cur prev : SystemState) (has ready : Bool) (c : Context) :
    (phaseWork cur prev has ready c).2.version=c.version ∨ (phaseWork cur prev has ready c).2.version=cur.version := by
  obtain ⟨act,ph,v⟩ := cur
  cases act <;> cases ph <;> first
    | exact .inl rfl
    | (simp only [phaseWork]
       split_ifs <;> first | exact .inl rfl | exact .inr rfl)

/-- The steps of one thread. -/
theorem VersionInv.advance (h : VersionInv s) (pc : Pc) (hpc : s'.pc=Function.update s.pc t pc)
    (hsys : s.systemState.version.toNat ≤ s'.systemState.version.toNat) (hctx : ∀ u, u ≠ t → s'.ctx u=s.ctx u)
    (hgrow : (s.ctx t).version.toNat≤(s'.ctx t).version.toNat)
    (hle : (s'.ctx t).version.toNat ≤ s'.systemState.version.toNat)
    (hfinal : ∀ l, loopOf pc=some l → l.final.version.toNat ≤ s'.systemState.version.toNat)
    (hcur : ∀ l, loopOf pc=some l → (s'.ctx t).version.toNat≤l.cur.version.toNat)
    (horigin : s'.started ≠ 0 → s'.origin.version.toNat ≤ s'.systemState.version.toNat)
    (hstarted : s.started ≠ 0 → s'.started ≠ 0)
    (hprep : (s'.ctx t).phase=.prepare → s'.started ≠ 0) : VersionInv s' ∧ Grows s s' := by
  have hself : s'.pc t=pc := by
    rw [hpc]
    exact Function.update_self _ _ _
  have hother : ∀ u, u ≠ t → s'.pc u=s.pc u := by
    intro u hu
    rw [hpc]
    exact Function.update_of_ne hu _ _
  refine ⟨⟨?_,?_,?_,horigin,?_⟩,hsys,?_⟩
  · intro u
    by_cases hut : u=t
    · rw [hut]
      exact hle
    · rw [hctx u hut]
      exact (h.ctxs u).trans hsys
  · intro u l hl
    by_cases hut : u=t
    · rw [hut,hself] at hl
      exact hfinal l hl
    · rw [hother u hut] at hl
      exact (h.finals u l hl).trans hsys
  · intro u l hl
    by_cases hut : u=t
    · rw [hut,hself] at hl
      rw [hut]
      exact hcur l hl
    · rw [hother u hut] at hl
      rw [hctx u hut]
      exact h.curs u l hl
  · intro u hu
    by_cases hut : u=t
    · rw [hut] at hu
      exact hprep hu
    · rw [hctx u hut] at hu
      exact hstarted (h.prepared u hu)
  · intro u
    by_cases hut : u=t
    · rw [hut]
      exact hgrow
    · rw [hctx u hut]

/-- A thread goes on with the context that it has, in the loop that it was in. -/
theorem VersionInv.pass (h : VersionInv s) (hp : s.pc t=p) (hpc : s'.pc=s.pc)
    (hsys : s.systemState.version.toNat ≤ s'.systemState.version.toNat) (hctx : s'.ctx=s.ctx)
    (horigin : s'.origin=s.origin) (hstarted : s'.started=s.started)
    (hloop : loopOf pc=none ∨ loopOf pc=loopOf p) : VersionInv (s'.goto t pc) ∧ Grows s (s'.goto t pc) := by
  have hc : (s'.goto t pc).ctx t=s.ctx t := congrFun hctx t
  have hl : ∀ l, loopOf pc=some l → loopOf (s.pc t)=some l := by
    intro l hl
    rcases hloop with hnone | hsame
    · rw [hnone] at hl
      cases hl
    · rw [hp,←hsame]
      exact hl
  refine h.advance (t := t) pc ?_ hsys (fun u _ => congrFun hctx u) (by rw [hc]) ?_ ?_ ?_ ?_ ?_ ?_
  · rw [←hpc]
    rfl
  · rw [hc]
    exact (h.ctxs t).trans hsys
  · exact fun l hpl => (h.finals t l (hl l hpl)).trans hsys
  · intro l hpl
    rw [hc]
    exact h.curs t l (hl l hpl)
  · intro hne
    change s'.origin.version.toNat≤_
    rw [horigin]
    exact (h.origin (hstarted ▸ hne)).trans hsys
  · exact fun hne => hstarted.symm ▸ hne
  · intro hprep
    rw [hc] at hprep
    exact hstarted.symm ▸ h.prepared t hprep

theorem loopOf_afterMove (r : Return) : loopOf (afterMove r)=retLoop r := by rcases r with l | ⟨_ | l⟩ <;> rfl

theorem loopOf_afterRefusal (r : Return) : loopOf (afterRefusal r)=retLoop r := by cases r <;> rfl

theorem loopOf_afterWork (l : Loop) (work : Work) : loopOf (afterWork l work)=some l := by cases work <;> rfl

theorem loopOf_scanFrom (s : State) (w : SystemState) (idx : ℕ) (r : Return) :
    loopOf (scanFrom s w idx r)=retLoop r := by
  unfold scanFrom
  split_ifs <;> rfl

/-- What is known of a loop that the thread is in. -/
theorem loopOk_of_loopOf {l : Loop} (hwalk : WalkInv s) (hl : loopOf (s.pc t)=some l) : LoopOk s l := by
  have hok := hwalk.pcs t
  have hret : ∀ r, retLoop r=some l → RetOk s t r → LoopOk s l := by
    intro r hr hret
    rcases r with l' | ⟨_ | l'⟩ <;> cases hr <;> exact hret
  cases hp : s.pc t <;> rw [hp] at hl hok <;> first
    | cases hl; done
    | (cases hl; exact hok.1)
    | (cases hl; exact hok)
    | exact hret _ hl hok.ret
    | exact hret _ hl hok
    | exact hok.2.2 l hl

/-- The steps of a call: nobody gets ahead of the system, and no version goes back. -/
theorem VersionInv.callStep (h : VersionInv s) (ho : PhaseInvariant.Inv s) (hwalk : WalkInv s)
    (hmax : s.systemState.version ≠ maxVersion) (hs : callStep s t ready (s.pc t)=some s') :
    VersionInv s' ∧ Grows s s' := by
  have hok := hwalk.pcs t
  have hset : ∀ c u, u ≠ t → (s.setCtx t c).ctx u=s.ctx u := fun c u hu => Function.update_of_ne hu _ _
  have hself : ∀ c, (s.setCtx t c).ctx t=c := fun c => Function.update_self _ _ _
  -- A session takes the context of the rest phase from the system state.
  have hreload : ∀ pc, loopOf pc=none → VersionInv ((s.setCtx t ⟨.rest,s.systemState.version⟩).goto t pc) ∧
        Grows s ((s.setCtx t ⟨.rest,s.systemState.version⟩).goto t pc) := by
    intro pc hnone
    have hc : ((s.setCtx t ⟨.rest,s.systemState.version⟩).goto t pc).ctx t = ⟨.rest,s.systemState.version⟩ := hself _
    refine h.advance (t := t) pc rfl le_rfl (hset _) ?_ ?_ ?_ ?_ h.origin id ?_
    · rw [hc]
      exact h.ctxs t
    · rw [hc]
      exact le_rfl
    · intro l hl
      rw [hnone] at hl
      cases hl
    · intro l hl
      rw [hnone] at hl
      cases hl
    · rw [hc]
      rintro ⟨⟩
  -- The version in the loop is not smaller than the one that the session had.
  have horigin : ∀ l, loopOf (s.pc t)=some l → s.origin.version ≠ maxVersion := fun l hl =>
    ne_max_of_le (h.origin (loopOk_of_loopOf hwalk hl).started) hmax
  generalize hp : s.pc t=p at hs hok
  cases moves_of_callStep hs with
  | join | reload => exact hreload _ rfl
  | enter =>
    refine h.advance (t := t) _ rfl le_rfl (fun _ _ => rfl) le_rfl (h.ctxs t) ?_ ?_ h.origin id (h.prepared t)
    · intro l hl
      cases hl
      exact le_rfl
    · intro l hl
      cases hl
      exact le_rfl
  | iterate final prev cur hcur =>
    have hl : loopOf (s.pc t)=some ⟨final,prev⟩ := by
      rw [hp]
      rfl
    have hne := horigin _ hl
    have hfinal : final.version.toNat ≤ s.systemState.version.toNat := h.finals t _ hl
    obtain ⟨cur',hcur',hloop,hlt⟩ := hok.1.step
    cases hcur.symm.trans hcur'
    have hrank : rank prev.phase≤rank cur.phase := by
      by_cases heq : prev=final
      · rw [if_pos heq] at hcur
        cases hcur
        rw [heq]
      · exact (hlt heq).le
    have hprev : (s.ctx t).version.toNat≤cur.version.toNat := by
      rw [hok.2]
      exact version_le_of_onWalk hok.1.cur hloop.cur hne hrank
    have hsys : cur.version.toNat ≤ s.systemState.version.toNat :=
      (version_le_of_onWalk hloop.cur hloop.final hne hloop.le).trans hfinal
    have hwork := phaseWork_version cur prev (decide (s.phaseFinished t=cur.phase)) ready (s.ctx t)
    refine h.advance (t := t) _ rfl le_rfl (hset _) ?_ ?_ ?_ ?_ h.origin id (fun _ => hok.1.started)
    · change _≤((s.setCtx t _).ctx t).version.toNat
      rw [hself]
      rcases hwork with heq | heq <;> rw [heq]
      exact hprev
    · change ((s.setCtx t _).ctx t).version.toNat≤_
      rw [hself]
      rcases hwork with heq | heq <;> rw [heq]
      · exact h.ctxs t
      · exact hsys
    · intro l hl'
      rw [loopOf_afterWork] at hl'
      cases hl'
      exact hfinal
    · intro l hl'
      rw [loopOf_afterWork] at hl'
      cases hl'
      change ((s.setCtx t _).ctx t).version.toNat≤_
      rw [hself]
      rcases hwork with heq | heq <;> rw [heq]
      exact hprev
  | leave l =>
    have hl : loopOf (s.pc t)=some l := by
      rw [hp]
      rfl
    have hloop := loopOk_of_loopOf hwalk hl
    have hsys : l.cur.version.toNat ≤ s.systemState.version.toNat :=
      (version_le_of_onWalk hloop.cur hloop.final (horigin l hl) hloop.le).trans (h.finals t l hl)
    refine h.advance (t := t) _ rfl le_rfl (hset _) ?_ ?_ ?_ ?_ h.origin id (fun _ => hloop.started)
    · change _≤((s.setCtx t _).ctx t).version.toNat
      rw [hself]
      exact h.curs t l hl
    · change ((s.setCtx t _).ctx t).version.toNat≤_
      rw [hself]
      exact hsys
    · intro l' hl'
      split_ifs at hl' <;> cases hl'
      exact h.finals t l hl
    · intro l' hl'
      change ((s.setCtx t _).ctx t).version.toNat≤_
      rw [hself]
      split_ifs at hl' <;> cases hl'
      exact le_rfl
  | ack | scanPhase => exact h.pass hp rfl le_rfl rfl rfl rfl (.inr rfl)
  | refuse _ _ _ r => exact h.pass hp rfl le_rfl rfl rfl rfl (.inr (loopOf_afterRefusal r))
  | scanOn _ _ _ r => exact h.pass hp rfl le_rfl rfl rfl rfl (.inr (loopOf_scanFrom _ _ _ r))
  | move _ _ _ _ hn hsys =>
    refine h.pass hp rfl ?_ rfl rfl rfl (.inr rfl)
    rw [hsys] at hmax ⊢
    exact getNextState_version_le hn hmax
  | overtaken _ _ r | settle _ r => exact h.pass hp rfl le_rfl rfl rfl rfl (.inr (loopOf_afterMove r))
  | close next r hrest =>
    have hown : PhaseInvariant.owned (s.pc t)=some next := by
      rw [hp]
      exact if_pos hrest
    refine h.pass hp rfl ?_ rfl rfl rfl (.inr (loopOf_afterMove r))
    rw [(ho.owner t next hown).1]
  | split =>
    refine h.advance (t := t) _ rfl le_rfl (hset _) ?_ ?_ ?_ ?_ h.origin id ?_
    · change _≤((s.setCtx t _).ctx t).version.toNat
      rw [hself]
    · change ((s.setCtx t _).ctx t).version.toNat≤_
      rw [hself]
      exact h.ctxs t
    · exact fun l' hl' => h.finals t l' (by rw [hp]; exact hl')
    · intro l' hl'
      change ((s.setCtx t _).ctx t).version.toNat≤_
      rw [hself]
      exact h.curs t l' (by rw [hp]; exact hl')
    · intro hprep
      change ((s.setCtx t _).ctx t).phase=.prepare at hprep
      rw [hself] at hprep
      cases hprep
  | spin => exact ⟨h,le_rfl,fun _ => le_rfl⟩
  | leaveSpin l => exact h.pass hp rfl le_rfl rfl rfl rfl (.inr (loopOf_afterMove (.split l)))
  | start _ v hsys =>
    have hver : s.systemState.version=v := by rw [hsys]
    refine h.advance (t := t) _ rfl ?_ (fun _ _ => rfl) le_rfl ?_ (by rintro _ ⟨⟩) (by rintro _ ⟨⟩)
      (fun _ => le_rfl) (fun _ => Nat.succ_ne_zero _) (fun _ => Nat.succ_ne_zero _)
    · rw [hver]
      exact le_rfl
    · have hle := h.ctxs t
      rw [hver] at hle
      exact hle
  | reset =>
    refine h.pass hp rfl le_rfl rfl rfl rfl (.inl ?_)
    split_ifs <;> rfl
  | publish a v =>
    have hsys := opened_word (u := t) (a := a) (v := v) ho (by rw [hp]; rfl)
    refine h.pass hp rfl ?_ rfl rfl rfl (.inl ?_)
    · rw [hsys]
    · cases a <;> rfl
  | _ => exact h.pass hp rfl le_rfl rfl rfl rfl (.inl rfl)

/-- The calls of the sessions. -/
theorem VersionInv.startCall {act : Act} (h : VersionInv s) (hp : s.pc t=.idle)
    (hs : startCall s t act=some s') : VersionInv s' ∧ Grows s s' := by
  cases starts_of_startCall hs with
  | startSession | refresh | start a => exact h.pass hp rfl le_rfl rfl rfl rfl (.inl rfl)
  | stopSession => exact ⟨⟨h.ctxs,h.finals,h.curs,h.origin,h.prepared⟩,le_rfl,fun _ => le_rfl⟩
  | heavyEnter =>
    refine h.pass hp rfl le_rfl rfl rfl rfl (.inl ?_)
    cases (s.ctx t).phase <;> rfl

/-- The steps of a run keep the invariant, and no version goes back. -/
theorem VersionInv.step (h : VersionInv s) (hr : Rounds s) (hmax : s.systemState.version ≠ maxVersion)
    (hs : step s label=some s') : VersionInv s' ∧ Grows s s' := by
  rcases (step_cases hs).2 with ⟨ready,-,hc⟩ | ⟨hidle,hc⟩
  · exact h.callStep hr.inv hr.walk hmax hc
  · exact h.startCall hidle hc

/-- What is known of the context of a session that is not in the loop. -/
theorem ctxOk_of_outside (hwalk : WalkInv s) (hin : inLoop (s.pc t)=false) (hprot : s.isProtected t=true) :
    CtxOk s (s.ctx t) ∧ progress (s.ctx t) (s.pc t)=rank (s.ctx t).phase := by
  have hok := hwalk.pcs t
  cases hp : s.pc t <;> rw [hp] at hok hin <;> first
    | (cases hin; done)
    | exact ⟨hok hprot,rfl⟩
    | exact ⟨hok,rfl⟩
    | (rw [show s.isProtected t=false from hok] at hprot
       cases hprot)

/-- A session in the prepare phase holds the action back. -/
theorem prepare_holds (hr : Rounds s) (ha : AckInv s) (hv : VersionInv s) (ht : Tracked t)
    (hprot : s.isProtected t=true) (hin : inLoop (s.pc t)=false) (hphase : (s.ctx t).phase=.prepare) :
    s.systemState=⟨s.origin.action,.prepare,(s.ctx t).version⟩ ∨
      s.systemState=⟨s.origin.action,.inProgress,(s.ctx t).version+1⟩ := by
  have hstarted := hv.prepared t hphase
  obtain ⟨hctx,hprog⟩ := ctxOk_of_outside hr.walk hin hprot
  have hon := hctx.inPhase hstarted (by rw [hphase]; rintro ⟨⟩)
  have hmem : Phase.prepare ∈ phases s.origin.action := by
    have hmem := hon.phase
    change (s.ctx t).phase ∈ _ at hmem
    rw [hphase] at hmem
    exact hmem
  have hlog : IsLogCheckpoint s.origin.action := by
    cases ho : s.origin.action <;> rw [ho] at hmem <;> first
      | exact .inl rfl
      | exact .inr rfl
      | simp [phases] at hmem
  have hasked : Asked s.origin.action .inProgress := by
    rcases hlog with ho | ho <;> rw [ho] <;> exact ⟨by decide,by decide,by decide⟩
  obtain ⟨hne,hupper⟩ := ha.holds_back hstarted hlog ht hprot (.inr (by rw [hphase]; rintro ⟨⟩)) hasked
    (by rw [hprog,hphase]; decide)
  obtain ⟨-,hsys⟩ := hr.walk.sys hne
  have hlower : 3≤rank s.systemState.phase := by
    have hle := (hctx.during hne).2
    rw [hphase] at hle
    exact hle
  have hversion : (s.ctx t).version=s.origin.version := by
    have hver := hon.version
    change (s.ctx t).version=versionIn s.origin.version (s.ctx t).phase at hver
    rw [hphase] at hver
    exact hver
  rcases (show rank s.systemState.phase=rank Phase.prepare ∨ rank s.systemState.phase=rank Phase.inProgress by
    change _≤4 at hupper
    change _=3 ∨ _=4
    omega) with heq | heq
  · have hsp := rank_inj hsys.phase hmem heq
    refine .inl (hsys.eq_of_phase ⟨rfl,hmem,?_⟩ hsp)
    exact hversion
  · have hsp := rank_inj hsys.phase hasked.1 heq
    refine .inr (hsys.eq_of_phase ⟨rfl,hasked.1,?_⟩ hsp)
    change (s.ctx t).version+1=s.origin.version+1
    rw [hversion]

end

end FishStore.PhaseVersions
