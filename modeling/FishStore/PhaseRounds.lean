import FishStore.PhaseWalk

/-!
# The phase barrier over many actions

Sessions may join between actions, and one action may follow another. If every action
starts when the sessions are back in the rest phase, and publishes its first phase when
nobody is joining, then no session appears while a phase is in progress, and a thread
whose scan has passed an entry knows that the entry's session has acknowledged the phase
during this action.
-/

namespace FishStore.PhaseRounds

open Runs Phases PhaseWalk Function PhaseInvariant PhaseBarrier
open LightEpoch (kMaxNumThreads)

/-- Nobody has acknowledged anything since the action started. -/
def Unacked (s : State) : Prop := ∀ u p, s.acked u p = false

/-- What a thread has established while a phase is in progress. -/
def PcRound (s : State) : Pc → Prop
  | .reset _ _ idx => Unacked s ∧ CleanBelow s idx
  | .publish _ _ => Unacked s ∧ Ready s
  | .scanPhase w idx _ => 1 ≤ idx ∧ idx ≤ kMaxNumThreads ∧
      (s.systemState.phase ≠ .rest → AckedBelow s w.phase idx)
  | .scanEpoch w idx entry _ => s.systemState.phase ≠ .rest → AckedBelow s w.phase idx ∧
      (entry = w.phase → s.acked idx w.phase = true)
  | .move w seen _ =>
      (seen.isSome → s.systemState.phase ≠ .rest → AckedBelow s w.phase (kMaxNumThreads + 1)) ∧
      (seen = none → w.phase = .indexChkpt)
  | _ => True

/-- The invariant of the rounds. -/
structure RoundInv (s : State) : Prop where
  /-- Nobody joins while a phase is in progress. -/
  joined : s.systemState.phase ≠ .rest → ∀ u, Live s u → s.isProtected u = true
  /-- The entries were reset before the first phase was published. -/
  ready : s.systemState.phase ≠ .rest → Ready s
  /-- What each thread has established. -/
  pcs : ∀ t, PcRound s (s.pc t)

/-- Actions start when the sessions are back in the rest phase, and publish their first
phase when nobody is joining. -/
def joinsBetween : Guard State Label := fun s label =>
  startsFresh s label ∧ ∀ a v, s.pc label.thread = .publish a v →
    ∀ u, Live s u → s.isProtected u = true

section

variable {s s' : State} {t u : ℕ} {pc p : Pc} {ready : Bool} {label : Label} {r : Return}

/-- What the other threads rely on: while a phase is in progress nothing that was
acknowledged is forgotten, and no session appears. -/
structure Forward (s s' : State) : Prop where
  phase : s'.systemState.phase ≠ .rest → s.systemState.phase ≠ .rest
  clean : ∀ u, Clean s u → Clean s' u
  acked : ∀ u q, s.acked u q = true → s'.acked u q = true
  enter : s'.systemState.phase ≠ .rest → ∀ u, s'.isProtected u = true → s.isProtected u = true

theorem Forward.same (hsys : s'.systemState=s.systemState) (hfin : s'.phaseFinished=s.phaseFinished)
    (hacked : s'.acked=s.acked) (hprot : s'.isProtected=s.isProtected) : Forward s s' := by
  refine ⟨?_,?_,?_,?_⟩
  · rw [hsys]
    exact id
  · intro u hu
    unfold Clean
    rw [hfin,hacked]
    exact hu
  · rw [hacked]
    exact fun _ _ => id
  · rw [hprot]
    exact fun _ _ => id

theorem Forward.ackedBelow {q : Phase} {n : ℕ} (hf : Forward s s') (hne : s'.systemState.phase ≠ .rest)
    (h : s.systemState.phase ≠ .rest → AckedBelow s q n) : AckedBelow s' q n :=
  fun u h1 hn hu => hf.acked u q (h (hf.phase hne) u h1 hn (hf.enter hne u hu))

theorem PcRound.forward (h : PcRound s pc) (hf : Forward s s')
    (hun : opening pc=none ∨ s'.acked=s.acked) : PcRound s' pc := by
  cases pc with
  | reset a v idx | publish a v =>
    have hsame := hun.resolve_left nofun
    refine ⟨?_,fun u h1 hlt => hf.clean u (h.2 u h1 hlt)⟩
    unfold Unacked
    rw [hsame]
    exact h.1
  | scanPhase w idx r => exact ⟨h.1,h.2.1,fun hne => hf.ackedBelow hne h.2.2⟩
  | scanEpoch w idx entry r =>
    exact fun hne => ⟨hf.ackedBelow hne fun hne' => (h hne').1, fun he => hf.acked _ _ ((h (hf.phase hne)).2 he)⟩
  | move w seen r => exact ⟨fun hseen hne => hf.ackedBelow hne (h.1 hseen),h.2⟩
  | _ => trivial

/-- The steps of one thread that leave the action. -/
theorem RoundInv.advance (h : RoundInv s) (pc : Pc) (hpc : s'.pc=update s.pc t pc) (hf : Forward s s')
    (hprot : ∀ u, u ≠ t → s'.isProtected u=s.isProtected u)
    (hother : (∀ u a v, u ≠ t → opening (s.pc u) ≠ some (a, v)) ∨ s'.acked=s.acked)
    (hjoin : s'.systemState.phase ≠ .rest → Live s' t → s'.isProtected t=true) (hok : PcRound s' pc) : RoundInv s' := by
  have hpcu : ∀ u, u ≠ t → s'.pc u=s.pc u := by
    intro u hu
    rw [hpc]
    exact update_of_ne hu _ _
  refine ⟨?_,fun hne u h1 hlt => hf.clean u (h.ready (hf.phase hne) u h1 hlt),?_⟩
  · intro hne u hu
    by_cases hut : u=t
    · rw [hut] at hu ⊢
      exact hjoin hne hu
    · rw [hprot u hut]
      refine h.joined (hf.phase hne) u ?_
      unfold Live at hu ⊢
      rw [hpcu u hut,hprot u hut] at hu
      exact hu
  · intro u
    by_cases hut : u=t
    · rw [hut,hpc,update_self]
      exact hok
    · rw [hpcu u hut]
      refine (h.pcs u).forward hf (hother.imp_left fun hno => ?_)
      cases hop : opening (s.pc u) with
      | none => rfl
      | some x => exact absurd hop (hno u x.1 x.2 hut)

/-- A thread of a session moves on. -/
theorem RoundInv.pass (h : RoundInv s) (hp : s.pc t=p) (hlive : p ≠ .idle ∧ p ≠ .sessionLoad) (hpc : s'.pc=s.pc)
    (hsys : s'.systemState=s.systemState) (hfin : s'.phaseFinished=s.phaseFinished) (hacked : s'.acked=s.acked)
    (hprot : s'.isProtected=s.isProtected) (hok : PcRound s' pc) : RoundInv (s'.goto t pc) := by
  have hf : Forward s (s'.goto t pc) := .same hsys hfin hacked hprot
  refine h.advance (t := t) pc ?_ hf (fun u _ => congrFun hprot u) (.inr hacked) ?_ ?_
  · rw [←hpc]
    rfl
  · intro hne _
    refine (congrFun hprot t).trans (h.joined (hf.phase hne) t (.inr ?_))
    rw [hp]
    exact hlive
  · exact hok.forward (.same rfl rfl rfl rfl) (.inr rfl)

/-- A thread that works on no action has established nothing. -/
theorem pcRound_of_not_engaged (h : engaged pc=false) : PcRound s pc := by cases pc <;> trivial

/-- An action starts when nobody works on one. -/
theorem RoundInv.start {a : Action} {v : UInt32}
    (hfresh : ∀ u, Live s u → s.ctx u=⟨.rest,v⟩ ∧ engaged (s.pc u)=false) :
    RoundInv ((s.start a v).goto t (.reset a v 1)) := by
  refine ⟨fun hne => absurd rfl hne,fun hne => absurd rfl hne,?_⟩
  intro u
  by_cases hut : u=t
  · rw [hut,goto_self]
    refine ⟨fun _ _ => rfl,?_⟩
    intro x h1 hlt
    omega
  · rw [goto_of_ne hut]
    refine pcRound_of_not_engaged ?_
    change engaged (s.pc u)=false
    cases hen : engaged (s.pc u) with
    | false => rfl
    | true =>
      rw [(hfresh u (live_of_engaged hen)).2] at hen
      cases hen

/-- The first phase is published when nobody is joining. -/
theorem RoundInv.publish (h : RoundInv s) (hwalk : WalkInv s) {a : Action} {v : UInt32} {q : Phase}
    (hp : s.pc t=.publish a v) (hjoined : ∀ u, Live s u → s.isProtected u=true) :
    RoundInv ({ s with systemState := ⟨a,q,v⟩ }.goto t (afterPublish a)) := by
  have hready : Ready s := by
    have hok := h.pcs t
    rw [hp] at hok
    exact hok.2
  refine ⟨?_,fun _ => hready,?_⟩
  · intro _ u hu
    refine hjoined u ?_
    by_cases hut : u=t
    · refine .inr ?_
      rw [hut,hp]
      exact ⟨nofun,nofun⟩
    · unfold Live at hu
      rw [goto_of_ne hut] at hu
      exact hu
  · intro u
    by_cases hut : u=t
    · rw [hut,goto_self]
      refine pcRound_of_not_engaged ?_
      cases a <;> rfl
    · rw [goto_of_ne hut]
      refine pcRound_of_not_engaged ?_
      change engaged (s.pc u)=false
      cases hen : engaged (s.pc u) with
      | false => rfl
      | true =>
        have hop := hwalk.not_opening (u := t) (a := a) (v := v) hen (Ne.symm hut)
        rw [hp] at hop
        exact absurd rfl hop

theorem pcRound_afterMove (r : Return) : PcRound s (afterMove r) := by rcases r with l | ⟨_ | l⟩ <;> trivial

theorem pcRound_afterRefusal (r : Return) : PcRound s (afterRefusal r) := by cases r <;> trivial

/-- The steps of a call keep the invariant. -/
theorem RoundInv.callStep (h : RoundInv s) (ho : PhaseInvariant.Inv s) (hwalk : WalkInv s)
    (hfresh : ∀ a v, s.pc t=.startSwap a v → s.systemState=⟨.none,.rest,v⟩ →
      ∀ u, Live s u → s.ctx u=⟨.rest,v⟩ ∧ engaged (s.pc u)=false)
    (hjoined : ∀ a v, s.pc t=.publish a v → ∀ u, Live s u → s.isProtected u=true)
    (hs : callStep s t ready (s.pc t)=some s') : RoundInv s' := by
  have hok := h.pcs t
  generalize hp : s.pc t=p at hs hok
  cases moves_of_callStep hs with
  | join hrest =>
    have hoff : s.isProtected t=false := by
      have hw := hwalk.pcs t
      rw [hp] at hw
      exact hw
    exact h.advance (t := t) .refresh rfl (.same rfl rfl rfl rfl) (fun _ _ => rfl) (.inr rfl)
      (fun hne => absurd hrest hne) trivial
  | reject =>
    have hoff : s.isProtected t=false := by
      have hw := hwalk.pcs t
      rw [hp] at hw
      exact hw
    refine h.advance (t := t) .idle rfl (.same rfl rfl rfl rfl) (fun _ _ => rfl) (.inr rfl) ?_ trivial
    rintro - (hon | ⟨hne,-⟩)
    · exact hon
    · rw [goto_self] at hne
      exact absurd rfl hne
  | refresh =>
    have hother : ∀ u, u ≠ t → (s.protect t true).isProtected u=s.isProtected u := fun u hu => update_of_ne hu _ _
    have hf : Forward s ((s.protect t true).goto t .refreshLoad) := by
      refine ⟨id,fun _ => id,fun _ _ => id,fun hne u hu => ?_⟩
      by_cases hut : u=t
      · -- Nobody joins while a phase is in progress.
        rw [hut]
        refine h.joined hne t (.inr ?_)
        rw [hp]
        exact ⟨(by rintro ⟨⟩),(by rintro ⟨⟩)⟩
      · exact (hother u hut).symm.trans hu
    exact h.advance (t := t) .refreshLoad rfl hf hother (.inr rfl) (fun _ _ => update_self _ _ _) trivial
  | iterate _ prev cur =>
    refine h.pass hp ⟨(by rintro ⟨⟩),(by rintro ⟨⟩)⟩ rfl rfl rfl rfl rfl ?_
    cases hw : (phaseWork cur prev (decide (s.phaseFinished t=cur.phase)) ready (s.ctx t)).1 with
    | moveOn => exact ⟨(by rintro ⟨⟩),fun _ => (phaseWork_moveOn hw).1⟩
    | _ => trivial
  | leave =>
    refine h.pass hp ⟨(by rintro ⟨⟩),(by rintro ⟨⟩)⟩ rfl rfl rfl rfl rfl ?_
    split_ifs <;> trivial
  | ack w r =>
    have ha := PhaseBarrier.Advance.acknowledge s t w.phase
    have hf : Forward s ((s.acknowledge t w.phase).goto t (.scanPhase w 1 r)) := ⟨id,ha.clean,ha.acked,fun _ _ => id⟩
    refine h.advance (t := t) (.scanPhase w 1 r) rfl hf (fun _ _ => rfl) (.inl ?_) ?_ ⟨le_rfl,by decide,?_⟩
    · exact fun u a v hu => hwalk.not_opening (by rw [hp]; rfl) hu
    · intro hne _
      refine h.joined hne t (.inr ?_)
      rw [hp]
      exact ⟨(by rintro ⟨⟩),(by rintro ⟨⟩)⟩
    · intro _ u h1 hlt
      omega
  | scanPhase w idx =>
    have hw := ho.target t w (by rw [hp]; rfl)
    obtain ⟨h1,hle,hbelow⟩ := hok
    refine h.pass hp ⟨(by rintro ⟨⟩),(by rintro ⟨⟩)⟩ rfl rfl rfl rfl rfl fun hne => ⟨hbelow hne,fun he => ?_⟩
    have hclean := h.ready hne idx h1 (Nat.lt_succ_of_le hle)
    unfold Clean at hclean
    rw [he] at hclean
    exact hclean hw
  | refuse _ _ _ r => exact h.pass hp ⟨(by rintro ⟨⟩),(by rintro ⟨⟩)⟩ rfl rfl rfl rfl rfl (pcRound_afterRefusal r)
  | scanOn w idx _ _ hc =>
    have hbelow : s.systemState.phase ≠ .rest → AckedBelow s w.phase (idx+1) := by
      intro hne u h1 hlt hu
      by_cases hui : u=idx
      · subst hui
        by_contra hnot
        exact hc ⟨hu,fun he => hnot ((hok hne).2 he)⟩
      · exact (hok hne).1 u h1 (by omega) hu
    refine h.pass hp ⟨(by rintro ⟨⟩),(by rintro ⟨⟩)⟩ rfl rfl rfl rfl rfl ?_
    unfold scanFrom
    split_ifs with hle
    · exact ⟨Nat.succ_pos _,hle,hbelow⟩
    · exact ⟨fun _ hne u h1 hlt hu => hbelow hne u h1 (by omega) hu,(by rintro ⟨⟩)⟩
  | move w _ r next _ hsys =>
    have hw := ho.target t w (by rw [hp]; rfl)
    have hne : s.systemState.phase ≠ .rest := by
      rw [hsys]
      exact hw
    refine h.advance (t := t) (.settle next r) rfl ⟨fun _ => hne,fun _ => id,fun _ _ => id,fun _ _ => id⟩
      (fun _ _ => rfl) (.inr rfl) (fun _ _ => h.joined hne t (.inr ?_)) trivial
    rw [hp]
    exact ⟨(by rintro ⟨⟩),(by rintro ⟨⟩)⟩
  | overtaken w _ r | settle _ r =>
    exact h.pass hp ⟨(by rintro ⟨⟩),(by rintro ⟨⟩)⟩ rfl rfl rfl rfl rfl (pcRound_afterMove r)
  | close _ r =>
    exact h.advance (t := t) (afterMove r) rfl ⟨fun hne => absurd rfl hne,fun _ => id,fun _ _ => id,fun _ _ => id⟩
      (fun _ _ => rfl) (.inr rfl) (fun hne => absurd rfl hne) (pcRound_afterMove r)
  | spin => exact h
  | leaveSpin l => exact h.pass hp ⟨(by rintro ⟨⟩),(by rintro ⟨⟩)⟩ rfl rfl rfl rfl rfl (pcRound_afterMove (.split l))
  | start a v hsys => exact .start (hfresh a v hp hsys)
  | reset _ _ idx =>
    have ha := PhaseBarrier.Advance.reset s idx
    have hbelow : CleanBelow { s with phaseFinished := update s.phaseFinished idx .rest } (idx+1) := by
      intro u h1 hlt
      by_cases hui : u=idx
      · subst hui
        exact fun hne => absurd (update_self _ _ _) hne
      · exact ha.clean u (hok.2 u h1 (by omega))
    refine h.advance (t := t) _ rfl ⟨id,ha.clean,fun _ _ => id,fun _ _ => id⟩ (fun _ _ => rfl) (.inr rfl)
      (fun hne _ => h.joined hne t (.inr ?_)) ?_
    · rw [hp]
      exact ⟨(by rintro ⟨⟩),(by rintro ⟨⟩)⟩
    · split_ifs with hlt
      · exact ⟨hok.1,hbelow⟩
      · exact ⟨hok.1,fun u h1 hu => hbelow u h1 (by omega)⟩
  | publish a v => exact h.publish hwalk hp (hjoined a v hp)
  | _ => exact h.pass hp ⟨(by rintro ⟨⟩),(by rintro ⟨⟩)⟩ rfl rfl rfl rfl rfl trivial

/-- The calls of the sessions keep the invariant. -/
theorem RoundInv.startCall {act : Act} (h : RoundInv s) (hp : s.pc t=.idle)
    (hs : startCall s t act=some s') : RoundInv s' := by
  have hstay : ∀ pc, s.isProtected t=true → PcRound s pc → RoundInv (s.goto t pc) := by
    intro pc hprot hok
    refine h.advance (t := t) pc rfl (.same rfl rfl rfl rfl) (fun _ _ => rfl) (.inr rfl)
      (fun _ _ => hprot) (hok.forward (.same rfl rfl rfl rfl) (.inr rfl))
  cases starts_of_startCall hs with
  | startSession =>
    refine h.advance (t := t) .sessionLoad rfl (.same rfl rfl rfl rfl) (fun _ _ => rfl) (.inr rfl) ?_ trivial
    rintro - (hon | ⟨-,hne⟩)
    · exact hon
    · rw [goto_self] at hne
      exact absurd rfl hne
  | stopSession =>
    have hother : ∀ u, u ≠ t → (s.protect t false).isProtected u=s.isProtected u := fun u hu => update_of_ne hu _ _
    have hoff : (s.protect t false).isProtected t=false := update_self _ _ _
    have hf : Forward s (s.protect t false) := by
      refine ⟨id,fun _ => id,fun _ _ => id,fun _ u hu => ?_⟩
      by_cases hut : u=t
      · rw [hut,hoff] at hu
        cases hu
      · exact (hother u hut).symm.trans hu
    refine h.advance (t := t) .idle ?_ hf hother (.inr rfl) ?_ trivial
    · change s.pc=_
      rw [←hp,update_eq_self]
    · rintro - (hon | ⟨hne,-⟩)
      · exact hon
      · exact absurd hp hne
  | refresh hprot => exact hstay _ hprot trivial
  | heavyEnter hprot =>
    refine hstay _ hprot ?_
    unfold heavyEnter
    split <;> trivial
  | start a hon =>
    obtain ⟨hprot,-⟩ := hon
    exact hstay _ hprot trivial

theorem RoundInv.of_quiescent (h : Quiescent s) : RoundInv s := by
  obtain ⟨-,hrest,hidle,-⟩ := h
  refine ⟨fun hne => absurd hrest hne,fun hne => absurd hrest hne,fun t => ?_⟩
  rw [hidle]
  trivial

/-- All that the phase protocol guarantees in such runs. -/
structure Rounds (s : State) : Prop where
  inv : PhaseInvariant.Inv s
  walk : WalkInv s
  rounds : RoundInv s

theorem Rounds.of_quiescent (h : Quiescent s) : Rounds s := ⟨.of_quiescent h,.of_quiescent h,.of_quiescent h⟩

/-- The steps of runs whose actions start between sessions keep the invariants. -/
theorem Rounds.step (h : Rounds s) (hguard : joinsBetween s label) (hs : step s label=some s') :
    Rounds s' := by
  refine ⟨h.inv.step hs,h.walk.step h.inv hguard.1 hs,?_⟩
  rcases (step_cases hs).2 with ⟨ready,-,hc⟩ | ⟨hidle,hc⟩
  · exact h.rounds.callStep h.inv h.walk hguard.1 hguard.2 hc
  · exact h.rounds.startCall hidle hc

end

end FishStore.PhaseRounds
