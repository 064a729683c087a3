import FishStore.ParserShift
import FishStore.PhaseRounds

/-!
# The parser states that sessions use

During a shift of the parsers a session uses the current parser state or the former one,
and its parser was built from the state that it uses. A session that has begun its part
of the phase uses the current state, and the thread that ends the phase has seen that
all sessions have. So nobody uses a parser state when the actions are applied to it.
-/

namespace FishStore.ParserInvariant

open Layout Runs Parsers ParserShift Option PhaseInvariant PhaseWalk PhaseRounds
open LightEpoch (kMaxNumThreads)
open Function (update update_of_ne update_self)

section

variable {reg : Registry}

/-- The session uses the parser state `no`, with a parser built from it. -/
def On (s : State reg) (no : Bool) (u : ℕ) : Prop :=
  s.parserNo u = no ∧ s.parser u = (s.parserStates no).mainParserFields

/-- The session uses the current parser state. -/
def Current (s : State reg) (u : ℕ) : Prop := On s s.systemParserNo u

/-- The session uses the other one. -/
def Former (s : State reg) (u : ℕ) : Prop := On s (!s.systemParserNo) u

/-- `StartSession` has not built the parser yet. -/
def joining : Hook → Bool
  | .loadNo => true
  | .rebuild _ => true
  | _ => false

/-- The PSFs that the actions have left. -/
def registered (s : State reg) : PtrSets := PtrSets.empty.applyAll s.applied

/-- What the two parser states hold. -/
def SetsOk (s : State reg) : Stage → Prop
  | .equal => ∀ no, (s.parserStates no).toPtrSets = registered s
  | .applied => s.other.toPtrSets = registered s ∧
      (s.parserStates s.systemParserNo).applyAll s.psActions = registered s
  | .switched => (s.parserStates s.systemParserNo).toPtrSets = registered s ∧
      s.other.applyAll s.psActions = registered s
  | .closing => (s.parserStates s.systemParserNo).toPtrSets = registered s ∧
      s.other.applyAll s.psActions = registered s

/-- The thread is about to publish the first phase. -/
def AtPublish (s : State reg) (u : ℕ) : Prop := ∃ a v, s.phases.pc u = .publish a v

/-- The thread has ended the last phase. -/
def AtSettle (s : State reg) (u : ℕ) : Prop :=
  ∃ next r, s.phases.pc u = .settle next r ∧ next.phase = .rest

/-- How far the shift is, by what the thread does for it. -/
def HookOk (s : State reg) (u : ℕ) : Hook → Prop
  | .none => (∀ a v idx, s.phases.pc u = .reset a v idx → s.stage = .equal ∧ s.psActions = s.argument u) ∧
      (AtPublish s u → s.stage = .switched) ∧ (AtSettle s u → s.stage = .equal)
  | .loadNo => s.phases.pc u = .refresh ∧ s.phases.isProtected u = false
  | .rebuild no => (s.phases.pc u = .refresh ∧ s.phases.isProtected u = false) ∧
      (no = s.systemParserNo ∨ s.stage = .switched)
  | .tail => AtPublish s u ∧ s.stage = .equal ∧ s.psActions = s.argument u
  | .apply => AtPublish s u ∧ s.stage = .equal ∧ s.psActions = s.argument u
  | .switch => AtPublish s u ∧ s.stage = .applied
  | .patch => AtSettle s u ∧ s.stage = .closing
  | .callback => AtSettle s u ∧ s.stage = .equal

/-- A thread that has begun its part of the phase uses the current parser state. -/
def PcSession (s : State reg) (u : ℕ) : Phases.Pc → Prop
  | .iterate _ prev => prev.phase ≠ .rest → Current s u
  | .leave _ => Current s u
  | .ack _ _ => Current s u
  | .scanPhase _ _ _ => Current s u
  | .scanEpoch _ _ _ _ => Current s u
  | .move _ _ _ => Current s u
  | .settle next _ => next.phase ≠ .rest → Current s u
  | .split _ => Current s u
  | .spin _ => Current s u
  | _ => True

/-- The thread has begun its part of the phase, or has acknowledged it. -/
def Begun (s : State reg) (u : ℕ) : Prop :=
  (Live s.phases u ∧ (s.phases.ctx u).phase ≠ .rest) ∨ ∃ p, s.phases.acked u p = true

/-- What holds for one thread. -/
structure ThreadOk (s : State reg) (u : ℕ) : Prop where
  /-- Only parsers are shifted. -/
  starting : ∀ a, starting (s.phases.pc u) = some a → a = .parserShift
  /-- Sessions run on the threads whose entries are scanned. -/
  tracked : Live s.phases u → 1 ≤ u ∧ u < kMaxNumThreads
  hook : HookOk s u (s.hook u)
  /-- A session uses one of the parser states, and the former one only during a shift. -/
  session : Live s.phases u → joining (s.hook u) = false →
    Current s u ∨ (s.stage = .switched ∧ Former s u)
  /-- A session that has begun its part of the phase uses the current one. -/
  begun : s.phases.systemState.phase ≠ .rest → Begun s u → Current s u
  pc : s.phases.systemState.phase ≠ .rest → PcSession s u (s.phases.pc u)

/-- The invariant of the sessions. -/
structure SessionInv (s : State reg) : Prop where
  /-- Only parsers are shifted. -/
  action : s.phases.started ≠ 0 → s.phases.origin.action = .parserShift
  /-- Without an action the two parser states are equal. -/
  idle : s.phases.systemState.action = .none → s.stage = .equal
  /-- In the phase the current one is ahead. -/
  pending : s.phases.systemState.phase ≠ .rest → s.stage = .switched
  sets : SetsOk s s.stage
  threads : ∀ u, ThreadOk s u

/-- Sessions run on the threads whose entries are scanned; a shift starts when every
session is back in the rest phase, and publishes `PS_PENDING` when nobody is joining. -/
def shiftsBetween : Guard (State reg) Label := fun s label =>
  label.thread ≠ 0 ∧ (s.hook label.thread = .none →
    joinsBetween s.phases ⟨label.thread, .step true⟩)

end

section

variable {reg : Registry} {s s' : State reg} {t u : ℕ} {no : Bool} {k : Hook} {pc : Phases.Pc}
  {p : Phases.State}

/-- A step of `t` leaves the other sessions alone. -/
structure Others (s s' : State reg) (t : ℕ) : Prop where
  pc : ∀ u, u ≠ t → s'.phases.pc u = s.phases.pc u
  ctx : ∀ u, u ≠ t → s'.phases.ctx u = s.phases.ctx u
  isProtected : ∀ u, u ≠ t → s'.phases.isProtected u = s.phases.isProtected u
  acked : ∀ u q, u ≠ t → s'.phases.acked u q = true → s.phases.acked u q = true
  parserNo : ∀ u, u ≠ t → s'.parserNo u = s.parserNo u
  parser : ∀ u, u ≠ t → s'.parser u = s.parser u
  argument : ∀ u, u ≠ t → s'.argument u = s.argument u
  hook : ∀ u, u ≠ t → s'.hook u = s.hook u

/-- A step that leaves the parser states alone. -/
structure Data (s s' : State reg) : Prop where
  states : s'.parserStates = s.parserStates
  no : s'.systemParserNo = s.systemParserNo
  stage : s'.stage = s.stage
  actions : s'.psActions = s.psActions
  applied : s'.applied = s.applied

theorem Others.live (ho : Others s s' t) (hu : u ≠ t) : Live s'.phases u ↔ Live s.phases u := by
  unfold Live
  rw [ho.pc u hu,ho.isProtected u hu]

theorem Others.begun (ho : Others s s' t) (hu : u ≠ t) (h : Begun s' u) : Begun s u := by
  rcases h with ⟨hl,hc⟩ | ⟨q,hq⟩
  · rw [ho.ctx u hu] at hc
    exact .inl ⟨(ho.live hu).mp hl,hc⟩
  · exact .inr ⟨q,ho.acked u q hu hq⟩

theorem Others.on (ho : Others s s' t) (hu : u ≠ t) (hs : s'.parserStates no=s.parserStates no) :
    On s' no u ↔ On s no u := by
  unfold On
  rw [ho.parserNo u hu,ho.parser u hu,hs]

theorem Data.sets {stage : Stage} (hd : Data s s') (h : SetsOk s stage) : SetsOk s' stage := by
  have hreg : registered s'=registered s := by
    unfold registered
    rw [hd.applied]
  have hother : s'.other=s.other := by
    unfold State.other
    rw [hd.states,hd.no]
  cases stage <;> unfold SetsOk <;> simp only [hreg,hother,hd.states,hd.no,hd.actions] <;> exact h

theorem PcSession.mono (h : PcSession s u pc) (hcur : Current s u → Current s' u) : PcSession s' u pc := by
  cases pc with
  | iterate final prev | settle next r => exact fun hne => hcur (h hne)
  | leave l => exact hcur h
  | ack w r => exact hcur h
  | scanPhase w idx r => exact hcur h
  | scanEpoch w idx entry r => exact hcur h
  | move w seen r => exact hcur h
  | split l => exact hcur h
  | spin l => exact hcur h
  | _ => trivial

theorem owned_of_atPublish (h : AtPublish s t) : ∃ w, owned (s.phases.pc t)=some w := by
  obtain ⟨a,v,hpc⟩ := h
  rw [hpc]
  exact ⟨_,rfl⟩

theorem owned_of_atSettle (h : AtSettle s t) : ∃ w, owned (s.phases.pc t)=some w := by
  obtain ⟨next,r,hpc,hrest⟩ := h
  rw [hpc]
  exact ⟨next,if_pos hrest⟩

theorem not_atPublish (h : owned (s.phases.pc u)=none) : ¬AtPublish s u := by
  intro hp
  obtain ⟨w,hw⟩ := owned_of_atPublish hp
  cases h.symm.trans hw

theorem not_atSettle (h : owned (s.phases.pc u)=none) : ¬AtSettle s u := by
  intro hp
  obtain ⟨w,hw⟩ := owned_of_atSettle hp
  cases h.symm.trans hw

/-- A thread that owns nothing is at no step of a shift. -/
theorem hookOk_none (hpc : s.phases.pc t=pc) (hfree : owned pc=none) : HookOk s t .none := by
  subst hpc
  refine ⟨fun a v idx heq => ?_,fun hp => absurd hp (not_atPublish hfree),fun hp => absurd hp (not_atSettle hfree)⟩
  rw [heq] at hfree
  cases hfree

/-- A thread that does not own the word has no part in the shift. -/
theorem HookOk.free (h : HookOk s u k) (hfree : owned (s.phases.pc u)=none)
    (hpc : s'.phases.pc u=s.phases.pc u) (hprot : s'.phases.isProtected u=s.phases.isProtected u)
    (hno : ∀ no, k=.rebuild no → no=s'.systemParserNo ∨ s'.stage=.switched) : HookOk s' u k := by
  cases k with
  | none => exact hookOk_none hpc hfree
  | loadNo => exact ⟨hpc.trans h.1,hprot.trans h.2⟩
  | rebuild no => exact ⟨⟨hpc.trans h.1.1,hprot.trans h.1.2⟩,hno no rfl⟩
  | tail => exact absurd h.1 (not_atPublish hfree)
  | apply => exact absurd h.1 (not_atPublish hfree)
  | switch => exact absurd h.1 (not_atPublish hfree)
  | patch | callback => exact absurd h.1 (not_atSettle hfree)

/-- What holds for another thread. -/
theorem ThreadOk.transfer (h : ThreadOk s u) (ho : Others s s' t) (hu : u ≠ t) (hhook : HookOk s' u (s.hook u))
    (hsession : Live s.phases u → Current s u ∨ (s.stage=.switched ∧ Former s u) →
      Current s' u ∨ (s'.stage=.switched ∧ Former s' u))
    (hbegun : s'.phases.systemState.phase ≠ .rest → Begun s u → Current s' u)
    (hpc : s'.phases.systemState.phase ≠ .rest → PcSession s' u (s.phases.pc u)) : ThreadOk s' u := by
  refine ⟨?_,?_,?_,?_,fun hne hb => hbegun hne (ho.begun hu hb),?_⟩
  · rw [ho.pc u hu]
    exact h.starting
  · rw [ho.live hu]
    exact h.tracked
  · rw [ho.hook u hu]
    exact hhook
  · rw [ho.live hu,ho.hook u hu]
    exact fun hl hj => hsession hl (h.session hl hj)
  · rw [ho.pc u hu]
    exact hpc

/-- It stays when the parser states stay as they are. -/
theorem ThreadOk.other (h : ThreadOk s u) (ho : Others s s' t) (hd : Data s s') (hu : u ≠ t)
    (hsys : s'.phases.systemState=s.phases.systemState) : ThreadOk s' u := by
  have hcur : Current s' u ↔ Current s u := by
    unfold Current
    rw [hd.no]
    exact ho.on hu (congrFun hd.states _)
  have hformer : Former s' u ↔ Former s u := by
    unfold Former
    rw [hd.no]
    exact ho.on hu (congrFun hd.states _)
  refine h.transfer ho hu ?_ ?_ ?_ ?_
  · have hk := h.hook
    cases hook : s.hook u <;> rw [hook] at hk <;>
      unfold HookOk AtPublish AtSettle at*<;>
      rw [ho.pc u hu] <;> simp only [hd.stage,hd.actions,hd.no,ho.argument u hu,ho.isProtected u hu] <;>
      exact hk
  · rw [hcur,hformer,hd.stage]
    exact fun _ => id
  · rw [hsys,hcur]
    exact h.begun
  · rw [hsys]
    exact fun hne => (h.pc hne).mono hcur.mpr

/-- What holds for the thread that moves, by where it comes to. -/
theorem threadOk (hpc : s.phases.pc t=pc) (hk : s.hook t=k) (ht : 1≤t ∧ t<kMaxNumThreads)
    (hstart : ∀ a, starting pc=some a → a=.parserShift) (hhook : HookOk s t k)
    (hsession : Live s.phases t → joining k=false → Current s t ∨ (s.stage=.switched ∧ Former s t))
    (hbegun : s.phases.systemState.phase ≠ .rest → Begun s t → Current s t)
    (hok : s.phases.systemState.phase ≠ .rest → PcSession s t pc) : ThreadOk s t := by
  subst hpc hk
  exact ⟨hstart,fun _ => ht,hhook,hsession,hbegun,hok⟩

/-- A step that leaves the parser states and the word alone. -/
theorem SessionInv.keep (h : SessionInv s) (ho : Others s s' t) (hd : Data s s')
    (hsys : s'.phases.systemState=s.phases.systemState) (hstarted : s'.phases.started=s.phases.started)
    (horigin : s'.phases.origin=s.phases.origin) (hself : ThreadOk s' t) : SessionInv s' := by
  refine ⟨?_,?_,?_,?_,fun u => ?_⟩
  · rw [hstarted,horigin]
    exact h.action
  · rw [hsys,hd.stage]
    exact h.idle
  · rw [hsys,hd.stage]
    exact h.pending
  · rw [hd.stage]
    exact hd.sets h.sets
  · by_cases hut : u=t
    · rw [hut]
      exact hself
    · exact (h.threads u).other ho hd hut hsys

section

variable (hc : Phases.callStep s.phases t true (s.phases.pc t)=some p)

include hc

theorem others_callStep (hphases : s'.phases=p) (hno : ∀ u, u ≠ t → s'.parserNo u=s.parserNo u)
    (hparser : ∀ u, u ≠ t → s'.parser u=s.parser u) (harg : s'.argument=s.argument)
    (hhook : ∀ u, u ≠ t → s'.hook u=s.hook u) : Others s s' t := by
  subst hphases
  exact ⟨fun u hu => callStep_other hc hu, fun u hu => (callStep_local hc hu).1, fun u hu => (callStep_local hc hu).2.1,
    fun u q hu => (callStep_local hc hu).2.2 q,hno,hparser,
    fun u _ => congrFun harg u,hhook⟩

theorem others_phases : Others s { s with phases := p } t :=
  others_callStep hc rfl (fun _ _ => rfl) (fun _ _ => rfl) rfl fun _ _ => rfl

theorem others_hook : Others s ({ s with phases := p }.gotoHook t k) t :=
  others_callStep hc rfl (fun _ _ => rfl) (fun _ _ => rfl) rfl fun _ hu => update_of_ne hu _ _

end

theorem others_of_phases (hphases : s'.phases=s.phases) (hno : s'.parserNo=s.parserNo)
    (hparser : s'.parser=s.parser) (harg : s'.argument=s.argument)
    (hhook : ∀ u, u ≠ t → s'.hook u=s.hook u) : Others s s' t := by
  refine ⟨?_,?_,?_,?_,fun u _ => congrFun hno u,fun u _ => congrFun hparser u,fun u _ => congrFun harg u,hhook⟩
    <;> rw [hphases]
  · exact fun _ _ => rfl
  · exact fun _ _ => rfl
  · exact fun _ _ => rfl
  · exact fun _ _ _ => id

section

variable (h : SessionInv s)

include h

/-- A step of a session in the phase protocol that is not near the word. -/
theorem SessionInv.pass (hook : s.hook t=.none) (ht : 1≤t ∧ t<kMaxNumThreads)
    (hlive : Live s.phases t) (hc : Phases.callStep s.phases t true (s.phases.pc t)=some (p.goto t pc))
    (hsys : p.systemState=s.phases.systemState)
    (hstarted : p.started=s.phases.started) (horigin : p.origin=s.phases.origin)
    (hfree : owned pc=none) (hstart : ∀ a, starting pc=some a → a=.parserShift)
    (hbegun : s.phases.systemState.phase ≠ .rest →
      Current s t ∨ (p.ctx t=s.phases.ctx t ∧ p.acked=s.phases.acked))
    (hok : s.phases.systemState.phase ≠ .rest → PcSession s t pc) :
    SessionInv { s with phases := p.goto t pc } := by
  have hthread := h.threads t
  have hpt : (p.goto t pc).pc t=pc := update_self _ _ _
  refine h.keep (others_phases hc) ⟨rfl,rfl,rfl,rfl,rfl⟩ hsys hstarted horigin
    (threadOk hpt hook ht hstart (hookOk_none hpt hfree) (fun _ hj => ?_) ?_ ?_)
  · rw [←hook] at hj
    exact hthread.session hlive hj
  · change p.systemState.phase ≠ .rest → _
    rw [hsys]
    intro hne hb
    rcases hbegun hne with hcur | ⟨hctx,hacked⟩
    · exact hcur
    · refine hthread.begun hne ?_
      rcases hb with ⟨-,hph⟩ | ⟨q,hq⟩
      · exact .inl ⟨hlive,hctx ▸ hph⟩
      · exact .inr ⟨q,hacked ▸ hq⟩
  · change p.systemState.phase ≠ .rest → _
    rw [hsys]
    exact fun hne => (hok hne).mono id

/-- Who is joining uses what was current when it has looked. -/
theorem SessionInv.joining_no (hk : s.hook u=.rebuild no) : no=s.systemParserNo ∨ s.stage=.switched := by
  have hh := (h.threads u).hook
  rw [hk] at hh
  exact hh.2

/-- While the word is in the rest phase, a step is about the parser states only. -/
theorem SessionInv.atRest (ho : Others s s' t) (hrest : s'.phases.systemState.phase=.rest)
    (haction : s'.phases.started ≠ 0 → s'.phases.origin.action=.parserShift)
    (hidle : s'.phases.systemState.action=.none → s'.stage=.equal) (hsets : SetsOk s' s'.stage)
    (hfree : ∀ u, u ≠ t → owned (s.phases.pc u)=none)
    (hjoin : ∀ u no, u ≠ t → s.hook u=.rebuild no → no=s'.systemParserNo ∨ s'.stage=.switched)
    (hsession : ∀ u, u ≠ t → Live s.phases u → Current s u ∨ (s.stage=.switched ∧ Former s u) →
      Current s' u ∨ (s'.stage=.switched ∧ Former s' u)) (ht : 1≤t ∧ t<kMaxNumThreads) (hpc : s'.phases.pc t=pc)
    (hk : s'.hook t=k) (hstart : ∀ a, starting pc=some a → a=.parserShift) (hhook : HookOk s' t k)
    (hself : joining k=false → Current s' t ∨ (s'.stage=.switched ∧ Former s' t)) : SessionInv s' := by
  refine ⟨haction,hidle,fun hne => absurd hrest hne,hsets,fun u => ?_⟩
  by_cases hut : u=t
  · rw [hut]
    exact threadOk hpc hk ht hstart hhook (fun _ => hself) (fun hne => absurd hrest hne) fun hne => absurd hrest hne
  · have hthread := h.threads u
    refine hthread.transfer ho hut ?_ (hsession u hut) (fun hne => absurd hrest hne) fun hne => absurd hrest hne
    exact hthread.hook.free (hfree u hut) (ho.pc u hut) (ho.isProtected u hut) fun no => hjoin u no hut

/-- `ApplyParserShift` wins the word. -/
theorem SessionInv.start (hrounds : Rounds s.phases) {v : UInt32} (ht : 1≤t ∧ t<kMaxNumThreads)
    (hook : s.hook t=.none)
    (hc : Phases.callStep s.phases t true (s.phases.pc t) =
      some ((s.phases.start .parserShift v).goto t (.reset .parserShift v 1)))
    (hpc : s.phases.pc t=.startSwap .parserShift v) (hsys : s.phases.systemState=⟨.none,.rest,v⟩) :
    SessionInv { s with
      phases := (s.phases.start .parserShift v).goto t (.reset .parserShift v 1)
      psActions := s.argument t, shift := s.argument t, before := s.applied, safeUnregister := none,
      safeRegister := none } := by
  have hstage : s.stage=.equal := h.idle (by rw [hsys])
  have hpt : ((s.phases.start .parserShift v).goto t (.reset .parserShift v 1)).pc t=.reset .parserShift v 1 :=
    update_self _ _ _
  have hlive : Live s.phases t := live_of_pc hpc ⟨(by rintro ⟨⟩),(by rintro ⟨⟩)⟩
  refine h.atRest (t := t) (others_callStep hc rfl (fun _ _ => rfl) (fun _ _ => rfl) rfl fun _ _ => rfl)
    rfl (fun _ => rfl) (fun _ => hstage) ?_ (fun u _ => hrounds.inv.not_owned fun _ => by rw [hsys])
    (fun u no _ => h.joining_no) (fun _ _ _ => id) ht hpt hook (by rintro a ⟨⟩; rfl)
    ⟨fun _ _ _ _ => ⟨hstage,rfl⟩,?_,?_⟩ fun hj => (h.threads t).session hlive (by rw [hook]; exact hj)
  · have hsets := h.sets
    rw [hstage] at hsets
    dsimp only
    rw [hstage]
    exact hsets
  · rintro ⟨a,v',heq⟩
    cases hpt.symm.trans heq
  · rintro ⟨next,r,heq,-⟩
    cases hpt.symm.trans heq

omit h in
theorem pcSession_of_not_engaged (h : PhaseBarrier.engaged pc=false) : PcSession s u pc := by cases pc <;> trivial

omit h in
/-- The owner of the word is alone. -/
theorem free_of_owner (hrounds : Rounds s.phases) {w : Phases.SystemState}
    (hown : owned (s.phases.pc t)=some w) (hu : u ≠ t) : owned (s.phases.pc u)=none := by
  cases hu' : owned (s.phases.pc u) with
  | none => rfl
  | some w' => exact absurd (hrounds.inv.unique u t w' w hu' hown) hu

/-- `PS_PENDING` is published; nobody has begun. -/
theorem SessionInv.publish (hrounds : Rounds s.phases) {v : UInt32} (ht : 1≤t ∧ t<kMaxNumThreads)
    (hook : s.hook t=.none)
    (hc : Phases.callStep s.phases t true (s.phases.pc t) =
      some ({ s.phases with systemState := ⟨.parserShift,.psPending,v⟩ }.goto t .refresh))
    (hpc : s.phases.pc t=.publish .parserShift v) : SessionInv { s with
      phases := { s.phases with systemState := ⟨.parserShift,.psPending,v⟩ }.goto t .refresh } := by
  have hthread := h.threads t
  have hlive : Live s.phases t := live_of_pc hpc ⟨(by rintro ⟨⟩),(by rintro ⟨⟩)⟩
  have hstage : s.stage=.switched := by
    have hh := hthread.hook
    rw [hook] at hh
    exact hh.2.1 ⟨_,v,hpc⟩
  have hpt : ({ s.phases with systemState := ⟨.parserShift,.psPending,v⟩ }.goto t .refresh).pc t=.refresh :=
    update_self _ _ _
  have hopened := (hrounds.walk.opened t .parserShift v (by rw [hpc]; rfl)).2
  have hunacked : PhaseRounds.Unacked s.phases := by
    have hok := hrounds.rounds.pcs t
    rw [hpc] at hok
    exact hok.1
  have hnot : ∀ u, ¬Begun s u := by
    rintro u (⟨hl,hph⟩ | ⟨q,hq⟩)
    · rw [(hopened u hl).1] at hph
      exact hph rfl
    · rw [hunacked u q] at hq
      cases hq
  have ho := others_phases hc
  refine ⟨h.action,by rintro ⟨⟩,fun _ => hstage,Data.sets ⟨rfl,rfl,rfl,rfl,rfl⟩ h.sets,fun u => ?_⟩
  by_cases hut : u=t
  · rw [hut]
    refine threadOk hpt hook ht (by rintro _ ⟨⟩) (hookOk_none hpt rfl)
      (fun _ hj => hthread.session hlive (by rw [hook]; exact hj)) ?_ fun _ => trivial
    rintro - (⟨-,hph⟩ | hq)
    · exact absurd (.inl ⟨hlive,hph⟩) (hnot t)
    · exact absurd (.inr hq) (hnot t)
  · refine (h.threads u).transfer ho hut ?_ (fun _ => id) (fun _ hb => absurd hb (hnot u)) fun _ => ?_
    · have hfree := free_of_owner hrounds (w := ⟨.parserShift,.rest,v⟩) (by rw [hpc]; rfl) hut
      exact (h.threads u).hook.free hfree (ho.pc u hut) (ho.isProtected u hut) fun _ _ => .inr hstage
    · refine pcSession_of_not_engaged ?_
      cases hen : PhaseBarrier.engaged (s.phases.pc u) with
      | false => rfl
      | true =>
        rw [(hopened u (PhaseWalk.live_of_engaged hen)).2 hut] at hen
        cases hen

omit h in
/-- The phases of a parser shift. -/
theorem phase_of_onWalk {o w : Phases.SystemState} (h : OnWalk o w) (ho : o.action=.parserShift)
    (hne : w.phase ≠ .rest) : w=⟨.parserShift,.psPending,w.version⟩ := by
  obtain ⟨act,ph,v⟩ := w
  have hmem := h.phase
  have hact := h.action
  rw [ho] at hmem hact
  dsimp only at hact hne
  simp only [PhaseWalk.phases,List.mem_cons,List.not_mem_nil,or_false] at hmem
  rcases hmem with rfl | rfl
  · exact absurd rfl hne
  · rw [hact]

/-- The thread that ends the phase has seen that all sessions use the current state. -/
theorem SessionInv.move (hrounds : Rounds s.phases) {w : Phases.SystemState}
    {seen : Option ℕ} {r : Phases.Return} (ht : 1≤t ∧ t<kMaxNumThreads)
    (hc : Phases.callStep s.phases t true (s.phases.pc t)=some p)
    (hpc : s.phases.pc t=.move w seen r) (hsys : s.phases.systemState=w) :
    SessionInv ({ s with phases := p, stage := .closing }.gotoHook t .patch) := by
  have hw : w.phase ≠ .rest := hrounds.inv.target t w (by rw [hpc]; rfl)
  have hne : s.phases.systemState.phase ≠ .rest := by
    rw [hsys]
    exact hw
  have hstage := h.pending hne
  obtain ⟨hstarted,hwalk⟩ := hrounds.walk.sys hne
  rw [hsys] at hwalk
  have hword := phase_of_onWalk hwalk (h.action hstarted) hw
  have hok := hrounds.rounds.pcs t
  rw [hpc] at hok
  have hseen : seen.isSome := by
    cases seen with
    | some i => rfl
    | none =>
      have hidx := hok.2 rfl
      rw [hword] at hidx
      cases hidx
  -- The scan has covered every session.
  have hcurrent : ∀ u, Live s.phases u → Current s u := by
    intro u hl
    have hbound := (h.threads u).tracked hl
    refine (h.threads u).begun hne (.inr ⟨w.phase,?_⟩)
    exact hok.1 hseen hne u hbound.1 (by omega) (hrounds.rounds.joined hne u hl)
  obtain rfl : p={ s.phases with systemState := ⟨.parserShift,.rest,w.version⟩ }.goto t
      (.settle ⟨.parserShift,.rest,w.version⟩ r) := by
    rw [hpc] at hc
    obtain ⟨next,hnext,rfl⟩ := map_eq_some_iff.mp hc
    rw [hword] at hnext
    cases hnext
    exact if_pos hsys
  have hsets := h.sets
  rw [hstage] at hsets
  refine h.atRest (t := t) (others_callStep hc rfl (fun _ _ => rfl) (fun _ _ => rfl) rfl fun u hu =>
    update_of_ne hu _ _) rfl h.action (by rintro ⟨⟩) hsets ?_ ?_ (fun u _ hl _ => .inl (hcurrent u hl)) ht
    (update_self _ _ _) (update_self _ _ _) (by rintro _ ⟨⟩) ⟨⟨_,r,update_self _ _ _,rfl⟩,rfl⟩
    fun _ => .inl (hcurrent t (live_of_pc hpc ⟨(by rintro ⟨⟩),(by rintro ⟨⟩)⟩))
  · exact fun u _ => hrounds.inv.not_owned fun hrest => absurd hrest hne
  · -- Nobody is joining.
    intro u no hut hk
    have hh := (h.threads u).hook
    rw [hk] at hh
    have hl : Live s.phases u := live_of_pc hh.1.1 ⟨(by rintro ⟨⟩),(by rintro ⟨⟩)⟩
    cases (hrounds.rounds.joined hne u hl).symm.trans hh.1.2

/-- The steps by which the thread that owns the word changes the parser states. -/
theorem SessionInv.shift (hrounds : Rounds s.phases) {w : Phases.SystemState} (hown : owned (s.phases.pc t)=some w)
    (hphases : s'.phases=s.phases) (hno : s'.parserNo=s.parserNo) (hparser : s'.parser=s.parser)
    (harg : s'.argument=s.argument) (hhook : s'.hook=update s.hook t k) (hsets : SetsOk s' s'.stage)
    (hjoin : ∀ no, no=s.systemParserNo ∨ s.stage=.switched → no=s'.systemParserNo ∨ s'.stage=.switched)
    (hsession : ∀ u, Current s u ∨ (s.stage=.switched ∧ Former s u) →
      Current s' u ∨ (s'.stage=.switched ∧ Former s' u)) (hk : joining (s.hook t)=false) (hok : HookOk s' t k) :
    SessionInv s' := by
  obtain ⟨hsys,hrest,hact⟩ := hrounds.inv.owner t w hown
  have hlive : Live s.phases t := by refine .inr ⟨?_,?_⟩ <;> intro hpc <;> rw [hpc] at hown <;> cases hown
  have hself : s'.hook t=k := by
    rw [hhook]
    exact update_self _ _ _
  refine h.atRest (others_of_phases hphases hno hparser harg fun u hu => ?_) ?_ ?_ ?_ hsets
    (fun u hu => free_of_owner hrounds hown hu) (fun u no _ hu => hjoin no (h.joining_no hu))
    (fun u _ _ => hsession u) ((h.threads t).tracked hlive) (congrFun (congrArg _ hphases) t) hself
    (h.threads t).starting hok fun _ => hsession t ((h.threads t).session hlive hk)
  · rw [hhook]
    exact update_of_ne hu _ _
  · rw [hphases,hsys]
    exact hrest
  · rw [hphases]
    exact h.action
  · rw [hphases,hsys]
    exact fun hnone => absurd hnone hact

omit h in
/-- The actions are never applied to the current state. -/
theorem current_state (s : State reg) (state : ParserState reg) :
    update s.parserStates (!s.systemParserNo) state s.systemParserNo = s.parserStates s.systemParserNo :=
  update_of_ne (Bool.not_ne_self _).symm _ _

omit h in
theorem Current.setOther (h : Current s u) (state : ParserState reg) :
    Current (s.setParserState (!s.systemParserNo) state) u := by
  refine ⟨h.1,?_⟩
  change s.parser u=(update s.parserStates (!s.systemParserNo) state s.systemParserNo).mainParserFields
  rw [current_state]
  exact h.2

/-- What the sessions do for the parsers keeps the invariant. -/
theorem SessionInv.hookStep (hrounds : Rounds s.phases) {order : List ℕ}
    (hs : hookStep s t order (s.hook t)=some s') : SessionInv s' := by
  have hthread := h.threads t
  have hh := hthread.hook
  have hsets := h.sets
  generalize hk : s.hook t=k at hs hh
  cases k with
  | none => cases hs
  | loadNo =>
    cases hs
    exact h.keep (t := t) (others_of_phases rfl rfl rfl rfl fun u hu => update_of_ne hu _ _)
      ⟨rfl,rfl,rfl,rfl,rfl⟩ rfl rfl rfl (threadOk rfl (update_self _ _ _)
      (hthread.tracked (live_of_pc hh.1 ⟨(by rintro ⟨⟩),(by rintro ⟨⟩)⟩)) hthread.starting
      ⟨hh,.inl rfl⟩ (by rintro _ ⟨⟩) hthread.begun hthread.pc)
  | rebuild no =>
    cases hs
    obtain ⟨⟨hpc,hoff⟩,hno⟩ := hh
    have hon : On ((s.rebuildParser t no).gotoHook t .none) no t := ⟨update_self _ _ _,update_self _ _ _⟩
    have hlive : Live s.phases t := live_of_pc hpc ⟨(by rintro ⟨⟩),(by rintro ⟨⟩)⟩
    refine h.keep (t := t) ⟨fun _ _ => rfl,fun _ _ => rfl,fun _ _ => rfl,fun _ _ _ => id,
      fun u hu => update_of_ne hu _ _,fun u hu => update_of_ne hu _ _,
      fun _ _ => rfl,fun u hu => update_of_ne hu _ _⟩ ⟨rfl,rfl,rfl,rfl,rfl⟩ rfl rfl rfl
      (threadOk hpc (update_self _ _ _) (hthread.tracked hlive) (by rintro _ ⟨⟩) (hookOk_none hpc rfl) (fun _ _ => ?_)
      (fun hne _ => ?_) fun _ => trivial)
    · by_cases heq : no=s.systemParserNo
      · refine .inl ?_
        change On _ s.systemParserNo t
        rw [←heq]
        exact hon
      · refine .inr ⟨hno.resolve_left heq,?_⟩
        change On _ (!s.systemParserNo) t
        rw [←Bool.eq_not_of_ne heq]
        exact hon
    · cases (hrounds.rounds.joined hne t hlive).symm.trans hoff
  | tail =>
    cases hs
    obtain ⟨w,hown⟩ := owned_of_atPublish hh.1
    exact h.shift hrounds hown rfl rfl rfl rfl rfl h.sets (fun _ => id) (fun _ => id) (by rw [hk]; rfl) hh
  | apply =>
    obtain ⟨state,hstate,rfl⟩ := map_eq_some_iff.mp hs
    obtain ⟨hpub,hstage,hactions⟩ := hh
    obtain ⟨w,hown⟩ := owned_of_atPublish hpub
    have hne : s.stage ≠ .switched := by rw [hstage]; rintro ⟨⟩
    rw [hstage] at hsets
    refine h.shift hrounds hown rfl rfl rfl rfl rfl ⟨?_,?_⟩ (fun no hno => .inl (hno.resolve_right hne))
      (fun u hu => .inl ((hu.resolve_right fun hf => hne hf.1).setOther state)) (by rw [hk]; rfl) ⟨hpub,rfl⟩
    · change (update s.parserStates (!s.systemParserNo) state (!s.systemParserNo)).toPtrSets =
        PtrSets.empty.applyAll (s.applied ++ s.argument t)
      rw [update_self,parserStateApplyActions_sets hstate,applyAll_append]
      exact congrArg (PtrSets.applyAll · _) (hsets _)
    · change (update s.parserStates (!s.systemParserNo) state s.systemParserNo).applyAll s.psActions =
        PtrSets.empty.applyAll (s.applied ++ s.argument t)
      rw [current_state,hactions,applyAll_append]
      exact congrArg (PtrSets.applyAll · _) (hsets _)
  | switch =>
    cases hs
    obtain ⟨⟨a,v,hpc⟩,hstage⟩ := hh
    rw [hstage] at hsets
    refine h.shift hrounds (w := ⟨a,.rest,v⟩) (by rw [hpc]; rfl) rfl rfl rfl rfl rfl ⟨hsets.1,?_⟩
      (fun _ _ => .inr rfl) (fun u hu => ?_) (by rw [hk]; rfl) ⟨?_,fun _ => rfl,?_⟩
    · change (s.parserStates (!!s.systemParserNo)).applyAll s.psActions=registered s
      rw [Bool.not_not]
      exact hsets.2
    · rw [hstage] at hu
      refine .inr ⟨rfl,?_⟩
      change On s (!!s.systemParserNo) u
      rw [Bool.not_not]
      exact hu.resolve_right (by rintro ⟨⟨⟩,-⟩)
    · intro a' v' idx heq
      cases hpc.symm.trans heq
    · rintro ⟨next,r,heq,-⟩
      cases hpc.symm.trans heq
  | patch =>
    obtain ⟨state,hstate,rfl⟩ := map_eq_some_iff.mp hs
    obtain ⟨hsettle,hstage⟩ := hh
    obtain ⟨w,hown⟩ := owned_of_atSettle hsettle
    have hne : s.stage ≠ .switched := by rw [hstage]; rintro ⟨⟩
    rw [hstage] at hsets
    refine h.shift hrounds hown rfl rfl rfl rfl rfl (fun no => ?_) (fun no hno => .inl (hno.resolve_right hne))
      (fun u hu => .inl ((hu.resolve_right fun hf => hne hf.1).setOther state)) (by rw [hk]; rfl) ⟨hsettle,rfl⟩
    by_cases hno : no=s.systemParserNo
    · rw [hno]
      change (update s.parserStates (!s.systemParserNo) state s.systemParserNo).toPtrSets=registered s
      rw [current_state]
      exact hsets.1
    · rw [Bool.eq_not_of_ne hno]
      change (update s.parserStates (!s.systemParserNo) state (!s.systemParserNo)).toPtrSets = registered s
      rw [update_self,parserStateApplyActions_sets hstate]
      exact hsets.2
  | callback =>
    cases hs
    obtain ⟨⟨next,r,hpc,hrest⟩,hstage⟩ := hh
    rw [hstage] at hsets
    refine h.shift hrounds (w := next) (by rw [hpc]; exact if_pos hrest) rfl rfl rfl rfl rfl ?_ (fun _ => id)
      (fun _ => id) (by rw [hk]; rfl) ⟨?_,?_,fun _ => hstage⟩
    · change SetsOk _ s.stage
      rw [hstage]
      exact hsets
    · intro a' v' idx heq
      cases hpc.symm.trans heq
    · rintro ⟨a,v,heq⟩
      cases hpc.symm.trans heq

omit h in
theorem owned_afterMove (r : Phases.Return) : owned (Phases.afterMove r)=none := by rcases r with l | ⟨_ | l⟩ <;> rfl

omit h in
theorem starting_afterMove (r : Phases.Return) : starting (Phases.afterMove r)=none := by rcases r with l | ⟨_ | l⟩ <;> rfl

omit h in
theorem pcSession_afterMove (h : Current s u) (r : Phases.Return) : PcSession s u (Phases.afterMove r) := by
  rcases r with l | ⟨_ | l⟩
  · exact h
  · trivial
  · exact h

/-- The session does its part of the phase, and builds its parser anew if it comes from
the rest phase. -/
theorem SessionInv.iterate {final prev : Phases.SystemState} (ht : 1≤t ∧ t<kMaxNumThreads)
    (hook : s.hook t=.none) (hc : Phases.callStep s.phases t true (s.phases.pc t)=some p)
    (hpc : s.phases.pc t=.iterate final prev) :
    SessionInv (if prev.phase=.rest then { s with phases := p }.rebuildParser t s.systemParserNo
      else { s with phases := p }) := by
  obtain ⟨c,pc,rfl,hfree,hstart,hok⟩ : ∃ c pc, p=(s.phases.setCtx t c).goto t pc ∧ owned pc=none ∧ starting pc=none ∧
      ∀ s' : State reg, Current s' t → PcSession s' t pc := by
    rw [hpc] at hc
    obtain ⟨cur,-,rfl⟩ := map_eq_some_iff.mp hc
    refine ⟨_,_,rfl,?_⟩
    cases (Phases.phaseWork cur prev (decide (s.phases.phaseFinished t=cur.phase)) true (s.phases.ctx t)).1 <;>
      exact ⟨rfl,rfl,fun _ => id⟩
  have hnone : ∀ a, starting pc=some a → a=.parserShift := by
    rw [hstart]
    rintro _ ⟨⟩
  split_ifs with hrest
  · have hpt : ((s.phases.setCtx t c).goto t pc).pc t=pc := update_self _ _ _
    have hcur : Current ({ s with phases := (s.phases.setCtx t c).goto t pc }.rebuildParser t s.systemParserNo) t :=
      ⟨update_self _ _ _,update_self _ _ _⟩
    exact h.keep (t := t) (others_callStep hc rfl (fun u hu => update_of_ne hu _ _)
      (fun u hu => update_of_ne hu _ _) rfl fun _ _ => rfl) ⟨rfl,rfl,rfl,rfl,rfl⟩ rfl rfl rfl
      (threadOk hpt hook ht hnone (hookOk_none hpt hfree) (fun _ _ => .inl hcur) (fun _ _ => hcur) fun _ => hok _ hcur)
  · have hcur : s.phases.systemState.phase ≠ .rest → Current s t := by
      intro hne
      have hthread := (h.threads t).pc hne
      rw [hpc] at hthread
      exact hthread hrest
    exact h.pass hook ht (live_of_pc hpc ⟨(by rintro ⟨⟩),(by rintro ⟨⟩)⟩) hc rfl rfl rfl hfree hnone
      (fun hne => .inl (hcur hne)) fun hne => hok s (hcur hne)

/-- The last entry is reset, and the shift of the parser states begins. -/
theorem SessionInv.reset (hrounds : Rounds s.phases) {a : Phases.Action} {v : UInt32} {idx : ℕ}
    (hook : s.hook t=.none) (hc : Phases.callStep s.phases t true (s.phases.pc t)=some p)
    (hpc : s.phases.pc t=.reset a v idx) : SessionInv (if idx<kMaxNumThreads then { s with phases := p }
      else { s with phases := p }.gotoHook t .tail) := by
  have hthread := h.threads t
  have hown : owned (s.phases.pc t)=some ⟨a,.rest,v⟩ := by
    rw [hpc]
    rfl
  have hrest : s.phases.systemState.phase=.rest := by rw [(hrounds.inv.owner t _ hown).1]
  have hstage : s.stage=.equal ∧ s.psActions=s.argument t := by
    have hh := hthread.hook
    rw [hook] at hh
    exact hh.1 a v idx hpc
  obtain rfl : a=.parserShift := hthread.starting a (by rw [hpc]; rfl)
  have hlive : Live s.phases t := live_of_pc hpc ⟨(by rintro ⟨⟩),(by rintro ⟨⟩)⟩
  have hsession := hthread.session hlive (by rw [hook]; rfl)
  have hc' := hc
  rw [hpc] at hc'
  cases hc'
  split_ifs at hc ⊢ with hidx
  · refine h.atRest (t := t) (others_phases hc) hrest h.action (fun _ => hstage.1)
      (Data.sets ⟨rfl,rfl,rfl,rfl,rfl⟩ h.sets) (fun u hu => free_of_owner hrounds hown hu)
      (fun u no _ => h.joining_no) (fun _ _ _ => id) (hthread.tracked hlive) (update_self _ _ _) hook
      (by rintro x ⟨⟩; rfl) ⟨fun _ _ _ _ => hstage,?_,?_⟩ fun _ => hsession
    · rintro ⟨a',v',heq⟩
      cases (update_self _ _ _).symm.trans heq
    · rintro ⟨next,r,heq,-⟩
      cases (update_self _ _ _).symm.trans heq
  · exact h.atRest (t := t) (others_hook hc) hrest h.action (fun _ => hstage.1)
      (Data.sets ⟨rfl,rfl,rfl,rfl,rfl⟩ h.sets) (fun u hu => free_of_owner hrounds hown hu)
      (fun u no _ => h.joining_no) (fun _ _ _ => id) (hthread.tracked hlive) (update_self _ _ _) (update_self _ _ _)
      (by rintro x ⟨⟩; rfl) ⟨⟨_,v,update_self _ _ _⟩,hstage⟩ fun _ => hsession

/-- A thread that starts a session loads the word of the system. -/
theorem SessionInv.sessionLoad (hrounds : Rounds s.phases)
    (ht : 1≤t ∧ t<kMaxNumThreads) (hook : s.hook t=.none)
    (hc : Phases.callStep s.phases t true (s.phases.pc t)=some p) (hpc : s.phases.pc t=.sessionLoad) :
    SessionInv (if s.phases.systemState.phase=.rest then { s with phases := p }.gotoHook t .loadNo
      else { s with phases := p }) := by
  have hoff : s.phases.isProtected t=false := by
    have hw := hrounds.walk.pcs t
    rw [hpc] at hw
    exact hw
  have hc' := hc
  rw [hpc] at hc'
  simp only [Phases.callStep] at hc'
  split_ifs at hc' ⊢ with hrest
  · cases hc'
    exact h.keep (t := t) (others_hook hc) ⟨rfl,rfl,rfl,rfl,rfl⟩ rfl rfl rfl
      (threadOk (update_self _ _ _) (update_self _ _ _) ht (by rintro _ ⟨⟩) ⟨update_self _ _ _,hoff⟩ (by rintro _ ⟨⟩)
      (fun hne => absurd hrest hne) fun hne => absurd hrest hne)
  · cases hc'
    have hpt : (s.phases.goto t .idle).pc t=.idle := update_self _ _ _
    -- The thread is no session.
    have hdead : ¬Live (s.phases.goto t .idle) t := by
      rintro (hon | ⟨hne,-⟩)
      · cases hon.symm.trans hoff
      · exact hne hpt
    refine h.keep (others_phases hc) ⟨rfl,rfl,rfl,rfl,rfl⟩ rfl rfl rfl
      (threadOk hpt hook ht (by rintro _ ⟨⟩) (hookOk_none hpt rfl) (fun hl => absurd hl hdead) ?_ fun _ => trivial)
    rintro hne (⟨hl,-⟩ | hq)
    · exact absurd hl hdead
    · exact (h.threads t).begun hne (.inr hq)

/-- The steps of the phase protocol keep the invariant. -/
theorem SessionInv.phaseStep (hrounds : Rounds s.phases) (ht : 1≤t ∧ t<kMaxNumThreads)
    (hook : s.hook t=.none) (hs : phaseStep s t=some s') : SessionInv s' := by
  obtain ⟨p,hc,rfl⟩ := map_eq_some_iff.mp hs
  by_cases hload : s.phases.pc t=.sessionLoad
  · rw [hload]
    exact h.sessionLoad hrounds ht hook hc hload
  have hlive : Live s.phases t := by
    refine .inr ⟨?_,hload⟩
    intro hidle
    rw [hidle] at hc
    cases hc
  have hthread := h.threads t
  have hpcs : s.phases.systemState.phase ≠ .rest → PcSession s t (s.phases.pc t) := hthread.pc
  have hgo := fun {b : Phases.State} {pc : Phases.Pc} => @SessionInv.pass reg s t pc b h hook ht hlive
  have hreturn : ∀ r, (∀ a, starting (Phases.afterMove r)=some a → a=.parserShift) := by
    intro r
    rw [starting_afterMove]
    rintro _ ⟨⟩
  have hmoves := Phases.moves_of_callStep hc
  generalize hpc : s.phases.pc t=pc at hpcs hmoves hload ⊢
  cases hmoves with
  | join | reject => exact absurd rfl hload
  | refresh | resting | special => exact hgo hc rfl rfl rfl rfl (by rintro _ ⟨⟩) (fun _ => .inr ⟨rfl,rfl⟩) fun _ => trivial
  | reload hrest => exact hgo hc rfl rfl rfl rfl (by rintro _ ⟨⟩) (fun hne => absurd hrest hne) fun _ => trivial
  | enter =>
    exact hgo hc rfl rfl rfl rfl (by rintro _ ⟨⟩) (fun _ => .inr ⟨rfl,rfl⟩)
      fun hne hph => hthread.begun hne (.inl ⟨hlive,hph⟩)
  | iterate final prev => exact h.iterate ht hook hc hpc
  | leave l =>
    refine hgo hc rfl rfl rfl ?_ ?_ (fun hne => .inl (hpcs hne)) fun hne => ?_
    · split_ifs <;> rfl
    · split_ifs <;> rintro _ ⟨⟩
    · split_ifs
      · trivial
      · exact fun _ => hpcs hne
  | ack | scanPhase | split => exact hgo hc rfl rfl rfl rfl (by rintro _ ⟨⟩) (fun hne => .inl (hpcs hne)) hpcs
  | refuse w idx entry r =>
    refine hgo hc rfl rfl rfl ?_ ?_ (fun hne => .inl (hpcs hne)) fun hne => ?_
    · cases r <;> rfl
    · cases r <;> rintro _ ⟨⟩
    · cases r <;> exact hpcs hne
  | scanOn w idx entry r =>
    refine hgo hc rfl rfl rfl ?_ ?_ (fun hne => .inl (hpcs hne)) fun hne => ?_ <;> unfold Phases.scanFrom
    · split_ifs <;> rfl
    · split_ifs <;> rintro _ ⟨⟩
    · split_ifs <;> exact hpcs hne
  | move w seen r next hnext hsys =>
    dsimp only
    rw [if_pos hsys]
    exact h.move hrounds ht hc hpc hsys
  | overtaken w seen r next hnext hsys =>
    dsimp only
    rw [if_neg hsys]
    exact hgo hc rfl rfl rfl (owned_afterMove r) (hreturn r) (fun hne => .inl (hpcs hne))
      fun hne => pcSession_afterMove (hpcs hne) r
  | close next r hrest =>
    have hh := hthread.hook
    rw [hook] at hh
    have hstage : s.stage=.equal := hh.2.2 ⟨next,r,hpc,hrest⟩
    have hown : owned (s.phases.pc t)=some next := by
      rw [hpc]
      exact if_pos hrest
    exact h.atRest (others_phases hc) rfl h.action (fun _ => hstage) (Data.sets ⟨rfl,rfl,rfl,rfl,rfl⟩ h.sets)
      (fun u hu => free_of_owner hrounds hown hu) (fun u no _ => h.joining_no) (fun _ _ _ => id) ht
      (update_self _ _ _) hook (hreturn r) (hookOk_none (update_self _ _ _) (owned_afterMove r))
      fun _ => hthread.session hlive (by rw [hook]; rfl)
  | settle next r hrest =>
    exact hgo hc rfl rfl rfl (owned_afterMove r) (hreturn r) (fun hne => .inl (hpcs hne hrest))
      fun hne => pcSession_afterMove (hpcs hne hrest) r
  | spin => exact h
  | leaveSpin l =>
    exact hgo hc rfl rfl rfl (owned_afterMove (.split l)) (hreturn (.split l)) (fun hne => .inl (hpcs hne))
      fun hne => pcSession_afterMove (hpcs hne) (.split l)
  | startLoad a =>
    have ha := hthread.starting a (by rw [hpc]; rfl)
    refine hgo hc rfl rfl rfl rfl ?_ (fun _ => .inr ⟨rfl,rfl⟩) fun _ => trivial
    rintro x ⟨⟩
    exact ha
  | start a v hsys =>
    have ha := hthread.starting a (by rw [hpc]; rfl)
    subst ha
    dsimp only
    rw [if_pos hsys]
    exact h.start hrounds ht hook hc hpc hsys
  | startLost a v hsys =>
    dsimp only
    rw [if_neg hsys]
    exact hgo hc rfl rfl rfl rfl (by rintro _ ⟨⟩) (fun _ => .inr ⟨rfl,rfl⟩) fun _ => trivial
  | reset => exact h.reset hrounds hook hc hpc
  | publish a v q hfirst =>
    have ha := hthread.starting a (by rw [hpc]; rfl)
    subst ha
    cases hfirst
    exact h.publish hrounds ht hook hc hpc

end

/-- The calls that reach the phase protocol. -/
def calls : Phases.Act → Bool
  | .startSession => true
  | .stopSession => true
  | .refresh => true
  | .start a => decide (a = .parserShift)
  | _ => false

/-- After such a call the session is at its start, or no session any more. -/
theorem startCall_spec {act : Phases.Act} (hact : calls act=true) (hidle : s.phases.pc t=.idle)
    (hs : Phases.startCall s.phases t act=some p) :
    p.systemState=s.phases.systemState ∧ p.started=s.phases.started ∧ p.origin=s.phases.origin ∧
      p.acked=s.phases.acked ∧ p.ctx=s.phases.ctx ∧ owned (p.pc t)=none ∧ (∀ a, starting (p.pc t)=some a → a=.parserShift) ∧
      PhaseBarrier.engaged (p.pc t)=false ∧ (Live p t → Live s.phases t) := by
  cases Phases.starts_of_startCall hs with
  | heavyEnter => cases hact
  | startSession hoff =>
    have hpt : (s.phases.goto t .sessionLoad).pc t=.sessionLoad := update_self _ _ _
    rw [hpt]
    refine ⟨rfl,rfl,rfl,rfl,rfl,rfl,by rintro _ ⟨⟩,rfl,?_⟩
    rintro (hon | ⟨-,hne⟩)
    · exact .inl hon
    · exact absurd hpt hne
  | stopSession hon =>
    have hpt : (s.phases.protect t false).pc t=.idle := hidle
    rw [hpt]
    exact ⟨rfl,rfl,rfl,rfl,rfl,rfl,by rintro _ ⟨⟩,rfl,fun _ => .inl hon.1⟩
  | refresh hon =>
    have hpt : (s.phases.goto t .refresh).pc t=.refresh := update_self _ _ _
    rw [hpt]
    exact ⟨rfl,rfl,rfl,rfl,rfl,rfl,by rintro _ ⟨⟩,rfl,fun _ => .inl hon⟩
  | start a hon =>
    have hpt : (s.phases.goto t (.startLoad a)).pc t=.startLoad a := update_self _ _ _
    rw [hpt]
    refine ⟨rfl,rfl,rfl,rfl,rfl,rfl,?_,rfl,fun _ => .inl hon.1⟩
    rintro x ⟨⟩
    exact of_decide_eq_true hact

section

variable (h : SessionInv s) (ht : 1≤t ∧ t<kMaxNumThreads) (hook : s.hook t=.none)

include h ht hook

/-- A call keeps the invariant. -/
theorem SessionInv.call {act : Phases.Act} (hact : calls act=true) (hidle : s.phases.pc t=.idle)
    (hs : Phases.startCall s.phases t act=some s'.phases) (hd : Data s s')
    (hno : s'.parserNo=s.parserNo) (hparser : s'.parser=s.parser)
    (harg : ∀ u, u ≠ t → s'.argument u=s.argument u) (hhook : s'.hook=s.hook) : SessionInv s' := by
  obtain ⟨hsys,hstarted,horigin,hacked,hctx,hfree,hstart,hen,hlive⟩ := startCall_spec hact hidle hs
  have hthread := h.threads t
  have ho : Others s s' t := by
    refine ⟨fun u hu => startCall_other hs hu,fun u _ => congrFun hctx u,
      fun u hu => (startCall_local hs hu).2.1,?_,fun u _ => congrFun hno u,
      fun u _ => congrFun hparser u,harg,fun u _ => congrFun hhook u⟩
    rw [hacked]
    exact fun _ _ _ => id
  have hcur : Current s' t ↔ Current s t := by
    unfold Current On
    rw [hd.no,hd.states,hno,hparser]
  have hformer : Former s' t ↔ Former s t := by
    unfold Former On
    rw [hd.no,hd.states,hno,hparser]
  refine h.keep ho hd hsys hstarted horigin ⟨hstart,fun _ => ht,?_,?_,?_,fun _ => pcSession_of_not_engaged hen⟩
  · rw [hhook,hook]
    exact hookOk_none rfl hfree
  · rw [hcur,hformer,hhook,hd.stage]
    exact fun hl => hthread.session (hlive hl)
  · rw [hsys,hcur]
    rintro hne (⟨hl,hph⟩ | ⟨q,hq⟩)
    · rw [hctx] at hph
      exact hthread.begun hne (.inl ⟨hlive hl,hph⟩)
    · rw [hacked] at hq
      exact hthread.begun hne (.inr ⟨q,hq⟩)

omit h ht hook in
/-- A step that is not about the parsers and the phases. -/
theorem SessionInv.congr (h : SessionInv s) (hphases : s'.phases=s.phases) (hd : Data s s')
    (hno : s'.parserNo=s.parserNo) (hparser : s'.parser=s.parser)
    (harg : s'.argument=s.argument) (hhook : s'.hook=s.hook) : SessionInv s' := by
  have ho : ∀ t, Others s s' t := fun t => others_of_phases hphases hno hparser harg fun u _ => congrFun hhook u
  have hsys : s'.phases.systemState=s.phases.systemState := by rw [hphases]
  -- No thread moves, so that any other one can be taken for the one that does.
  refine h.keep (ho 0) hd hsys ?_ ?_ ((h.threads 0).other (ho 1) hd Nat.zero_ne_one hsys) <;> rw [hphases]

/-- The steps of a batch keep the invariant. -/
theorem SessionInv.batchStep (hidle : s.phases.pc t=.idle) {readOnly : ℕ} {room : Bool}
    (hs : batchStep s t readOnly room (s.batch t)=some s') : SessionInv s' := by
  generalize s.batch t=b at hs
  cases b with
  | idle => cases hs
  | prepare todo done =>
    cases todo with
    | nil =>
      cases hs
      exact h.congr rfl ⟨rfl,rfl,rfl,rfl,rfl⟩ rfl rfl rfl rfl
    | cons r todo =>
      obtain ⟨c,-,rfl⟩ := map_eq_some_iff.mp hs
      exact h.congr rfl ⟨rfl,rfl,rfl,rfl,rfl⟩ rfl rfl rfl rfl
  | insert c rest pc =>
    cases pc with
    | reserve =>
      simp only [ParserShift.batchStep] at hs
      split at hs
      · split_ifs at hs <;> cases hs <;> exact h.congr rfl ⟨rfl,rfl,rfl,rfl,rfl⟩ rfl rfl rfl rfl
      · cases hs
        exact h.congr rfl ⟨rfl,rfl,rfl,rfl,rfl⟩ rfl rfl rfl rfl
    | refresh page =>
      obtain ⟨p,hc,rfl⟩ := map_eq_some_iff.mp hs
      exact h.call ht hook rfl hidle hc ⟨rfl,rfl,rfl,rfl,rfl⟩ rfl rfl (fun _ _ => rfl) rfl
    | newPage page =>
      simp only [ParserShift.batchStep] at hs
      split_ifs at hs <;> cases hs <;> exact h.congr rfl ⟨rfl,rfl,rfl,rfl,rfl⟩ rfl rfl rfl rfl

/-- A call of the phase protocol keeps the invariant. -/
theorem SessionInv.callPhases {act : Phases.Act} (hidle : s.phases.pc t=.idle) (hact : calls act=true)
    (hs : callPhases s t act=some s') : SessionInv s' := by
  obtain ⟨p,hc,rfl⟩ := map_eq_some_iff.mp hs
  exact h.call ht hook hact hidle hc ⟨rfl,rfl,rfl,rfl,rfl⟩ rfl rfl (fun _ _ => rfl) rfl

/-- The calls of the sessions keep the invariant. -/
theorem SessionInv.startCall {act : Act} (hidle : s.phases.pc t=.idle) (hs : startCall s t act=some s') :
    SessionInv s' := by
  cases act with
  | startSession | stopSession | refresh => exact h.callPhases ht hook hidle rfl hs
  | applyParserShift actions =>
    obtain ⟨s₁,hs₁,rfl⟩ := map_eq_some_iff.mp hs
    obtain ⟨p,hc,rfl⟩ := map_eq_some_iff.mp hs₁
    exact h.call ht hook rfl hidle hc ⟨rfl,rfl,rfl,rfl,rfl⟩ rfl rfl (fun u hu => update_of_ne hu _ _) rfl
  | batchInsert records =>
    obtain ⟨-,rfl⟩ := of_guard hs
    exact h.congr rfl ⟨rfl,rfl,rfl,rfl,rfl⟩ rfl rfl rfl rfl
  | step order readOnly room => cases hs

end

end

end FishStore.ParserInvariant
