import FishStore.ParserInvariant
import FishStore.PhaseLoop

/-!
# Sessions parse with the state that they index with

If every shift of the parsers starts when the sessions are back in the rest phase, and
publishes `PS_PENDING` when nobody is joining, then each session's parser was built from
the field list of the parser state that the session indexes its records with. A session
that still carries `PS_PENDING` from one shift when the next one starts does not build its
parser anew but acknowledges the phase; the actions are then applied to the parser state
that it goes on to use.
-/

namespace FishStore.ParserSessions

open Layout Runs Parsers ParserShift ParserInvariant Option PhaseWalk PhaseRounds
open LightEpoch (kMaxNumThreads)

section

variable {reg : Registry} {s s' : State reg} {t : ℕ} {k : Hook} {label : Label}

/-- A step is one for the parsers, one of a batch, one of the phase protocol, or a call of
a session that is in none. -/
theorem step_cases (hs : step s label=some s') : label.thread<kMaxNumThreads ∧
    ((∃ order, hookStep s label.thread order (s.hook label.thread)=some s') ∨
      (s.hook label.thread=.none ∧ s.phases.pc label.thread=.idle ∧ ∃ readOnly room,
        batchStep s label.thread readOnly room (s.batch label.thread)=some s') ∨
      (s.hook label.thread=.none ∧ phaseStep s label.thread=some s') ∨
      (s.hook label.thread=.none ∧ s.phases.pc label.thread=.idle ∧
        (s.batch label.thread).busy=false ∧ startCall s label.thread label.act=some s')) := by
  unfold step at hs
  obtain ⟨ht,hs⟩ := ite_none_right_eq_some.mp hs
  refine ⟨ht,?_⟩
  cases hact : label.act with
  | step order readOnly room =>
    rw [hact] at hs
    change callStep s label.thread order readOnly room=some s' at hs
    unfold callStep at hs
    cases hk : s.hook label.thread with
    | none =>
      rw [hk] at hs
      dsimp only at hs
      split_ifs at hs with hidle
      · exact .inr (.inl ⟨rfl,hidle,readOnly,room,hs⟩)
      · exact .inr (.inr (.inl ⟨rfl,hs⟩))
    | _ =>
      rw [hk] at hs
      exact .inl ⟨order,hs⟩
  | _ =>
    rw [hact] at hs
    obtain ⟨⟨hidle,hk,hbusy⟩,hs⟩ := ite_none_right_eq_some.mp hs
    exact .inr (.inr (.inr ⟨hk,hidle,hbusy,hs⟩))

theorem hookStep_phases {order : List ℕ} (hs : hookStep s t order k=some s') : s'.phases=s.phases := by
  cases k with
  | none => cases hs
  | apply =>
    obtain ⟨state,-,rfl⟩ := map_eq_some_iff.mp hs
    rfl
  | patch =>
    obtain ⟨state,-,rfl⟩ := map_eq_some_iff.mp hs
    rfl
  | _ =>
    cases hs
    rfl

theorem phaseStep_phases (hs : phaseStep s t=some s') : Phases.callStep s.phases t true (s.phases.pc t)=some s'.phases := by
  obtain ⟨p,hc,rfl⟩ := map_eq_some_iff.mp hs
  rw [hc]
  split <;> first | rfl | (split_ifs <;> rfl)

theorem batchStep_phases {readOnly : ℕ} {room : Bool} {b : BatchPc} (hs : batchStep s t readOnly room b=some s') :
    s'.phases=s.phases ∨ Phases.startCall s.phases t .refresh=some s'.phases := by
  cases b with
  | idle => cases hs
  | prepare todo done =>
    cases todo with
    | nil =>
      cases hs
      exact .inl rfl
    | cons r todo =>
      obtain ⟨c,-,rfl⟩ := map_eq_some_iff.mp hs
      exact .inl rfl
  | insert c rest pc =>
    cases pc with
    | reserve =>
      simp only [ParserShift.batchStep] at hs
      split at hs
      · split_ifs at hs <;> cases hs <;> exact .inl rfl
      · cases hs
        exact .inl rfl
    | refresh page =>
      obtain ⟨p,hc,rfl⟩ := map_eq_some_iff.mp hs
      exact .inr hc
    | newPage page =>
      simp only [ParserShift.batchStep] at hs
      split_ifs at hs <;> cases hs <;> exact .inl rfl

theorem startCall_phases {act : Act} (hs : startCall s t act=some s') :
    s'.phases=s.phases ∨ ∃ a, Phases.startCall s.phases t a=some s'.phases := by
  cases act with
  | applyParserShift actions =>
    obtain ⟨s₁,hs₁,rfl⟩ := map_eq_some_iff.mp hs
    obtain ⟨p,hc,rfl⟩ := map_eq_some_iff.mp hs₁
    exact .inr ⟨_,hc⟩
  | batchInsert records =>
    obtain ⟨-,rfl⟩ := of_guard hs
    exact .inl rfl
  | step order readOnly room => cases hs
  | _ =>
    obtain ⟨p,hc,rfl⟩ := map_eq_some_iff.mp hs
    exact .inr ⟨_,hc⟩

/-- A step leaves the phase protocol alone, or is one of its steps. -/
theorem step_phases (hs : step s label=some s') : s'.phases=s.phases ∨
    (s.hook label.thread=.none ∧ ∃ act, Phases.step s.phases ⟨label.thread,act⟩=some s'.phases) := by
  obtain ⟨ht,hs⟩ := step_cases hs
  have hcall : ∀ a p, s.phases.pc label.thread=.idle → Phases.startCall s.phases label.thread a=some p →
      Phases.step s.phases ⟨label.thread,a⟩=some p := by
    intro a p hidle hc
    unfold Phases.step
    rw [if_pos ht]
    cases a with
    | step ready => cases hc
    | _ =>
      dsimp only
      rw [if_pos hidle]
      exact hc
  rcases hs with ⟨order,hc⟩ | ⟨hk,hidle,readOnly,room,hc⟩ | ⟨hk,hc⟩ | ⟨hk,hidle,-,hc⟩
  · exact .inl (hookStep_phases hc)
  · exact (batchStep_phases hc).imp_right fun hc => ⟨hk,_,hcall _ _ hidle hc⟩
  · refine .inr ⟨hk,.step true,?_⟩
    unfold Phases.step
    rw [if_pos ht]
    exact phaseStep_phases hc
  · exact (startCall_phases hc).imp_right fun ⟨a,hc⟩ => ⟨hk,a,hcall _ _ hidle hc⟩

theorem rounds_step (h : Rounds s.phases) (hguard : shiftsBetween s label)
    (hs : step s label=some s') : Rounds s'.phases := by
  rcases step_phases hs with heq | ⟨hk,act,hstep⟩
  · rw [heq]
    exact h
  · have hjoins : joinsBetween s.phases ⟨label.thread,act⟩ := hguard.2 hk
    exact h.step hjoins hstep

theorem sessionInv_step (h : SessionInv s) (hrounds : Rounds s.phases) (hguard : shiftsBetween s label)
    (hs : step s label=some s') : SessionInv s' := by
  obtain ⟨hlt,hs⟩ := step_cases hs
  have ht : 1≤label.thread ∧ label.thread<kMaxNumThreads := ⟨Nat.one_le_iff_ne_zero.mpr hguard.1,hlt⟩
  rcases hs with ⟨order,hc⟩ | ⟨hk,hidle,readOnly,room,hc⟩ | ⟨hk,hc⟩ | ⟨hk,hidle,-,hc⟩
  · exact h.hookStep hrounds hc
  · exact h.batchStep ht hk hidle hc
  · exact h.phaseStep hrounds ht hk hc
  · exact h.startCall ht hk hidle hc

theorem quiescent_of_initial (h : Initial s) : Phases.Quiescent s.phases := by
  obtain ⟨v,hsys,-⟩ := h.word
  refine ⟨?_,?_,h.idle,h.started⟩ <;> rw [hsys]

theorem sessionInv_of_initial (h : Initial s) : SessionInv s := by
  obtain ⟨v,hsys,hctx⟩ := h.word
  have hrest : s.phases.systemState.phase=.rest := by rw [hsys]
  have hprot : ∀ u, Live s.phases u → s.phases.isProtected u=true :=
    fun u hl => hl.resolve_right fun hne => hne.1 (h.idle u)
  refine ⟨fun hne => absurd h.started hne,fun _ => h.stage,fun hne => absurd hrest hne,?_,fun u => ?_⟩
  · rw [h.stage]
    exact h.sets
  · refine ⟨?_,fun hl => h.tracked u (hprot u hl),?_,fun hl _ => .inl (h.parser u (hprot u hl)),
      fun hne => absurd hrest hne,fun hne => absurd hrest hne⟩
    · rw [h.idle]
      nofun
    · rw [h.hook]
      exact hookOk_none (h.idle u) rfl

/-- Both invariants hold in every run whose shifts start between sessions. -/
theorem reachable_inv (hs : Reachable (machine reg) shiftsBetween s) : Rounds s.phases ∧ SessionInv s := by
  refine hs.invariant (P := fun s => Rounds s.phases ∧ SessionInv s) ?_ ?_
  · exact fun s hi => ⟨.of_quiescent (quiescent_of_initial hi),sessionInv_of_initial hi⟩
  · rintro s label s' ⟨hrounds,h⟩ hguard hstep
    exact ⟨rounds_step hrounds hguard hstep,sessionInv_step h hrounds hguard hstep⟩

theorem session_of_protected (h : SessionInv s) (hon : s.phases.isProtected t=true) :
    Current s t ∨ (s.stage=.switched ∧ Former s t) := by
  refine (h.threads t).session (.inl hon) ?_
  have hh := (h.threads t).hook
  cases hk : s.hook t with
  | loadNo =>
    rw [hk] at hh
    exact nomatch hon.symm.trans hh.2
  | rebuild no =>
    rw [hk] at hh
    exact nomatch hon.symm.trans hh.1.2
  | _ => rfl

/-- The parser of a session was built from the parser state that it uses. -/
theorem parser_eq_of_protected (h : SessionInv s) (hon : s.phases.isProtected t=true) :
    s.parser t=(s.parserStates (s.parserNo t)).mainParserFields := by
  rcases session_of_protected h hon with hcur | ⟨-,hformer⟩
  · rw [hcur.1]
    exact hcur.2
  · rw [hformer.1]
    exact hformer.2

/-- A session that may enter `BatchInsert` has built its parser from the field list that
the parser state of its number holds. When no shift is in progress this is the current
one, and both states hold the PSFs that all actions have left. -/
theorem sessions_parse_consistently (hs : Reachable (machine reg) shiftsBetween s) :
    (∀ t, s.phases.isProtected t = true →
      s.parser t = (s.parserStates (s.parserNo t)).mainParserFields) ∧
    (s.phases.systemState.action = .none →
      (∀ t, s.phases.isProtected t = true → s.parserNo t = s.systemParserNo) ∧
      ∀ no, (s.parserStates no).toPtrSets = PtrSets.empty.applyAll s.applied) := by
  obtain ⟨-,hinv⟩ := reachable_inv hs
  refine ⟨fun t hon => parser_eq_of_protected hinv hon,?_⟩
  · intro hnone
    have hstage := hinv.idle hnone
    refine ⟨?_,?_⟩
    · intro t hon
      refine ((session_of_protected hinv hon).resolve_right fun hf => ?_).1
      rw [hstage] at hf
      exact nomatch hf.1
    · have hsets := hinv.sets
      rw [hstage] at hsets
      exact hsets

end

/-- A parser state without PSFs. -/
def noPsfs (reg : Registry) : ParserState reg := ⟨.empty, [], [], rfl, .nil, fun _ => Iff.rfl⟩

/-- A fresh store with sessions on some threads. -/
def store (reg : Registry) (threads : ℕ → Bool) : State reg where
  phases := PhaseBarrier.sessions threads
  parserStates := fun _ => noPsfs reg
  systemParserNo := false
  psActions := []
  parserNo := fun _ => false
  parser := fun _ => []
  argument := fun _ => []
  tail := ⟨0, 64⟩
  hook := fun _ => .none
  batch := fun _ => .idle
  log := []
  safeUnregister := none
  safeRegister := none
  shift := []
  before := []
  applied := []
  stage := .equal

theorem store_initial {reg : Registry} {threads : ℕ → Bool}
    (h : ∀ t, threads t=true → 1≤t ∧ t<kMaxNumThreads) : Initial (store reg threads) :=
  ⟨⟨1,rfl,fun _ => rfl⟩,fun _ => rfl,rfl,h,fun _ => rfl,fun _ => rfl,fun _ _ => ⟨rfl,rfl⟩,
    fun _ => rfl,rfl,(by decide : 64≤kPageSize),rfl,rfl,rfl,rfl⟩

/-- Every PSF reads the field of its own id, and is never null. -/
def ownField : Registry := ⟨fun id => if id = 0 then "a" else "b", fun id => ⟨[id], fun _ => some 0⟩,
  fun id => ⟨[id], fun _ => some 0⟩⟩

/-- The thread takes steps of its call; the hash set of field ids has the given order. -/
def steps (t : ℕ) (order : List ℕ) (n : ℕ) : List Label := List.replicate n ⟨t, .step order 0 true⟩

/-- A session alone shifts the parsers: it registers an inline PSF. -/
def registerAlone (id : ℕ) (order : List ℕ) : List Label :=
  ⟨1, .applyParserShift [⟨.registerInlinePsf, id⟩]⟩ :: steps 1 order 304

section

variable {reg : Registry} {s s' : State reg} {label : Label}

/-- Thread 1 moves alone, and starts shifts in the rest phase. -/
def aloneCheck (s : State reg) (label : Label) : Bool :=
  decide (label.thread = 1) &&
    match s.phases.pc 1 with
    | .startSwap _ v => decide (s.phases.ctx 1 = ⟨.rest, v⟩)
    | .publish _ _ => s.phases.isProtected 1
    | _ => true

/-- No thread but thread 1 takes part. -/
def Alone (s : State reg) : Prop :=
  ∀ u, u ≠ 1 → s.phases.isProtected u = false ∧ s.phases.pc u = .idle

theorem Alone.eq_one (h : Alone s) {u : ℕ} (hl : Live s.phases u) : u=1 := by
  by_contra hne
  obtain ⟨hoff,hidle⟩ := h u hne
  rcases hl with hon | ⟨hbusy,-⟩
  · exact nomatch hon.symm.trans hoff
  · exact hbusy hidle

theorem shiftsBetween_of_alone (h : Alone s) (hcheck : aloneCheck s label=true)
    (hs : step s label=some s') : shiftsBetween s label ∧ Alone s' := by
  rw [aloneCheck,Bool.and_eq_true,decide_eq_true_eq] at hcheck
  obtain ⟨ht,hcheck⟩ := hcheck
  refine ⟨⟨?_,fun _ => ⟨?_,?_⟩⟩,?_⟩
  · rw [ht]
    exact Nat.one_ne_zero
  · intro a v hp hsys u hl
    rw [h.eq_one hl]
    rw [ht] at hp
    rw [hp,decide_eq_true_eq] at hcheck
    rw [hp]
    exact ⟨hcheck,rfl⟩
  · intro a v hp u hl
    rw [h.eq_one hl]
    dsimp only at hp
    rw [ht] at hp
    rw [hp] at hcheck
    exact hcheck
  · intro u hu
    have hne : u ≠ label.thread := by
      rw [ht]
      exact hu
    rcases step_phases hs with heq | ⟨-,act,hstep⟩
    · rw [heq]
      exact h u hu
    · rw [PhaseInvariant.step_other hstep hne,PhaseLoop.step_protected_other hstep hne]
      exact h u hu

theorem alone_store : Alone (store reg fun t => t == 1) := by
  intro u hu
  refine ⟨?_,rfl⟩
  change (u == 1)=false
  rw [beq_eq_false_iff_ne]
  exact hu

theorem tracked_one (t : ℕ) (h : (t == 1)=true) : 1≤t ∧ t<kMaxNumThreads := by
  rw [beq_iff_eq] at h
  subst h
  decide

end

/-- After a shift the session alone parses with the current state. -/
theorem sessions_parse_consistently_one : ∃ s, Reachable (machine ownField) shiftsBetween s ∧
    s.phases.isProtected 1 = true ∧ s.phases.systemState.action = .none ∧ s.systemParserNo = true ∧
    s.parser 1 = (s.parserStates (s.parserNo 1)).mainParserFields ∧ s.parserNo 1 = s.systemParserNo := by
  have hrun : (execGuarded (machine ownField) aloneCheck (store ownField fun t => t == 1)
      (registerAlone 0 [0])).any (fun s => s.phases.isProtected 1 &&
        decide (s.phases.systemState.action=.none) && s.systemParserNo)=true := by
    decide +kernel
  obtain ⟨s,hr,hs⟩ := exists_run_of_execGuarded (fun _ _ => id) hrun
  simp only [Bool.and_eq_true,decide_eq_true_eq] at hs
  have hreach : Reachable (machine ownField) shiftsBetween s :=
    ⟨_,store_initial tracked_one,(hr.strengthen (fun _ _ _ => shiftsBetween_of_alone) alone_store).1⟩
  obtain ⟨hparser,hidle⟩ := sessions_parse_consistently hreach
  exact ⟨s,hreach,hs.1.1,hs.1.2,hs.2,hparser 1 hs.1.1,(hidle hs.1.2).1 1 hs.1.1⟩

/-- The session shifts the parsers twice, and refreshes. -/
def shiftedTwice : List Label :=
  registerAlone 0 [0] ++ registerAlone 1 [0, 1] ++ ⟨1, .refresh⟩ :: steps 1 [] 3

/-- A session alone that calls `ApplyParserShift` twice acknowledges the second shift without
building its parser anew: the first one has left it in `PS_PENDING`. It keeps the former
number, whose state now has a longer field list, also after a refresh. -/
theorem session_parses_stale : ∃ s, Reachable (machine ownField) anyStep s ∧
    s.phases.isProtected 1 = true ∧ s.phases.pc 1 = .idle ∧ s.hook 1 = .none ∧
    s.phases.systemState.action = .none ∧
    s.parser 1 ≠ (s.parserStates (s.parserNo 1)).mainParserFields ∧ s.parserNo 1 ≠ s.systemParserNo := by
  have hrun : (exec (machine ownField) (store ownField fun t => t == 1) shiftedTwice).any (fun s =>
      s.phases.isProtected 1 && decide (s.phases.pc 1=.idle ∧ s.hook 1=.none ∧
        s.phases.systemState.action=.none ∧
        (s.parser 1).length ≠ (s.parserStates (s.parserNo 1)).mainParserFields.length ∧
        s.parserNo 1 ≠ s.systemParserNo))=true := by
    decide +kernel
  obtain ⟨s,hr,hs⟩ := exists_run_of_exec hrun
  simp only [Bool.and_eq_true,decide_eq_true_eq] at hs
  obtain ⟨hon,hpc,hhook,hnone,hlen,hno⟩ := hs
  refine ⟨s,⟨_,store_initial tracked_one,hr⟩,hon,hpc,hhook,hnone,fun heq => hlen ?_,hno⟩
  rw [heq]

end FishStore.ParserSessions
