import FishStore.ShiftOnce

/-!
# The safe boundary of a shift

`ApplyParserShift` returns the tail address before any session can leave the former parser
state: every record below it was prepared with that state. It calls back with the tail
address after all sessions have acknowledged the shift. A session that does so between
batches prepares all later records with the current state, so that the records from that
address on carry the key pointers of the registered PSFs. A session that acknowledges the
shift from inside the allocation of a record goes on to insert the records of its batch
that it had prepared before.
-/

namespace FishStore.SafeBoundary

open Layout Runs Parsers ParserShift ParserInvariant ParserSessions ShiftOnce Option PhaseWalk
open PhaseRounds PhaseInvariant
open LightEpoch (kMaxNumThreads)
open Function (update update_of_ne update_self)

section

variable {reg : Registry}

/-- The record has a key pointer for each of the PSFs that is not null on it. -/
def Complete (reg : Registry) (sets : PtrSets) (c : InsertContext) : Prop :=
  ∀ x, sets.Has x → NonNull reg x c.record → x.stored ∈ c.kpts

/-- The contexts that are prepared and not inserted. -/
def contexts : BatchPc → List InsertContext
  | .idle => []
  | .prepare _ done => done
  | .insert c rest _ => c :: rest

/-- A session takes up a shift of the parsers between batches. -/
def outsideBatches : Guard (State reg) Label := fun s label =>
  oneShift s label ∧ ∀ final prev, s.phases.pc label.thread = .iterate final prev →
    prev.phase = .rest → (s.batch label.thread).busy = false

/-- The PSFs before the shift. -/
def formerly (s : State reg) : PtrSets := PtrSets.empty.applyAll s.before

/-- What the thread that makes the shift has noted. -/
structure Marks (s : State reg) (u : ℕ) : Prop where
  opened : (∃ a v idx, s.phases.pc u = .reset a v idx) ∨ s.hook u = .tail →
    s.safeUnregister = none ∧ s.before = s.applied ∧ s.shift = s.argument u
  apply : s.hook u = .apply → s.safeUnregister ≠ none ∧ s.safeRegister = none ∧
    s.before = s.applied ∧ s.shift = s.argument u
  callback : s.hook u = .callback → s.safeUnregister ≠ none ∧ s.safeRegister = none ∧
    s.applied = s.before ++ s.shift

/-- The invariant of the boundary. -/
structure BoundaryInv (s : State reg) : Prop where
  busy : ∀ t, (s.batch t).busy = true → s.phases.isProtected t = true
  /-- Contexts are prepared with the parser state that the session uses. -/
  contexts : ∀ t, ∀ c ∈ contexts (s.batch t), Complete reg (s.parserStates (s.parserNo t)).toPtrSets c
  placed : ∀ e ∈ s.log, e.address + sizeofRecordInfo ≤ s.tail.limit
  offset : OffsetOk s
  started : s.phases.started = 0 → s.safeUnregister = none
  /-- Before the first address is read all records have the key pointers of the PSFs. -/
  early : s.safeUnregister = none → s.stage = .equal ∧ s.safeRegister = none ∧
    ∀ e ∈ s.log, Complete reg (registered s) e.context
  marks : ∀ u, Marks s u
  applied : s.stage ≠ .equal ∨ s.safeRegister ≠ none → s.applied = s.before ++ s.shift
  unregister : ∀ a, s.safeUnregister = some a → a ≤ s.tail.limit ∧
    ∀ e ∈ s.log, e.address < a → Complete reg (formerly s) e.context
  register : ∀ a, s.safeRegister = some a → s.stage = .equal ∧ a ≤ s.tail.limit ∧
    ∀ e ∈ s.log, a ≤ e.address → Complete reg (registered s) e.context

end

section

variable {reg : Registry} {s s' : State reg} {t u : ℕ} {label : Label} {p p' : Phases.State} {k : Hook}

/-- Only the thread that wins the word opens an action. -/
theorem callStep_opening (hs : Phases.callStep p t true (p.pc t)=some p') (hnot : opening (p.pc t)=none)
    (hswap : ∀ a v, p.pc t=.startSwap a v → p.systemState ≠ ⟨.none,.rest,v⟩) : opening (p'.pc t)=none := by
  generalize hp : p.pc t=pc at hs hnot hswap
  cases Phases.moves_of_callStep hs with
  | spin =>
    rw [hp]
    rfl
  | start a v hsys => exact absurd hsys (hswap a v rfl)
  | reset => cases hnot
  | publish => cases hnot
  | _ =>
    rw [goto_self]
    first
    | rfl
    | exact PhaseWalk.opening_afterWork _ _
    | exact PhaseWalk.opening_afterRefusal _
    | exact PhaseWalk.opening_scanFrom _ _ _ _
    | exact PhaseWalk.opening_afterMove _
    | exact PhaseWalk.opening_afterSplit _
    | split_ifs <;> rfl

theorem callStep_keeps (hs : Phases.callStep p t true (p.pc t)=some p') (hon : p.isProtected u=true) :
    p'.isProtected u=true := by
  rcases PhaseBarrier.callStep_protected hs with hp | hp
  · rw [hp] at hs
    cases hs
    by_cases hut : u=t
    · rw [hut]
      exact update_self _ _ _
    · exact (update_of_ne hut _ _).trans hon
  · rw [hp]
    exact hon

/-- The step leaves the history of shifts alone. -/
structure History (s s' : State reg) : Prop where
  unregister : s'.safeUnregister = s.safeUnregister
  register : s'.safeRegister = s.safeRegister
  shift : s'.shift = s.shift
  before : s'.before = s.before
  applied : s'.applied = s.applied

/-- The step leaves the parser states and the log alone, too. -/
structure Fixed (s s' : State reg) : Prop extends History s s' where
  states : s'.parserStates = s.parserStates
  tail : s'.tail = s.tail
  log : s'.log = s.log

theorem History.registered (hf : History s s') : registered s'=registered s := by
  unfold ParserInvariant.registered
  rw [hf.applied]

theorem History.formerly (hf : History s s') : formerly s'=formerly s := by
  unfold SafeBoundary.formerly
  rw [hf.before]

theorem Marks.congr (h : Marks s u) (hf : History s s') (hpc : s'.phases.pc u=s.phases.pc u)
    (hhook : s'.hook u=s.hook u) (harg : s'.argument u=s.argument u) : Marks s' u := by
  refine ⟨?_,?_,?_⟩
  · rw [hpc,hhook,hf.unregister,hf.before,hf.applied,hf.shift,harg]
    exact h.opened
  · rw [hhook,hf.unregister,hf.register,hf.before,hf.applied,hf.shift,harg]
    exact h.apply
  · rw [hhook,hf.unregister,hf.register,hf.before,hf.applied,hf.shift]
    exact h.callback

/-- Only these have something noted. -/
def silent : Hook → Bool
  | .tail => false
  | .apply => false
  | .callback => false
  | _ => true

/-- A thread that is at no such step of a shift has noted nothing. -/
theorem marks_of_idle (hpc : ∀ a v idx, s.phases.pc u ≠ .reset a v idx) (hhook : s.hook u=k)
    (hk : silent k=true) : Marks s u := by
  subst hhook
  refine ⟨?_,fun h => ?_,fun h => ?_⟩
  · rintro (⟨a,v,idx,h⟩ | h)
    · exact absurd h (hpc a v idx)
    · rw [h] at hk
      cases hk
  · rw [h] at hk
    cases hk
  · rw [h] at hk
    cases hk

/-- Nor has a thread that does not own the word. -/
theorem marks_of_free (h : HookOk s u (s.hook u)) (hfree : owned (s.phases.pc u)=none)
    (hpc : s'.phases.pc u=s.phases.pc u) (hhook : s'.hook u=s.hook u) : Marks s' u := by
  generalize s.hook u=k at h hhook
  refine marks_of_idle (fun a v idx heq => ?_) hhook ?_
  · rw [←hpc,heq] at hfree
    cases hfree
  · cases k with
    | tail => exact absurd h.1 (not_atPublish hfree)
    | apply => exact absurd h.1 (not_atPublish hfree)
    | callback => exact absurd h.1 (not_atSettle hfree)
    | _ => rfl

section

variable (h : BoundaryInv s)

include h

/-- A step that leaves them alone. -/
theorem BoundaryInv.keep (hf : Fixed s s') (hstage : s'.stage=s.stage ∨ (s.stage ≠ .equal ∧ s'.stage ≠ .equal))
    (hbatch : s'.batch=s.batch) (hno : ∀ u, s'.parserNo u=s.parserNo u ∨ (s.batch u).busy=false)
    (hprot : ∀ u, s.phases.isProtected u=true → (s.batch u).busy=true → s'.phases.isProtected u=true)
    (hstarted : s'.phases.started=0 → s.phases.started=0) (hmarks : ∀ u, Marks s' u) : BoundaryInv s' := by
  refine ⟨?_,?_,?_,h.offset.same hf.tail hbatch,?_,?_,hmarks,?_,?_,?_⟩
  · intro u hu
    rw [hbatch] at hu
    exact hprot u (h.busy u hu) hu
  · intro u c hc
    rw [hbatch] at hc
    rcases hno u with heq | hidle
    · rw [hf.states,heq]
      exact h.contexts u c hc
    · cases hb : s.batch u with
      | idle =>
        rw [hb] at hc
        cases hc
      | _ =>
        rw [hb] at hidle
        cases hidle
  · rw [hf.log,hf.tail]
    exact h.placed
  · rw [hf.unregister]
    exact fun hzero => h.started (hstarted hzero)
  · rw [hf.unregister,hf.register,hf.log,hf.registered]
    intro hnone
    obtain ⟨hequal,hrest⟩ := h.early hnone
    rcases hstage with heq | ⟨hne,-⟩
    · exact ⟨heq.trans hequal,hrest⟩
    · exact absurd hequal hne
  · rw [hf.register,hf.applied,hf.before,hf.shift]
    rcases hstage with heq | ⟨hne,-⟩
    · rw [heq]
      exact h.applied
    · exact fun _ => h.applied (.inl hne)
  · rw [hf.unregister,hf.tail,hf.log,hf.formerly]
    exact h.unregister
  · rw [hf.register,hf.tail,hf.log,hf.registered]
    intro a ha
    obtain ⟨hequal,hrest⟩ := h.register a ha
    rcases hstage with heq | ⟨hne,-⟩
    · exact ⟨heq.trans hequal,hrest⟩
    · exact absurd hequal hne

/-- What the other threads have noted stays. -/
theorem BoundaryInv.marks_of_self (hf : History s s')
    (hpc : ∀ u, u ≠ t → s'.phases.pc u=s.phases.pc u) (hhook : ∀ u, u ≠ t → s'.hook u=s.hook u)
    (harg : ∀ u, u ≠ t → s'.argument u=s.argument u) (hself : Marks s' t) (u : ℕ) : Marks s' u := by
  by_cases hut : u=t
  · rw [hut]
    exact hself
  · exact (h.marks u).congr hf (hpc u hut) (hhook u hut) (harg u hut)

omit h in
theorem started_of_callStep (hs : Phases.callStep p t true (p.pc t)=some p') (hzero : p'.started=0) : p.started=0 := by
  rcases callStep_started hs with heq | heq <;> omega

/-- A step of the phase protocol of a thread that opens no action. -/
theorem BoundaryInv.pass (hc : Phases.callStep s.phases t true (s.phases.pc t)=some p) {pc : Phases.Pc}
    (hpc : s.phases.pc t=pc) (hnot : opening pc=none)
    (hswap : ∀ a v, pc=.startSwap a v → s.phases.systemState ≠ ⟨.none,.rest,v⟩) (hphases : s'.phases=p) (hf : Fixed s s')
    (hstage : s'.stage=s.stage ∨ (s.stage ≠ .equal ∧ s'.stage ≠ .equal)) (hbatch : s'.batch=s.batch)
    (harg : s'.argument=s.argument) (hno : ∀ u, s'.parserNo u=s.parserNo u ∨ (s.batch u).busy=false)
    (hother : ∀ u, u ≠ t → s'.hook u=s.hook u) (hhook : s'.hook t=k) (hk : silent k=true) : BoundaryInv s' := by
  subst hphases hpc
  refine h.keep hf hstage hbatch hno (fun u hon _ => callStep_keeps hc hon) (started_of_callStep hc)
    (h.marks_of_self hf.toHistory (fun u hu => callStep_other hc hu) hother (fun u _ => congrFun harg u)
      (marks_of_idle (fun a v idx heq => ?_) hhook hk))
  have hclosed := callStep_opening hc hnot hswap
  rw [heq] at hclosed
  cases hclosed

/-- `ApplyParserShift` wins the word, for the first time. -/
theorem BoundaryInv.start (hrounds : Rounds s.phases) (hinv : SessionInv s) {v : UInt32}
    (hc : Phases.callStep s.phases t true (s.phases.pc t)=some p)
    (hsys : s.phases.systemState=⟨.none,.rest,v⟩) (hook : s.hook t=.none) (hzero : s.phases.started=0) :
    BoundaryInv { s with
      phases := p, psActions := s.argument t, shift := s.argument t, before := s.applied,
      safeUnregister := none, safeRegister := none } := by
  have hstage : s.stage=.equal := hinv.idle (by rw [hsys])
  obtain ⟨-,-,hlog⟩ := h.early (h.started hzero)
  refine ⟨fun u hu => callStep_keeps hc (h.busy u hu),h.contexts,h.placed,h.offset.same rfl rfl,
    fun _ => rfl,fun _ => ⟨hstage,rfl,hlog⟩,fun u => ?_,?_,by rintro _ ⟨⟩,by rintro _ ⟨⟩⟩
  · by_cases hut : u=t
    · rw [hut]
      refine ⟨fun _ => ⟨rfl,rfl,rfl⟩,fun hk => ?_,fun hk => ?_⟩
      · cases hook.symm.trans hk
      · cases hook.symm.trans hk
    · refine marks_of_free (hinv.threads u).hook ?_ (callStep_other hc hut) rfl
      exact hrounds.inv.not_owned fun _ => by rw [hsys]
  · rintro (hne | hne)
    · exact absurd hstage hne
    · exact absurd rfl hne

/-- The steps of the phase protocol keep the invariant. -/
theorem BoundaryInv.phaseStep (hrounds : Rounds s.phases) (hinv : SessionInv s) (hook : s.hook t=.none)
    (hone : ∀ a v, s.phases.pc t=.startSwap a v → s.phases.systemState=⟨.none,.rest,v⟩ →
      s.phases.started=0) (hbatch : ∀ final prev, s.phases.pc t=.iterate final prev → prev.phase=.rest →
      (s.batch t).busy=false) (hs : phaseStep s t=some s') : BoundaryInv s' := by
  obtain ⟨p,hc,rfl⟩ := map_eq_some_iff.mp hs
  have hpass : ∀ {pc}, s.phases.pc t=pc → opening pc=none →
      (∀ a v, pc=.startSwap a v → s.phases.systemState ≠ ⟨.none,.rest,v⟩) →
      BoundaryInv { s with phases := p } := fun hpc hnot hswap =>
    h.pass hc hpc hnot hswap rfl ⟨⟨rfl,rfl,rfl,rfl,rfl⟩,rfl,rfl,rfl⟩ (.inl rfl) rfl rfl (fun _ => .inl rfl)
      (fun _ _ => rfl) hook rfl
  -- Only the notes of the thread itself are left to look at.
  have hkeep : ∀ s' : State reg, Fixed s s' → s'.phases=p → s'.stage=s.stage → s'.batch=s.batch →
      s'.argument=s.argument → s'.parserNo=s.parserNo → (∀ u, u ≠ t → s'.hook u=s.hook u) → Marks s' t →
      BoundaryInv s' := by
    rintro s' hf rfl hstage hbatch harg hno hother hself
    exact h.keep hf (.inl hstage) hbatch (fun u => .inl (congrFun hno u)) (fun u hon _ => callStep_keeps hc hon)
      (started_of_callStep hc) (h.marks_of_self hf.toHistory (fun u hu => callStep_other hc hu) hother
        (fun u _ => congrFun harg u) hself)
  cases hpc : s.phases.pc t with
  | sessionLoad =>
    dsimp only
    split_ifs
    · exact h.pass hc hpc rfl (by rintro _ _ ⟨⟩) rfl ⟨⟨rfl,rfl,rfl,rfl,rfl⟩,rfl,rfl,rfl⟩
        (.inl rfl) rfl rfl (fun _ => .inl rfl) (fun u hu => update_of_ne hu _ _) (update_self _ _ _) rfl
    · exact hpass hpc rfl (by rintro _ _ ⟨⟩)
  | startSwap a v =>
    dsimp only
    split_ifs with hsys
    · exact h.start hrounds hinv hc hsys hook (hone a v hpc hsys)
    · refine hpass hpc rfl ?_
      rintro a' v' ⟨⟩
      exact hsys
  | reset a v idx =>
    have hopened := (h.marks t).opened (.inl ⟨a,v,idx,hpc⟩)
    dsimp only
    split_ifs
    · refine hkeep _ ⟨⟨rfl,rfl,rfl,rfl,rfl⟩,rfl,rfl,rfl⟩ rfl rfl rfl rfl rfl (fun _ _ => rfl)
        ⟨fun _ => hopened,fun hk => ?_,fun hk => ?_⟩
      · cases hook.symm.trans hk
      · cases hook.symm.trans hk
    · refine hkeep _ ⟨⟨rfl,rfl,rfl,rfl,rfl⟩,rfl,rfl,rfl⟩ rfl rfl rfl rfl rfl
        (fun u hu => update_of_ne hu _ _) ⟨fun _ => hopened,fun hk => ?_,fun hk => ?_⟩
      · cases (update_self _ _ _).symm.trans hk
      · cases (update_self _ _ _).symm.trans hk
  | publish a v =>
    have hpt : p.pc t=Phases.afterPublish a := by
      rw [hpc] at hc
      obtain ⟨q,-,rfl⟩ := map_eq_some_iff.mp hc
      exact update_self _ _ _
    refine hkeep _ ⟨⟨rfl,rfl,rfl,rfl,rfl⟩,rfl,rfl,rfl⟩ rfl rfl rfl rfl rfl (fun _ _ => rfl)
      (marks_of_idle (fun a' v' idx heq => ?_) hook rfl)
    have heq := hpt.symm.trans heq
    cases a <;> cases heq
  | iterate final prev =>
    dsimp only
    split_ifs with hrest
    · -- The session is between batches, so that nothing is prepared with the former state.
      refine h.pass hc hpc rfl (by rintro _ _ ⟨⟩) rfl ⟨⟨rfl,rfl,rfl,rfl,rfl⟩,rfl,rfl,rfl⟩
        (.inl rfl) rfl rfl (fun u => ?_) (fun _ _ => rfl) hook rfl
      by_cases hut : u=t
      · rw [hut]
        exact .inr (hbatch final prev hpc hrest)
      · exact .inl (update_of_ne hut _ _)
    · exact hpass hpc rfl (by rintro _ _ ⟨⟩)
  | move w seen r =>
    dsimp only
    split_ifs with hsys
    · have hne : s.phases.systemState.phase ≠ .rest := by
        rw [hsys]
        exact hrounds.inv.target t w (by rw [hpc]; rfl)
      refine h.pass hc hpc rfl (by rintro _ _ ⟨⟩) rfl ⟨⟨rfl,rfl,rfl,rfl,rfl⟩,rfl,rfl,rfl⟩
        (.inr ⟨?_,by rintro ⟨⟩⟩) rfl rfl (fun _ => .inl rfl) (fun u hu => update_of_ne hu _ _) (update_self _ _ _) rfl
      rw [hinv.pending hne]
      rintro ⟨⟩
    · exact hpass hpc rfl (by rintro _ _ ⟨⟩)
  | _ => exact hpass hpc rfl (by rintro _ _ ⟨⟩)

/-- A session's contexts are not touched when the other parser state is stored. -/
theorem BoundaryInv.contexts_setOther (hinv : SessionInv s) (hstage : s.stage ≠ .switched)
    (state : ParserState reg) (u : ℕ) (c : InsertContext) (hc : c ∈ SafeBoundary.contexts (s.batch u)) :
    Complete reg (update s.parserStates (!s.systemParserNo) state (s.parserNo u)).toPtrSets c := by
  have hbusy : (s.batch u).busy=true := by
    cases hb : s.batch u with
    | idle =>
      rw [hb] at hc
      cases hc
    | _ => rfl
  have hcur := (session_of_protected hinv (h.busy u hbusy)).resolve_right fun hf => hstage hf.1
  have hkeep := h.contexts u c hc
  rw [hcur.1] at hkeep ⊢
  rw [current_state]
  exact hkeep

omit h in
/-- While a thread owns the word, the others have noted nothing. -/
theorem marks_of_owner (hrounds : Rounds s.phases) (hinv : SessionInv s) {w : Phases.SystemState}
    (hown : owned (s.phases.pc t)=some w) (hphases : s'.phases=s.phases) (hhook : s'.hook=update s.hook t k)
    (hself : Marks s' t) (u : ℕ) : Marks s' u := by
  by_cases hut : u=t
  · rw [hut]
    exact hself
  · refine marks_of_free (hinv.threads u).hook (free_of_owner hrounds hown hut) ?_ ?_
    · rw [hphases]
    · rw [hhook]
      exact update_of_ne hut _ _

/-- What the sessions do for the parsers keeps the invariant. -/
theorem BoundaryInv.hookStep (hrounds : Rounds s.phases) (hinv : SessionInv s)
    {order : List ℕ} (hs : hookStep s t order (s.hook t)=some s') : BoundaryInv s' := by
  have hmarks := h.marks t
  have hh := (hinv.threads t).hook
  have hreset : ∀ {pc}, s.phases.pc t=pc → (∀ a v idx, pc ≠ .reset a v idx) →
      ∀ a v idx, s.phases.pc t ≠ .reset a v idx := by
    rintro _ rfl hne
    exact hne
  have hpublish : AtPublish s t → ∀ a v idx, s.phases.pc t ≠ .reset a v idx := by
    rintro ⟨a,v,hpc⟩
    exact hreset hpc (by rintro _ _ _ ⟨⟩)
  have hsettle : AtSettle s t → ∀ a v idx, s.phases.pc t ≠ .reset a v idx := by
    rintro ⟨next,r,hpc,-⟩
    exact hreset hpc (by rintro _ _ _ ⟨⟩)
  generalize hk : s.hook t=k at hs hh
  cases k with
  | none => cases hs
  | loadNo =>
    cases hs
    exact h.keep ⟨⟨rfl,rfl,rfl,rfl,rfl⟩,rfl,rfl,rfl⟩ (.inl rfl) rfl (fun _ => .inl rfl)
      (fun _ hon _ => hon) id (h.marks_of_self ⟨rfl,rfl,rfl,rfl,rfl⟩ (fun _ _ => rfl)
        (fun u hu => update_of_ne hu _ _) (fun _ _ => rfl)
        (marks_of_idle (hreset hh.1 (by rintro _ _ _ ⟨⟩)) (update_self _ _ _) rfl))
  | rebuild no =>
    cases hs
    refine h.keep ⟨⟨rfl,rfl,rfl,rfl,rfl⟩,rfl,rfl,rfl⟩ (.inl rfl) rfl (fun u => ?_)
      (fun _ hon _ => hon) id (h.marks_of_self ⟨rfl,rfl,rfl,rfl,rfl⟩ (fun _ _ => rfl)
        (fun u hu => update_of_ne hu _ _) (fun _ _ => rfl)
        (marks_of_idle (hreset hh.1.1 (by rintro _ _ _ ⟨⟩)) (update_self _ _ _) rfl))
    by_cases hut : u=t
    · rw [hut]
      refine .inr ?_
      cases hb : (s.batch t).busy with
      | false => rfl
      | true => cases (h.busy t hb).symm.trans hh.1.2
    · exact .inl (update_of_ne hut _ _)
  | tail =>
    cases hs
    obtain ⟨hnone,hbefore,hshift⟩ := hmarks.opened (.inr hk)
    obtain ⟨hstage,hreg,hlog⟩ := h.early hnone
    obtain ⟨w,hown⟩ := owned_of_atPublish hh.1
    have hstarted : s.phases.started ≠ 0 := by
      obtain ⟨a,v,hpc⟩ := hh.1
      exact (hrounds.walk.opened t a v (by rw [hpc]; rfl)).1.1
    refine ⟨h.busy,h.contexts,h.placed,h.offset.same rfl rfl,fun hzero => absurd hzero hstarted,by rintro ⟨⟩,
      marks_of_owner hrounds hinv hown rfl rfl ⟨?_,fun _ => ⟨by rintro ⟨⟩,hreg,hbefore,hshift⟩,?_⟩,
      h.applied,?_,h.register⟩
    · rintro (⟨a,v,idx,heq⟩ | heq)
      · exact absurd heq (hpublish hh.1 a v idx)
      · cases (update_self _ _ _).symm.trans heq
    · intro heq
      cases (update_self _ _ _).symm.trans heq
    · -- Every record so far was prepared with the former state.
      rintro a ⟨⟩
      refine ⟨getTailAddress_le_limit _,fun e he _ => ?_⟩
      change Complete reg (PtrSets.empty.applyAll s.before) e.context
      rw [hbefore]
      exact hlog e he
  | apply =>
    obtain ⟨state,-,rfl⟩ := map_eq_some_iff.mp hs
    obtain ⟨hsome,hreg,hbefore,hshift⟩ := hmarks.apply hk
    obtain ⟨w,hown⟩ := owned_of_atPublish hh.1
    have hstage : s.stage ≠ .switched := by
      rw [hh.2.1]
      rintro ⟨⟩
    refine ⟨h.busy,h.contexts_setOther hinv hstage state,h.placed,h.offset.same rfl rfl,
      h.started,fun hnone => absurd hnone hsome,marks_of_owner hrounds hinv hown rfl rfl
      (marks_of_idle (hpublish hh.1) (update_self _ _ _) rfl),fun _ => ?_,h.unregister,fun a ha => ?_⟩
    · change s.applied ++ s.argument t=s.before ++ s.shift
      rw [hbefore,hshift]
    · cases ha.symm.trans hreg
  | switch =>
    cases hs
    obtain ⟨w,hown⟩ := owned_of_atPublish hh.1
    refine h.keep ⟨⟨rfl,rfl,rfl,rfl,rfl⟩,rfl,rfl,rfl⟩ (.inr ⟨?_,by rintro ⟨⟩⟩) rfl (fun _ => .inl rfl)
      (fun _ hon _ => hon) id (marks_of_owner hrounds hinv hown rfl rfl
      (marks_of_idle (hpublish hh.1) (update_self _ _ _) rfl))
    rw [hh.2]
    rintro ⟨⟩
  | patch =>
    obtain ⟨state,-,rfl⟩ := map_eq_some_iff.mp hs
    obtain ⟨w,hown⟩ := owned_of_atSettle hh.1
    have hne : s.stage ≠ .equal := by
      rw [hh.2]
      rintro ⟨⟩
    have hstage : s.stage ≠ .switched := by
      rw [hh.2]
      rintro ⟨⟩
    have hsome : s.safeUnregister ≠ none := fun hnone => hne (h.early hnone).1
    have hreg : s.safeRegister=none := by
      cases hr : s.safeRegister with
      | none => rfl
      | some a => exact absurd (h.register a hr).1 hne
    have happlied := h.applied (.inl hne)
    refine ⟨h.busy,h.contexts_setOther hinv hstage state,h.placed,h.offset.same rfl rfl,
      h.started,fun hnone => absurd hnone hsome,marks_of_owner hrounds hinv hown rfl rfl
      ⟨?_,fun heq => ?_,fun _ => ⟨hsome,hreg,happlied⟩⟩,fun _ => happlied,h.unregister,fun a ha => ?_⟩
    · rintro (⟨a,v,idx,heq⟩ | heq)
      · exact absurd heq (hsettle hh.1 a v idx)
      · cases (update_self _ _ _).symm.trans heq
    · cases (update_self _ _ _).symm.trans heq
    · cases ha.symm.trans hreg
  | callback =>
    cases hs
    obtain ⟨hsome,-,happlied⟩ := hmarks.callback hk
    obtain ⟨w,hown⟩ := owned_of_atSettle hh.1
    refine ⟨h.busy,h.contexts,h.placed,h.offset.same rfl rfl,h.started,
      fun hnone => absurd hnone hsome,marks_of_owner hrounds hinv hown rfl rfl
      (marks_of_idle (hsettle hh.1) (update_self _ _ _) rfl),fun _ => happlied,h.unregister,?_⟩
    -- Every record so far lies below the tail address.
    rintro a ⟨⟩
    refine ⟨hh.2,getTailAddress_le_limit _,fun e he hle => ?_⟩
    have hplaced := h.placed e he
    have hlimit := limit_le_getTailAddress h.offset.offset_lt
    unfold sizeofRecordInfo at hplaced
    omega

/-- A step of a batch: the tail goes on, and a record may be added that was prepared with
the parser state that the session uses. -/
theorem BoundaryInv.extend (hinv : SessionInv s) {b : BatchPc} (hbatch : s'.batch=update s.batch t b)
    (hprot : s'.phases.isProtected=s.phases.isProtected) (hon : s.phases.isProtected t=true)
    (hstarted : s'.phases.started=s.phases.started) (hstates : s'.parserStates=s.parserStates)
    (hno : s'.parserNo=s.parserNo) (hstage : s'.stage=s.stage) (hf : History s s')
    (hmarks : ∀ u, Marks s' u) (htail : s.tail.limit ≤ s'.tail.limit) (hoff : OffsetOk s')
    (hctx : ∀ c ∈ SafeBoundary.contexts b, Complete reg (s.parserStates (s.parserNo t)).toPtrSets c)
    (hlog : ∀ e ∈ s'.log, e ∈ s.log ∨ (s.tail.limit≤e.address ∧ e.address+sizeofRecordInfo ≤ s'.tail.limit ∧
      Complete reg (s.parserStates (s.parserNo t)).toPtrSets e.context)) : BoundaryInv s' := by
  -- When the two states are equal, the new record has the key pointers of both.
  have hnew : s.stage=.equal → ∀ c, Complete reg (s.parserStates (s.parserNo t)).toPtrSets c →
      Complete reg (registered s) c := by
    intro hequal c hc
    have hsets := hinv.sets
    rw [hequal] at hsets
    rw [←hsets (s.parserNo t)]
    exact hc
  refine ⟨?_,?_,?_,hoff,?_,?_,hmarks,?_,?_,?_⟩
  · intro u hu
    rw [hprot]
    by_cases hut : u=t
    · rw [hut]
      exact hon
    · rw [hbatch,update_of_ne hut] at hu
      exact h.busy u hu
  · intro u c hc
    rw [hstates,hno]
    by_cases hut : u=t
    · rw [hut,hbatch,update_self] at hc
      rw [hut]
      exact hctx c hc
    · rw [hbatch,update_of_ne hut] at hc
      exact h.contexts u c hc
  · intro e he
    rcases hlog e he with hold | ⟨-,hplaced,-⟩
    · exact (h.placed e hold).trans htail
    · exact hplaced
  · rw [hstarted,hf.unregister]
    exact h.started
  · rw [hf.unregister,hstage,hf.register,hf.registered]
    intro hnone
    obtain ⟨hequal,hnone',hall⟩ := h.early hnone
    refine ⟨hequal,hnone',fun e he => ?_⟩
    rcases hlog e he with hold | ⟨-,-,hcomplete⟩
    · exact hall e hold
    · exact hnew hequal _ hcomplete
  · rw [hstage,hf.register,hf.applied,hf.before,hf.shift]
    exact h.applied
  · rw [hf.unregister,hf.formerly]
    intro a ha
    obtain ⟨hle,hall⟩ := h.unregister a ha
    refine ⟨hle.trans htail,fun e he hlt => ?_⟩
    rcases hlog e he with hold | ⟨habove,-,-⟩
    · exact hall e hold hlt
    · exact absurd hlt (Nat.not_lt.mpr (hle.trans habove))
  · rw [hf.register,hstage,hf.registered]
    intro a ha
    obtain ⟨hequal,hle,hall⟩ := h.register a ha
    refine ⟨hequal,hle.trans htail,fun e he hae => ?_⟩
    rcases hlog e he with hold | ⟨-,-,hcomplete⟩
    · exact hall e hold hae
    · exact hnew hequal _ hcomplete

/-- Most steps of a batch leave the phase protocol alone. -/
theorem BoundaryInv.grow (hinv : SessionInv s) {b : BatchPc} (hbatch : s'.batch=update s.batch t b)
    (hphases : s'.phases=s.phases) (hon : s.phases.isProtected t=true) (hstates : s'.parserStates=s.parserStates)
    (hno : s'.parserNo=s.parserNo) (hstage : s'.stage=s.stage) (hf : History s s') (hhook : s'.hook=s.hook)
    (harg : s'.argument=s.argument) (htail : s.tail.limit ≤ s'.tail.limit) (hoff : OffsetOk s')
    (hctx : ∀ c ∈ SafeBoundary.contexts b, Complete reg (s.parserStates (s.parserNo t)).toPtrSets c)
    (hlog : ∀ e ∈ s'.log, e ∈ s.log ∨ (s.tail.limit≤e.address ∧ e.address+sizeofRecordInfo ≤ s'.tail.limit ∧
      Complete reg (s.parserStates (s.parserNo t)).toPtrSets e.context)) : BoundaryInv s' := by
  refine h.extend hinv hbatch ?_ hon ?_ hstates hno hstage hf (fun u => ?_) htail hoff hctx hlog
  · rw [hphases]
  · rw [hphases]
  · refine (h.marks u).congr hf ?_ (congrFun hhook u) (congrFun harg u)
    rw [hphases]

omit h in
theorem contexts_insertFrom (rest : List InsertContext) : SafeBoundary.contexts (insertFrom rest)=rest := by
  cases rest <;> rfl

/-- A step of the phase protocol or a call that leaves the others alone keeps what was noted. -/
theorem marks_call {act : Phases.Act} (hcalls : calls act=true) (hidle : s.phases.pc t=.idle) (hook : s.hook t=.none)
    (hc : Phases.startCall s.phases t act=some s'.phases) (hf : Fixed s s') (hhook : s'.hook=s.hook)
    (harg : ∀ u, u ≠ t → s'.argument u=s.argument u) (u : ℕ) : Marks s' u := by
  refine h.marks_of_self hf.toHistory (fun u hu => PhaseInvariant.startCall_other hc hu)
    (fun u _ => congrFun hhook u) harg (marks_of_idle (fun a v idx heq => ?_) ((congrFun hhook t).trans hook) rfl) u
  have hen := (startCall_spec hcalls hidle hc).2.2.2.2.2.2.2.1
  rw [heq] at hen
  cases hen

/-- The steps of a batch keep the invariant. -/
theorem BoundaryInv.batchStep (hinv : SessionInv s) (ht : t<kMaxNumThreads)
    (hidle : s.phases.pc t=.idle) (hook : s.hook t=.none) {readOnly : ℕ} {room : Bool}
    (hs : batchStep s t readOnly room (s.batch t)=some s') : BoundaryInv s' := by
  have hoff := h.offset.batchStep ht hs
  have hon : (s.batch t).busy=true → s.phases.isProtected t=true := h.busy t
  have hctx := h.contexts t
  generalize s.batch t=b at hs hon hctx
  cases b with
  | idle => cases hs
  | prepare todo done =>
    cases todo with
    | nil =>
      cases hs
      refine h.grow hinv rfl rfl (hon rfl) rfl rfl rfl ⟨rfl,rfl,rfl,rfl,rfl⟩ rfl rfl le_rfl hoff ?_ fun _ => .inl
      rw [contexts_insertFrom]
      exact hctx
    | cons r todo =>
      obtain ⟨c,hc,rfl⟩ := map_eq_some_iff.mp hs
      refine h.grow hinv rfl rfl (hon rfl) rfl rfl rfl ⟨rfl,rfl,rfl,rfl,rfl⟩ rfl rfl le_rfl hoff ?_ fun _ => .inl
      intro c' hc'
      rcases List.mem_append.mp hc' with hold | hnew
      · exact hctx c' hold
      · -- The parser was built from the state that the record is prepared with.
        obtain ⟨hrecord,hkpts⟩ := prepare_spec hc
        intro x hx hnn
        rw [List.mem_singleton.mp hnew,hrecord] at hnn
        rw [List.mem_singleton.mp hnew,hkpts,parser_eq_of_protected hinv (hon rfl)]
        exact prepareKpts_complete _ hx hnn
  | insert c rest pc =>
    have hrest : ∀ c' ∈ rest, Complete reg (s.parserStates (s.parserNo t)).toPtrSets c' :=
      fun c' hc' => hctx c' (List.mem_cons_of_mem c hc')
    cases pc with
    | reserve =>
      simp only [ParserShift.batchStep] at hs
      have htail := s.tail.limit_le_reserve c.size
      cases halloc : s.tail.allocated c.size with
      | some a =>
        rw [halloc] at hs
        dsimp only at hs
        split_ifs at hs <;> cases hs
        · exact h.grow hinv rfl rfl (hon rfl) rfl rfl rfl ⟨rfl,rfl,rfl,rfl,rfl⟩ rfl rfl htail hoff hctx fun _ => .inl
        · obtain ⟨habove,hbelow⟩ := PageOffset.allocated_spec halloc
          refine h.grow hinv rfl rfl (hon rfl) rfl rfl rfl ⟨rfl,rfl,rfl,rfl,rfl⟩ rfl rfl htail hoff ?_ ?_
          · rw [contexts_insertFrom]
            exact hrest
          · intro e he
            rcases List.mem_cons.mp he with heq | hold
            · rw [heq]
              exact .inr ⟨habove,(Nat.add_le_add_left c.le_size a).trans hbelow,hctx c List.mem_cons_self⟩
            · exact .inl hold
      | none =>
        rw [halloc] at hs
        cases hs
        exact h.grow hinv rfl rfl (hon rfl) rfl rfl rfl ⟨rfl,rfl,rfl,rfl,rfl⟩ rfl rfl htail hoff hctx fun _ => .inl
    | refresh page =>
      obtain ⟨p,hc,rfl⟩ := map_eq_some_iff.mp hs
      have hmarks : ∀ u, Marks ({ s with phases := p }.gotoBatch t (.insert c rest (afterRefresh page))) u :=
        marks_call h rfl hidle hook hc ⟨⟨rfl,rfl,rfl,rfl,rfl⟩,rfl,rfl,rfl⟩ rfl fun _ _ => rfl
      obtain ⟨-,hp⟩ := ite_none_right_eq_some.mp hc
      cases hp
      exact h.extend hinv rfl rfl (hon rfl) rfl rfl rfl rfl ⟨rfl,rfl,rfl,rfl,rfl⟩ hmarks le_rfl hoff hctx fun _ => .inl
    | newPage page =>
      simp only [ParserShift.batchStep] at hs
      split_ifs at hs <;> cases hs
      · exact h.grow hinv rfl rfl (hon rfl) rfl rfl rfl ⟨rfl,rfl,rfl,rfl,rfl⟩ rfl rfl
          (s.tail.limit_le_newPage page) hoff hctx fun _ => .inl
      · exact h.grow hinv rfl rfl (hon rfl) rfl rfl rfl ⟨rfl,rfl,rfl,rfl,rfl⟩ rfl rfl le_rfl hoff hctx fun _ => .inl

/-- A call of a session that is in no batch. -/
theorem BoundaryInv.call {act : Phases.Act} (hcalls : calls act=true) (hidle : s.phases.pc t=.idle) (hook : s.hook t=.none)
    (hbusy : (s.batch t).busy=false) (hc : Phases.startCall s.phases t act=some s'.phases) (hf : Fixed s s')
    (hstage : s'.stage=s.stage) (hbatch : s'.batch=s.batch) (hno : s'.parserNo=s.parserNo) (hhook : s'.hook=s.hook)
    (harg : ∀ u, u ≠ t → s'.argument u=s.argument u) : BoundaryInv s' := by
  refine h.keep hf (.inl hstage) hbatch (fun u => .inl (congrFun hno u)) ?_ ?_
    (marks_call h hcalls hidle hook hc hf hhook harg)
  · intro u hon hb
    have hut : u ≠ t := by
      rintro rfl
      rw [hbusy] at hb
      cases hb
    rw [(PhaseInvariant.startCall_local hc hut).2.1]
    exact hon
  · rw [(startCall_spec hcalls hidle hc).2.1]
    exact id

/-- The calls of the sessions keep the invariant. -/
theorem BoundaryInv.startCall {act : Act} (hinv : SessionInv s)
    (hidle : s.phases.pc t=.idle) (hook : s.hook t=.none) (hbusy : (s.batch t).busy=false)
    (hs : startCall s t act=some s') : BoundaryInv s' := by
  cases act with
  | applyParserShift actions =>
    obtain ⟨s₁,hs₁,rfl⟩ := map_eq_some_iff.mp hs
    obtain ⟨p,hc,rfl⟩ := map_eq_some_iff.mp hs₁
    exact h.call rfl hidle hook hbusy hc ⟨⟨rfl,rfl,rfl,rfl,rfl⟩,rfl,rfl,rfl⟩ rfl rfl rfl rfl fun u hu => update_of_ne hu _ _
  | batchInsert records =>
    obtain ⟨hon,rfl⟩ := of_guard hs
    have hwaits : waitsFor (s.batch t)=none := by
      cases hb : s.batch t with
      | idle => rfl
      | _ =>
        rw [hb] at hbusy
        cases hbusy
    refine h.grow hinv rfl rfl hon rfl rfl rfl ⟨rfl,rfl,rfl,rfl,rfl⟩ rfl rfl le_rfl
      (h.offset.congr (t := t) rfl rfl ?_) (fun _ hc => nomatch hc) fun _ => .inl
    rw [hwaits]
    rfl
  | step order readOnly room => cases hs
  | _ =>
    obtain ⟨p,hc,rfl⟩ := map_eq_some_iff.mp hs
    exact h.call rfl hidle hook hbusy hc ⟨⟨rfl,rfl,rfl,rfl,rfl⟩,rfl,rfl,rfl⟩ rfl rfl rfl rfl fun _ _ => rfl

theorem boundaryInv_step (hrounds : Rounds s.phases) (hinv : SessionInv s)
    (hguard : outsideBatches s label) (hs : step s label=some s') : BoundaryInv s' := by
  obtain ⟨hlt,hs⟩ := step_cases hs
  rcases hs with ⟨order,hc⟩ | ⟨hk,hidle,readOnly,room,hc⟩ | ⟨hk,hc⟩ | ⟨hk,hidle,hbusy,hc⟩
  · exact h.hookStep hrounds hinv hc
  · exact h.batchStep hinv hlt hidle hk hc
  · exact h.phaseStep hrounds hinv hk hguard.1.2.2 hguard.2 hc
  · exact h.startCall hinv hidle hk hbusy hc

end

theorem boundaryInv_of_initial (h : Initial s) : BoundaryInv s := by
  obtain ⟨hunreg,hreg,-⟩ := h.shift
  have hlog : ∀ e ∈ s.log, ∀ P : Prop, P := by
    rw [h.log]
    exact fun _ he => nomatch he
  refine ⟨?_,?_,fun e he => hlog e he _,.of_le h.tail,fun _ => hunreg,
    fun _ => ⟨h.stage,hreg,fun e he => hlog e he _⟩,fun u => ?_,?_,?_,?_⟩
  · intro t ht
    rw [h.batch] at ht
    cases ht
  · intro t c hc
    rw [h.batch] at hc
    cases hc
  · refine marks_of_idle ?_ (h.hook u) rfl
    rw [h.idle]
    rintro _ _ _ ⟨⟩
  · rintro (hne | hne)
    · exact absurd h.stage hne
    · exact absurd hreg hne
  · intro a ha
    exact nomatch ha.symm.trans hunreg
  · intro a ha
    exact nomatch ha.symm.trans hreg

/-- The invariant holds in every run in which the sessions take up the shift between batches. -/
theorem reachable_boundary (hs : Reachable (machine reg) outsideBatches s) : BoundaryInv s := by
  refine (hs.invariant (P := fun s => (∃ v, Sole v s.phases) ∧ Rounds s.phases ∧ SessionInv s ∧ BoundaryInv s) ?_ ?_).2.2.2
  · exact fun s hi => ⟨sole_of_initial hi,.of_quiescent (quiescent_of_initial hi),
      sessionInv_of_initial hi,boundaryInv_of_initial hi⟩
  · rintro s label s' ⟨⟨v,hsole⟩,hrounds,hinv,h⟩ hguard hstep
    have hbetween := shiftsBetween_of_oneShift hsole hguard.1
    exact ⟨⟨v,sole_step hsole hguard.1 hstep⟩,rounds_step hrounds hbetween hstep,
      sessionInv_step hinv hrounds hbetween hstep,boundaryInv_step h hrounds hinv hguard hstep⟩

/-- From the address passed to the callback on, records carry a key pointer for each PSF
that the actions register and that is not null on them; below the address that
`ApplyParserShift` returns they carry one for each PSF that was registered and that the
actions deregister. -/
theorem safe_boundary (hs : Reachable (machine reg) outsideBatches s) :
    (∀ address, s.safeRegister = some address → ∀ e ∈ s.log, address ≤ e.address → ∀ x a,
      lastAction s.shift x = some a → a.registers = true → x.stored = x →
      NonNull reg x e.context.record → x ∈ e.context.kpts) ∧
    ∀ address, s.safeUnregister = some address → ∀ e ∈ s.log, e.address < address → ∀ a ∈ s.shift,
      a.registers = false → (PtrSets.empty.applyAll s.before).Has a.psf → a.psf.stored = a.psf →
      NonNull reg a.psf e.context.record → a.psf ∈ e.context.kpts := by
  have h := reachable_boundary hs
  refine ⟨?_,?_⟩
  · intro address hreg e he hle x a hlast hregisters hstored hnn
    obtain ⟨-,-,hall⟩ := h.register address hreg
    have happlied : s.applied=s.before ++ s.shift := h.applied (.inr (by rw [hreg]; nofun))
    have hhas : (registered s).Has x := by
      unfold registered
      rw [happlied,applyAll_append,has_applyAll _ _ hlast]
      exact hregisters
    rw [←hstored]
    exact hall e he hle x hhas hnn
  · intro address hunreg e he hlt a _ _ hhas hstored hnn
    rw [←hstored]
    exact (h.unregister address hunreg).2 e he hlt a.psf hhas hnn

end

/-- A record with all fields. -/
def record (payloadSize : ℕ) : Record := ⟨payloadSize, fun _ => some ""⟩

section

variable {reg : Registry}

/-- The guard of one shift, evaluated. -/
def oneShiftCheck (s : State reg) (label : Label) : Bool :=
  decide (label.thread ≠ 0) && !joins label.act &&
    match s.phases.pc label.thread with
    | .startSwap _ _ => decide (s.phases.started = 0)
    | _ => true

theorem oneShift_of_check (s : State reg) (label : Label) (h : oneShiftCheck s label=true) : oneShift s label := by
  simp only [oneShiftCheck,Bool.and_eq_true,decide_eq_true_eq,Bool.not_eq_true'] at h
  obtain ⟨⟨ht,hjoins⟩,hcheck⟩ := h
  refine ⟨ht,hjoins,fun a v hp _ => ?_⟩
  rw [hp,decide_eq_true_eq] at hcheck
  exact hcheck

/-- The guard of the theorem, evaluated. -/
def outsideCheck (s : State reg) (label : Label) : Bool :=
  oneShiftCheck s label &&
    match s.phases.pc label.thread with
    | .iterate _ _ => !(s.batch label.thread).busy
    | _ => true

theorem outsideBatches_of_check (s : State reg) (label : Label) (h : outsideCheck s label=true) :
    outsideBatches s label := by
  rw [outsideCheck,Bool.and_eq_true] at h
  obtain ⟨hone,hcheck⟩ := h
  refine ⟨oneShift_of_check s label hone,fun final prev hp _ => ?_⟩
  rw [hp,Bool.not_eq_true'] at hcheck
  exact hcheck

end

/-- A session alone registers a PSF and then inserts a record. -/
def insertedAfter : List Label :=
  registerAlone 0 [0] ++ ⟨1, .batchInsert [record 100]⟩ :: steps 1 [] 3

/-- The record lies at the address that the shift has passed to the callback. -/
theorem safe_boundary_one : ∃ s e, Reachable (machine ownField) outsideBatches s ∧ e ∈ s.log ∧
    s.safeRegister = some e.address ∧ .inlinePsf 0 ∈ e.context.kpts := by
  have hrun : (execGuarded (machine ownField) outsideCheck (store ownField fun t => t == 1)
      insertedAfter).any (fun s => decide (s.safeRegister=some 64 ∧
        lastAction s.shift (.inlinePsf 0)=some ⟨.registerInlinePsf,0⟩) && s.log.any fun e =>
          decide (e.address=64 ∧ NonNull ownField (.inlinePsf 0) e.context.record))=true := by
    decide +kernel
  obtain ⟨s,hr,hs⟩ := exists_run_of_execGuarded outsideBatches_of_check hrun
  rw [Bool.and_eq_true,decide_eq_true_eq,List.any_eq_true] at hs
  obtain ⟨⟨hreg,hlast⟩,e,he,hnn⟩ := hs
  obtain ⟨haddress,hnn⟩ := of_decide_eq_true hnn
  have hreach : Reachable (machine ownField) outsideBatches s := ⟨_,store_initial tracked_one,hr⟩
  rw [←haddress] at hreg
  exact ⟨s,e,hreach,he,hreg,(safe_boundary hreach).1 _ hreg e he le_rfl _ _ hlast rfl rfl hnn⟩

/-- Sessions on threads 1 and 2. Thread 1 is in a batch whose first record has filled the page
when thread 2 shifts the parsers, and acknowledges the shift from inside the allocation of
the second record. -/
def shiftedInBatch : List Label :=
  ⟨1, .batchInsert [record 33554000, record 1000]⟩ :: steps 1 [] 5 ++
    ⟨2, .applyParserShift [⟨.registerInlinePsf, 0⟩]⟩ :: steps 2 [0] 110 ++ steps 1 [0] 209

/-- The second record lies above the address that was passed to the callback, and has no key
pointer for the PSF that the shift has registered. -/
theorem boundary_crossed : ∃ s, Reachable (machine ownField) oneShift s ∧
    ∃ address e x a, s.safeRegister = some address ∧ e ∈ s.log ∧ address ≤ e.address ∧
      lastAction s.shift x = some a ∧ a.registers = true ∧ x.stored = x ∧
      NonNull ownField x e.context.record ∧ x ∉ e.context.kpts := by
  have hrun : (execGuarded (machine ownField) oneShiftCheck
      (store ownField fun t => decide (t=1 ∨ t=2)) shiftedInBatch).any (fun s =>
        decide (s.safeRegister=some 33554431 ∧
          lastAction s.shift (.inlinePsf 0)=some ⟨.registerInlinePsf,0⟩) && s.log.any fun e =>
            decide (33554431≤e.address ∧ NonNull ownField (.inlinePsf 0) e.context.record ∧
              .inlinePsf 0 ∉ e.context.kpts))=true := by
    decide +kernel
  obtain ⟨s,hr,hs⟩ := exists_run_of_execGuarded oneShift_of_check hrun
  rw [Bool.and_eq_true,decide_eq_true_eq,List.any_eq_true] at hs
  obtain ⟨⟨hreg,hlast⟩,e,he,hmissing⟩ := hs
  obtain ⟨hle,hnn,hnot⟩ := of_decide_eq_true hmissing
  refine ⟨s,⟨_,store_initial ?_,hr⟩,_,e,_,_,hreg,he,hle,hlast,rfl,rfl,hnn,hnot⟩
  intro t ht
  rcases of_decide_eq_true ht with rfl | rfl <;> decide

end FishStore.SafeBoundary
