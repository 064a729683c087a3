import FishStore.PhaseBarrier

/-!
# The phases of growing the index

What the phase protocol guarantees when growing the index is the only action,
sessions run on tracked threads only, and a growth starts only when every session
has returned to the rest phase and works on no earlier one. A thread that takes
part in a growth prepares, or switches the version, or is in progress with the
split; nobody is in progress before every session has acknowledged the
preparation; and the word returns to the rest phase only after every session has
acknowledged its part of the split, and after the version was switched.
-/

namespace FishStore.GrowPhases

open Runs Phases PhaseBarrier PhaseInvariant
open LightEpoch (kMaxNumThreads)
open Function (update update_eq_self update_of_ne update_self)

/-- The words of a growth at version `v`. -/
def restWord (v : UInt32) : SystemState := ⟨.growIndex, .rest, v⟩

def prepWord (v : UInt32) : SystemState := ⟨.growIndex, .growPrepare, v⟩

def progWord (v : UInt32) : SystemState := ⟨.growIndex, .growInProgress, v⟩

/-- What a thread has to do with the growth. -/
inductive Kind
  /-- Nothing. -/
  | out
  /-- It starts the growth. -/
  | starting
  /-- It acknowledges the preparation. -/
  | prep
  /-- It has moved the word on and is about to switch the version. -/
  | switching
  /-- It splits, or ends the growth. -/
  | prog
  deriving DecidableEq

/-- The part that a thread is in, by the word that it holds. -/
def partOf (w : SystemState) : Kind := if w.phase = .growPrepare then .prep else .prog

def kind : Pc → Kind
  | .idle => .out
  | .sessionLoad => .out
  | .refresh => .out
  | .refreshLoad => .out
  | .handleLoad => .out
  | .startLoad _ => .out
  | .startSwap _ _ => .out
  | .reset _ _ _ => .starting
  | .publish _ _ => .starting
  | .iterate final _ => partOf final
  | .leave l => partOf l.final
  | .ack w _ => partOf w
  | .scanPhase w _ _ => partOf w
  | .scanEpoch w _ _ _ => partOf w
  | .move w _ _ => partOf w
  | .settle next _ => if next.phase = .growInProgress then .switching else .prog
  | .split _ => .prog
  | .spin _ => .prog

/-- `SplitHashTableBuckets` was called by `HeavyEnter`, or in the loop of
`HandleSpecialPhases` for the last phase. -/
def SplitOk (v : UInt32) (l : Option Loop) : Prop := l = none ∨ l = some ⟨progWord v, progWord v⟩

/-- A word to be moved, with the caller of `FinishThreadPhase`. -/
def ReturnOk (v : UInt32) (w : SystemState) (r : Return) : Prop :=
  (w = prepWord v ∧ r = .loop ⟨prepWord v, prepWord v⟩) ∨
    (w = progWord v ∧ ∃ l, r = .split l ∧ SplitOk v l)

/-- The words that a thread may hold. The loop of `HandleSpecialPhases` has one
iteration only. -/
def Shape (v : UInt32) : Pc → Prop
  | .idle => True
  | .sessionLoad => False
  | .refresh => True
  | .refreshLoad => True
  | .handleLoad => True
  | .startLoad a => a = .growIndex
  | .startSwap a version => a = .growIndex ∧ version = v
  | .reset a version _ => a = .growIndex ∧ version = v
  | .publish a version => a = .growIndex ∧ version = v
  | .iterate final prev =>
    (final = prepWord v ∧ (prev = restWord v ∨ prev = prepWord v)) ∨
      (final = progWord v ∧ (prev = prepWord v ∨ prev = progWord v))
  | .leave l => l = ⟨prepWord v, prepWord v⟩ ∨ l = ⟨progWord v, progWord v⟩
  | .ack w r => ReturnOk v w r
  | .scanPhase w _ r => ReturnOk v w r
  | .scanEpoch w _ _ r => ReturnOk v w r
  | .move w seen r => ReturnOk v w r ∧ seen.isSome
  | .settle next r =>
    (next = progWord v ∧ r = .loop ⟨prepWord v, prepWord v⟩) ∨
      (next = restWord v ∧ ∃ l, r = .split l ∧ SplitOk v l)
  | .split l => SplitOk v l
  | .spin l => SplitOk v l

/-- Every session has acknowledged the preparation. -/
def Passed (p : State) : Prop := AckedBelow p .growPrepare (kMaxNumThreads + 1)

/-- Every session has acknowledged its part of the split. -/
def Finished (p : State) : Prop := AckedBelow p .growInProgress (kMaxNumThreads + 1)

/-- The phases a session's context may be in. -/
def CtxOk (v : UInt32) (c : Context) : Prop :=
  c = ⟨.rest, v⟩ ∨ c = ⟨.growPrepare, v⟩ ∨ c = ⟨.growInProgress, v⟩

/-- What holds of the word, the sessions and the acknowledgements; `switched` says
that the version was switched. -/
structure Control (v : UInt32) (p : State) (switched : Prop) : Prop where
  /-- Sessions run on tracked threads. -/
  tracked : ∀ u, p.isProtected u = true → 1 ≤ u ∧ u < kMaxNumThreads
  /-- Only sessions are in calls. -/
  inCall : ∀ u, p.pc u ≠ .idle → p.isProtected u = true
  /-- The word is one of a growth, or there is none. -/
  word : p.systemState = ⟨.none, .rest, v⟩ ∨ p.systemState = restWord v ∨
    p.systemState = prepWord v ∨ p.systemState = progWord v
  ctx : ∀ u, CtxOk v (p.ctx u)
  shape : ∀ u, Shape v (p.pc u)
  /-- Before the first growth nobody takes part in one. -/
  fresh : p.started = 0 → p.systemState.phase = .rest ∧
    ∀ u, kind (p.pc u) = .out ∧ p.ctx u = ⟨.rest, v⟩
  /-- While a growth is being started nobody else takes part in one. -/
  starting : ∀ t, kind (p.pc t) = .starting → p.systemState = restWord v ∧
    (∀ u, u ≠ t → kind (p.pc u) = .out) ∧ (∀ u, p.ctx u = ⟨.rest, v⟩) ∧ ∀ u q, p.acked u q = false
  /-- During the preparation nobody is in progress. -/
  early : p.systemState = prepWord v → ∀ u, kind (p.pc u) ≠ .prog ∧
    (p.ctx u).phase ≠ .growInProgress ∧ p.acked u .growInProgress = false
  /-- The word goes on only after the preparation was acknowledged. -/
  passedWord : p.systemState = progWord v → Passed p
  passedPc : ∀ u, kind (p.pc u) = .prog → Passed p
  passedCtx : ∀ u, (p.ctx u).phase = .growInProgress → Passed p ∧ Ready p
  /-- Who prepares has not been in progress. -/
  prepPc : ∀ u, kind (p.pc u) = .prep → p.systemState.phase ≠ .rest ∧
    p.acked u .growInProgress = false
  /-- In the rest phase nothing was acknowledged yet, or everything. -/
  atRest : p.systemState.phase = .rest → (∀ u, p.acked u .growPrepare = false) ∨
    (switched ∧ Finished p)
  /-- The version is switched by the thread that moved the word on. -/
  switch : p.systemState = progWord v → switched ∨ ∃ u, kind (p.pc u) = .switching
  switching : ∀ u, kind (p.pc u) = .switching → p.systemState = progWord v ∧
    p.acked u .growInProgress = false
  /-- A session that has acknowledged the preparation is back in the rest phase
  only when the growth has ended. -/
  ctxRest : ∀ u, p.acked u .growPrepare = true → (p.ctx u).phase = .rest →
    p.systemState.phase = .rest ∨ kind (p.pc u) ≠ .out

/-- The invariant of the phases. -/
structure Inv (v : UInt32) (p : State) (switched : Prop) : Prop where
  base : PhaseInvariant.Inv p
  barrier : PhaseBarrier.Inv p
  control : Control v p switched

section

variable {v : UInt32} {p p' : State} {sw sw' : Prop} {t u : ℕ} {pc : Pc} {c : Context} {w : SystemState}

/-- A thread takes part exactly when it is engaged. -/
theorem kind_eq_out : kind pc=.out ↔ engaged pc=false := by
  cases pc <;> simp only [kind,partOf,engaged] <;> (try split_ifs) <;> simp

/-- A switch of the version keeps the invariant if it is one, or while nothing was
acknowledged. -/
theorem Control.reswitch (h : Control v p sw)
    (hsw : (sw → sw') ∨ ((∀ u q, p.acked u q=false) ∧ p.systemState ≠ progWord v)) : Control v p sw' := by
  refine { h with atRest := ?_, switch := ?_ }
  · intro hrest
    rcases h.atRest hrest with hnone | ⟨hs,hfin⟩
    · exact .inl hnone
    · rcases hsw with hsw | hsw
      · exact .inr ⟨hsw hs,hfin⟩
      · exact .inl fun u => hsw.1 u _
  · intro hprog
    rcases hsw with hsw | hsw
    · rcases h.switch hprog with hs | hu
      · exact .inl (hsw hs)
      · exact .inr hu
    · exact absurd hprog hsw.2

/-- What the new place and the new context of a thread have to satisfy, when it
leaves the word and the acknowledgements alone. -/
structure Moves (v : UInt32) (p : State) (sw : Prop) (t : ℕ) (pc : Pc) (c : Context) : Prop where
  shape : Shape v pc
  ctx : CtxOk v c
  /-- It comes to take part only while the word is not in the rest phase, or by
  what it remembers. -/
  enter : kind (p.pc t) = .out →
    kind pc = .out ∨ p.systemState.phase ≠ .rest ∨ (p.ctx t).phase = .growInProgress
  /-- Who does not take part keeps the context, or returns to the rest phase. -/
  context : kind (p.pc t) = .out ∨ kind (p.pc t) = .starting → c = p.ctx t ∨ c = ⟨.rest, v⟩
  starting : kind pc = .starting → kind (p.pc t) = .starting
  toSwitch : kind pc = .switching → kind (p.pc t) = .switching
  fromSwitch : kind (p.pc t) = .switching → kind pc = .switching ∨ sw
  early : p.systemState = prepWord v → kind pc ≠ .prog ∧ c.phase ≠ .growInProgress
  passed : kind pc = .prog → Passed p
  passedCtx : c.phase = .growInProgress → Passed p ∧ Ready p
  prep : kind pc = .prep → p.systemState.phase ≠ .rest ∧ p.acked t .growInProgress = false
  rest : p.acked t .growPrepare = true → c.phase = .rest →
    p.systemState.phase = .rest ∨ kind pc ≠ .out

/-- The step changes the place and the context of a thread, and entries of the
epoch table. -/
structure Frame (p p' : State) (t : ℕ) (pc : Pc) (c : Context) : Prop where
  pc_eq : p'.pc = update p.pc t pc
  ctx_eq : p'.ctx = update p.ctx t c
  word_eq : p'.systemState = p.systemState
  acked_eq : p'.acked = p.acked
  started_eq : p'.started = p.started
  protected_eq : p'.isProtected = p.isProtected
  ready : Ready p → Ready p'

theorem Frame.acked {q : Phase} {n : ℕ} (hf : Frame p p' t pc c) (h : AckedBelow p q n) : AckedBelow p' q n := by
  intro u h1 hn hu
  rw [hf.acked_eq]
  rw [hf.protected_eq] at hu
  exact h u h1 hn hu

/-- What every thread satisfies, by its place and its context. -/
theorem Frame.forall {P : ℕ → Pc → Context → Prop} (hf : Frame p p' t pc c) (hself : P t pc c)
    (hother : ∀ u, u ≠ t → P u (p.pc u) (p.ctx u)) (u : ℕ) : P u (p'.pc u) (p'.ctx u) := by
  rw [hf.pc_eq,hf.ctx_eq]
  by_cases hut : u=t
  · rw [hut,update_self,update_self]
    exact hself
  · rw [update_of_ne hut,update_of_ne hut]
    exact hother u hut

section

variable (h : Control v p sw)

include h

theorem Control.frame (hf : Frame p p' t pc c) (hm : Moves v p sw t pc c)
    (ht : p.isProtected t=true) : Control v p' sw := by
  have hpct : p'.pc t=pc := by rw [hf.pc_eq,update_self]
  -- Where everybody is in the rest phase, so is the thread afterwards.
  have hstay : (∀ x, p.ctx x=⟨.rest,v⟩) → (kind (p.pc t)=.out ∨ kind (p.pc t)=.starting) → ∀ x, p'.ctx x=⟨.rest,v⟩ := by
    intro hrest hk
    refine hf.forall (P := fun _ _ c => c=⟨.rest,v⟩) ?_ fun x _ => hrest x
    rcases hm.context hk with hc | hc
    · rw [hc]
      exact hrest t
    · exact hc
  -- Then it does not come to take part, either.
  have hstayOut : kind (p.pc t)=.out → p.systemState.phase=.rest → p.ctx t=⟨.rest,v⟩ → kind pc=.out := by
    intro hout hrest hctx
    rcases hm.enter hout with ho | hne | hc
    · exact ho
    · exact absurd hrest hne
    · rw [hctx] at hc
      cases hc
  refine ⟨?_,?_,?_,?_,?_,?_,?_,?_,?_,?_,?_,?_,?_,?_,?_,?_⟩
  · rw [hf.protected_eq]
    exact h.tracked
  · rw [hf.protected_eq]
    exact hf.forall (P := fun u pc _ => pc ≠ .idle → p.isProtected u=true) (fun _ => ht) fun u _ => h.inCall u
  · rw [hf.word_eq]
    exact h.word
  · exact hf.forall (P := fun _ _ c => CtxOk v c) hm.ctx fun u _ => h.ctx u
  · exact hf.forall (P := fun _ pc _ => Shape v pc) hm.shape fun u _ => h.shape u
  · intro h0
    rw [hf.started_eq] at h0
    obtain ⟨hrest,hall⟩ := h.fresh h0
    rw [hf.word_eq]
    refine ⟨hrest,fun u => ⟨?_,hstay (fun x => (hall x).2) (.inl (hall t).1) u⟩⟩
    exact hf.forall (P := fun _ pc _ => kind pc=.out) (hstayOut (hall t).1 hrest (hall t).2) (fun u _ => (hall u).1) u
  · rw [hf.acked_eq,hf.word_eq]
    intro u hu
    by_cases hut : u=t
    · rw [hut,hpct] at hu
      obtain ⟨hword,hothers,hrest,hnone⟩ := h.starting t (hm.starting hu)
      rw [hut]
      refine ⟨hword,hf.forall (P := fun x pc _ => x ≠ t → kind pc=.out) (fun hne => absurd rfl hne)
        fun x _ => hothers x,hstay hrest (.inr (hm.starting hu)),hnone⟩
    · rw [hf.pc_eq,update_of_ne hut] at hu
      obtain ⟨hword,hothers,hrest,hnone⟩ := h.starting u hu
      have hout := hothers t (Ne.symm hut)
      exact ⟨hword,hf.forall (P := fun x pc _ => x ≠ u → kind pc=.out)
        (fun _ => hstayOut hout (congrArg SystemState.phase hword) (hrest t)) fun x _ => hothers x,
        hstay hrest (.inl hout),hnone⟩
  · rw [hf.word_eq,hf.acked_eq]
    intro hw
    exact hf.forall (P := fun u pc c => kind pc ≠ .prog ∧ c.phase ≠ .growInProgress ∧ p.acked u .growInProgress=false)
      ⟨(hm.early hw).1,(hm.early hw).2,(h.early hw t).2.2⟩ fun u _ => h.early hw u
  · rw [hf.word_eq]
    exact fun hw => hf.acked (h.passedWord hw)
  · exact hf.forall (P := fun _ pc _ => kind pc=.prog → Passed p') (fun hk => hf.acked (hm.passed hk))
      fun u _ hk => hf.acked (h.passedPc u hk)
  · exact hf.forall (P := fun _ _ c => c.phase=.growInProgress → Passed p' ∧ Ready p')
      (fun hc => ⟨hf.acked (hm.passedCtx hc).1,hf.ready (hm.passedCtx hc).2⟩)
      fun u _ hc => ⟨hf.acked (h.passedCtx u hc).1,hf.ready (h.passedCtx u hc).2⟩
  · rw [hf.word_eq,hf.acked_eq]
    exact hf.forall (P := fun u pc _ => kind pc=.prep → p.systemState.phase ≠ .rest ∧
      p.acked u .growInProgress=false) hm.prep fun u _ => h.prepPc u
  · rw [hf.word_eq,hf.acked_eq]
    intro hrest
    rcases h.atRest hrest with hnone | ⟨hs,hfin⟩
    · exact .inl hnone
    · exact .inr ⟨hs,hf.acked hfin⟩
  · rw [hf.word_eq]
    intro hw
    rcases h.switch hw with hs | ⟨u,hu⟩
    · exact .inl hs
    · by_cases hut : u=t
      · rw [hut] at hu
        rcases hm.fromSwitch hu with hk | hs
        · exact .inr ⟨t,(congrArg kind hpct).trans hk⟩
        · exact .inl hs
      · refine .inr ⟨u,?_⟩
        rw [hf.pc_eq,update_of_ne hut]
        exact hu
  · rw [hf.word_eq,hf.acked_eq]
    exact hf.forall (P := fun u pc _ => kind pc=.switching → p.systemState=progWord v ∧
      p.acked u .growInProgress=false) (fun hk => h.switching t (hm.toSwitch hk)) fun u _ => h.switching u
  · rw [hf.word_eq,hf.acked_eq]
    exact hf.forall (P := fun u pc c => p.acked u .growPrepare=true → c.phase=.rest →
      p.systemState.phase=.rest ∨ kind pc ≠ .out) hm.rest fun u _ => h.ctxRest u

/-- A step within the same part, with the same context. -/
theorem Control.same (hshape : Shape v pc) (hkind : kind pc=kind (p.pc t)) : Moves v p sw t pc (p.ctx t) := by
  refine ⟨hshape,h.ctx t,?_,fun _ => .inl rfl,?_,?_,?_,?_,?_,h.passedCtx t,?_,?_⟩
  · intro ho
    exact .inl (hkind.trans ho)
  · intro hk
    exact hkind.symm.trans hk
  · intro hk
    exact hkind.symm.trans hk
  · intro hk
    exact .inl (hkind.trans hk)
  · intro hw
    rw [hkind]
    exact ⟨(h.early hw t).1,(h.early hw t).2.1⟩
  · rw [hkind]
    exact h.passedPc t
  · rw [hkind]
    exact h.prepPc t
  · rw [hkind]
    exact h.ctxRest t

/-- A thread acknowledges the phase of its part. -/
theorem Control.acknowledge {q : Phase} (hq : (q=.growPrepare ∧ kind (p.pc t)=.prep) ∨
      (q=.growInProgress ∧ kind (p.pc t)=.prog)) : Control v (p.acknowledge t q) sw := by
  have hadv := Advance.acknowledge p t q
  have hnew : ∀ {u r}, (p.acknowledge t q).acked u r=true → p.acked u r=true ∨ (u=t ∧ r=q) := by
    intro u r hack
    simpa [State.acknowledge] using hack
  -- A thread of another part does not acknowledge the split.
  have hsplit : ∀ u, kind (p.pc u) ≠ .prog → p.acked u .growInProgress=false →
      (p.acknowledge t q).acked u .growInProgress=false := by
    intro u hk hno
    by_contra hack
    rcases hnew (Bool.not_eq_false _ ▸ hack) with hold | ⟨rfl,rfl⟩
    · rw [hno] at hold
      cases hold
    · rcases hq with ⟨hne,_⟩ | ⟨_,hprog⟩
      · cases hne
      · exact hk hprog
  refine { h with starting := ?_, early := ?_, passedWord := ?_, passedPc := ?_, passedCtx := ?_,
                  prepPc := ?_, atRest := ?_, switching := ?_, ctxRest := ?_ }
  · intro u hu
    -- The thread takes part, so that nobody starts a growth.
    have hut : t ≠ u := by
      rintro rfl
      rcases hq with ⟨_,hk⟩ | ⟨_,hk⟩ <;> exact absurd (hk.symm.trans hu) (by rintro ⟨⟩)
    have hout := (h.starting u hu).2.1 t hut
    rcases hq with ⟨_,hk⟩ | ⟨_,hk⟩ <;> exact absurd (hk.symm.trans hout) (by rintro ⟨⟩)
  · intro hw u
    obtain ⟨hk,hphase,hno⟩ := h.early hw u
    exact ⟨hk,hphase,hsplit u hk hno⟩
  · intro hw
    exact (h.passedWord hw).advance hadv
  · intro u hu
    exact (h.passedPc u hu).advance hadv
  · intro u hu
    exact ⟨(h.passedCtx u hu).1.advance hadv,(h.passedCtx u hu).2.advance hadv⟩
  · intro u hu
    refine ⟨(h.prepPc u hu).1,hsplit u ?_ (h.prepPc u hu).2⟩
    change kind (p.pc u)=.prep at hu
    rw [hu]
    rintro ⟨⟩
  · intro hrest
    rcases h.atRest hrest with hnone | ⟨hs,hfin⟩
    · refine .inl fun u => ?_
      by_contra hack
      rcases hnew (Bool.not_eq_false _ ▸ hack) with hold | ⟨rfl,rfl⟩
      · rw [hnone u] at hold
        cases hold
      · rcases hq with ⟨_,hk⟩ | ⟨hne,_⟩
        · exact (h.prepPc u hk).1 hrest
        · cases hne
    · exact .inr ⟨hs,hfin.advance hadv⟩
  · intro u hu
    refine ⟨(h.switching u hu).1,hsplit u ?_ (h.switching u hu).2⟩
    change kind (p.pc u)=.switching at hu
    rw [hu]
    rintro ⟨⟩
  · intro u hack hrest
    rcases hnew hack with hold | ⟨rfl,rfl⟩
    · exact h.ctxRest u hold hrest
    · refine .inr ?_
      change kind (p.pc u) ≠ .out
      rcases hq with ⟨_,hk⟩ | ⟨_,hk⟩ <;> rw [hk] <;> rintro ⟨⟩

omit h in
/-- The words of a growth differ. -/
theorem progWord_ne_prepWord : progWord v ≠ prepWord v := by
  intro he
  cases congrArg SystemState.phase he

omit h in
theorem restWord_ne_prepWord : restWord v ≠ prepWord v := by
  intro he
  cases congrArg SystemState.phase he

omit h in
theorem restWord_ne_progWord : restWord v ≠ progWord v := by
  intro he
  cases congrArg SystemState.phase he

theorem Control.version : p.systemState.version=v := by rcases h.word with hw | hw | hw | hw <;> rw [hw] <;> rfl

/-- Outside the rest phase the word is one of the two of a growth. -/
theorem Control.word_of_ne_rest (hne : p.systemState.phase ≠ .rest) :
    p.systemState=prepWord v ∨ p.systemState=progWord v := by
  rcases h.word with hw | hw | hw | hw
  · exact absurd (congrArg SystemState.phase hw) hne
  · exact absurd (congrArg SystemState.phase hw) hne
  · exact .inl hw
  · exact .inr hw

/-- While a thread is in progress, the word is in progress or in the rest phase. -/
theorem Control.word_of_prog (hk : kind (p.pc t)=.prog) : p.systemState=progWord v ∨ p.systemState.phase=.rest := by
  by_cases hrest : p.systemState.phase=.rest
  · exact .inr hrest
  · rcases h.word_of_ne_rest hrest with hw | hw
    · exact absurd hk (h.early hw t).1
    · exact .inl hw

/-- A growth starts when nobody takes part in an earlier one. -/
theorem Control.start (hprot : p.isProtected t=true) (hquiet : ∀ u, kind (p.pc u)=.out ∧ p.ctx u=⟨.rest,v⟩) :
    Control v ((p.start .growIndex v).goto t (.reset .growIndex v 1)) sw := by
  have hother : ∀ u, u ≠ t → kind (((p.start .growIndex v).goto t (.reset .growIndex v 1)).pc u)=.out := by
    intro u hu
    rw [goto_of_ne hu]
    exact (hquiet u).1
  have hself : kind (((p.start .growIndex v).goto t (.reset .growIndex v 1)).pc t)=.starting := by
    rw [goto_self]
    rfl
  have hkind : ∀ u, kind (((p.start .growIndex v).goto t (.reset .growIndex v 1)).pc u)=.out ∨
      (u=t ∧ kind (((p.start .growIndex v).goto t (.reset .growIndex v 1)).pc u)=.starting) := by
    intro u
    by_cases hu : u=t
    · rw [hu]
      exact .inr ⟨rfl,hself⟩
    · exact .inl (hother u hu)
  have hno : ∀ {u k}, k ≠ .out → k ≠ .starting →
      kind (((p.start .growIndex v).goto t (.reset .growIndex v 1)).pc u) ≠ k := by
    intro u k hout hstart hk
    rcases hkind u with hu | ⟨_,hu⟩
    · exact hout (hk.symm.trans hu)
    · exact hstart (hk.symm.trans hu)
  have hctx : ∀ u, ((p.start .growIndex v).goto t (.reset .growIndex v 1)).ctx u=⟨.rest,v⟩ := fun u => (hquiet u).2
  refine ⟨h.tracked,?_,.inr (.inl rfl),h.ctx,?_,nofun,?_,?_,?_,?_,?_,?_,?_,?_,?_,?_⟩
  · intro u hu
    by_cases hut : u=t
    · rw [hut]
      exact hprot
    · rw [goto_of_ne hut] at hu
      exact h.inCall u hu
  · intro u
    by_cases hut : u=t
    · rw [hut,goto_self]
      exact ⟨rfl,rfl⟩
    · rw [goto_of_ne hut]
      exact h.shape u
  · intro u hu
    have hut : u=t := by
      by_contra hne
      rw [hother u hne] at hu
      cases hu
    rw [hut]
    exact ⟨rfl,hother,hctx,fun _ _ => rfl⟩
  · intro hw
    exact absurd hw restWord_ne_prepWord
  · intro hw
    exact absurd hw restWord_ne_progWord
  · intro u hu
    exact absurd hu (hno nofun nofun)
  · intro u hu
    rw [hctx u] at hu
    cases hu
  · intro u hu
    exact absurd hu (hno nofun nofun)
  · intro _
    exact .inl fun _ => rfl
  · intro hw
    exact absurd hw restWord_ne_progWord
  · intro u hu
    exact absurd hu (hno nofun nofun)
  · intro u hack
    cases hack

/-- The growth is published. -/
theorem Control.toPrepare (hstarted : p.started ≠ 0)
    (hquiet : ∀ u, kind (p.pc u)=.out ∧ p.ctx u=⟨.rest,v⟩) (hnone : ∀ u q, p.acked u q=false) :
    Control v { p with systemState := prepWord v } sw := by
  have hno : ∀ {u k}, k ≠ .out → kind (p.pc u) ≠ k := by
    intro u k hne hk
    exact hne (hk.symm.trans (hquiet u).1)
  refine { h with word := .inr (.inr (.inl rfl)), fresh := fun h0 => absurd h0 hstarted,
                  starting := fun u hu => absurd hu (hno nofun), early := ?_,
                  passedWord := ?_, prepPc := fun u hu => absurd hu (hno nofun),
                  atRest := nofun, switch := ?_, switching := fun u hu => absurd hu (hno nofun),
                  ctxRest := ?_ }
  · intro _ u
    refine ⟨hno nofun,?_,hnone u _⟩
    change (p.ctx u).phase ≠ .growInProgress
    rw [(hquiet u).2]
    nofun
  · intro hw
    exact absurd hw.symm progWord_ne_prepWord
  · intro hw
    exact absurd hw.symm progWord_ne_prepWord
  · intro u hack
    exact absurd ((hnone u _).symm.trans hack) nofun

/-- A thread for which everybody has acknowledged the preparation moves the word on. -/
theorem Control.toProgress {r : Return} (hprot : p.isProtected t=true) (hw : p.systemState=prepWord v)
    (hpassed : Passed p) (hshape : Shape v (.settle (progWord v) r)) :
    Control v ({ p with systemState := progWord v }.goto t (.settle (progWord v) r)) sw := by
  have hne : p.systemState.phase ≠ .rest := by
    rw [hw]
    nofun
  have hself : kind (({ p with systemState := progWord v }.goto t (.settle (progWord v) r)).pc t) = .switching := by
    rw [goto_self]
    rfl
  have hother : ∀ {u k}, kind (({ p with systemState := progWord v }.goto t (.settle (progWord v) r)).pc u)=k →
      k ≠ .switching → kind (p.pc u)=k := by
    intro u k hu hk
    have hut : u ≠ t := by
      rintro rfl
      exact hk (hu.symm.trans hself)
    rwa [goto_of_ne hut] at hu
  refine ⟨h.tracked,?_,.inr (.inr (.inr rfl)),h.ctx,?_,?_,?_,?_,fun _ => hpassed,?_,
    h.passedCtx,?_,nofun,fun _ => .inr ⟨t,hself⟩,?_,?_⟩
  · intro u hu
    by_cases hut : u=t
    · rw [hut]
      exact hprot
    · rw [goto_of_ne hut] at hu
      exact h.inCall u hu
  · intro u
    by_cases hut : u=t
    · rw [hut,goto_self]
      exact hshape
    · rw [goto_of_ne hut]
      exact h.shape u
  · intro h0
    exact absurd (h.fresh h0).1 hne
  · intro u hu
    have hrest := (h.starting u (hother hu nofun)).1
    exact absurd (hrest.symm.trans hw) restWord_ne_prepWord
  · intro he
    exact absurd he progWord_ne_prepWord
  · intro u _
    exact hpassed
  · intro u hu
    exact ⟨nofun,(h.prepPc u (hother hu nofun)).2⟩
  · intro u hu
    exact ⟨rfl,(h.early hw u).2.2⟩
  · intro u hack hrest
    by_cases hut : u=t
    · rw [hut,hself]
      exact .inr nofun
    · rw [goto_of_ne hut]
      exact .inr ((h.ctxRest u hack hrest).resolve_left hne)

/-- A thread for which everybody has acknowledged its part of the split ends the
growth. -/
theorem Control.toRest (hk : kind (p.pc t)=.prog) (hfin : Finished p) (hsw : sw)
    (hw : w=restWord v ∨ w=⟨.none,.rest,v⟩) : Control v { p with systemState := w } sw := by
  have hrest : w.phase=.rest := by rcases hw with rfl | rfl <;> rfl
  have hdone : ∀ {u}, kind (p.pc u) ≠ .out → p.acked u .growInProgress=true := by
    intro u hu
    have hprot : p.isProtected u=true := by
      refine h.inCall u fun he => hu ?_
      rw [he]
      rfl
    have hlt := h.tracked u hprot
    exact hfin u hlt.1 (by omega) hprot
  have hne : ∀ {q}, q ≠ .rest → w ≠ ⟨.growIndex,q,v⟩ := by
    intro q hq he
    rw [he] at hrest
    exact hq hrest
  refine { h with word := ?_, fresh := ?_, starting := ?_, early := fun he => absurd he (hne nofun),
                  passedWord := fun he => absurd he (hne nofun), prepPc := ?_,
                  atRest := fun _ => .inr ⟨hsw,hfin⟩, switch := fun he => absurd he (hne nofun),
                  switching := ?_, ctxRest := fun _ _ _ => .inl hrest }
  · rcases hw with hw | hw
    · exact .inr (.inl hw)
    · exact .inl hw
  · intro h0
    exact absurd (hk.symm.trans ((h.fresh h0).2 t).1) nofun
  · intro u hu
    have hut : t ≠ u := by
      rintro rfl
      exact absurd (hk.symm.trans hu) nofun
    exact absurd (hk.symm.trans ((h.starting u hu).2.1 t hut)) nofun
  · intro u hu
    have hu' : kind (p.pc u)=.prep := hu
    exact absurd ((h.prepPc u hu).2.symm.trans (hdone (hu' ▸ nofun))) nofun
  · intro u hu
    have hu' : kind (p.pc u)=.switching := hu
    exact absurd ((h.switching u hu).2.symm.trans (hdone (hu' ▸ nofun))) nofun

omit h in
/-- A step that writes the place of a thread only. -/
theorem Frame.goto : Frame p (p.goto t pc) t pc (p.ctx t) := ⟨rfl,(update_eq_self t p.ctx).symm,rfl,rfl,rfl,rfl,id⟩

omit h in
/-- A step that writes the place and the context of a thread. -/
theorem Frame.setCtx : Frame p ((p.setCtx t c).goto t pc) t pc c := ⟨rfl,rfl,rfl,rfl,rfl,rfl,id⟩

/-- A step within the same part. -/
theorem Control.goto (ht : p.isProtected t=true) (hshape : Shape v pc)
    (hkind : kind pc=kind (p.pc t)) : Control v (p.goto t pc) sw :=
  h.frame .goto (h.same hshape hkind) ht

/-- A thread that was in progress returns to its caller after the growth. -/
theorem Control.leave_prog (hk : kind (p.pc t)=.prog)
    (hrest : p.systemState.phase=.rest) (hshape : Shape v pc) (hkind : kind pc=.out ∨ kind pc=.prog) :
    Moves v p sw t pc (p.ctx t) := by
  refine ⟨hshape,h.ctx t,?_,fun _ => .inl rfl,?_,?_,?_,?_,fun _ => h.passedPc t hk, h.passedCtx t,?_,fun _ _ => .inl hrest⟩
  · intro ho
    exact absurd (hk.symm.trans ho) nofun
  · intro hs
    rcases hkind with hs' | hs' <;> exact absurd (hs.symm.trans hs') nofun
  · intro hs
    rcases hkind with hs' | hs' <;> exact absurd (hs.symm.trans hs') nofun
  · intro hs
    exact absurd (hk.symm.trans hs) nofun
  · intro hw
    exact absurd hk (h.early hw t).1
  · intro hs
    rcases hkind with hs' | hs' <;> exact absurd (hs.symm.trans hs') nofun

/-- A session loads the word and enters the loop of `HandleSpecialPhases`, or
returns to the rest phase. -/
theorem Control.handleLoad (ht : p.isProtected t=true)
    (hp : p.pc t=.handleLoad) (hs : callStep p t true .handleLoad=some p') : Control v p' sw := by
  have hout : kind (p.pc t)=.out := by
    rw [hp]
    rfl
  have hfrom : ∀ {k}, k ≠ .out → kind (p.pc t) ≠ k := fun hne hk => hne (hk.symm.trans hout)
  simp only [Phases.callStep] at hs
  split_ifs at hs with hrest <;> cases hs
  · rw [h.version]
    refine h.frame .setCtx ⟨trivial,.inl rfl,fun _ => .inl rfl,fun _ => .inr rfl,(by rintro ⟨⟩),(by rintro ⟨⟩),
      fun hk => absurd hk (hfrom (by rintro ⟨⟩)),fun _ => ⟨(by rintro ⟨⟩),(by rintro ⟨⟩)⟩,(by rintro ⟨⟩),(by rintro ⟨⟩),(by rintro ⟨⟩),
      fun _ _ => .inl hrest⟩ ht
  · have hctx := h.ctx t
    rcases h.word_of_ne_rest hrest with hw | hw
    · -- Nobody is in progress yet.
      have hearly := h.early hw t
      have hkind : kind (.iterate p.systemState ⟨p.systemState.action,(p.ctx t).phase,(p.ctx t).version⟩) = .prep := by
        rw [hw]
        rfl
      refine h.frame .goto ⟨?_,hctx,fun _ => .inr (.inl hrest),fun _ => .inl rfl,?_,?_,
        fun hk => absurd hk (hfrom (by rintro ⟨⟩)),fun _ => ?_,?_,h.passedCtx t,?_,?_⟩ ht
      · rw [hw]
        refine .inl ⟨rfl,?_⟩
        rcases hctx with hc | hc | hc
        · rw [hc]
          exact .inl rfl
        · rw [hc]
          exact .inr rfl
        · exact absurd (congrArg Context.phase hc) hearly.2.1
      all_goals rw [hkind]
      · rintro ⟨⟩
      · rintro ⟨⟩
      · exact ⟨(by rintro ⟨⟩),hearly.2.1⟩
      · rintro ⟨⟩
      · exact fun _ => ⟨hrest,hearly.2.2⟩
      · exact fun _ _ => .inr (by rintro ⟨⟩)
    · -- The session has acknowledged the preparation, so that it is past the rest phase.
      have hpassed := h.passedWord hw
      have hack : p.acked t .growPrepare=true := by
        have hlt := h.tracked t ht
        exact hpassed t hlt.1 (by omega) ht
      have hctxne : (p.ctx t).phase ≠ .rest := by
        intro hr
        rcases h.ctxRest t hack hr with hr' | hr'
        · exact hrest hr'
        · exact hr' hout
      have hkind : kind (.iterate p.systemState ⟨p.systemState.action,(p.ctx t).phase,(p.ctx t).version⟩) = .prog := by
        rw [hw]
        rfl
      refine h.frame .goto ⟨?_,hctx,fun _ => .inr (.inl hrest),fun _ => .inl rfl,?_,?_,
        fun hk => absurd hk (hfrom (by rintro ⟨⟩)),fun he => ?_,fun _ => hpassed,h.passedCtx t,?_,?_⟩ ht
      · rw [hw]
        refine .inr ⟨rfl,?_⟩
        rcases hctx with hc | hc | hc
        · exact absurd (congrArg Context.phase hc) hctxne
        · rw [hc]
          exact .inl rfl
        · rw [hc]
          exact .inr rfl
      · rw [hkind]
        rintro ⟨⟩
      · rw [hkind]
        rintro ⟨⟩
      · exact absurd (hw.symm.trans he) progWord_ne_prepWord
      · rw [hkind]
        rintro ⟨⟩
      · exact fun _ hr => absurd hr hctxne

/-- One iteration of the loop of `HandleSpecialPhases`. -/
theorem Control.iterate {final prev : SystemState} (ht : p.isProtected t=true) (hp : p.pc t=.iterate final prev)
    (hs : callStep p t true (.iterate final prev)=some p') : Control v p' sw := by
  have hshape := h.shape t
  rw [hp] at hshape
  obtain ⟨cur,hcur,rfl⟩ := Option.map_eq_some_iff.mp hs
  rcases hshape with ⟨rfl,rfl | rfl⟩ | ⟨rfl,rfl | rfl⟩
  · rw [if_neg restWord_ne_prepWord] at hcur
    cases hcur
    exact h.frame .setCtx (h.same (.inl ⟨rfl,rfl⟩) (by rw [hp]; rfl)) ht
  · rw [if_pos rfl] at hcur
    cases hcur
    exact h.frame .setCtx (h.same (.inl rfl) (by rw [hp]; rfl)) ht
  · rw [if_neg progWord_ne_prepWord.symm] at hcur
    cases hcur
    exact h.frame .setCtx (h.same (.inr rfl) (by rw [hp]; rfl)) ht
  · rw [if_pos rfl] at hcur
    cases hcur
    exact h.frame .setCtx (h.same (.inr rfl) (by rw [hp]; rfl)) ht

/-- The end of an iteration of the loop, which was the last one. -/
theorem Control.leave {l : Loop} (hready : Ready p) (ht : p.isProtected t=true)
    (hp : p.pc t=.leave l) (hs : callStep p t true (.leave l)=some p') : Control v p' sw := by
  have hshape := h.shape t
  rw [hp] at hshape
  cases hs
  rcases hshape with rfl | rfl
  · have hk : kind (p.pc t)=.prep := by
      rw [hp]
      rfl
    have hfrom : ∀ {k}, k ≠ .prep → kind (p.pc t) ≠ k := fun hne hk' => hne (hk'.symm.trans hk)
    rw [if_pos rfl]
    refine h.frame .setCtx ⟨trivial,.inr (.inl rfl),fun _ => .inl rfl,?_,nofun,nofun,
      fun hk => absurd hk (hfrom nofun),fun _ => ⟨nofun,nofun⟩,nofun,nofun,nofun,nofun⟩ ht
    rintro (hk' | hk') <;> exact absurd hk' (hfrom nofun)
  · have hk : kind (p.pc t)=.prog := by
      rw [hp]
      rfl
    have hfrom : ∀ {k}, k ≠ .prog → kind (p.pc t) ≠ k := fun hne hk' => hne (hk'.symm.trans hk)
    rw [if_pos rfl]
    refine h.frame .setCtx ⟨trivial,.inr (.inr rfl),fun _ => .inl rfl,?_,nofun,nofun,
      fun hk => absurd hk (hfrom nofun),fun hw => absurd hk (h.early hw t).1,nofun,
      fun _ => ⟨h.passedPc t hk,hready⟩,nofun,nofun⟩ ht
    rintro (hk' | hk') <;> exact absurd hk' (hfrom nofun)

/-- The step of `FinishThreadPhase` that reads an epoch. -/
theorem Control.scanEpoch {idx : ℕ} {e : Phase} {r : Return} (ht : p.isProtected t=true) (hp : p.pc t=.scanEpoch w idx e r)
    (hs : callStep p t true (.scanEpoch w idx e r)=some p') : Control v p' sw := by
  have hshape := h.shape t
  rw [hp] at hshape
  simp only [Phases.callStep] at hs
  split_ifs at hs <;> cases hs
  · rcases hshape with ⟨rfl,rfl⟩ | ⟨rfl,l,rfl,hl⟩
    · exact h.goto ht (.inl rfl) (by rw [hp]; rfl)
    · exact h.goto ht hl (by rw [hp]; rfl)
  · unfold scanFrom
    split_ifs
    · exact h.goto ht hshape (by rw [hp]; rfl)
    · exact h.goto ht ⟨hshape,rfl⟩ (by rw [hp]; rfl)

omit h in
/-- Back in the caller of `SplitHashTableBuckets`. -/
theorem SplitOk.afterSplit {l : Option Loop} (h : SplitOk v l) :
    Shape v (afterSplit l) ∧ (kind (afterSplit l)=.out ∨ kind (afterSplit l)=.prog) := by
  rcases h with rfl | rfl
  · exact ⟨trivial,.inl rfl⟩
  · exact ⟨.inr rfl,.inr rfl⟩

/-- While a thread is at the end of a growth, everybody has done its part. -/
theorem Control.finished (hk : kind (p.pc t)=.prog) (hrest : p.systemState.phase=.rest) : sw ∧ Finished p := by
  refine (h.atRest hrest).resolve_left fun hnone => ?_
  have ht : p.isProtected t=true := by
    refine h.inCall t fun he => ?_
    rw [he] at hk
    cases hk
  have hlt := h.tracked t ht
  have hack := h.passedPc t hk t hlt.1 (by omega) ht
  rw [hnone t] at hack
  cases hack

/-- The swap of the global move, with what the scan before it has shown. -/
theorem Control.move {seen : Option ℕ} {r : Return} (ht : p.isProtected t=true)
    (hp : p.pc t=.move w seen r) (hseen : seen.isSome → AckedBelow p w.phase (kMaxNumThreads+1))
    (hs : callStep p t true (.move w seen r)=some p') : Control v p' sw := by
  have hshape := h.shape t
  rw [hp] at hshape
  obtain ⟨hreturn,hsome⟩ := hshape
  have hacked := hseen hsome
  obtain ⟨next,hnext,rfl⟩ := Option.map_eq_some_iff.mp hs
  rcases hreturn with ⟨rfl,rfl⟩ | ⟨rfl,l,rfl,hl⟩
  · cases hnext
    split_ifs with hw
    · exact h.toProgress ht hw hacked (.inl ⟨rfl,rfl⟩)
    · exact h.goto ht (.inl rfl) (by rw [hp]; rfl)
  · cases hnext
    have hk : kind (p.pc t)=.prog := by
      rw [hp]
      rfl
    split_ifs with hw
    · -- The thread that switches the version has yet to acknowledge its part.
      have hswitched : sw := by
        refine (h.switch hw).resolve_right ?_
        rintro ⟨u,hu⟩
        have hprot : p.isProtected u=true := by
          refine h.inCall u fun he => ?_
          rw [he] at hu
          cases hu
        have hlt := h.tracked u hprot
        have hack := hacked u hlt.1 (by omega) hprot
        rw [show (progWord v).phase=.growInProgress from rfl,(h.switching u hu).2] at hack
        cases hack
      exact (h.toRest hk hacked hswitched (.inl rfl)).goto ht (.inr ⟨rfl,l,rfl,hl⟩) hk.symm
    · have hrest := (h.word_of_prog hk).resolve_left hw
      obtain ⟨hshape,hkind⟩ := hl.afterSplit
      exact h.frame .goto (h.leave_prog hk hrest hshape hkind) ht

/-- After the swap of the global move, the version is switched or the action ends. -/
theorem Control.settle {next : SystemState} {r : Return} (ht : p.isProtected t=true)
    (hp : p.pc t=.settle next r) (howner : next.phase=.rest → p.systemState.phase=.rest)
    (hs : callStep p t true (.settle next r)=some p') : Control v p' (sw ∨ next.phase=.growInProgress) := by
  have hshape := h.shape t
  rw [hp] at hshape
  have h' : Control v p (sw ∨ next.phase=.growInProgress) := h.reswitch (.inl .inl)
  rcases hshape with ⟨rfl,rfl⟩ | ⟨rfl,l,rfl,hl⟩
  · cases hs
    have hk : kind (p.pc t)=.switching := by
      rw [hp]
      rfl
    have hfrom : ∀ {k}, k ≠ .switching → kind (p.pc t) ≠ k := fun hne hk' => hne (hk'.symm.trans hk)
    obtain ⟨hw,hno⟩ := h.switching t hk
    have hrest : p.systemState.phase ≠ .rest := by
      rw [hw]
      nofun
    refine h'.frame .goto ⟨.inl rfl,h.ctx t,fun _ => .inr (.inl hrest),fun _ => .inl rfl,nofun,nofun,
      fun _ => .inr (.inr rfl),fun he => ?_,nofun,h.passedCtx t,fun _ => ⟨hrest,hno⟩,
      fun _ _ => .inr nofun⟩ ht
    exact absurd (hw.symm.trans he) progWord_ne_prepWord
  · cases hs
    have hk : kind (p.pc t)=.prog := by
      rw [hp]
      rfl
    obtain ⟨hsw,hfin⟩ := h'.finished hk (howner rfl)
    obtain ⟨hshape,hkind⟩ := hl.afterSplit
    have hrest := h'.toRest hk hfin hsw (w := ⟨.none,.rest,v⟩) (.inr rfl)
    exact hrest.frame .goto (hrest.leave_prog hk rfl hshape hkind) ht

omit h in
/-- The phase that a call of `FinishThreadPhase` is for. -/
theorem ReturnOk.phase {r : Return} (h : ReturnOk v w r) :
    (w.phase=.growPrepare ∧ partOf w=.prep) ∨ (w.phase=.growInProgress ∧ partOf w=.prog) := by
  rcases h with ⟨rfl,_⟩ | ⟨rfl,_⟩
  · exact .inl ⟨rfl,rfl⟩
  · exact .inr ⟨rfl,rfl⟩

/-- The steps of a call that do not come from a move of the word keep the invariant, if a growth
starts only when nobody takes part in an earlier one. -/
theorem Control.callStep_of_ne_settle (hbar : PhaseBarrier.Inv p)
    (hquiet : ∀ a version, p.pc t=.startSwap a version → p.systemState=⟨.none,.rest,version⟩ →
      ∀ u, kind (p.pc u)=.out ∧ p.ctx u=⟨.rest,v⟩) (hne : ∀ next r, p.pc t ≠ .settle next r)
    (hs : Phases.callStep p t true (p.pc t)=some p') : Control v p' sw := by
  have hok := hbar.pcs t
  have hshape := h.shape t
  have ht : p.isProtected t=true := by
    refine h.inCall t fun hidle => ?_
    rw [hidle] at hs
    cases hs
  generalize hp : p.pc t=pc at hs hok hshape hne hquiet
  have hk : kind (p.pc t)=kind pc := congrArg kind hp
  have hfrom : ∀ {k}, k ≠ kind pc → kind (p.pc t) ≠ k := fun hne hk' => hne (hk'.symm.trans hk)
  cases moves_of_callStep hs with
  | join => exact hshape.elim
  | reject => exact hshape.elim
  | refresh =>
    have hsame : (p.protect t true).isProtected=p.isProtected := by
      change update p.isProtected t true=p.isProtected
      rw [←ht,update_eq_self]
    have hf : Frame p ((p.protect t true).goto t .refreshLoad) t .refreshLoad (p.ctx t) :=
      ⟨rfl,(update_eq_self t p.ctx).symm,rfl,rfl,rfl,hsame,id⟩
    exact h.frame hf (h.same trivial hk.symm) ht
  | resting | special | startLost => exact h.goto ht trivial hk.symm
  | reload | enter => exact h.handleLoad ht hp hs
  | iterate => exact h.iterate ht hp hs
  | leave l => exact h.leave hok ht hp hs
  | ack w r =>
    have hq : (w.phase=.growPrepare ∧ kind (p.pc t)=.prep) ∨ (w.phase=.growInProgress ∧ kind (p.pc t)=.prog) := by
      rw [hk]
      exact ReturnOk.phase hshape
    exact (h.acknowledge hq).goto ht hshape hk.symm
  | scanPhase => exact h.goto ht hshape hk.symm
  | refuse | scanOn => exact h.scanEpoch ht hp hs
  | move | overtaken => exact h.move ht hp hok.2.1 hs
  | close next r | settle next r => exact absurd rfl (hne next r)
  | split l =>
    have hversion : (p.ctx t).version=v := by rcases h.ctx t with hc | hc | hc <;> rw [hc]
    have hctx : Context.mk .rest (p.ctx t).version=⟨.rest,v⟩ := by rw [hversion]
    have hword : SystemState.mk .growIndex .growInProgress (p.ctx t).version=progWord v := by
      rw [hversion]
      rfl
    exact h.frame .setCtx ⟨.inr ⟨hword,l,rfl,hshape⟩,.inl hctx,fun hk' => absurd hk' (hfrom (by rintro ⟨⟩)),
      fun _ => .inr hctx,(by rintro ⟨⟩),(by rintro ⟨⟩),fun hk' => absurd hk' (hfrom (by rintro ⟨⟩)),
      fun hw => absurd hk (h.early hw t).1,fun _ => h.passedPc t hk,(by rintro ⟨⟩),(by rintro ⟨⟩),
      fun _ _ => .inr (by rintro ⟨⟩)⟩ ht
  | spin => exact h
  | leaveSpin l hw =>
    have hrest : p.systemState.phase=.rest := by
      refine (h.word_of_prog hk).resolve_left fun he => hw ?_
      rw [he]
      rfl
    obtain ⟨hshape',hkind⟩ := SplitOk.afterSplit hshape
    exact h.frame .goto (h.leave_prog hk hrest hshape' hkind) ht
  | startLoad => exact h.goto ht ⟨hshape,h.version⟩ hk.symm
  | start a version hsys =>
    obtain ⟨rfl,rfl⟩ := hshape
    exact h.start ht (hquiet _ _ rfl hsys)
  | reset a version idx =>
    have hadv := Advance.reset p idx
    have hk' : kind (if idx<kMaxNumThreads then .reset a version (idx+1) else .publish a version) = .starting := by
      split_ifs <;> rfl
    have hshape' : Shape v (if idx<kMaxNumThreads then .reset a version (idx+1) else .publish a version) := by
      split_ifs <;> exact hshape
    exact h.frame ⟨rfl,(update_eq_self t p.ctx).symm,rfl,rfl,rfl,rfl,
      fun hr => hr.advance hadv.goto⟩ (h.same hshape' (hk'.trans hk.symm)) ht
  | publish a version q hfirst =>
    obtain ⟨rfl,rfl⟩ := hshape
    cases hfirst
    obtain ⟨hw,hothers,hctx,hnone⟩ := h.starting t hk
    have hstarted : p.started ≠ 0 := fun h0 => absurd ((h.fresh h0).2 t).1 (hfrom (by rintro ⟨⟩))
    have hmove : Control version (p.goto t .refresh) sw :=
      h.frame .goto ⟨trivial,h.ctx t,fun hk' => absurd hk' (hfrom (by rintro ⟨⟩)),fun _ => .inl rfl,
        (by rintro ⟨⟩),(by rintro ⟨⟩),fun hk' => absurd hk' (hfrom (by rintro ⟨⟩)),
        fun he => absurd (hw.symm.trans he) restWord_ne_prepWord,(by rintro ⟨⟩),h.passedCtx t,(by rintro ⟨⟩),
        fun hack => absurd ((hnone t _).symm.trans hack) (by rintro ⟨⟩)⟩ ht
    exact hmove.toPrepare hstarted (Frame.goto.forall (P := fun _ pc c => kind pc=.out ∧ c=⟨.rest,version⟩)
      ⟨rfl,hctx t⟩ fun u hu => ⟨hothers u hu,hctx u⟩) hnone

/-- The thread that has moved the word on switches the version. -/
theorem Control.callStep (hbase : PhaseInvariant.Inv p) (hbar : PhaseBarrier.Inv p)
    (hquiet : ∀ a version, p.pc t=.startSwap a version → p.systemState=⟨.none,.rest,version⟩ →
      ∀ u, kind (p.pc u)=.out ∧ p.ctx u=⟨.rest,v⟩) (hs : callStep p t true (p.pc t)=some p') :
    Control v p' (sw ∨ kind (p.pc t)=.switching) := by
  by_cases hset : ∃ next r, p.pc t=.settle next r
  · obtain ⟨next,r,hp⟩ := hset
    rw [hp] at hs ⊢
    refine (h.settle (h.inCall t ?_) hp ?_ hs).reswitch (.inl ?_)
    · rw [hp]
      rintro ⟨⟩
    · intro hrest
      have howned : PhaseInvariant.owned (p.pc t)=some next := by
        rw [hp]
        exact if_pos hrest
      rw [(hbase.owner t next howned).1]
      exact hrest
    · rintro (hs' | hnext)
      · exact .inl hs'
      · exact .inr (if_pos hnext)
  · exact (h.callStep_of_ne_settle hbar hquiet (fun next r hp => hset ⟨next,r,hp⟩) hs).reswitch (.inl .inl)

/-- A session that is in no call leaves. -/
theorem Control.stop (hidle : p.pc t=.idle) : Control v (p.protect t false) sw := by
  have hleft : ∀ u, (p.protect t false).isProtected u=true → p.isProtected u=true := by
    intro u hu
    by_cases hut : u=t
    · subst hut
      rw [show (p.protect u false).isProtected u=false from update_self _ _ _] at hu
      cases hu
    · rwa [show (p.protect t false).isProtected u=p.isProtected u from update_of_ne hut _ _] at hu
  have hadv : Advance p (p.protect t false) := ⟨fun _ hu => hu,fun _ _ hu => hu,hleft⟩
  refine { h with tracked := fun u hu => h.tracked u (hleft u hu), inCall := ?_,
                  passedWord := fun hw => (h.passedWord hw).advance hadv,
                  passedPc := fun u hu => (h.passedPc u hu).advance hadv,
                  passedCtx := fun u hu => ⟨(h.passedCtx u hu).1.advance hadv,(h.passedCtx u hu).2⟩,
                  atRest := ?_ }
  · intro u hu
    have hut : u ≠ t := by
      rintro rfl
      exact hu hidle
    rw [show (p.protect t false).isProtected u=p.isProtected u from update_of_ne hut _ _]
    exact h.inCall u hu
  · intro hrest
    rcases h.atRest hrest with hnone | ⟨hs,hfin⟩
    · exact .inl hnone
    · exact .inr ⟨hs,hfin.advance hadv⟩

/-- The invariant is kept by the calls of the sessions. -/
theorem Control.startCall {act : Act} (hidle : p.pc t=.idle)
    (hsession : act ≠ .startSession) (hstart : ∀ a, act=.start a → a=.growIndex)
    (hs : startCall p t act=some p') : Control v p' sw := by
  have hout : kind (p.pc t)=.out := by
    rw [hidle]
    rfl
  cases starts_of_startCall hs with
  | startSession => exact absurd rfl hsession
  | stopSession => exact h.stop hidle
  | refresh hprot => exact h.goto hprot trivial hout.symm
  | start a hprot => exact h.goto hprot.1 (hstart a rfl) hout.symm
  | heavyEnter hprot =>
    cases hphase : (p.ctx t).phase with
    | growInProgress =>
      -- The session goes by what it remembers.
      have hfrom : ∀ {k}, k ≠ .out → kind (p.pc t) ≠ k := fun hne hk => hne (hk.symm.trans hout)
      refine h.frame .goto ⟨.inl rfl,h.ctx t,fun _ => .inr (.inr hphase),fun _ => .inl rfl,(by rintro ⟨⟩),
        (by rintro ⟨⟩),fun hk => absurd hk (hfrom (by rintro ⟨⟩)),fun hw => absurd hphase (h.early hw t).2.1,
        fun _ => (h.passedCtx t hphase).1,h.passedCtx t,(by rintro ⟨⟩),fun _ _ => .inr (by rintro ⟨⟩)⟩ hprot
    | _ => exact h.goto hprot trivial hout.symm

end

/-- The invariant of the phases is kept by the steps of a call, if a growth starts
only when nobody takes part in an earlier one. -/
theorem Inv.callStep (h : Inv v p sw)
    (hquiet : ∀ a version, p.pc t=.startSwap a version → p.systemState=⟨.none,.rest,version⟩ →
      ∀ u, kind (p.pc u)=.out ∧ p.ctx u=⟨.rest,v⟩)
    (hs : callStep p t true (p.pc t)=some p') : Inv v p' (sw ∨ kind (p.pc t)=.switching) := by
  refine ⟨h.base.callStep hs,h.barrier.callStep h.base ?_ hs, h.control.callStep h.base h.barrier hquiet hs⟩
  intro a version hp hsys u
  exact kind_eq_out.mp (hquiet a version hp hsys u).1

theorem Inv.startCall {act : Act} (h : Inv v p sw) (hidle : p.pc t=.idle)
    (hsession : act ≠ .startSession) (hstart : ∀ a, act=.start a → a=.growIndex)
    (hs : startCall p t act=some p') : Inv v p' sw := by
  refine ⟨h.base.startCall hs,h.barrier.startCall hsession ?_ hidle hs, h.control.startCall hidle hsession hstart hs⟩
  intro _ hphase
  exact (h.control.passedCtx t hphase).2

/-- The invariant holds of sessions in the rest phase before the first growth. -/
theorem Inv.initial (hword : p.systemState=⟨.none,.rest,v⟩) (hctx : ∀ u, p.ctx u=⟨.rest,v⟩)
    (hidle : ∀ u, p.pc u=.idle) (hstarted : p.started=0) (hacked : ∀ u q, p.acked u q=false)
    (htracked : ∀ u, p.isProtected u=true → 1≤u ∧ u<kMaxNumThreads) : Inv v p sw := by
  have hquiescent : Quiescent p := by refine ⟨?_,?_,hidle,hstarted⟩ <;> rw [hword]
  have hout : ∀ u, kind (p.pc u)=.out := by
    intro u
    rw [hidle u]
    rfl
  have hno : ∀ {u k}, k ≠ .out → kind (p.pc u) ≠ k := fun hne hk => hne (hk.symm.trans (hout _))
  have hne : ∀ q, p.systemState ≠ ⟨.growIndex,q,v⟩ := by
    intro q he
    rw [hword] at he
    cases he
  refine ⟨.of_quiescent hquiescent,.of_quiescent hquiescent,htracked,?_,.inl hword,?_,?_,?_,?_, ?_,?_,?_,?_,?_,?_,?_,?_,?_⟩
  · exact fun u hu => absurd (hidle u) hu
  · exact fun u => .inl (hctx u)
  · intro u
    rw [hidle u]
    trivial
  · exact fun _ => ⟨hquiescent.2.1,fun u => ⟨hout u,hctx u⟩⟩
  · exact fun u hu => absurd hu (hno nofun)
  · exact fun hw => absurd hw (hne _)
  · exact fun hw => absurd hw (hne _)
  · exact fun u hu => absurd hu (hno nofun)
  · intro u hu
    rw [hctx u] at hu
    cases hu
  · exact fun u hu => absurd hu (hno nofun)
  · exact fun _ => .inl fun u => hacked u _
  · exact fun hw => absurd hw (hne _)
  · exact fun u hu => absurd hu (hno nofun)
  · exact fun u hack => absurd ((hacked u _).symm.trans hack) nofun

end

end FishStore.GrowPhases
