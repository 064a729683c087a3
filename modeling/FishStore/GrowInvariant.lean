import FishStore.Grow
import FishStore.InsertRuns
import FishStore.GrowPhases
import FishStore.ChunkCounter

/-!
# Chunks, operations and tables during a growth

The chunks of the old table are handed out one by one. A session that acknowledges
its part of the split has found no chunk left, so that a session that still has
one keeps the word in progress. Operations do not run then, if no session
acknowledges the preparation inside an operation: the tables that they work on
are the current one, and it is initialised.
-/

namespace FishStore.GrowInvariant

open Runs Grow ChunkCounter Option GrowPhases PhaseInvariant
open Phases (callStep startCall Pc Phase afterMove scanFrom phaseWork SystemState)
open LightEpoch (kMaxNumThreads)
open Function (update update_of_ne update_self)

/-- Where the session's call of `SplitHashTableBuckets` stands, if it is in one. -/
def splitOf (s : State) (t : ℕ) : Option SplitPc :=
  match s.phases.pc t with
  | .split _ => some (s.split t)
  | _ => none

/-- The chunk that the session has taken. -/
def chunkOf : Option SplitPc → Option ℕ
  | some (.entry chunk _ _ _ _) => some chunk
  | some (.finish chunk) => some chunk
  | _ => none

/-- The session splits buckets or frees the old table. -/
def working : Option SplitPc → Bool
  | some (.entry _ _ _ _ _) => true
  | some (.finish _) => true
  | some .free => true
  | _ => false

/-- The session leaves the loop. -/
def ended : Option SplitPc → Bool
  | some .free => true
  | some .done => true
  | _ => false

/-- The session is about to acknowledge its part of the split. -/
def acksSplit : Pc → Bool
  | .ack w _ => decide (w.phase = .growInProgress)
  | _ => false

/-- The chunks of the old table and those who split it. -/
structure SplitInv (s : State) : Prop where
  chunks : Chunks s.grow.numChunks s.grow.nextChunk s.grow.numPendingChunks s.splitDone
    fun t => chunkOf (splitOf s t)
  /-- Who works on a chunk has not acknowledged its part. -/
  working : ∀ t, working (splitOf s t) = true → s.phases.acked t .growInProgress = false
  /-- Who is to acknowledge its part, or has, has found no chunk left. -/
  none_left : ∀ t, (ended (splitOf s t) = true ∨ acksSplit (s.phases.pc t) = true) ∨
    s.phases.acked t .growInProgress = true → s.grow.numChunks ≤ s.grow.nextChunk
  /-- The old table is freed when all was split. -/
  freeing : ∀ t, splitOf s t = some .free → ∀ c, c < s.grow.numChunks → s.splitDone c = true

/-- The operations and the tables that they work on. -/
structure OpInv (s : State) : Prop where
  /-- Operations run in sessions. -/
  session : ∀ t, inOperation (s.store.pc t) = true → s.phases.isProtected t = true
  /-- The table is the current one. -/
  held : ∀ t, inOperation (s.store.pc t) = true → s.held t = (s.version, s.current.generation)
  /-- A growth whose preparation the session has acknowledged is over. -/
  outside : ∀ t, inOperation (s.store.pc t) = true → s.phases.acked t .growPrepare = true →
    s.phases.systemState.phase = .rest

/-- The tables are initialised, the current one except in the midst of a split. -/
structure TableInv (v : UInt32) (s : State) : Prop where
  new : s.new.isInitialized = true
  current : s.phases.systemState ≠ progWord v → s.current.isInitialized = true

/-- The invariant of growing. -/
structure Inv (v : UInt32) (s : State) : Prop where
  phases : GrowPhases.Inv v s.phases (s.version = s.grow.newVersion)
  split : SplitInv s
  op : OpInv s
  table : TableInv v s

section

variable {v : UInt32} {p p' : Phases.State} {s s' : State} {t u : ℕ}

theorem splitOf_of_split {l : Option Phases.Loop} (h : s.phases.pc t=.split l) : splitOf s t=some (s.split t) := by
  unfold splitOf
  rw [h]

theorem kind_of_splitOf {pc : SplitPc} (h : splitOf s t=some pc) : kind (s.phases.pc t)=.prog := by
  unfold splitOf at h
  split at h
  · next hp =>
    rw [hp]
    rfl
  · cases h

theorem splitOf_eq_none (h : kind (s.phases.pc t) ≠ .prog) : splitOf s t=none := by
  cases hs : splitOf s t with
  | none => rfl
  | some pc => exact absurd (kind_of_splitOf hs) h

/-- Who works on a chunk keeps the word in progress. -/
theorem Inv.word_of_working (h : Inv v s) (hw : GrowInvariant.working (splitOf s t)=true) :
    s.phases.systemState=progWord v := by
  have hk : kind (s.phases.pc t)=.prog := by
    cases hs : splitOf s t with
    | none =>
      rw [hs] at hw
      cases hw
    | some pc => exact kind_of_splitOf hs
  have hc := h.phases.control
  refine (hc.word_of_prog hk).resolve_right fun hrest => ?_
  have ht : s.phases.isProtected t=true := by
    refine hc.inCall t fun he => ?_
    rw [he] at hk
    cases hk
  have hlt := hc.tracked t ht
  have hack := (hc.finished hk hrest).2 t hlt.1 (by omega) ht
  rw [h.split.working t hw] at hack
  cases hack

/-- While the word is in progress no operation runs. -/
theorem Inv.no_operation (h : Inv v s) (hw : s.phases.systemState=progWord v) : inOperation (s.store.pc t)=false := by
  by_contra hop
  have hop' : inOperation (s.store.pc t)=true := by simpa using hop
  have ht := h.op.session t hop'
  have hlt := h.phases.control.tracked t ht
  have hack := h.phases.control.passedWord hw t hlt.1 (by omega) ht
  have hrest := h.op.outside t hop' hack
  rw [hw] at hrest
  cases hrest

/-- The table of an operation is initialised. -/
theorem Inv.operation_table (h : Inv v s) (hop : inOperation (s.store.pc t)=true) :
    (s.table (s.held t).1).isInitialized=true ∧ (s.table (s.held t).1).generation=(s.held t).2 := by
  rw [h.op.held t hop]
  refine ⟨h.table.current fun hw => ?_,rfl⟩
  rw [h.no_operation hw] at hop
  cases hop

/-- A step of one session that takes and ends no chunk. -/
theorem SplitInv.keep (h : SplitInv s) (hgrow : s'.grow=s.grow) (hdone : s'.splitDone=s.splitDone)
    (hother : ∀ u, u ≠ t → splitOf s' u=splitOf s u ∧ s'.phases.pc u=s.phases.pc u)
    (hchunk : chunkOf (splitOf s' t)=chunkOf (splitOf s t))
    (hworking : GrowInvariant.working (splitOf s' t)=true → GrowInvariant.working (splitOf s t)=true)
    (hover : ended (splitOf s' t)=true ∨ acksSplit (s'.phases.pc t)=true →
      s.grow.numChunks ≤ s.grow.nextChunk) (hfree : splitOf s' t=some .free → splitOf s t=some .free)
    (hacked : ∀ u, s'.phases.acked u .growInProgress=true →
      s.phases.acked u .growInProgress=true ∨ (u=t ∧ acksSplit (s.phases.pc t)=true)) : SplitInv s' := by
  have hhold : (fun u => chunkOf (splitOf s' u))=fun u => chunkOf (splitOf s u) := by
    funext u
    by_cases hut : u=t
    · rw [hut]
      exact hchunk
    · rw [(hother u hut).1]
  refine ⟨?_,?_,?_,?_⟩
  · rw [hgrow,hdone,hhold]
    exact h.chunks
  · intro u hu
    have hu' : GrowInvariant.working (splitOf s u)=true := by
      by_cases hut : u=t
      · rw [hut] at hu ⊢
        exact hworking hu
      · rwa [(hother u hut).1] at hu
    by_contra hack
    rcases hacked u (by simpa using hack) with hold | ⟨rfl,hacks⟩
    · rw [h.working u hu'] at hold
      cases hold
    · -- Who acknowledges is out of the loop.
      unfold splitOf at hu'
      split at hu'
      · next hp =>
        rw [hp] at hacks
        cases hacks
      · cases hu'
  · intro u hu
    rw [hgrow]
    rcases hu with hu | hack
    · by_cases hut : u=t
      · rw [hut] at hu
        exact hover hu
      · rw [(hother u hut).1,(hother u hut).2] at hu
        exact h.none_left u (.inl hu)
    · rcases hacked u hack with hold | ⟨_,hacks⟩
      · exact h.none_left u (.inr hold)
      · exact h.none_left t (.inl (.inr hacks))
  · intro u hu
    rw [hgrow,hdone]
    by_cases hut : u=t
    · rw [hut] at hu
      exact h.freeing t (hfree hu)
    · rw [(hother u hut).1] at hu
      exact h.freeing u hu

/-- The session is neither in `SplitHashTableBuckets` nor about to acknowledge. -/
def apart : Pc → Bool
  | .split _ => false
  | .ack _ _ => false
  | _ => true

theorem apart_afterMove (r : Phases.Return) : apart (afterMove r)=true := by rcases r with _ | ⟨_ | _⟩ <;> rfl

/-- Sessions come to split and to acknowledge from two places only. -/
theorem callStep_apart (hs : callStep p t true (p.pc t)=some p') :
    (∃ final prev, p.pc t=.iterate final prev) ∨ (∃ l, p.pc t=.split l) ∨ apart (p'.pc t)=true := by
  generalize hp : p.pc t=pc at hs ⊢
  cases Phases.moves_of_callStep hs with
  | iterate final prev => exact .inl ⟨final,prev,rfl⟩
  | split l => exact .inr (.inl ⟨l,rfl⟩)
  | spin =>
    rw [hp]
    exact .inr (.inr rfl)
  | refuse w idx e r =>
    refine .inr (.inr ?_)
    rw [goto_self]
    cases r <;> rfl
  | scanOn =>
    refine .inr (.inr ?_)
    rw [goto_self,scanFrom]
    split_ifs <;> rfl
  | publish a =>
    refine .inr (.inr ?_)
    rw [goto_self]
    cases a <;> rfl
  | leaveSpin l =>
    refine .inr (.inr ?_)
    rw [goto_self]
    exact apart_afterMove (.split l)
  | _ =>
    refine .inr (.inr ?_)
    rw [goto_self]
    first
    | rfl
    | exact apart_afterMove _
    | split_ifs <;> rfl

/-- In the loop of `HandleSpecialPhases` the split is not acknowledged directly. -/
theorem phaseWork_finish {cur prev : SystemState} {has ready : Bool} {ctx : Phases.Context}
    (h : (phaseWork cur prev has ready ctx).1=.finish) : cur.phase ≠ .growInProgress := by
  obtain ⟨act,ph,version⟩ := cur
  rintro rfl
  cases act <;> cases h

/-- A phase that a step acknowledges was acknowledged before, or the thread was
about to. -/
theorem callStep_acked {q : Phase} (hs : callStep p t true (p.pc t)=some p') (ha : p'.acked u q=true) :
    p.acked u q=true ∨ (u=t ∧ ∃ w r, p.pc t=.ack w r ∧ q=w.phase) := by
  generalize p.pc t=pc at hs ⊢
  cases Phases.moves_of_callStep hs with
  | ack w r =>
    have hack : (p.acked u q || (decide (u=t) && decide (q=w.phase)))=true := ha
    rcases Bool.or_eq_true_iff.mp hack with hold | hnew
    · exact .inl hold
    · obtain ⟨hut,hq⟩ := Bool.and_eq_true_iff.mp hnew
      exact .inr ⟨of_decide_eq_true hut,w,r,rfl,of_decide_eq_true hq⟩
  | start => cases ha
  | _ => exact .inl ha

/-- The word leaves the rest phase when a growth is published. -/
theorem callStep_rest (h : PhaseInvariant.Inv p) (hs : callStep p t true (p.pc t)=some p')
    (hrest : p.systemState.phase=.rest) : p'.systemState.phase=.rest ∨ ∃ a version, p.pc t=.publish a version := by
  generalize hp : p.pc t=pc at hs ⊢
  cases Phases.moves_of_callStep hs with
  | publish a version => exact .inr ⟨a,version,rfl⟩
  | move w seen r next hnext he =>
    have hw := h.target t w (by rw [hp]; rfl)
    rw [he] at hrest
    exact absurd hrest hw
  | start => exact .inl rfl
  | close => exact .inl rfl
  | _ => exact .inl hrest

/-- The session is in the loop of `HandleSpecialPhases`. -/
def iterates : Pc → Bool
  | .iterate _ _ => true
  | _ => false

theorem partOf_ne_switching (w : SystemState) : partOf w ≠ .switching := by
  unfold partOf
  split_ifs <;> nofun

/-- A step of the phase protocol and what it does to the tables. -/
theorem phaseStep_cases (hs : phaseStep s t=some s') :
    ∃ p', callStep s.phases t true (s.phases.pc t)=some p' ∧
      ((∃ a version idx, s.phases.pc t=.reset a version idx ∧ ¬idx<kMaxNumThreads ∧
          s'={ s with phases := p' }.initializeGrow) ∨
        (kind (s.phases.pc t)=.switching ∧ iterates (s.phases.pc t)=false ∧
          s'={ s with phases := p', version := s.grow.newVersion }) ∨
        (kind (s.phases.pc t) ≠ .switching ∧
          (iterates (s.phases.pc t)=true ∧ s'={ s with phases := p' }.gotoSplit t .load ∨
            iterates (s.phases.pc t)=false ∧ s'={ s with phases := p' }))) := by
  obtain ⟨p',hp',rfl⟩ := map_eq_some_iff.mp hs
  refine ⟨p',hp',?_⟩
  cases hp : s.phases.pc t with
  | reset a version idx =>
    by_cases hlt : idx<kMaxNumThreads
    · exact .inr (.inr ⟨nofun,.inr ⟨rfl,if_pos hlt⟩⟩)
    · exact .inl ⟨a,version,idx,rfl,hlt,if_neg hlt⟩
  | settle next r =>
    by_cases hnext : next.phase=.growInProgress
    · exact .inr (.inl ⟨if_pos hnext,rfl,if_pos hnext⟩)
    · refine .inr (.inr ⟨?_,.inr ⟨rfl,if_neg hnext⟩⟩)
      rw [show kind (.settle next r)=.prog from if_neg hnext]
      nofun
  | iterate final prev => exact .inr (.inr ⟨partOf_ne_switching _,.inl ⟨rfl,rfl⟩⟩)
  | ack w r | scanPhase w idx r | scanEpoch w idx e r | move w seen r | leave l =>
    exact .inr (.inr ⟨partOf_ne_switching _,.inr ⟨rfl,rfl⟩⟩)
  | _ => exact .inr (.inr ⟨nofun,.inr ⟨rfl,rfl⟩⟩)

/-- After a step of the phase protocol the thread is at the start of the loop over
the chunks, or not in it. -/
theorem splitOf_phases (hs : callStep s.phases t true (s.phases.pc t)=some p') (hphases : s'.phases=p')
    (hload : iterates (s.phases.pc t)=true → s'.split t=.load) : (splitOf s' t=none ∨ splitOf s' t=some .load)
    ∧ (acksSplit (p'.pc t)=true → ∃ l, s.phases.pc t=.split l) := by
  rcases callStep_apart hs with ⟨final,prev,hp⟩ | ⟨l,hp⟩ | hap
  · have hl := hload (by rw [hp]; rfl)
    rw [hp] at hs
    obtain ⟨cur,_,rfl⟩ := map_eq_some_iff.mp hs
    unfold splitOf
    rw [hphases,goto_self,hl]
    cases hw : (phaseWork cur prev (decide (s.phases.phaseFinished t=cur.phase)) true (s.phases.ctx t)).1 with
    | finish => exact ⟨.inl rfl,fun ha => absurd (of_decide_eq_true ha) (phaseWork_finish hw)⟩
    | split => exact ⟨.inr rfl,nofun⟩
    | _ => exact ⟨.inl rfl,nofun⟩
  · rw [hp] at hs
    cases hs
    refine ⟨.inl ?_,fun _ => ⟨l,hp⟩⟩
    unfold splitOf
    rw [hphases,goto_self]
  · unfold splitOf
    rw [hphases]
    cases hq : p'.pc t with
    | split l | ack w r =>
      rw [hq] at hap
      cases hap
    | _ => exact ⟨.inl rfl,nofun⟩

/-- A thread that takes a step of the phase protocol is not in the midst of the
split. -/
theorem splitOf_of_ended (hend : ∀ l, s.phases.pc t=.split l → s.split t=.done) :
    splitOf s t=none ∨ splitOf s t=some .done := by
  unfold splitOf
  split
  · next l hl =>
    rw [hend l hl]
    exact .inr rfl
  · exact .inl rfl

theorem splitOf_other (hphases : s'.phases.pc u=s.phases.pc u) (hsplit : s'.split u=s.split u) :
    splitOf s' u=splitOf s u := by
  unfold splitOf
  rw [hphases,hsplit]

/-- A step of the phase protocol takes and ends no chunk. -/
theorem SplitInv.phases (h : SplitInv s) (hs : callStep s.phases t true (s.phases.pc t)=some p')
    (hphases : s'.phases=p') (hgrow : s'.grow=s.grow) (hdone : s'.splitDone=s.splitDone)
    (hother : ∀ u, u ≠ t → s'.split u=s.split u) (hload : iterates (s.phases.pc t)=true → s'.split t=.load)
    (hend : ∀ l, s.phases.pc t=.split l → s.split t=.done) : SplitInv s' := by
  have hold := splitOf_of_ended hend
  obtain ⟨hnew,hacks⟩ := splitOf_phases hs hphases hload
  refine h.keep (t := t) hgrow hdone ?_ ?_ ?_ ?_ ?_ ?_
  · intro u hu
    have hpc : s'.phases.pc u=s.phases.pc u := by
      rw [hphases]
      exact PhaseInvariant.callStep_other hs hu
    exact ⟨splitOf_other hpc (hother u hu),hpc⟩
  · rcases hold with ho | ho <;> rcases hnew with hn | hn <;> rw [ho,hn] <;> rfl
  · rcases hnew with hn | hn <;> rw [hn] <;> nofun
  · rintro (hn | ha)
    · rcases hnew with hn' | hn' <;> rw [hn'] at hn <;> cases hn
    · rw [hphases] at ha
      obtain ⟨l,hl⟩ := hacks ha
      refine h.none_left t (.inl (.inl ?_))
      rw [splitOf_of_split hl,hend l hl]
      rfl
  · rcases hnew with hn | hn <;> rw [hn] <;> nofun
  · intro u hack
    rw [hphases] at hack
    rcases callStep_acked hs hack with hold' | ⟨rfl,w,r,hp,hq⟩
    · exact .inl hold'
    · refine .inr ⟨rfl,?_⟩
      rw [hp]
      exact decide_eq_true hq.symm

/-- A step of the phase protocol leaves the operations on their table. -/
theorem OpInv.phases (h : OpInv s) (hc : Control v s.phases (s.version=s.grow.newVersion))
    (hbase : PhaseInvariant.Inv s.phases)
    (hprep : ∀ w r, s.phases.pc t=.ack w r → w.phase=.growPrepare → inOperation (s.store.pc t)=false)
    (hs : callStep s.phases t true (s.phases.pc t)=some p') : OpInv { s with phases := p' } := by
  refine ⟨?_,h.held,?_⟩
  · intro u hu
    have hsession := h.session u hu
    rcases PhaseBarrier.callStep_protected hs with hp | hp
    · rw [hp] at hs
      cases hs
      change update s.phases.isProtected t true u=true
      by_cases hut : u=t
      · rw [hut,update_self]
      · rw [update_of_ne hut]
        exact hsession
    · change p'.isProtected u=true
      rw [hp]
      exact hsession
  · intro u hu hack
    rcases callStep_acked hs hack with hold | ⟨rfl,w,r,hp,hq⟩
    · rcases callStep_rest hbase hs (h.outside u hu hold) with hrest | ⟨a,version,hp⟩
      · exact hrest
      · -- While a growth is being started nothing was acknowledged.
        have hk : kind (s.phases.pc t)=.starting := by
          rw [hp]
          rfl
        rw [(hc.starting t hk).2.2.2 u _] at hold
        cases hold
    · have hno := hprep w r hp hq.symm
      rw [show inOperation (s.store.pc u)=true from hu] at hno
      cases hno

/-- A step of the phase protocol other than the switch of the version. -/
theorem TableInv.phases (h : TableInv v s) (hc : Control v s.phases (s.version=s.grow.newVersion))
    (hc' : Control v p' (s.version=s.grow.newVersion)) (hk : kind (s.phases.pc t) ≠ .switching)
    (hs : callStep s.phases t true (s.phases.pc t)=some p') : TableInv v { s with phases := p' } := by
  refine ⟨h.new,fun hw' => ?_⟩
  change p'.systemState ≠ progWord v at hw'
  by_cases hw : s.phases.systemState=progWord v
  · rcases hc.switch hw with hsw | ⟨u,hu⟩
    · change (s.table s.version).isInitialized=true
      rw [hsw]
      exact h.new
    · -- The thread that is to switch the version keeps the word in progress.
      have hut : u ≠ t := by
        rintro rfl
        exact hk hu
      rw [←PhaseInvariant.callStep_other hs hut] at hu
      exact absurd (hc'.switching u hu).1 hw'
  · exact h.current hw

/-- `GrowIndex` initialises the other version while nobody takes part in a growth. -/
theorem Inv.initializeGrow (h : Inv v s) (hk : kind (s.phases.pc t)=.starting) : Inv v s.initializeGrow := by
  obtain ⟨hword,hothers,-,hnone⟩ := h.phases.control.starting t hk
  have hout : ∀ u, kind (s.phases.pc u) ≠ .prog := by
    intro u hu
    by_cases hut : u=t
    · rw [hut] at hu
      exact absurd (hk.symm.trans hu) nofun
    · exact absurd ((hothers u hut).symm.trans hu) nofun
  have hsplit : ∀ u, splitOf s.initializeGrow u=none := fun u => splitOf_eq_none (hout u)
  have hne : s.version ≠ !s.version := by cases s.version <;> nofun
  have hcurrent : s.initializeGrow.current=s.current := update_of_ne hne _ _
  refine ⟨⟨h.phases.base,h.phases.barrier,h.phases.control.reswitch (.inr ⟨hnone,?_⟩)⟩,
    ⟨?_,?_,?_,?_⟩,⟨h.op.session,?_,h.op.outside⟩,⟨?_,?_⟩⟩
  · rw [hword]
    exact GrowPhases.restWord_ne_progWord
  · exact Chunks.start _ fun u => by rw [hsplit u]; rfl
  · intro u hu
    rw [hsplit u] at hu
    cases hu
  · rintro u ((hu | hu) | hu)
    · rw [hsplit u] at hu
      cases hu
    · -- Who is to acknowledge takes part.
      refine absurd ?_ (hout u)
      change acksSplit (s.phases.pc u)=true at hu
      cases hp : s.phases.pc u with
      | ack w r =>
        rw [hp] at hu
        have hphase : w.phase=.growInProgress := of_decide_eq_true hu
        change partOf w=.prog
        unfold partOf
        rw [hphase]
        exact if_neg nofun
      | _ =>
        rw [hp] at hu
        cases hu
    · exact absurd ((hnone u _).symm.trans hu) nofun
  · intro u hu
    rw [hsplit u] at hu
    cases hu
  · intro u hu
    rw [hcurrent]
    exact h.op.held u hu
  · change (update s.table (!s.version) _ (!s.version)).isInitialized=true
    rw [update_self]
  · intro hw
    rw [hcurrent]
    exact h.table.current hw

/-- The invariant is kept by the steps of the phase protocol, if a growth starts
when nobody takes part in an earlier one, and if no session acknowledges the
preparation inside an operation. -/
theorem Inv.phaseStep (h : Inv v s) (hquiet : ∀ a version, s.phases.pc t=.startSwap a version →
      s.phases.systemState=⟨.none,.rest,version⟩ → ∀ u, kind (s.phases.pc u)=.out ∧ s.phases.ctx u=⟨.rest,v⟩)
    (hprep : ∀ w r, s.phases.pc t=.ack w r → w.phase=.growPrepare → inOperation (s.store.pc t)=false)
    (hend : ∀ l, s.phases.pc t=.split l → s.split t=.done) (hs : phaseStep s t=some s') : Inv v s' := by
  obtain ⟨p',hp',hcase⟩ := phaseStep_cases hs
  have hph := h.phases.callStep hquiet hp'
  have hc := h.phases.control
  have hop := h.op.phases hc h.phases.base hprep hp'
  rcases hcase with ⟨a,version,idx,hp,hlt,rfl⟩ | ⟨hk,hit,rfl⟩ | ⟨hk,hcase⟩
  · have hk : kind (s.phases.pc t) ≠ .switching := by
      rw [hp]
      nofun
    have hph' : GrowPhases.Inv v p' (s.version=s.grow.newVersion) :=
      ⟨hph.base,hph.barrier,hph.control.reswitch (.inl fun hor => hor.resolve_right hk)⟩
    have h' : Inv v { s with phases := p' } :=
      ⟨hph',h.split.phases hp' rfl rfl rfl (fun _ _ => rfl) (by rw [hp]; nofun) hend,hop,
        h.table.phases hc hph'.control hk hp'⟩
    refine h'.initializeGrow (t := t) ?_
    rw [hp] at hp'
    cases hp'
    change kind (((_ : Phases.State).goto t _).pc t)=.starting
    rw [goto_self,if_neg hlt]
    rfl
  · -- The version is switched while the word is in progress, so that no operation runs.
    have hw := (hc.switching t hk).1
    have hno : ∀ u, inOperation (s.store.pc u)=false := fun u => h.no_operation hw
    refine ⟨⟨hph.base,hph.barrier,hph.control.reswitch (.inl fun _ => rfl)⟩,
      h.split.phases hp' rfl rfl rfl (fun _ _ => rfl) (by rw [hit]; nofun) hend,
      ⟨hop.session,fun u hu => absurd ((hno u).symm.trans hu) nofun,hop.outside⟩,
      ⟨h.table.new,fun _ => h.table.new⟩⟩
  · have hph' : GrowPhases.Inv v p' (s.version=s.grow.newVersion) :=
      ⟨hph.base,hph.barrier,hph.control.reswitch (.inl fun hor => hor.resolve_right hk)⟩
    have htable := h.table.phases hc hph'.control hk hp'
    rcases hcase with ⟨-,rfl⟩ | ⟨hit,rfl⟩
    · refine ⟨hph',h.split.phases hp' rfl rfl rfl ?_ ?_ hend,⟨hop.session,hop.held,hop.outside⟩,
        ⟨htable.new,htable.current⟩⟩
      · exact fun u hu => update_of_ne hu _ _
      · exact fun _ => update_self _ _ _
    · exact ⟨hph',h.split.phases hp' rfl rfl rfl (fun _ _ => rfl) (by rw [hit]; nofun) hend,hop, htable⟩

section

variable {l : Option Phases.Loop} {pc : SplitPc} (hl : s.phases.pc t = .split l)
  (hphases : s'.phases = s.phases) (hsplit : s'.split = update s.split t pc)

include hl hphases hsplit

/-- The session that splits moves on. -/
theorem splitOf_self : splitOf s' t=some pc := by
  unfold splitOf
  rw [hphases,hl,hsplit,update_self]

omit hl in
theorem splitOf_of_ne (hu : u ≠ t) : splitOf s' u=splitOf s u := by
  unfold splitOf
  rw [hphases,hsplit,update_of_ne hu]

/-- A step of the split that takes and ends no chunk. -/
theorem SplitInv.goto (h : SplitInv s) (hgrow : s'.grow=s.grow) (hdone : s'.splitDone=s.splitDone)
    (hchunk : chunkOf (some pc)=chunkOf (some (s.split t)))
    (hworking : GrowInvariant.working (some pc)=true → GrowInvariant.working (some (s.split t))=true)
    (hover : ended (some pc)=true → s.grow.numChunks ≤ s.grow.nextChunk) (hfree : pc ≠ .free) : SplitInv s' := by
  have hself := splitOf_self hl hphases hsplit
  refine h.keep (t := t) hgrow hdone ?_ ?_ ?_ ?_ ?_ ?_
  · intro u hu
    exact ⟨splitOf_of_ne hphases hsplit hu,by rw [hphases]⟩
  · rw [hself,splitOf_of_split hl]
    exact hchunk
  · rw [hself,splitOf_of_split hl]
    exact hworking
  · rintro (he | ha)
    · rw [hself] at he
      exact hover he
    · rw [hphases,hl] at ha
      cases ha
  · rw [hself]
    intro he
    cases he
    exact absurd rfl hfree
  · rw [hphases]
    exact fun u hu => .inl hu

/-- A session takes the next chunk. -/
theorem SplitInv.take (h : SplitInv s) (hpc : s.split t=.fetch)
    (hlt : s.grow.nextChunk<s.grow.numChunks)
    (hgrow : s'.grow={ s.grow with nextChunk := s.grow.nextChunk+1 })
    (hdone : s'.splitDone=s.splitDone) (hchunk : chunkOf (some pc)=some s.grow.nextChunk) :
    SplitInv s' := by
  have hself := splitOf_self hl hphases hsplit
  have hother : ∀ {u}, u ≠ t → splitOf s' u=splitOf s u := splitOf_of_ne hphases hsplit
  have hold : splitOf s t=some .fetch := (splitOf_of_split hl).trans (congrArg some hpc)
  have hhold : (fun u => chunkOf (splitOf s' u)) = update (fun u => chunkOf (splitOf s u)) t (some s.grow.nextChunk) := by
    funext u
    by_cases hut : u=t
    · rw [hut,hself,update_self]
      exact hchunk
    · rw [update_of_ne hut,hother hut]
  -- Nobody can have found that there is no chunk left.
  have hleft : ∀ u, ¬((ended (splitOf s u)=true ∨ acksSplit (s.phases.pc u)=true) ∨
      s.phases.acked u .growInProgress=true) := by
    intro u hu
    have hle := h.none_left u hu
    omega
  refine ⟨?_,?_,?_,?_⟩
  · rw [hgrow,hdone,hhold]
    exact h.chunks.take hlt (by rw [hold]; rfl)
  · intro u _
    rw [hphases]
    simpa using fun hack => hleft u (.inr hack)
  · intro u hu
    rw [hphases] at hu
    by_cases hut : u=t
    · rcases hu with (hu | hu) | hu
      · rw [hut,hself] at hu
        cases pc <;> cases hchunk <;> cases hu
      · exact absurd (.inl (.inr hu)) (hleft u)
      · exact absurd (.inr hu) (hleft u)
    · rw [hother hut] at hu
      exact absurd hu (hleft u)
  · intro u hu
    by_cases hut : u=t
    · rw [hut,hself] at hu
      cases hu
      cases hchunk
    · rw [hother hut] at hu
      rw [hgrow,hdone]
      exact h.freeing u hu

/-- A session finds no chunk left. -/
theorem SplitInv.take_none (h : SplitInv s) (hpc : s.split t=.fetch) (hdone' : pc=.done)
    (hle : s.grow.numChunks ≤ s.grow.nextChunk)
    (hgrow : s'.grow={ s.grow with nextChunk := s.grow.nextChunk+1 })
    (hdone : s'.splitDone=s.splitDone) : SplitInv s' := by
  have hself := splitOf_self hl hphases hsplit
  have hother : ∀ {u}, u ≠ t → splitOf s' u=splitOf s u := splitOf_of_ne hphases hsplit
  have hold : splitOf s t=some .fetch := (splitOf_of_split hl).trans (congrArg some hpc)
  have hhold : (fun u => chunkOf (splitOf s' u))=fun u => chunkOf (splitOf s u) := by
    funext u
    by_cases hut : u=t
    · rw [hut,hself,hold,hdone']
      rfl
    · rw [hother hut]
  refine ⟨?_,?_,?_,?_⟩
  · rw [hgrow,hdone,hhold]
    exact h.chunks.none_left hle
  · intro u hu
    rw [hphases]
    by_cases hut : u=t
    · rw [hut,hself,hdone'] at hu
      cases hu
    · rw [hother hut] at hu
      exact h.working u hu
  · intro u _
    rw [hgrow]
    exact Nat.le_succ_of_le hle
  · intro u hu
    by_cases hut : u=t
    · rw [hut,hself,hdone'] at hu
      cases hu
    · rw [hother hut] at hu
      rw [hgrow,hdone]
      exact h.freeing u hu

/-- A session counts its chunk as done. -/
theorem SplitInv.finish {c : ℕ} (h : SplitInv s) (hpc : s.split t=.finish c)
    (hgrow : s'.grow={ s.grow with numPendingChunks := s.grow.numPendingChunks - 1 })
    (hdone : s'.splitDone=update s.splitDone c true)
    (hnext : pc=if s.grow.numPendingChunks - 1=0 then .free else .fetch) : SplitInv s' := by
  have hself := splitOf_self hl hphases hsplit
  have hother : ∀ {u}, u ≠ t → splitOf s' u=splitOf s u := splitOf_of_ne hphases hsplit
  have hold : splitOf s t=some (.finish c) := (splitOf_of_split hl).trans (congrArg some hpc)
  have hhold : (fun u => chunkOf (splitOf s' u)) = update (fun u => chunkOf (splitOf s u)) t none := by
    funext u
    by_cases hut : u=t
    · rw [hut,hself,update_self,hnext]
      split_ifs <;> rfl
    · rw [update_of_ne hut,hother hut]
  have hchunks : Chunks s'.grow.numChunks s'.grow.nextChunk s'.grow.numPendingChunks s'.splitDone
      fun u => chunkOf (splitOf s' u) := by
    rw [hgrow,hdone,hhold]
    exact h.chunks.finish (by rw [hold]; rfl)
  -- Who counts the last one down knows that all are done.
  have hall : pc=.free → ∀ d, d<s'.grow.numChunks → s'.splitDone d=true := by
    intro hpc' d hd
    have hzero : s'.grow.numPendingChunks=0 := by
      rw [hgrow]
      rw [hpc'] at hnext
      split_ifs at hnext with h0
      exact h0
    rw [hzero] at hchunks
    exact hchunks.all_done hd
  refine ⟨hchunks,?_,?_,?_⟩
  · intro u hu
    rw [hphases]
    by_cases hut : u=t
    · rw [hut]
      exact h.working t (by rw [hold]; rfl)
    · rw [hother hut] at hu
      exact h.working u hu
  · intro u hu
    rw [hphases] at hu
    by_cases hut : u=t
    · rcases hu with (hu | hu) | hu
      · have hpc' : pc=.free := by
          rw [hut,hself,hnext] at hu
          rw [hnext]
          split_ifs at hu ⊢
          · rfl
          · cases hu
        exact hchunks.all_taken (hall hpc')
      · rw [hgrow]
        exact h.none_left u (.inl (.inr hu))
      · rw [hgrow]
        exact h.none_left u (.inr hu)
    · rw [hother hut] at hu
      rw [hgrow]
      exact h.none_left u hu
  · intro u hu
    by_cases hut : u=t
    · rw [hut,hself] at hu
      cases hu
      exact hall rfl
    · rw [hother hut] at hu
      intro d hd
      rw [hdone]
      by_cases hdc : d=c
      · rw [hdc,update_self]
      · rw [update_of_ne hdc]
        rw [hgrow] at hd
        exact h.freeing u hu d hd

end

/-- The step leaves the phases, the versions and the chunks alone, and of the
tables all but their buckets. -/
structure TableFrame (s s' : State) : Prop where
  phases_eq : s'.phases = s.phases
  version_eq : s'.version = s.version
  grow_eq : s'.grow = s.grow
  split_eq : s'.split = s.split
  done_eq : s'.splitDone = s.splitDone
  size_eq : ∀ x, (s'.table x).size = (s.table x).size
  initialized_eq : ∀ x, (s'.table x).isInitialized = (s.table x).isInitialized
  generation_eq : ∀ x, (s'.table x).generation = (s.table x).generation

/-- Storing buckets changes a table in nothing else. -/
theorem setIndex_table (s : State) (b : Bool) (m : HashIndex.Index) (x : Bool) :
    ((s.setIndex b m).table x).size=(s.table x).size ∧ ((s.setIndex b m).table x).isInitialized=(s.table x).isInitialized ∧
      ((s.setIndex b m).table x).generation=(s.table x).generation := by
  change (update s.table b _ x).size=_ ∧ (update s.table b _ x).isInitialized=_ ∧ (update s.table b _ x).generation=_
  by_cases hx : x=b
  · rw [hx,update_self]
    exact ⟨rfl,rfl,rfl⟩
  · rw [update_of_ne hx]
    exact ⟨rfl,rfl,rfl⟩

theorem TableFrame.setIndex {b : Bool} {m : HashIndex.Index} (h : TableFrame s s') : TableFrame s (s'.setIndex b m) :=
  ⟨h.phases_eq,h.version_eq,h.grow_eq,h.split_eq,h.done_eq, fun x => (setIndex_table s' b m x).1.trans (h.size_eq x),
    fun x => (setIndex_table s' b m x).2.1.trans (h.initialized_eq x),
    fun x => (setIndex_table s' b m x).2.2.trans (h.generation_eq x)⟩

theorem TableInv.frame (h : TableInv v s) (hphases : s'.phases=s.phases)
    (hversion : s'.version=s.version) (hgrow : s'.grow.newVersion=s.grow.newVersion)
    (hinit : ∀ x, (s'.table x).isInitialized=(s.table x).isInitialized) : TableInv v s' := by
  refine ⟨?_,fun hw => ?_⟩
  · unfold State.new
    rw [hinit,hgrow]
    exact h.new
  · unfold State.current
    rw [hinit,hversion]
    rw [hphases] at hw
    exact h.current hw

/-- A session's step of an operation, or its begin. -/
theorem Inv.frame (h : Inv v s) (hf : TableFrame s s') (hpc : ∀ u, u ≠ t → s'.store.pc u=s.store.pc u ∧ s'.held u=s.held u)
    (hself : inOperation (s'.store.pc t)=true → s.phases.isProtected t=true ∧ s'.held t=(s.version, s.current.generation) ∧
      (s.phases.acked t .growPrepare=true → s.phases.systemState.phase=.rest)) : Inv v s' := by
  obtain ⟨hphases,hversion,hgrow,hsplit,hdone,-,hinit,hgen⟩ := hf
  have hsplitOf : ∀ u, splitOf s' u=splitOf s u := by
    intro u
    unfold splitOf
    rw [hphases,hsplit]
  have hcurrent : s'.current.generation=s.current.generation := by
    unfold State.current
    rw [hgen,hversion]
  refine ⟨?_,⟨?_,?_,?_,?_⟩,⟨?_,?_,?_⟩, h.table.frame hphases hversion (congrArg GrowState.newVersion hgrow) hinit⟩
  · rw [hphases,hversion,hgrow]
    exact h.phases
  · rw [hgrow,hdone,funext fun u => congrArg chunkOf (hsplitOf u)]
    exact h.split.chunks
  · intro u
    rw [hsplitOf,hphases]
    exact h.split.working u
  · intro u
    rw [hsplitOf,hphases,hgrow]
    exact h.split.none_left u
  · intro u
    rw [hsplitOf,hgrow,hdone]
    exact h.split.freeing u
  · intro u hu
    rw [hphases]
    by_cases hut : u=t
    · rw [hut] at hu ⊢
      exact (hself hu).1
    · rw [(hpc u hut).1] at hu
      exact h.op.session u hu
  · intro u hu
    rw [hversion,hcurrent]
    by_cases hut : u=t
    · rw [hut] at hu ⊢
      exact (hself hu).2.1
    · rw [(hpc u hut).1] at hu
      rw [(hpc u hut).2]
      exact h.op.held u hu
  · intro u hu
    rw [hphases]
    by_cases hut : u=t
    · rw [hut] at hu ⊢
      exact (hself hu).2.2
    · rw [(hpc u hut).1] at hu
      exact h.op.outside u hu

theorem opStep_cases {ro : ℕ} (hs : opStep s t ro=some s') : inOperation (s.store.pc t)=true ∧
      ((∃ hash x, s.store.pc t=.found hash x ∧ s'={ s with store := s.store.goto t .idle }) ∨
        ∃ st, InternalInsert.callStep (s.table (s.held t).1).size t ro (s.view (s.held t).1)
            (s.store.pc t)=some st ∧
          s'={ s with store := st, hashes := constructed s.hashes (s.store.pc t) }.setIndex
            (s.held t).1 st.index) := by
  unfold opStep at hs
  split at hs
  · next hash x hp =>
    cases hs
    rw [hp]
    exact ⟨rfl,.inl ⟨hash,x,rfl,rfl⟩⟩
  · obtain ⟨st,hst,rfl⟩ := map_eq_some_iff.mp hs
    refine ⟨?_,.inr ⟨st,hst,rfl⟩⟩
    cases hp : s.store.pc t with
    | idle =>
      rw [hp] at hst
      cases hst
    | _ => rfl

/-- The invariant is kept by the steps of the operations. -/
theorem Inv.opStep {ro : ℕ} (h : Inv v s) (hs : opStep s t ro=some s') : Inv v s' := by
  obtain ⟨hop,hcase⟩ := opStep_cases hs
  have hself := And.intro (h.op.session t hop) (And.intro (h.op.held t hop) (h.op.outside t hop))
  rcases hcase with ⟨hash,x,_,rfl⟩ | ⟨st,hst,rfl⟩
  · refine h.frame (t := t) ⟨rfl,rfl,rfl,rfl,rfl,fun _ => rfl,fun _ => rfl,fun _ => rfl⟩ ?_ fun _ => hself
    exact fun u hu => ⟨update_of_ne hu _ _,rfl⟩
  · refine h.frame (t := t) (TableFrame.setIndex ⟨rfl,rfl,rfl,rfl,rfl,fun _ => rfl,fun _ => rfl,fun _ => rfl⟩) ?_
      fun _ => hself
    exact fun u hu => ⟨(InsertRuns.callStep_change hst).2.others u hu,rfl⟩

/-- An operation begins on the current table. -/
theorem Inv.begin {act : InternalInsert.Act} (h : Inv v s) (hs : begin s t act=some s') : Inv v s' := by
  unfold Grow.begin at hs
  obtain ⟨⟨hidle,hprot,-,henter⟩,hs⟩ := ite_none_right_eq_some.mp hs
  obtain ⟨pc,_,rfl⟩ := map_eq_some_iff.mp hs
  have hc := h.phases.control
  refine h.frame (t := t) ⟨rfl,rfl,rfl,rfl,rfl,fun _ => rfl,fun _ => rfl,fun _ => rfl⟩ ?_
    fun _ => ⟨hprot,update_self _ _ _,fun hack => ?_⟩
  · exact fun u hu => ⟨update_of_ne hu _ _,update_of_ne hu _ _⟩
  · -- `HeavyEnter` lets only sessions in the rest phase pass.
    have hrest : (s.phases.ctx t).phase=.rest := by
      rcases hc.ctx t with hctx | hctx | hctx <;> rw [hctx] at henter ⊢ <;> first | rfl | cases henter
    refine (hc.ctxRest t hack hrest).resolve_right fun hk => hk ?_
    rw [hidle]
    rfl

/-- A session that splits a bucket stays with its chunk, and writes buckets only. -/
theorem Inv.gotoSplit {l : Option Phases.Loop} {pc : SplitPc} {s₁ : State} {chunk idx i : ℕ} {b : HashIndex.BucketRef}
    {dst : Bool → Cursor} (h : Inv v s) (hl : s.phases.pc t=.split l) (hpc : s.split t=.entry chunk idx b i dst)
    (hf : TableFrame s s₁) (hstore : s₁.store=s.store) (hheld : s₁.held=s.held) (hchunk : chunkOf (some pc)=some chunk)
    (hended : ended (some pc)=false) : Inv v (s₁.gotoSplit t pc) := by
  refine ⟨?_,?_,⟨?_,?_,?_⟩,h.table.frame hf.phases_eq hf.version_eq
    (congrArg GrowState.newVersion hf.grow_eq) hf.initialized_eq⟩
  · change GrowPhases.Inv v s₁.phases (s₁.version=s₁.grow.newVersion)
    rw [hf.phases_eq,hf.version_eq,hf.grow_eq]
    exact h.phases
  · have hsplit : (s₁.gotoSplit t pc).split=update s.split t pc := by
      change update s₁.split t pc=_
      rw [hf.split_eq]
    refine h.split.goto hl hf.phases_eq hsplit hf.grow_eq hf.done_eq ?_ ?_ ?_ ?_
    · rw [hpc]
      exact hchunk
    · rw [hpc]
      exact fun _ => rfl
    · rw [hended]
      nofun
    · rintro rfl
      cases hended
  · change ∀ u, inOperation (s₁.store.pc u)=true → s₁.phases.isProtected u=true
    rw [hstore,hf.phases_eq]
    exact h.op.session
  · change ∀ u, inOperation (s₁.store.pc u)=true → s₁.held u=(s₁.version, (s₁.table s₁.version).generation)
    rw [hstore,hheld,hf.version_eq,hf.generation_eq]
    exact h.op.held
  · change ∀ u, inOperation (s₁.store.pc u)=true → s₁.phases.acked u .growPrepare=true → s₁.phases.systemState.phase=.rest
    rw [hstore,hf.phases_eq]
    exact h.op.outside

/-- The invariant is kept by the steps of the split. -/
theorem Inv.splitStep {l : Option Phases.Loop} (h : Inv v s) (hl : s.phases.pc t=.split l) :
    Inv v (splitStep s t (s.split t)) := by
  have hsplitOf := splitOf_of_split hl
  cases hpc : s.split t with
  | load =>
    refine ⟨h.phases,h.split.goto hl rfl rfl rfl rfl ?_ nofun nofun nofun,
      ⟨h.op.session,h.op.held,h.op.outside⟩,⟨h.table.new,h.table.current⟩⟩
    rw [hpc]
    rfl
  | fetch =>
    refine ⟨h.phases,?_,⟨h.op.session,h.op.held,h.op.outside⟩,⟨h.table.new,h.table.current⟩⟩
    by_cases hlt : s.grow.nextChunk<s.grow.numChunks
    · refine h.split.take hl rfl rfl hpc hlt rfl rfl ?_
      rw [if_pos hlt]
      unfold bucketFrom
      split_ifs <;> rfl
    · exact h.split.take_none hl rfl rfl hpc (if_neg hlt) (not_lt.mp hlt) rfl rfl
  | entry chunk idx b i dst =>
    have hrefl : TableFrame s s := ⟨rfl,rfl,rfl,rfl,rfl,fun _ => rfl,fun _ => rfl,fun _ => rfl⟩
    simp only [Grow.splitStep]
    split_ifs
    · exact h.gotoSplit hl hpc hrefl.setIndex rfl rfl rfl rfl
    · cases s.old.index.next b with
      | some c => exact h.gotoSplit hl hpc hrefl rfl rfl rfl rfl
      | none =>
        have hb : chunkOf (some (bucketFrom s chunk (idx+1)))=some chunk ∧
            ended (some (bucketFrom s chunk (idx+1)))=false := by
          unfold bucketFrom
          split_ifs <;> exact ⟨rfl,rfl⟩
        exact h.gotoSplit hl hpc hrefl rfl rfl hb.1 hb.2
  | finish chunk =>
    exact ⟨h.phases,h.split.finish hl rfl rfl hpc rfl rfl rfl,
      ⟨h.op.session,h.op.held,h.op.outside⟩,⟨h.table.new,h.table.current⟩⟩
  | free =>
    have hw := h.word_of_working (t := t) (by rw [hsplitOf,hpc]; rfl)
    have hne : s.grow.newVersion ≠ s.grow.oldVersion := by
      unfold GrowState.newVersion
      cases s.grow.oldVersion <;> nofun
    refine ⟨h.phases,h.split.goto hl rfl rfl rfl rfl ?_ nofun ?_ nofun,
      ⟨h.op.session,?_,h.op.outside⟩,⟨?_,fun hw' => absurd hw hw'⟩⟩
    · rw [hpc]
      rfl
    · intro _
      exact h.split.none_left t (.inl (.inl (by rw [hsplitOf,hpc]; rfl)))
    · intro u hu
      exact absurd ((h.no_operation hw).symm.trans hu) nofun
    · change (update s.table s.grow.oldVersion _ s.grow.newVersion).isInitialized=true
      rw [update_of_ne hne]
      exact h.table.new
  | done => exact h

/-- What a call leaves alone, and where it starts. -/
theorem startCall_cases {act : Phases.Act} (hidle : p.pc t=.idle) (hsession : act ≠ .startSession)
    (hs : startCall p t act=some p') : p'.systemState=p.systemState ∧ p'.acked=p.acked ∧ acksSplit (p'.pc t)=false ∧
      (act=.heavyEnter ∨ apart (p'.pc t)=true) ∧ ((act=.stopSession ∧ p'=p.protect t false) ∨ p'.isProtected=p.isProtected)
    := by
  cases act with
  | startSession => exact absurd rfl hsession
  | step => cases hs
  | stopSession =>
    simp only [Phases.startCall] at hs
    split_ifs at hs
    cases hs
    refine ⟨rfl,rfl,?_,.inr ?_,.inl ⟨rfl,rfl⟩⟩
    · change acksSplit (p.pc t)=false
      rw [hidle]
      rfl
    · change apart (p.pc t)=true
      rw [hidle]
      rfl
  | heavyEnter =>
    simp only [Phases.startCall] at hs
    split_ifs at hs
    cases hs
    refine ⟨rfl,rfl,?_,.inl rfl,.inr rfl⟩
    rw [goto_self]
    cases (p.ctx t).phase <;> rfl
  | _ =>
    simp only [Phases.startCall] at hs
    split_ifs at hs
    cases hs
    refine ⟨rfl,rfl,?_,.inr ?_,.inr rfl⟩ <;> rw [goto_self] <;> rfl

/-- A session that has called a function of the phase protocol is at the start of
the loop over the chunks, or not in it. -/
theorem splitOf_startCall {act : Phases.Act} {split : ℕ → SplitPc} (hidle : s.phases.pc t=.idle)
    (hsession : act ≠ .startSession) (hload : act=.heavyEnter → split t=.load)
    (hs : startCall s.phases t act=some p') : splitOf { s with phases := p', split := split } t=none ∨
      splitOf { s with phases := p', split := split } t=some .load := by
  obtain ⟨-,-,-,hsplits,-⟩ := startCall_cases hidle hsession hs
  unfold splitOf
  dsimp only
  rcases hsplits with hact | hap
  · rw [hload hact]
    split
    · exact .inr rfl
    · exact .inl rfl
  · refine .inl ?_
    split
    · next hl =>
      rw [hl] at hap
      cases hap
    · rfl

/-- A session calls a function of the phase protocol between operations, or in
`BlockAllocate`; `HeavyEnter` may enter the split. -/
theorem Inv.startCall {act : Phases.Act} {split : ℕ → SplitPc} (h : Inv v s)
    (hidle : s.phases.pc t=.idle) (hsession : act ≠ .startSession)
    (hstart : ∀ a, act=.start a → a=.growIndex)
    (hstop : act=.stopSession → inOperation (s.store.pc t)=false)
    (hsplit : ∀ u, u ≠ t → split u=s.split u) (hload : act=.heavyEnter → split t=.load)
    (hs : startCall s.phases t act=some p') : Inv v { s with phases := p', split := split } := by
  obtain ⟨hword,hacked,hacks,hsplits,hprot⟩ := startCall_cases hidle hsession hs
  have hother : ∀ {u}, u ≠ t → p'.pc u=s.phases.pc u := PhaseInvariant.startCall_other hs
  have hold : splitOf s t=none := by
    unfold splitOf
    rw [hidle]
  have hnew := splitOf_startCall hidle hsession hload hs
  refine ⟨h.phases.startCall hidle hsession hstart hs,h.split.keep (t := t) rfl rfl ?_ ?_ ?_ ?_ ?_ ?_,
    ⟨?_,h.op.held,?_⟩,⟨h.table.new,?_⟩⟩
  · exact fun u hu => ⟨splitOf_other (hother hu) (hsplit u hu),hother hu⟩
  · rcases hnew with hn | hn
    · rw [hold,hn]
    · rw [hold,hn]
      rfl
  · rcases hnew with hn | hn <;> rw [hn] <;> nofun
  · rintro (hn | ha)
    · rcases hnew with hn' | hn' <;> rw [hn'] at hn <;> cases hn
    · exact absurd (hacks.symm.trans ha) nofun
  · rcases hnew with hn | hn <;> rw [hn] <;> nofun
  · intro u hu
    rw [show p'.acked=s.phases.acked from hacked] at hu
    exact .inl hu
  · intro u hu
    have hold := h.op.session u hu
    rcases hprot with ⟨hact,rfl⟩ | hprot
    · have hut : u ≠ t := by
        rintro rfl
        exact absurd ((hstop hact).symm.trans hu) nofun
      exact (update_of_ne hut _ _).trans hold
    · change p'.isProtected u=true
      rw [hprot]
      exact hold
  · intro u hu hack
    rw [show p'.acked=s.phases.acked from hacked] at hack
    change p'.systemState.phase=.rest
    rw [hword]
    exact h.op.outside u hu hack
  · intro hw
    rw [show p'.systemState=s.phases.systemState from hword] at hw
    exact h.table.current hw

/-- What a step of a session is: a call of the phase protocol, the begin of an
operation, or a step of what the session is in. -/
inductive ThreadStep (s : State) (t : ℕ) : Act → State → Prop
  | call {act : Act} (a : Phases.Act) (p' : Phases.State) (idle : s.phases.pc t = .idle)
      (session : a ≠ .startSession) (heavy : a ≠ .heavyEnter)
      (start : ∀ b, a = .start b → b = .growIndex)
      (stop : a = .stopSession → inOperation (s.store.pc t) = false)
      (hcall : startCall s.phases t a = some p') : ThreadStep s t act { s with phases := p' }
  | heavyEnter (p' : Phases.State) (idle : s.phases.pc t = .idle)
      (op : inOperation (s.store.pc t) = false)
      (hcall : startCall s.phases t .heavyEnter = some p') :
      ThreadStep s t .heavyEnter ({ s with phases := p' }.gotoSplit t .load)
  | begin {act : Act} {s' : State} (a : InternalInsert.Act)
      (op : (∃ ctx, a = .internalInsert ctx) ∨ ∃ hash, a = .findEntry hash)
      (hcall : begin s t a = some s') : ThreadStep s t act s'
  | op (ro : ℕ) {s' : State} (idle : s.phases.pc t = .idle) (hcall : opStep s t ro = some s') :
      ThreadStep s t (.step ro) s'
  | split (ro : ℕ) (l : Option Phases.Loop) (hl : s.phases.pc t = .split l) :
      ThreadStep s t (.step ro) (splitStep s t (s.split t))
  | phase (ro : ℕ) {s' : State} (hend : ∀ l, s.phases.pc t = .split l → s.split t = .done)
      (hcall : phaseStep s t = some s') : ThreadStep s t (.step ro) s'

theorem callPhases_eq_some {a : Phases.Act} (hs : callPhases s t a=some s') :
    s.phases.pc t=.idle ∧ ∃ p', startCall s.phases t a=some p' ∧ s'={ s with phases := p' } := by
  unfold callPhases at hs
  obtain ⟨hidle,hs⟩ := ite_none_right_eq_some.mp hs
  obtain ⟨p',hp',rfl⟩ := map_eq_some_iff.mp hs
  exact ⟨hidle,p',hp',rfl⟩

theorem threadStep_cases {act : Act} (hs : threadStep s t act=some s') : ThreadStep s t act s' := by
  cases act with
  | stopSession =>
    obtain ⟨hop,hs⟩ := ite_none_left_eq_some.mp hs
    obtain ⟨hidle,p',hp',rfl⟩ := callPhases_eq_some hs
    exact .call .stopSession p' hidle nofun nofun nofun (fun _ => by simpa using hop) hp'
  | refresh =>
    obtain ⟨-,hs⟩ := ite_none_right_eq_some.mp hs
    obtain ⟨hidle,p',hp',rfl⟩ := callPhases_eq_some hs
    exact .call .refresh p' hidle nofun nofun nofun nofun hp'
  | heavyEnter =>
    obtain ⟨hop,hs⟩ := ite_none_left_eq_some.mp hs
    obtain ⟨s₁,hs₁,rfl⟩ := map_eq_some_iff.mp hs
    obtain ⟨hidle,p',hp',rfl⟩ := callPhases_eq_some hs₁
    exact .heavyEnter p' hidle (by simpa using hop) hp'
  | growIndex =>
    obtain ⟨-,hs⟩ := ite_none_left_eq_some.mp hs
    obtain ⟨hidle,p',hp',rfl⟩ := callPhases_eq_some hs
    refine .call (.start .growIndex) p' hidle nofun nofun ?_ nofun hp'
    intro b hb
    cases hb
    rfl
  | internalInsert ctx => exact .begin _ (.inl ⟨ctx,rfl⟩) hs
  | internalScan hash => exact .begin _ (.inr ⟨hash,rfl⟩) hs
  | step ro =>
    simp only [threadStep] at hs
    cases hp : s.phases.pc t with
    | idle =>
      rw [hp] at hs
      exact .op ro hp hs
    | split l =>
      rw [hp] at hs
      cases hpc : s.split t with
      | done =>
        rw [hpc] at hs
        exact .phase ro (fun _ _ => hpc) hs
      | _ =>
        rw [hpc] at hs
        cases hs
        rw [←hpc]
        exact .split ro l hp
    | _ =>
      rw [hp] at hs
      refine .phase ro ?_ hs
      intro l hl
      rw [hp] at hl
      cases hl

/-- A growth starts only when no session takes part in an earlier one, and every
session has returned to the rest phase. -/
def startsQuietly : Guard State Label := fun s label => ∀ t ro a version,
  label = .thread t (.step ro) → s.phases.pc t = .startSwap a version →
    s.phases.systemState = ⟨.none, .rest, version⟩ →
    ∀ u, PhaseBarrier.engaged (s.phases.pc u) = false ∧ (s.phases.ctx u).phase = .rest

/-- No session acknowledges the preparation inside an operation. -/
def preparesOutside : Guard State Label := fun s label => ∀ t ro w r,
  label = .thread t (.step ro) → s.phases.pc t = .ack w r → w.phase = .growPrepare →
    inOperation (s.store.pc t) = false

/-- The invariant is kept by the steps of a session. -/
theorem Inv.threadStep {act : Act} (h : Inv v s) (hquiet : startsQuietly s (.thread t act))
    (hprep : preparesOutside s (.thread t act)) (hs : threadStep s t act=some s') : Inv v s' := by
  cases threadStep_cases hs with
  | call a p' idle session heavy start stop hcall =>
    exact h.startCall idle session start stop (fun _ _ => rfl) (fun hact => absurd hact heavy) hcall
  | heavyEnter p' idle op hcall =>
    have hgoto : ∀ u, u ≠ t → update s.split t .load u=s.split u := fun u hu => update_of_ne hu _ _
    refine h.startCall idle ?_ ?_ ?_ hgoto (fun _ => update_self _ _ _) hcall <;> nofun
  | begin a op hcall => exact h.begin hcall
  | op ro idle hcall => exact h.opStep hcall
  | split ro l hl => exact h.splitStep hl
  | phase ro hend hcall =>
    refine h.phaseStep ?_ ?_ hend hcall
    · intro a version hp hw u
      obtain ⟨hen,hrest⟩ := hquiet t ro a version rfl hp hw u
      refine ⟨GrowPhases.kind_eq_out.mpr hen,?_⟩
      rcases h.phases.control.ctx u with hc | hc | hc
      · exact hc
      · rw [hc] at hrest
        cases hrest
      · rw [hc] at hrest
        cases hrest
    · exact fun w r hp hw => hprep t ro w r rfl hp hw

theorem Inv.step {label : Label} (h : Inv v s) (hquiet : startsQuietly s label)
    (hprep : preparesOutside s label) (hs : step s label=some s') : Inv v s' := by
  cases label with
  | thread t act =>
    obtain ⟨-,hs⟩ := ite_none_right_eq_some.mp hs
    exact h.threadStep hquiet hprep hs
  | shiftHead address =>
    obtain ⟨-,rfl⟩ := of_guard hs
    exact ⟨h.phases,⟨h.split.chunks,h.split.working,h.split.none_left,h.split.freeing⟩,
      ⟨h.op.session,h.op.held,h.op.outside⟩,⟨h.table.new,h.table.current⟩⟩

theorem Inv.of_initial (h : Initial s) : ∃ v, Inv v s := by
  obtain ⟨⟨v,hword,hctx⟩,hidle,hstarted,hacked,htracked,hgrow,hdone,⟨k,g,htable⟩,hstore, -⟩ := h
  have hsplit : ∀ u, splitOf s u=none := by
    intro u
    unfold splitOf
    rw [hidle u]
  have hop : ∀ u, inOperation (s.store.pc u)=false := by
    intro u
    rw [hstore]
    rfl
  have hno : ∀ u, inOperation (s.store.pc u) ≠ true := fun u hu => absurd ((hop u).symm.trans hu) nofun
  refine ⟨v,.initial hword hctx hidle hstarted hacked htracked,⟨?_,?_,?_,?_⟩,
    ⟨fun u hu => absurd hu (hno u),fun u hu => absurd hu (hno u),fun u hu => absurd hu (hno u)⟩,
    ⟨?_,?_⟩⟩
  · rw [hgrow]
    refine ⟨?_,?_,fun c hc => absurd hc (Nat.not_lt_zero c),?_,?_⟩
    · intro t c ht
      rw [hsplit t] at ht
      cases ht
    · intro t u c ht
      rw [hsplit t] at ht
      cases ht
    · intro c hc
      exact absurd ((hdone c).symm.trans hc) nofun
    · rfl
  · intro u hu
    rw [hsplit u] at hu
    cases hu
  · intro u _
    rw [hgrow]
  · intro u hu
    rw [hsplit u] at hu
    cases hu
  · unfold State.new
    rw [hgrow,show GrowState.newVersion ⟨!s.version,0,0,0⟩=s.version from Bool.not_not _]
    change s.current.isInitialized=true
    rw [htable]
  · intro _
    rw [htable]

end

end FishStore.GrowInvariant
