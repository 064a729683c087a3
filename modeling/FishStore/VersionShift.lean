import FishStore.PendingIo
import FishStore.PhaseVersions
import FishStore.Recovery

/-!
# Versions never go back, unless the store is recovered

Inserted records are stamped with the version of the session's context. An operation of a
session in the prepare phase that meets a record with a later version calls `PivotAndRetry`:
it refreshes, and asserts that the version of its thread has gone up by one since. `Recover`
is one step here. It clears the metadata of the checkpoint before it takes the version from
them, so the version that follows is 0.

As history a record has the session that stamped it and the version that this session had.
-/

namespace FishStore.VersionShift

open Runs Recovery List Option Naming Phases PhaseWalk PhaseRounds PhaseAcks PhaseVersions
open PhaseInvariant
open PendingIo (swaps)
open LightEpoch (kMaxNumThreads)
open Function (update update_of_ne update_self)

/-- What is used here of a record in the log. -/
structure Record where
  /-- `checkpoint_version`, of 13 bits. -/
  checkpointVersion : ℕ
  invalid : Bool
  /-- History: the session that stamped it. -/
  session : ℕ
  /-- History: the version of that session. -/
  version : UInt32
  deriving DecidableEq

/-- A record that the session stamps. -/
def Record.stamped (session : ℕ) (version : UInt32) (invalid : Bool) : Record :=
  ⟨version.toUInt16.toNat % 2 ^ 13, invalid, session, version⟩

/-- The store and its sessions, each with two contexts. -/
structure State (F : Type) where
  /-- The shared words, and the current context of each session. -/
  base : Phases.State
  /-- Which of its two contexts is the current one. -/
  current : ℕ → Bool
  /-- The version of the previous context. -/
  prevVersion : ℕ → UInt32
  /-- The context that `PivotAndRetry` was called with, until it returns. -/
  pivot : ℕ → Option Bool
  /-- The rest of the store. -/
  store : Store F (List Record)

section

variable {F : Type}

/-- The store, with the word that the sessions share. -/
def State.full (s : State F) : Store F (List Record) := { s.store with systemState := s.base.systemState }

/-- `ctx.version` for one of the contexts of the session. -/
def State.ctxVersion (s : State F) (t : ℕ) (slot : Bool) : UInt32 :=
  if s.current t = slot then (s.base.ctx t).version else s.prevVersion t

/-- The session is between operations. -/
def State.Ready (s : State F) (t : ℕ) : Prop :=
  t < kMaxNumThreads ∧ s.base.isProtected t = true ∧ s.base.pc t = .idle ∧ s.pivot t = none

instance (s : State F) (t : ℕ) : Decidable (s.Ready t) := inferInstanceAs (Decidable (_ ∧ _ ∧ _ ∧ _))

/-- `latest_record_version` of the records that an operation has seen. -/
def latestRecordVersion (records : List Record) : ℕ :=
  records.foldl (fun v r => max v r.checkpointVersion) 0

/-- The records at some places of the log. -/
def State.seen (s : State F) (places : List ℕ) : List Record := places.filterMap fun i => s.store.hlog[i]?

/-- The next transition of the loop of `HandleSpecialPhases` swaps the contexts. -/
def swapsAt : Pc → Bool
  | .iterate final prev =>
    (if prev = final then some final else prev.getNextState).any fun cur => swaps cur prev
  | _ => false

/-- The contexts of the session are swapped, if this step does so. -/
def State.swapped (s : State F) (t : ℕ) : State F :=
  if swapsAt (s.base.pc t) then
    { s with
      current := update s.current t (!s.current t)
      prevVersion := update s.prevVersion t (s.base.ctx t).version }
  else s

/-- A step of an execution. -/
inductive Label
  /-- A session calls a function of the phase protocol, or goes on in its call. -/
  | session (l : Phases.Label)
  /-- A session inserts a record. -/
  | insert (t : ℕ) (invalid : Bool)
  /-- An operation detects a CPR shift and calls `PivotAndRetry`. -/
  | detect (t : ℕ) (places : List ℕ)
  /-- `PivotAndRetry` has refreshed, and retries. -/
  | retry (t : ℕ)
  /-- `Recover`. -/
  | recover (files : Files) (log : LogSteps (List Record)) (indexToken hybridLogToken : Guid)

/-- One step of an execution. -/
def step (p : Platform F) (s : State F) : Label → Option (State F)
  | .session l =>
    if (s.pivot l.thread).isSome = true ∧ s.base.pc l.thread = .idle then none
    else (Phases.step s.base l).map fun base => { s.swapped l.thread with base }
  | .insert t invalid =>
    if s.Ready t then
      some { s with
        store := { s.store with hlog := s.store.hlog ++ [.stamped t (s.base.ctx t).version invalid] } }
    else none
  | .detect t places =>
    if s.Ready t ∧ (s.base.ctx t).phase = .prepare ∧
        (s.base.ctx t).version.toNat < latestRecordVersion (s.seen places) then
      some { s with
        base := s.base.goto t .refresh
        pivot := update s.pivot t (some (s.current t)) }
    else none
  | .retry t =>
    if (s.pivot t).isSome = true ∧ s.base.pc t = .idle then
      some { s with pivot := update s.pivot t none }
    else none
  | .recover files log indexToken hybridLogToken =>
    (recover p log files s.full indexToken hybridLogToken).map fun x =>
      { s with base := { s.base with systemState := x.2.systemState }, store := x.2 }

/-- A new store, without sessions and records. -/
def Fresh (s : State F) : Prop :=
  Phases.Quiescent s.base ∧ (∀ t, s.base.isProtected t = false) ∧ (∀ t, s.base.ctx t = ⟨.invalid, 0⟩) ∧
    (∀ t, s.pivot t = none) ∧ s.store.hlog = []

/-- The executions of the store. -/
def machine (p : Platform F) : Machine (State F) Label := ⟨Fresh, step p⟩

/-- Actions start when the sessions are back in the rest phase, and publish their first
phase when nobody is joining. The version does not wrap. The others do not wait for thread
0, which does not detect a shift. `Recover` is refused, because an action is in progress. -/
def steady : Guard (State F) Label := fun s label =>
  match label with
  | .session l => joinsBetween s.base l ∧ s.base.systemState.version ≠ maxVersion
  | .detect t _ => t ≠ 0
  | .recover _ _ _ _ => s.base.systemState ≠ ⟨.none, .rest, s.base.systemState.version⟩
  | _ => True

/-- `PivotAndRetry` has not come to the next phase yet. -/
structure Before (s : State F) (t : ℕ) (slot : Bool) : Prop where
  current : s.current t = slot
  phase : (s.base.ctx t).phase = .prepare
  behind : (s.base.ctx t).version.toNat < s.base.systemState.version.toNat

/-- The contexts were swapped in the last iteration of the loop. -/
structure Through (s : State F) (t : ℕ) (slot : Bool) (l : Loop) : Prop where
  current : s.current t ≠ slot
  last : l.cur = l.final
  version : l.cur.version = s.prevVersion t + 1

/-- Where the caller of `FinishThreadPhase` stands. -/
def RetPivot (s : State F) (t : ℕ) (slot : Bool) : Return → Prop
  | .loop l => Through s t slot l
  | .split _ => False

/-- What a thread in `PivotAndRetry` has established. -/
def PcPivot (s : State F) (t : ℕ) (slot : Bool) : Pc → Prop
  | .refresh => Before s t slot
  | .refreshLoad => Before s t slot
  | .handleLoad => Before s t slot
  | .iterate final prev => s.current t = slot ∧ prev.phase = .prepare ∧ final.phase = .inProgress
  | .leave l => Through s t slot l
  | .ack _ r => RetPivot s t slot r
  | .scanPhase _ _ r => RetPivot s t slot r
  | .scanEpoch _ _ _ r => RetPivot s t slot r
  | .move _ _ r => RetPivot s t slot r
  | .settle _ r => RetPivot s t slot r
  | .idle => s.current t ≠ slot ∧ (s.base.ctx t).version = s.prevVersion t + 1
  | _ => False

/-- What is known of a thread in `PivotAndRetry`. -/
structure PivotOk (s : State F) (t : ℕ) (slot : Bool) : Prop where
  tracked : Tracked t
  on : s.base.isProtected t = true
  pc : PcPivot s t slot (s.base.pc t)

/-- The stamp is not beyond the session that made it. -/
structure StampOk (s : State F) (r : Record) : Prop where
  stamp : r.checkpointVersion ≤ r.version.toNat
  session : r.version.toNat ≤ (s.base.ctx r.session).version.toNat

/-- The invariant of the versions. -/
structure Inv (s : State F) : Prop where
  rounds : Rounds s.base
  acks : AckInv s.base
  versions : VersionInv s.base
  stamps : ∀ r ∈ s.store.hlog, StampOk s r
  pivots : ∀ t slot, s.pivot t = some slot → PivotOk s t slot

variable {p : Platform F} {s s' : State F} {t u : ℕ} {slot : Bool} {label : Label} {pc : Pc}

theorem stamped_le (session : ℕ) (version : UInt32) (invalid : Bool) :
    (Record.stamped session version invalid).checkpointVersion≤version.toNat := by
  change version.toUInt16.toNat%2^13≤_
  rw [UInt32.toNat_toUInt16]
  exact (Nat.mod_le _ _).trans (Nat.mod_le _ _)

/-- The latest version is that of a record, unless it is 0. -/
theorem exists_latest {records : List Record} {n : ℕ} (h : n<latestRecordVersion records) :
    ∃ r ∈ records, n<r.checkpointVersion := by
  by_contra hnone
  refine absurd h (Nat.not_lt.mpr ?_)
  have hfold : ∀ (l : List Record) (m : ℕ), (∀ r ∈ l, r.checkpointVersion≤n) → m≤n →
      l.foldl (fun v r => max v r.checkpointVersion) m≤n := by
    intro l
    induction l with
    | nil => exact fun m _ hm => hm
    | cons r l ih =>
      intro m hl hm
      refine ih _ (fun x hx => hl x (mem_cons_of_mem _ hx)) (max_le hm (hl r mem_cons_self))
  refine hfold records 0 (fun r hr => ?_) (Nat.zero_le n)
  by_contra hgt
  exact hnone ⟨r,hr,Nat.not_le.mp hgt⟩

theorem mem_of_seen {places : List ℕ} {r : Record} (h : r ∈ s.seen places) : r ∈ s.store.hlog := by
  obtain ⟨i,-,hi⟩ := mem_filterMap.mp h
  exact mem_of_getElem? hi

theorem StampOk.grows {r : Record} (h : StampOk s r) (hg : Grows s.base s'.base) : StampOk s' r :=
  ⟨h.stamp,h.session.trans (hg.ctxs r.session)⟩

/-- What a thread has established stays when others move. -/
theorem PivotOk.other (h : PivotOk s t slot) (hpc : s'.base.pc t=s.base.pc t)
    (hctx : s'.base.ctx t=s.base.ctx t) (hprot : s'.base.isProtected t=s.base.isProtected t)
    (hcur : s'.current t=s.current t) (hprev : s'.prevVersion t=s.prevVersion t)
    (hsys : s.base.systemState.version.toNat ≤ s'.base.systemState.version.toNat) : PivotOk s' t slot := by
  have hbefore : Before s t slot → Before s' t slot := by
    rintro ⟨hc,hphase,hlt⟩
    refine ⟨hcur.trans hc,?_,?_⟩
    · rw [hctx]
      exact hphase
    · rw [hctx]
      exact hlt.trans_le hsys
  have hthrough : ∀ l, Through s t slot l → Through s' t slot l := by
    rintro l ⟨hc,hlast,hver⟩
    refine ⟨?_,hlast,?_⟩
    · rw [hcur]
      exact hc
    · rw [hprev]
      exact hver
  have hret : ∀ r, RetPivot s t slot r → RetPivot s' t slot r := by
    intro r hr
    cases r with
    | loop l => exact hthrough l hr
    | split l => exact hr
  refine ⟨h.tracked,hprot.trans h.on,?_⟩
  have hok := h.pc
  rw [hpc]
  cases hp : s.base.pc t <;> rw [hp] at hok <;> first
    | exact hbefore hok
    | exact hthrough _ hok
    | exact hret _ hok
    | exact hok
    | (unfold PcPivot at hok ⊢
       rw [hcur]
       exact hok)
    | (unfold PcPivot at hok ⊢
       rw [hcur,hctx,hprev]
       exact hok)

theorem swapped_of_ne (hu : u ≠ t) : (s.swapped t).current u=s.current u ∧ (s.swapped t).prevVersion u=s.prevVersion u := by
  unfold State.swapped
  split_ifs
  · exact ⟨update_of_ne hu _ _,update_of_ne hu _ _⟩
  · exact ⟨rfl,rfl⟩

theorem swapped_pivot (s : State F) (t : ℕ) : (s.swapped t).pivot=s.pivot := by
  unfold State.swapped
  split_ifs <;> rfl

theorem swapped_store (s : State F) (t : ℕ) : (s.swapped t).store=s.store := by
  unfold State.swapped
  split_ifs <;> rfl

theorem swapped_of_not (h : swapsAt (s.base.pc t)=false) : s.swapped t=s := by
  unfold State.swapped
  rw [h]
  rfl

theorem retPivot_afterMove {r : Return} (h : RetPivot s t slot r) : PcPivot s t slot (Phases.afterMove r) := by
  cases r with
  | loop l => exact h
  | split l => exact h.elim

theorem retPivot_afterRefusal {r : Return} (h : RetPivot s t slot r) : PcPivot s t slot (Phases.afterRefusal r) := by
  cases r with
  | loop l => exact h
  | split l => exact h.elim

/-- What is known in the loop does not depend on the shared words. -/
theorem RetPivot.withBase {base : Phases.State} {r : Return} (h : RetPivot s t slot r) :
    RetPivot { s with base } t slot r := by
  cases r with
  | loop l => exact ⟨h.current,h.last,h.version⟩
  | split l => exact h

/-- The transition from the prepare phase to the next one. -/
theorem prepare_next {o final prev cur : SystemState} (hprev : OnWalk o prev) (hfinal : OnWalk o final)
    (hp : prev.phase=.prepare) (hf : final.phase=.inProgress)
    (hcur : (if prev=final then some final else prev.getNextState)=some cur) :
    cur=final ∧ cur.version=prev.version+1 ∧ swaps cur prev=true ∧
      ∀ has ready c, (Phases.phaseWork cur prev has ready c).1=.finish := by
  have hne : prev ≠ final := by
    rintro rfl
    rw [hp] at hf
    cases hf
  rw [if_neg hne] at hcur
  have hmem := hprev.phase
  have hact := hprev.action
  obtain ⟨a,ph,v⟩ := prev
  dsimp only at hp hact hmem
  subst hp
  have hnext : OnWalk o cur := by
    refine (hprev.next hcur ?_).1
    cases a <;> cases hcur <;> rintro ⟨⟩
  have heq : cur=final := by
    refine hnext.eq_of_phase hfinal ?_
    rw [hf]
    cases a <;> cases hcur <;> rfl
  refine ⟨heq,?_,?_,?_⟩
  · cases a <;> cases hcur <;> rfl
  · cases a <;> cases hcur <;> rfl
  · intro has ready c
    cases a <;> cases hcur <;> rfl

/-- The version of the system is ahead of a thread that is to load it, so the system has come to the next phase. -/
theorem pivot_inProgress (h : Inv s) (hok : PivotOk s t slot) (hp : s.base.pc t=.handleLoad)
    (hpc : Before s t slot) : s.base.systemState.phase=.inProgress := by
  have hin : inLoop (s.base.pc t)=false := by
    rw [hp]
    rfl
  rcases PhaseVersions.prepare_holds h.rounds h.acks h.versions hok.tracked hok.on hin hpc.phase with heq | heq
  · have hlt := hpc.behind
    rw [heq] at hlt
    exact absurd hlt (lt_irrefl _)
  · rw [heq]

/-- A thread in `PivotAndRetry` goes on. -/
theorem PivotOk.own (h : Inv s) (hok : PivotOk s t slot) {ready : Bool} {base : Phases.State}
    (hs : Phases.callStep s.base t ready (s.base.pc t)=some base) :
    PivotOk { s.swapped t with base } t slot := by
  have hpc := hok.pc
  have hwalk := h.rounds.walk.pcs t
  -- Only the loop of `HandleSpecialPhases` swaps the contexts.
  have hput : ∀ (b : Phases.State) (pc : Phases.Pc), swapsAt (s.base.pc t)=false → b.isProtected t=true →
      PcPivot { s with base := b.goto t pc } t slot pc →
      PivotOk { s.swapped t with base := b.goto t pc } t slot := by
    intro b pc hnot hon hpivot
    rw [swapped_of_not hnot]
    refine ⟨hok.tracked,hon,?_⟩
    change PcPivot _ t slot ((b.goto t pc).pc t)
    rw [goto_self]
    exact hpivot
  generalize hp : s.base.pc t=p at hs hpc hwalk hput
  cases Phases.moves_of_callStep hs with
  | refresh => exact hput _ _ rfl (update_self _ _ _) ⟨hpc.current,hpc.phase,hpc.behind⟩
  | resting hrest =>
    rw [hpc.phase] at hrest
    cases hrest.1
  | special => exact hput _ _ rfl hok.on ⟨hpc.current,hpc.phase,hpc.behind⟩
  | reload hrest =>
    rw [pivot_inProgress h hok hp hpc] at hrest
    cases hrest
  | enter => exact hput _ _ rfl hok.on ⟨hpc.current,hpc.phase,pivot_inProgress h hok hp hpc⟩
  | iterate final prev cur hcur =>
    obtain ⟨hcurrent,hprep,hfin⟩ := hpc
    obtain ⟨hlast,hver,hswap,hwork⟩ := prepare_next hwalk.1.cur hwalk.1.final hprep hfin hcur
    have hat : swapsAt (s.base.pc t)=true := by
      rw [hp]
      change ((if prev=final then some final else prev.getNextState).any fun cur => swaps cur prev)=true
      rw [hcur]
      exact hswap
    have hswapped : s.swapped t={ s with
        current := update s.current t (!s.current t)
        prevVersion := update s.prevVersion t (s.base.ctx t).version } := by
      unfold State.swapped
      rw [hat]
      rfl
    rw [hswapped]
    refine ⟨hok.tracked,hok.on,?_⟩
    change PcPivot _ t slot ((Phases.State.goto _ t _).pc t)
    rw [goto_self,hwork]
    refine ⟨?_,hlast,?_⟩
    · change update s.current t (!s.current t) t ≠ slot
      rw [update_self,hcurrent]
      exact Bool.not_ne_self slot
    · change cur.version=update s.prevVersion t (s.base.ctx t).version t+1
      rw [update_self,hwalk.2]
      exact hver
  | leave l =>
    refine hput _ _ rfl hok.on ?_
    rw [if_pos hpc.last]
    refine ⟨hpc.current,?_⟩
    change ((s.base.setCtx t _).ctx t).version=_
    rw [show (s.base.setCtx t ⟨l.cur.phase,l.cur.version⟩).ctx t=_ from update_self _ _ _]
    exact hpc.version
  | ack | scanPhase | move => exact hput _ _ rfl hok.on (RetPivot.withBase hpc)
  | refuse => exact hput _ _ rfl hok.on (retPivot_afterRefusal (RetPivot.withBase hpc))
  | scanOn =>
    refine hput _ _ rfl hok.on ?_
    unfold Phases.scanFrom
    split_ifs <;> exact RetPivot.withBase hpc
  | overtaken | close | settle => exact hput _ _ rfl hok.on (retPivot_afterMove (RetPivot.withBase hpc))
  | _ => exact hpc.elim

/-- The steps of the phase protocol keep the invariant. -/
theorem Inv.session (h : Inv s) {l : Phases.Label} {base : Phases.State}
    (hguard : joinsBetween s.base l ∧ s.base.systemState.version ≠ maxVersion)
    (hbusy : ¬((s.pivot l.thread).isSome=true ∧ s.base.pc l.thread=.idle))
    (hs : Phases.step s.base l=some base) :
    Inv { s.swapped l.thread with base } ∧ Grows s.base base := by
  obtain ⟨hversions,hgrows⟩ := h.versions.step h.rounds hguard.2 hs
  refine ⟨⟨h.rounds.step hguard.1 hs,h.acks.step h.rounds hguard.1 hs,hversions,?_,?_⟩,hgrows⟩
  · intro r hr
    change r ∈ (s.swapped l.thread).store.hlog at hr
    rw [swapped_store] at hr
    exact (h.stamps r hr).grows hgrows
  · intro t slot hpivot
    change (s.swapped l.thread).pivot t=some slot at hpivot
    rw [swapped_pivot] at hpivot
    have hok := h.pivots t slot hpivot
    rcases (step_cases hs).2 with ⟨ready,-,hc⟩ | ⟨hidle,hc⟩
    · by_cases ht : t=l.thread
      · rw [ht] at hok ⊢
        exact hok.own h hc
      · obtain ⟨hcur,hprev⟩ := swapped_of_ne (s := s) ht
        obtain ⟨hctx,hprot,-⟩ := PhaseInvariant.callStep_local hc ht
        exact hok.other (PhaseInvariant.callStep_other hc ht) hctx hprot hcur hprev hgrows.sys
    · have ht : t ≠ l.thread := by
        rintro rfl
        exact hbusy ⟨by rw [hpivot]; rfl,hidle⟩
      obtain ⟨hcur,hprev⟩ := swapped_of_ne (s := s) ht
      obtain ⟨hctx,hprot,-⟩ := PhaseInvariant.startCall_local hc ht
      exact hok.other (PhaseInvariant.startCall_other hc ht) (congrFun hctx t) hprot hcur hprev hgrows.sys

/-- A session that detects a shift is held back by nobody: the system has the next version,
and so has a session. -/
theorem Inv.detected (h : Inv s) {places : List ℕ} (hready : s.Ready t) (ht : t ≠ 0)
    (hphase : (s.base.ctx t).phase=.prepare) (hlatest : (s.base.ctx t).version.toNat<latestRecordVersion (s.seen places)) :
    s.base.systemState=⟨s.base.origin.action,.inProgress,(s.base.ctx t).version+1⟩ ∧
      (s.base.ctx t).version.toNat<s.base.systemState.version.toNat ∧
      ∃ r ∈ s.seen places, (s.base.ctx t).version.toNat<(s.base.ctx r.session).version.toNat := by
  obtain ⟨hlt,hprot,hidle,-⟩ := hready
  obtain ⟨r,hr,hstamp⟩ := exists_latest hlatest
  have hok := h.stamps r (mem_of_seen hr)
  have hmoved : (s.base.ctx t).version.toNat<(s.base.ctx r.session).version.toNat :=
    (hstamp.trans_le hok.stamp).trans_le hok.session
  have hsys : (s.base.ctx t).version.toNat<s.base.systemState.version.toNat := hmoved.trans_le (h.versions.ctxs r.session)
  have hin : inLoop (s.base.pc t)=false := by
    rw [hidle]
    rfl
  have htracked : Tracked t := ⟨Nat.one_le_iff_ne_zero.mpr ht,hlt⟩
  refine ⟨?_,hsys,r,hr,hmoved⟩
  rcases PhaseVersions.prepare_holds h.rounds h.acks h.versions htracked hprot hin hphase with heq | heq
  · rw [heq] at hsys
    exact absurd hsys (lt_irrefl _)
  · exact heq

/-- A call of `Refresh` is a step of the phase protocol. -/
theorem refresh_step (hready : s.Ready t) :
    Phases.step s.base ⟨t,.refresh⟩=some (s.base.goto t .refresh) ∧ joinsBetween s.base ⟨t,.refresh⟩ := by
  obtain ⟨hlt,hprot,hidle,-⟩ := hready
  refine ⟨?_,?_,?_⟩
  · unfold Phases.step
    rw [if_pos hlt]
    change (if s.base.pc t=.idle then Phases.startCall s.base t .refresh else none)=_
    rw [if_pos hidle]
    exact if_pos hprot
  · intro a v hp
    rw [show s.base.pc t=_ from hp] at hidle
    cases hidle
  · intro a v hp
    rw [show s.base.pc t=_ from hp] at hidle
    cases hidle

/-- A session that detects a shift calls `PivotAndRetry`. -/
theorem Inv.detect (h : Inv s) {places : List ℕ} (hready : s.Ready t) (ht : t ≠ 0)
    (hphase : (s.base.ctx t).phase=.prepare)
    (hlatest : (s.base.ctx t).version.toNat<latestRecordVersion (s.seen places)) :
    Inv { s with base := s.base.goto t .refresh, pivot := update s.pivot t (some (s.current t)) } := by
  obtain ⟨-,hbehind,-⟩ := h.detected hready ht hphase hlatest
  obtain ⟨hstep,hjoins⟩ := refresh_step hready
  obtain ⟨hlt,hprot,hidle,-⟩ := hready
  have hpass : VersionInv (s.base.goto t .refresh) ∧ Grows s.base (s.base.goto t .refresh) :=
    h.versions.pass hidle rfl le_rfl rfl rfl rfl (.inl rfl)
  obtain ⟨hversions,hgrows⟩ := hpass
  refine ⟨h.rounds.step hjoins hstep,h.acks.step h.rounds hjoins hstep,hversions,?_,?_⟩
  · exact fun r hr => (h.stamps r hr).grows hgrows
  · intro u slot hpivot
    change update s.pivot t (some (s.current t)) u=some slot at hpivot
    by_cases hut : u=t
    · rw [hut,update_self] at hpivot
      cases hpivot
      rw [hut]
      refine ⟨⟨Nat.one_le_iff_ne_zero.mpr ht,hlt⟩,hprot,?_⟩
      change PcPivot _ t _ ((s.base.goto t .refresh).pc t)
      rw [goto_self]
      exact ⟨rfl,hphase,hbehind⟩
    · rw [update_of_ne hut] at hpivot
      exact (h.pivots u slot hpivot).other (goto_of_ne hut) rfl rfl rfl rfl le_rfl

/-- The steps of the runs keep the invariant, and the version does not go back. -/
theorem Inv.step (h : Inv s) (hguard : steady s label) (hs : step p s label=some s') :
    Inv s' ∧ s.base.systemState.version.toNat ≤ s'.base.systemState.version.toNat := by
  cases label with
  | session l =>
    simp only [VersionShift.step] at hs
    split_ifs at hs with hbusy
    obtain ⟨base,hbase,rfl⟩ := map_eq_some_iff.mp hs
    obtain ⟨hinv,hgrows⟩ := h.session hguard hbusy hbase
    exact ⟨hinv,hgrows.sys⟩
  | insert t invalid =>
    obtain ⟨-,rfl⟩ := of_guard hs
    refine ⟨⟨h.rounds,h.acks,h.versions,?_,?_⟩,le_rfl⟩
    · intro r hr
      rcases mem_append.mp hr with hold | hnew
      · exact ⟨(h.stamps r hold).stamp,(h.stamps r hold).session⟩
      · rw [mem_singleton.mp hnew]
        exact ⟨stamped_le _ _ _,le_rfl⟩
    · exact fun u slot hpivot => (h.pivots u slot hpivot).other rfl rfl rfl rfl rfl le_rfl
  | detect t places =>
    obtain ⟨⟨hready,hphase,hlatest⟩,rfl⟩ := of_guard hs
    exact ⟨h.detect hready hguard hphase hlatest,le_rfl⟩
  | retry t =>
    obtain ⟨-,rfl⟩ := of_guard hs
    refine ⟨⟨h.rounds,h.acks,h.versions,?_,?_⟩,le_rfl⟩
    · exact fun r hr => ⟨(h.stamps r hr).stamp,(h.stamps r hr).session⟩
    · intro u slot hpivot
      change update s.pivot t none u=some slot at hpivot
      by_cases hut : u=t
      · rw [hut,update_self] at hpivot
        cases hpivot
      · rw [update_of_ne hut] at hpivot
        exact (h.pivots u slot hpivot).other rfl rfl rfl rfl rfl le_rfl
  | recover files log indexToken hybridLogToken =>
    obtain ⟨x,hrec,rfl⟩ := map_eq_some_iff.mp hs
    have hbusy : s.full.systemState ≠ ⟨.none,.rest,s.full.systemState.version⟩ := hguard
    rw [recover_busy hbusy] at hrec
    cases hrec
    refine ⟨⟨h.rounds,h.acks,h.versions,?_,?_⟩,le_rfl⟩
    · exact fun r hr => ⟨(h.stamps r hr).stamp,(h.stamps r hr).session⟩
    · exact fun u slot hpivot => (h.pivots u slot hpivot).other rfl rfl rfl rfl rfl le_rfl

theorem Inv.of_fresh (h : Fresh s) : Inv s := by
  obtain ⟨hquiet,-,hctx,hpivot,hlog⟩ := h
  refine ⟨.of_quiescent hquiet,.of_quiescent hquiet,⟨?_,?_,?_,?_,?_⟩,?_,?_⟩
  · intro u
    rw [hctx]
    exact Nat.zero_le _
  · intro u l hl
    rw [hquiet.2.2.1] at hl
    cases hl
  · intro u l hl
    rw [hquiet.2.2.1] at hl
    cases hl
  · exact fun hne => absurd hquiet.2.2.2 hne
  · intro u hprep
    rw [hctx] at hprep
    cases hprep
  · intro r hr
    rw [hlog] at hr
    cases hr
  · intro t slot hp
    rw [hpivot] at hp
    cases hp

theorem reachable_inv (hs : Reachable (machine p) steady s) : Inv s :=
  hs.invariant (fun _ => Inv.of_fresh) fun _ _ _ h hok hstep => (h.step hok hstep).1

/-- The version after a `Recover` that returns `Ok` with version `v`: it is `v + 1` for the
largest version only. -/
theorem recover_ok_version {log : LogSteps (List Record)} {files : Files} {i j : Guid} {r : Result}
    {store store' : Store F (List Record)} (h : recover p log files store i j=some (r, store'))
    (hok : r.status=.ok) : store'.systemState.version=r.version+1 ↔ r.version=maxVersion := by
  have hidle : store.systemState=⟨.none,.rest,store.systemState.version⟩ := by
    by_contra hbusy
    rw [recover_busy hbusy] at h
    cases h
    cases hok
  rw [recover_version hidle h]
  refine ⟨?_,?_⟩
  · intro heq
    have hsub : r.version=r.version+1 - 1 := (UInt32.add_sub_cancel _ _).symm
    rw [←heq] at hsub
    exact hsub.trans (by decide)
  · intro heq
    rw [heq]
    decide

/-- In every run that meets the guard the version of the system never goes back. A session
in the prepare phase detects a shift only when a session has moved to the next version,
which then is that of the system. When `PivotAndRetry` has refreshed, the version of the
thread is one more than that of the context it was called with. No `Recover` returns `Ok`;
where one does, the version after it is the next one for the largest version only. -/
theorem versions_never_go_back (hs : Reachable (machine p) steady s) :
    (∀ s', Run (machine p) steady s s' →
      s.base.systemState.version ≤ s'.base.systemState.version) ∧
    (∀ t places s', steady s (.detect t places) → step p s (.detect t places) = some s' →
      s.base.systemState.version.toNat = (s.base.ctx t).version.toNat + 1 ∧
      ∃ u, (s.base.ctx u).version.toNat = (s.base.ctx t).version.toNat + 1) ∧
    (∀ t slot, s.pivot t = some slot → s.base.pc t = .idle →
      (s.base.ctx t).version = s.ctxVersion t slot + 1) ∧
    (∀ files log i j r store, recover p log files s.full i j = some (r, store) → r.status = .ok →
      ¬steady s (.recover files log i j) ∧
        (store.systemState.version = r.version + 1 ↔ r.version = maxVersion)) := by
  have h := reachable_inv hs
  refine ⟨?_,?_,?_,?_⟩
  · intro s' hrun
    rw [UInt32.le_iff_toNat_le]
    exact (hrun.relation (P := Inv)
      (R := fun a b => a.base.systemState.version.toNat≤b.base.systemState.version.toNat)
      (fun _ _ _ hi hok hstep => (hi.step hok hstep).1) (fun _ _ => le_rfl)
      (fun _ _ _ _ hi hle hok hstep => hle.trans (hi.step hok hstep).2) h).2
  · intro t places s' hguard hstep
    obtain ⟨⟨hready,hphase,hlatest⟩,-⟩ := ite_none_right_eq_some.mp hstep
    obtain ⟨hsys,hlt,r,-,hmoved⟩ := h.detected hready hguard hphase hlatest
    have hle := h.versions.ctxs r.session
    -- The next version of a version that is not the largest one.
    have hup : s.base.systemState.version.toNat=(s.base.ctx t).version.toNat+1 := by
      rw [hsys] at hlt ⊢
      change (s.base.ctx t).version.toNat<((s.base.ctx t).version+1).toNat at hlt
      refine PhaseVersions.toNat_add_one ?_
      intro hmax
      rw [hmax] at hlt
      exact absurd hlt (by decide)
    exact ⟨hup,r.session,by omega⟩
  · intro t slot hpivot hidle
    have hpc := (h.pivots t slot hpivot).pc
    rw [hidle] at hpc
    unfold State.ctxVersion
    rw [if_neg hpc.1]
    exact hpc.2
  · intro files log i j r store hrec hok
    refine ⟨?_,recover_ok_version hrec hok⟩
    intro hbusy
    rw [recover_busy (show s.full.systemState ≠ _ from hbusy)] at hrec
    cases hrec
    cases hok

/-- A check of the guard for sessions on the given threads, without `Recover`. -/
def steadyCheck (threads : List ℕ) (s : State F) : Label → Bool
  | .session l => joinsCheck threads s.base l && decide (s.base.systemState.version ≠ maxVersion)
  | .detect t _ => decide (t ≠ 0 ∧ t ∈ threads)
  | .recover _ _ _ _ => false
  | _ => true

theorem steady_of_check {threads : List ℕ} (h : Among threads s.base) (hcheck : steadyCheck threads s label=true)
    (hs : step p s label=some s') : steady s label ∧ Among threads s'.base := by
  cases label with
  | session l =>
    rw [steadyCheck,Bool.and_eq_true,decide_eq_true_eq] at hcheck
    simp only [VersionShift.step] at hs
    split_ifs at hs
    obtain ⟨base,hbase,rfl⟩ := map_eq_some_iff.mp hs
    have hmem : l.thread ∈ threads := by
      have hjoins := hcheck.1
      rw [joinsCheck,Bool.and_eq_true] at hjoins
      exact contains_iff_mem.mp hjoins.1
    exact ⟨⟨h.joinsBetween hcheck.1,hcheck.2⟩,h.step hmem hbase⟩
  | insert t invalid | retry t =>
    obtain ⟨-,rfl⟩ := of_guard hs
    exact ⟨trivial,h⟩
  | detect t places =>
    obtain ⟨⟨hready,-⟩,rfl⟩ := of_guard hs
    obtain ⟨hne,hmem⟩ := of_decide_eq_true hcheck
    have hthread : (⟨t,.refresh⟩ : Phases.Label).thread ∈ threads := hmem
    exact ⟨hne,h.step hthread (refresh_step hready).1⟩
  | recover files log i j => cases hcheck

end

/-- A new store of version 1. -/
def newStore : State ℕ where
  base := ⟨⟨.none, .rest, 1⟩, fun _ => false, fun _ => .rest, fun _ => ⟨.invalid, 0⟩, fun _ => .idle, 0,
    ⟨.none, .rest, 1⟩, fun _ _ => false⟩
  current := fun _ => false
  prevVersion := fun _ => 0
  pivot := fun _ => none
  store := ⟨⟨.none, .rest, 1⟩, ⟨false, 0, 0, .reset, .reset, []⟩, 256, .empty, [], .fresh ℕ⟩

theorem newStore_fresh : Fresh newStore := ⟨⟨rfl,rfl,fun _ => rfl,rfl⟩,fun _ => rfl,fun _ => rfl,fun _ => rfl,rfl⟩

/-- The thread calls a function and takes some steps of it. -/
def calls (t : ℕ) (act : Phases.Act) (n : ℕ) : List Label :=
  .session ⟨t, act⟩ :: List.replicate n (.session ⟨t, .step true⟩)

/-- Sessions on the threads 1 and 2 start, and thread 1 starts a checkpoint of the log and
comes to its prepare phase. -/
def prepared : List Label :=
  calls 1 .startSession 3 ++ calls 2 .startSession 3 ++ calls 1 (.start .checkpointHybridLog) 99 ++
    calls 1 .refresh 10

/-- Thread 2 moves the checkpoint on, comes to the next version and inserts a record. Thread
1 sees it, and its version goes up by one in `PivotAndRetry`. -/
theorem versions_never_go_back_pivot : ∃ s, Reachable (machine bare) steady s ∧ s.pivot 1 = some false ∧
    s.base.pc 1 = .idle ∧ (s.base.ctx 1).version = 2 ∧
    (s.base.ctx 1).version = s.ctxVersion 1 false + 1 := by
  have hrun : (execGuarded (machine bare) (steadyCheck [1,2]) newStore
      (prepared ++ calls 2 .refresh 200 ++ calls 2 .refresh 8 ++ [.insert 2 false,.detect 1 [0]] ++
        replicate 200 (.session ⟨1,.step true⟩))).any (fun s =>
        decide (s.pivot 1=some false ∧ s.base.pc 1=.idle ∧ (s.base.ctx 1).version=2))=true := by
    decide +kernel
  obtain ⟨s,hr,hend⟩ := exists_run_of_execGuarded (fun _ _ => id) hrun
  obtain ⟨hpivot,hidle,hversion⟩ := of_decide_eq_true hend
  have hs : Reachable (machine bare) steady s := ⟨_,newStore_fresh,
    (hr.strengthen (P := fun s => Among [1,2] s.base) (fun _ _ _ h hc hstep => steady_of_check h hc hstep)
      fun _ _ => ⟨rfl,rfl⟩).1⟩
  exact ⟨s,hs,hpivot,hidle,hversion,(versions_never_go_back hs).2.2.1 1 false hpivot hidle⟩

/-- `RecoverFromPage` for one record: one that is valid stays so if the checkpoint has it. -/
def recoverFromPage (version : UInt32) (r : Record) : Record :=
  if r.invalid then r else if r.checkpointVersion ≤ version.toNat then r else { r with invalid := true }

/-- The replay of a log on disk. -/
def replay (disk : List Record) : LogSteps (List Record) :=
  ⟨fun _ m x => ((x.1, disk.map (recoverFromPage m.version)), .ok), fun _ l => (l, .ok)⟩

/-- `Recover` of a checkpoint of version 1 whose log has a record of that version. -/
def recovers : Label := .recover oneCheckpoint (replay [.stamped 1 1 false]) 1 1

/-- A new store recovers a checkpoint of version 1. The call returns `Ok` and version 1, the
system goes from version 1 to version 0, and the log has a valid record of version 1. Then
a session of version 0 in the prepare phase of the next checkpoint detects a shift where
nobody has moved, and `PivotAndRetry` leaves its version where it was. -/
theorem versions_go_back : ∃ r store s₁ s₂ s₃ s₄, Fresh newStore ∧
    recover bare (replay [.stamped 1 1 false]) oneCheckpoint newStore.full 1 1 = some (r, store) ∧
    r.status = .ok ∧ r.version = 1 ∧ (machine bare).step newStore recovers = some s₁ ∧
    newStore.base.systemState.version = 1 ∧ s₁.base.systemState.version = 0 ∧
    s₁.store.hlog = [⟨1, false, 1, 1⟩] ∧
    Run (machine bare) anyStep s₁ s₂ ∧ s₂.base.systemState = ⟨.checkpointHybridLog, .prepare, 0⟩ ∧
    s₂.base.ctx 1 = ⟨.prepare, 0⟩ ∧ (machine bare).step s₂ (.detect 1 [0]) = some s₃ ∧
    Run (machine bare) anyStep s₃ s₄ ∧ s₄.pivot 1 = some false ∧ s₄.base.pc 1 = .idle ∧
    (s₄.base.ctx 1).version = 0 ∧ s₄.ctxVersion 1 false + 1 = 1 := by
  have hrec : ((recover bare (replay [.stamped 1 1 false]) oneCheckpoint newStore.full 1 1).any fun x =>
      decide (x.1.status=.ok ∧ x.1.version=1))=true := by decide +kernel
  obtain ⟨⟨r,store⟩,hrecover,hresult⟩ := (any_eq_true _ _).mp hrec
  obtain ⟨hok,hversion⟩ := of_decide_eq_true hresult
  have hfirst : (((machine bare).step newStore recovers).any fun s₁ =>
      decide (s₁.base.systemState.version=0 ∧ s₁.store.hlog=[⟨1,false,1,1⟩]) &&
        (exec (machine bare) s₁ prepared).any fun s₂ =>
          decide (s₂.base.systemState=⟨.checkpointHybridLog,.prepare,0⟩ ∧ s₂.base.ctx 1=⟨.prepare,0⟩) &&
            ((machine bare).step s₂ (.detect 1 [0])).any fun s₃ =>
              (exec (machine bare) s₃ (replicate 5 (.session ⟨1,.step true⟩))).any fun s₄ =>
                decide (s₄.pivot 1=some false ∧ s₄.base.pc 1=.idle ∧ (s₄.base.ctx 1).version=0 ∧
                  s₄.ctxVersion 1 false+1=1))=true := by decide +kernel
  obtain ⟨s₁,hs₁,hrest⟩ := (any_eq_true _ _).mp hfirst
  rw [Bool.and_eq_true] at hrest
  obtain ⟨hzero,hlog⟩ := of_decide_eq_true hrest.1
  obtain ⟨s₂,hs₂,hrest⟩ := (any_eq_true _ _).mp hrest.2
  rw [Bool.and_eq_true] at hrest
  obtain ⟨hsys,hctx⟩ := of_decide_eq_true hrest.1
  obtain ⟨s₃,hs₃,hrest⟩ := (any_eq_true _ _).mp hrest.2
  obtain ⟨s₄,hs₄,hrest⟩ := (any_eq_true _ _).mp hrest
  obtain ⟨hpivot,hidle,hstill,hcompare⟩ := of_decide_eq_true hrest
  exact ⟨r,store,s₁,s₂,s₃,s₄,newStore_fresh,hrecover,hok,hversion,hs₁,rfl,hzero,hlog,
    run_of_exec hs₂,hsys,hctx,hs₃,run_of_exec hs₄,hpivot,hidle,hstill,hcompare⟩

end FishStore.VersionShift
