import FishStore.GrowInvariant

/-!
# Splitting waits for its own growth

A session that splits has seen the word of the growth in progress, now or when it
last refreshed. If growths start only when no session remembers an earlier one,
if no session acknowledges the preparation inside an operation, and if the word
is not loaded between the global move to the split and the switch of the version,
then buckets are split and the old table is freed only after every session has
acknowledged the preparation of this growth and the version was switched, and
operations work on initialised tables.
-/

namespace FishStore.GrowSafety

open Runs Grow GrowInvariant Bool Function GrowPhases PhaseInvariant
open Phases (callStep startCall)
open LightEpoch (kMaxNumThreads)

section

variable {v : UInt32} {p p' : Phases.State} {sw : Prop} {s s' : State} {t u : ℕ}

/-- A session comes to be in progress by loading the word, and remembers it only
after it was. -/
theorem callStep_prog (h : Control v p sw) (hs : callStep p t true (p.pc t)=some p')
    (hk : kind (p.pc t) ≠ .prog) : (kind (p'.pc t)=.prog → p.pc t=.handleLoad ∧ p.systemState=progWord v) ∧
      ((p'.ctx t).phase=.growInProgress → (p.ctx t).phase=.growInProgress) := by
  have hshape := h.shape t
  generalize hp : p.pc t=pc at hs hshape hk ⊢
  cases Phases.moves_of_callStep hs with
  | join => exact hshape.elim
  | reject => exact hshape.elim
  | reload hrest =>
    refine ⟨?_,?_⟩
    · rw [goto_self]
      rintro ⟨⟩
    · change (update p.ctx t _ t).phase=_ → _
      rw [update_self]
      rintro ⟨⟩
  | enter hrest =>
    refine ⟨fun hk' => ⟨rfl,?_⟩,id⟩
    rcases h.word_of_ne_rest hrest with hw | hw
    · rw [goto_self,hw] at hk'
      cases hk'
    · exact hw
  | iterate final prev cur hcur =>
    rcases hshape with ⟨rfl,hprev⟩ | ⟨rfl,_⟩
    · -- The session comes to the first phase, or stays in it.
      have hword : cur=prepWord v := by
        rcases hprev with rfl | rfl
        · rw [if_neg GrowPhases.restWord_ne_prepWord] at hcur
          cases hcur
          rfl
        · rw [if_pos rfl] at hcur
          cases hcur
          rfl
      subst hword
      refine ⟨?_,?_⟩
      · rw [goto_self]
        rcases hprev with rfl | rfl <;> rintro ⟨⟩
      · change (update p.ctx t _ t).phase=_ → _
        rw [update_self]
        rcases hprev with rfl | rfl <;> exact id
    · exact absurd rfl hk
  | leave l =>
    rcases hshape with rfl | rfl
    · refine ⟨?_,?_⟩
      · rw [goto_self,if_pos rfl]
        rintro ⟨⟩
      · change (update p.ctx t _ t).phase=_ → _
        rw [update_self]
        rintro ⟨⟩
    · exact absurd rfl hk
  | refuse w idx e r | settle next r =>
    rcases hshape with ⟨rfl,rfl⟩ | ⟨rfl,_⟩
    · refine ⟨?_,id⟩
      rw [goto_self]
      rintro ⟨⟩
    · exact absurd rfl hk
  | scanOn =>
    refine ⟨?_,id⟩
    rw [goto_self]
    unfold Phases.scanFrom
    split_ifs <;> exact fun hk' => absurd hk' hk
  | move w seen r next hnext =>
    rcases hshape.1 with ⟨rfl,rfl⟩ | ⟨rfl,_⟩
    · cases hnext
      refine ⟨?_,id⟩
      rw [goto_self]
      rintro ⟨⟩
    · exact absurd rfl hk
  | overtaken w seen r next hnext =>
    rcases hshape.1 with ⟨rfl,rfl⟩ | ⟨rfl,_⟩
    · refine ⟨?_,id⟩
      rw [goto_self]
      rintro ⟨⟩
    · exact absurd rfl hk
  | close next r hrest =>
    rcases hshape with ⟨rfl,rfl⟩ | ⟨rfl,_⟩
    · cases hrest
    · exact absurd rfl hk
  | split | spin | leaveSpin => exact absurd rfl hk
  | publish a version q hfirst =>
    obtain ⟨rfl,rfl⟩ := hshape
    refine ⟨?_,id⟩
    rw [goto_self]
    rintro ⟨⟩
  | _ =>
    refine ⟨?_,id⟩
    rw [goto_self]
    first
    | exact fun hk' => absurd hk' hk
    | rintro ⟨⟩
    | split_ifs <;> rintro ⟨⟩

/-- The word is not loaded between the global move to the split and the switch of
the version. -/
def switchesFirst : Guard State Label := fun s label => ∀ t ro,
  label = .thread t (.step ro) → s.phases.pc t = .handleLoad → ∀ u, kind (s.phases.pc u) ≠ .switching

/-- When a session is in progress, or remembers to be, the version was switched. -/
def Switched (s : State) : Prop := ∀ u,
  kind (s.phases.pc u) = .prog ∨ (s.phases.ctx u).phase = .growInProgress → s.version = s.grow.newVersion

section

variable (h : Switched s) (hinv : Inv v s) (hload : s.phases.pc t=.handleLoad → ∀ u, kind (s.phases.pc u) ≠ .switching)

include h hinv hload

/-- A step of the phase protocol takes only sessions of a switched version into
the split. -/
theorem Switched.callStep (hs : callStep s.phases t true (s.phases.pc t)=some p') (u : ℕ) :
    kind (p'.pc u)=.prog ∨ (p'.ctx u).phase=.growInProgress → s.version=s.grow.newVersion := by
  have hc := hinv.phases.control
  intro hu
  by_cases hut : u=t
  · subst hut
    by_cases hk : kind (s.phases.pc u)=.prog
    · exact h u (.inl hk)
    · obtain ⟨hprog,hctx⟩ := callStep_prog hc hs hk
      rcases hu with hu | hu
      · obtain ⟨hp,hw⟩ := hprog hu
        refine (hc.switch hw).resolve_right ?_
        rintro ⟨x,hx⟩
        exact hload hp x hx
      · exact h u (.inr (hctx hu))
  · rw [callStep_other hs hut,(PhaseInvariant.callStep_local hs hut).1] at hu
    exact h u hu

theorem Switched.phaseStep (hs : phaseStep s t=some s') : Switched s' := by
  obtain ⟨p',hp',hcase⟩ := phaseStep_cases hs
  have hcall := h.callStep hinv hload hp'
  rcases hcase with ⟨a,version,idx,hp,_,rfl⟩ | ⟨_,_,rfl⟩ | ⟨_,⟨_,rfl⟩ | ⟨_,rfl⟩⟩
  · -- While a growth is being started nobody is in progress.
    have hk : kind (s.phases.pc t)=.starting := by
      rw [hp]
      rfl
    obtain ⟨-,hothers,hctx,-⟩ := hinv.phases.control.starting t hk
    rw [hp] at hp'
    cases hp'
    rintro u (hu | hu)
    · by_cases hut : u=t
      · subst hut
        change kind (((_ : Phases.State).goto u _).pc u)=.prog at hu
        rw [goto_self] at hu
        split_ifs at hu
        cases hu
      · change kind (((_ : Phases.State).goto t _).pc u)=.prog at hu
        rw [goto_of_ne hut] at hu
        exact absurd ((hothers u hut).symm.trans hu) nofun
    · change (s.phases.ctx u).phase=.growInProgress at hu
      rw [hctx u] at hu
      cases hu
  · exact fun _ _ => rfl
  · exact hcall
  · exact hcall

end

theorem Switched.startCall {act : Phases.Act} (h : Switched s) (hidle : s.phases.pc t=.idle)
    (hsession : act ≠ .startSession) (hs : startCall s.phases t act=some p') (u : ℕ) :
    kind (p'.pc u)=.prog ∨ (p'.ctx u).phase=.growInProgress → s.version=s.grow.newVersion := by
  intro hu
  cases act with
  | startSession => exact absurd rfl hsession
  | step => cases hs
  | stopSession =>
    simp only [Phases.startCall] at hs
    split_ifs at hs
    cases hs
    exact h u hu
  | heavyEnter =>
    simp only [Phases.startCall] at hs
    split_ifs at hs
    cases hs
    by_cases hut : u=t
    · subst hut
      refine h u (.inr ?_)
      rcases hu with hu | hu
      · rw [goto_self] at hu
        cases hphase : (s.phases.ctx u).phase with
        | growInProgress => rfl
        | _ =>
          rw [hphase] at hu
          cases hu
      · exact hu
    · rw [goto_of_ne hut] at hu
      exact h u hu
  | _ =>
    simp only [Phases.startCall] at hs
    split_ifs at hs
    cases hs
    by_cases hut : u=t
    · subst hut
      rw [goto_self] at hu
      exact h u (.inr (hu.resolve_left (by rintro ⟨⟩)))
    · rw [goto_of_ne hut] at hu
      exact h u hu

/-- The version is switched before a session takes part in the split. -/
theorem Switched.step {label : Label} (h : Switched s) (hinv : Inv v s) (hload : switchesFirst s label)
    (hs : step s label=some s') : Switched s' := by
  cases label with
  | shiftHead address =>
    obtain ⟨-,rfl⟩ := of_guard hs
    exact h
  | thread t act =>
    obtain ⟨-,hs⟩ := Option.ite_none_right_eq_some.mp hs
    cases threadStep_cases hs with
    | call a p' idle session heavy start stop hcall => exact h.startCall idle session hcall
    | heavyEnter p' idle op hcall =>
      refine h.startCall idle ?_ hcall
      nofun
    | begin a op hcall =>
      unfold Grow.begin at hcall
      obtain ⟨-,hcall⟩ := Option.ite_none_right_eq_some.mp hcall
      obtain ⟨pc,_,rfl⟩ := Option.map_eq_some_iff.mp hcall
      exact h
    | op ro idle hcall =>
      rcases (opStep_cases hcall).2 with ⟨hash,x,_,rfl⟩ | ⟨st,_,rfl⟩
      · exact h
      · exact h
    | split ro l hl =>
      cases s.split t with
      | entry chunk idx b i dst =>
        simp only [Grow.splitStep]
        split_ifs
        · exact h
        · cases s.old.index.next b <;> exact h
      | _ => exact h
    | phase ro hend hcall => exact h.phaseStep hinv (hload t ro rfl) hcall

/-- Growths start when no session takes part in an earlier one or remembers it, no
session acknowledges the preparation inside an operation, and the word is not
loaded before the version is switched. -/
def growsApart : Guard State Label := fun s label =>
  startsQuietly s label ∧ preparesOutside s label ∧ switchesFirst s label

theorem reachable_inv (hs : Reachable machine growsApart s) : (∃ v, Inv v s) ∧ Switched s := by
  refine hs.invariant (P := fun s => (∃ v, Inv v s) ∧ Switched s) ?_ ?_
  · intro s hi
    refine ⟨Inv.of_initial hi,fun _ _ => ?_⟩
    rw [hi.grow]
    exact (not_not _).symm
  · rintro s label s' ⟨⟨v,h⟩,hsw⟩ ⟨hquiet,hprep,hload⟩ hstep
    exact ⟨⟨v,h.step hquiet hprep hstep⟩,hsw.step h hload hstep⟩

/-- A bucket of the old table is split, and the old table is freed, only after
every session has acknowledged the preparation of this growth and the version was
switched; and operations work on tables that are initialised, and were not
initialised again since the operation loaded the version. -/
theorem splitHashTableBuckets_waits (hs : Reachable machine growsApart s) :
    (∀ t l, s.phases.pc t = .split l → working (some (s.split t)) = true →
      (∀ u, s.phases.isProtected u = true → s.phases.acked u .growPrepare = true) ∧
        s.version = s.grow.newVersion) ∧
    ∀ t, inOperation (s.store.pc t) = true → (s.table (s.held t).1).isInitialized = true ∧
      (s.table (s.held t).1).generation = (s.held t).2 := by
  obtain ⟨⟨v,h⟩,hsw⟩ := reachable_inv hs
  refine ⟨fun t l hl _ => ?_,fun t hop => h.operation_table hop⟩
  have hk : kind (s.phases.pc t)=.prog := by
    rw [hl]
    rfl
  refine ⟨fun u hu => ?_,hsw t (.inl hk)⟩
  have hlt := h.phases.control.tracked u hu
  exact h.phases.control.passedPc t hk u hlt.1 (by omega) hu

/-- A check of the guard for a first growth by the sessions on the given threads. -/
def growCheck (threads : List ℕ) (s : State) : Label → Bool
  | .shiftHead _ => true
  | .thread t act =>
    threads.contains t &&
      match act with
      | .step _ =>
        match s.phases.pc t with
        | .startSwap _ _ => decide (s.phases.started = 0)
        | .ack _ _ => !inOperation (s.store.pc t)
        | .handleLoad => threads.all fun u => decide (kind (s.phases.pc u) ≠ .switching)
        | _ => true
      | _ => true

/-- A thread without steps stays where it is. -/
theorem step_pc_other {label : Label} (hs : step s label=some s') (hu : ∀ act, label ≠ .thread u act) :
    s'.phases.pc u=s.phases.pc u := by
  cases label with
  | shiftHead address =>
    obtain ⟨-,rfl⟩ := of_guard hs
    rfl
  | thread t act =>
    have hut : u ≠ t := by
      rintro rfl
      exact hu act rfl
    obtain ⟨-,hs⟩ := Option.ite_none_right_eq_some.mp hs
    cases threadStep_cases hs with
    | call a p' idle session heavy start stop hcall | heavyEnter p' idle op hcall => exact startCall_other hcall hut
    | begin a op hcall =>
      unfold Grow.begin at hcall
      obtain ⟨-,hcall⟩ := Option.ite_none_right_eq_some.mp hcall
      obtain ⟨pc,_,rfl⟩ := Option.map_eq_some_iff.mp hcall
      rfl
    | op ro idle hcall =>
      rcases (opStep_cases hcall).2 with ⟨hash,x,_,rfl⟩ | ⟨st,_,rfl⟩
      · rfl
      · rfl
    | split ro l hl =>
      cases s.split t with
      | entry chunk idx b i dst =>
        simp only [Grow.splitStep]
        split_ifs
        · rfl
        · cases s.old.index.next b <;> rfl
      | _ => rfl
    | phase ro hend hcall =>
      obtain ⟨p',hp',hcase⟩ := phaseStep_cases hcall
      have hother := callStep_other hp' hut
      rcases hcase with ⟨a,version,idx,hp,_,rfl⟩ | ⟨_,_,rfl⟩ | ⟨_,⟨_,rfl⟩ | ⟨_,rfl⟩⟩ <;>
        exact hother

theorem reachable_growsApart {threads : List ℕ} (hs : Reachable machine (fun s label => growCheck threads s label=true) s) :
    Reachable machine growsApart s := by
  refine (hs.strengthen (P := fun s => (∃ v, Inv v s) ∧ ∀ u, u ∉ threads → s.phases.pc u=.idle) ?_ ?_).1
  · intro s hi
    exact ⟨Inv.of_initial hi,fun u _ => hi.idle u⟩
  · rintro s label s' ⟨⟨v,h⟩,hidle⟩ hcheck hstep
    have hquiet : startsQuietly s label := by
      rintro t ro a version rfl hp _ u
      simp only [growCheck,hp,and_eq_true,decide_eq_true_eq] at hcheck
      obtain ⟨hk,hctx⟩ := (h.phases.control.fresh hcheck.2).2 u
      refine ⟨GrowPhases.kind_eq_out.mp hk,?_⟩
      rw [hctx]
    have hprep : preparesOutside s label := by
      rintro t ro w r rfl hp _
      simp only [growCheck,hp,and_eq_true,not_eq_true'] at hcheck
      exact hcheck.2
    have hload : switchesFirst s label := by
      rintro t ro rfl hp u
      simp only [growCheck,hp,and_eq_true,List.all_eq_true,decide_eq_true_eq] at hcheck
      by_cases hu : u ∈ threads
      · exact hcheck.2 u hu
      · rw [hidle u hu]
        nofun
    refine ⟨⟨hquiet,hprep,hload⟩,⟨v,h.step hquiet hprep hstep⟩,fun u hu => ?_⟩
    rw [step_pc_other hstep]
    · exact hidle u hu
    · rintro act rfl
      simp only [growCheck,and_eq_true,List.contains_iff_mem] at hcheck
      exact hu hcheck.1

/-- A fresh store with one bucket and sessions on the given threads. -/
def store (threads : List ℕ) : State where
  phases :=
    { systemState := ⟨.none, .rest, 1⟩
      isProtected := threads.contains
      phaseFinished := fun _ => .rest
      ctx := fun _ => ⟨.rest, 1⟩
      pc := fun _ => .idle
      started := 0
      origin := ⟨.none, .rest, 1⟩
      acked := fun _ _ => false }
  version := false
  grow := ⟨true, 0, 0, 0⟩
  table := fun v => ⟨if v then 0 else 1, .empty, !v, 0⟩
  store := .empty
  hashes := fun _ => ⟨0⟩
  headAddress := InternalInsert.firstAddress
  held := fun _ => (false, 0)
  split := fun _ => .load
  bounds := fun _ => (0, 0)
  splitDone := fun _ => false

theorem store_initial {threads : List ℕ} (h : ∀ t ∈ threads, 1≤t ∧ t<kMaxNumThreads) : Initial (store threads) := by
  refine ⟨⟨1,rfl,fun _ => rfl⟩,fun _ => rfl,rfl,fun _ _ => rfl,?_,rfl,fun _ => rfl, ⟨0,0,rfl⟩,rfl,rfl⟩
  intro t ht
  exact h t (List.contains_iff_mem.mp ht)

/-- A call and the given number of its steps. -/
def call (t : ℕ) (act : Act) (n : ℕ) : List Label :=
  .thread t act :: List.replicate n (.thread t (.step 0))

/-- Thread 1 calls `GrowIndex`; thread 2 refreshes, acknowledges the preparation
as the last one and switches the version. -/
def prepared : List Label := call 1 .growIndex 109 ++ call 2 .refresh 200

/-- Thread 2 refreshes again and splits the only bucket. -/
theorem splitHashTableBuckets_waits_two : ∃ s, Reachable machine growsApart s ∧
    s.phases.pc 2 = .split (some ⟨progWord 1, progWord 1⟩) ∧ working (some (s.split 2)) = true ∧
    (∀ u, s.phases.isProtected u = true → s.phases.acked u .growPrepare = true) ∧
    s.version = s.grow.newVersion := by
  have hrun : (execGuarded machine (growCheck [1,2]) (store [1,2]) (prepared ++ call 2 .refresh 6)).any
      (fun s => decide (s.phases.pc 2=.split (some ⟨progWord 1,progWord 1⟩)) &&
        working (some (s.split 2)))=true := by
    decide +kernel
  obtain ⟨s,hr,hp⟩ := exists_run_of_execGuarded (fun _ _ h => h) hrun
  simp only [and_eq_true,decide_eq_true_eq] at hp
  have hs := reachable_growsApart ⟨_,store_initial (by decide),hr⟩
  obtain ⟨hack,hsw⟩ := (splitHashTableBuckets_waits hs).1 2 _ hp.1 hp.2
  exact ⟨s,hs,hp.1,hp.2,hack,hsw⟩

/-- Both threads split and acknowledge, thread 1 ends the growth and refreshes;
thread 2 does not. Thread 1 calls `GrowIndex` again and has just published. -/
def grownTwice : List Label :=
  prepared ++ call 2 .refresh 20 ++ call 1 .refresh 203 ++ List.replicate 2 (.thread 2 (.step 0)) ++
  call 1 .refresh 3 ++ call 1 .growIndex 99

/-- Thread 2 enters an operation, and splits the bucket of the second growth,
although nobody has acknowledged its preparation and the version is not switched. -/
theorem splitHashTableBuckets_early : ∃ s, Reachable machine anyStep s ∧
    s.phases.pc 2 = .split none ∧ working (some (s.split 2)) = true ∧ s.phases.started = 2 ∧
    s.phases.isProtected 1 = true ∧ s.phases.acked 1 .growPrepare = false ∧
    s.phases.acked 2 .growPrepare = false ∧ s.version ≠ s.grow.newVersion := by
  have hrun : (exec machine (store [1,2]) (grownTwice ++ call 2 .heavyEnter 2)).any
      (fun s => decide (s.phases.pc 2=.split none) && working (some (s.split 2)) &&
        decide (s.phases.started=2) && s.phases.isProtected 1 && !s.phases.acked 1 .growPrepare &&
        !s.phases.acked 2 .growPrepare && decide (s.version ≠ s.grow.newVersion))=true := by
    decide +kernel
  obtain ⟨s,hr,hp⟩ := exists_run_of_exec hrun
  simp only [and_eq_true,not_eq_true',decide_eq_true_eq] at hp
  obtain ⟨⟨⟨⟨⟨⟨hl,hwork⟩,hstarted⟩,hprot⟩,hone⟩,htwo⟩,hsw⟩ := hp
  exact ⟨s,⟨_,store_initial (by decide),hr⟩,hl,hwork,hstarted,hprot,hone,htwo,hsw⟩

end

end FishStore.GrowSafety
