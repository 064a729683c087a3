import FishStore.PhaseLoop

/-!
# Progress of an action

A session that acknowledges a phase as the last one finds every entry of the epoch
table acknowledged, and moves the system state on. So an action whose phase all
sessions have acknowledged always has a session that is about to move it, if a session
leaves during an action only while another one has still to acknowledge the phase.
`StopSession` looks at the session's own phase only: a session that has not refreshed
since the action started leaves without acknowledging, and if the others have all
acknowledged the phase already, none of them will look at the table again.
-/

namespace FishStore.PhaseProgress

open Runs Phases PhaseWalk PhaseInvariant PhaseLoop
open LightEpoch (kMaxNumThreads)
open PhaseBarrier (engaged steps startAction sessions sessions_quiescent)
open Function (update update_eq_self update_of_ne update_self)

/-- Every session has acknowledged the phase of the system state. -/
def AllAcked (s : State) : Prop := ∀ u, s.isProtected u = true → s.phaseFinished u = s.systemState.phase

/-- The entries from 1 up to `n` are in the rest phase. -/
def ClearedBelow (s : State) (n : ℕ) : Prop := ∀ u, 1 ≤ u → u < n → s.phaseFinished u = .rest

/-- The entries that the thread has reset. -/
def Cleared (s : State) : Pc → Prop
  | .reset _ _ idx => ClearedBelow s idx
  | .publish _ _ => ClearedBelow s (kMaxNumThreads + 1)
  | _ => True

/-- The thread scans the entries for the phase of the system state, or has done so, and
has not loaded an entry that would make it give up. -/
def Good (s : State) : Pc → Prop
  | .scanPhase w _ _ => w = s.systemState
  | .scanEpoch w idx entry _ => w = s.systemState ∧ (s.isProtected idx = true → entry = w.phase)
  | .move w _ _ => w = s.systemState
  | _ => False

/-- The thread is in a call of a session. -/
def inSession : Pc → Bool
  | .idle => false
  | .sessionLoad => false
  | .refresh => false
  | _ => true

/-- The invariant of progress. -/
structure ProgressInv (s : State) : Prop where
  member : ∀ t, s.pc t ≠ .idle → 1 ≤ t ∧ t < kMaxNumThreads
  session : ∀ t, inSession (s.pc t) = true → s.isProtected t = true
  cleared : ∀ t, Cleared s (s.pc t)
  /-- Nobody has acknowledged a phase that has not been reached. -/
  entries : s.systemState.phase ≠ .rest → ∀ u, 1 ≤ u → u ≤ kMaxNumThreads →
    rank (s.phaseFinished u) ≤ rank s.systemState.phase
  /-- A session that joins during the action has not acknowledged anything. -/
  joining : s.systemState.phase ≠ .rest → ∀ u, s.isProtected u = false → s.pc u = .refresh →
    s.phaseFinished u = .rest
  /-- An action in the rest phase is being opened or ended. -/
  owner : s.systemState.phase = .rest → s.systemState.action ≠ .none →
    ∃ t, owned (s.pc t) = some s.systemState
  /-- A phase that is acknowledged by all is about to be left. -/
  good : s.systemState.phase ≠ .rest → AllAcked s → ∃ t, Good s (s.pc t)

/-- Sessions run on the threads whose entries are scanned, actions start fresh, and a
session leaves during an action only if another one has still to acknowledge the phase. -/
def leavesSafely : Guard State Label := fun s label =>
  startsFresh s label ∧ label.thread ≠ 0 ∧ (label.act = .stopSession → s.systemState.phase ≠ .rest →
    ∃ u, u ≠ label.thread ∧ s.isProtected u = true ∧ s.phaseFinished u ≠ s.systemState.phase)

section

variable {s s' : State} {t u : ℕ} {pc p : Pc} {ready : Bool} {label : Label} {r : Return}

theorem Good.inSession (h : Good s pc) : inSession pc=true := by cases pc <;> first | rfl | cases h

theorem ClearedBelow.congr {n : ℕ} (h : ClearedBelow s n) (hfin : s'.phaseFinished=s.phaseFinished) :
    ClearedBelow s' n := by
  unfold ClearedBelow
  rw [hfin]
  exact h

theorem Cleared.congr (h : Cleared s pc) (hfin : s'.phaseFinished=s.phaseFinished) : Cleared s' pc := by
  cases pc with
  | reset a v idx | publish a v => exact ClearedBelow.congr h hfin
  | _ => trivial

theorem Good.congr (h : Good s pc) (hsys : s'.systemState=s.systemState)
    (hprot : s'.isProtected=s.isProtected) : Good s' pc := by
  cases pc with
  | scanPhase w idx r | move w seen r => exact Eq.trans h hsys.symm
  | scanEpoch w idx entry r =>
    refine ⟨h.1.trans hsys.symm,?_⟩
    rw [hprot]
    exact h.2
  | _ => cases h

theorem AllAcked.congr (h : AllAcked s') (hsys : s'.systemState=s.systemState)
    (hprot : s'.isProtected=s.isProtected) (hfin : s'.phaseFinished=s.phaseFinished) : AllAcked s := by
  unfold AllAcked at h
  rw [hsys,hprot,hfin] at h
  exact h

/-- A call moves one thread. -/
theorem pc_update (hpc : s'.pc=update s.pc t pc) (u : ℕ) : u=t ∧ s'.pc u=pc ∨ u ≠ t ∧ s'.pc u=s.pc u := by
  by_cases hut : u=t
  · refine .inl ⟨hut,?_⟩
    rw [hpc,hut]
    exact update_self _ _ _
  · refine .inr ⟨hut,?_⟩
    rw [hpc]
    exact update_of_ne hut _ _

section

variable (h : ProgressInv s)

include h

theorem ProgressInv.member_update (hpc : s'.pc=update s.pc t pc) (ht : 1≤t ∧ t<kMaxNumThreads) (u : ℕ)
    (hu : s'.pc u ≠ .idle) : 1≤u ∧ u<kMaxNumThreads := by
  rcases pc_update hpc u with ⟨rfl,-⟩ | ⟨-,heq⟩
  · exact ht
  · rw [heq] at hu
    exact h.member u hu

theorem ProgressInv.session_update (hpc : s'.pc=update s.pc t pc) (hother : ∀ u, u ≠ t → s'.isProtected u=s.isProtected u)
    (hself : PhaseProgress.inSession pc=true → s'.isProtected t=true) (u : ℕ)
    (hu : PhaseProgress.inSession (s'.pc u)=true) : s'.isProtected u=true := by
  rcases pc_update hpc u with ⟨rfl,heq⟩ | ⟨hut,heq⟩
  · rw [heq] at hu
    exact hself hu
  · rw [heq] at hu
    exact (hother u hut).trans (h.session u hu)

omit h in
theorem cleared_update (hpc : s'.pc=update s.pc t pc) (hother : ∀ u, u ≠ t → Cleared s' (s.pc u))
    (hself : Cleared s' pc) (u : ℕ) : Cleared s' (s'.pc u) := by
  rcases pc_update hpc u with ⟨rfl,heq⟩ | ⟨hut,heq⟩
  · rw [heq]
    exact hself
  · rw [heq]
    exact hother u hut

/-- The owner of the word is another thread. -/
theorem ProgressInv.owner_update (hp : s.pc t=p)
    (hpc : s'.pc=update s.pc t pc) (howned : ∀ w, owned p=some w → owned pc=some w)
    (hrest : s.systemState.phase=.rest) (hact : s.systemState.action ≠ .none) :
    ∃ u, owned (s'.pc u)=some s.systemState := by
  obtain ⟨v,hv⟩ := h.owner hrest hact
  refine ⟨v,?_⟩
  rcases pc_update hpc v with ⟨rfl,heq⟩ | ⟨-,heq⟩
  · rw [hp] at hv
    rw [heq]
    exact howned _ hv
  · rw [heq]
    exact hv

/-- A session that joins is another thread. -/
theorem ProgressInv.joining_update (t : ℕ) (pc : Pc) (hpc : s'.pc=update s.pc t pc) (hjoin : pc ≠ .refresh)
    (hne : s.systemState.phase ≠ .rest) (u : ℕ) (hoff : u ≠ t → s.isProtected u=false)
    (hu : s'.pc u=.refresh) : u ≠ t ∧ s.phaseFinished u=.rest := by
  rcases pc_update hpc u with ⟨-,heq⟩ | ⟨hut,heq⟩
  · exact absurd (heq.symm.trans hu) hjoin
  · exact ⟨hut,h.joining hne u (hoff hut) (heq.symm.trans hu)⟩

/-- The thread moves on, and the word and the epoch table stay as they are. -/
theorem ProgressInv.keep (hp : s.pc t=p) (ht : 1≤t ∧ t<kMaxNumThreads) (hpc : s'.pc=update s.pc t pc)
    (hsys : s'.systemState=s.systemState) (hprot : s'.isProtected=s.isProtected) (hfin : s'.phaseFinished=s.phaseFinished)
    (hsession : PhaseProgress.inSession pc=true → s.isProtected t=true) (hcleared : Cleared s pc)
    (hjoin : pc=.refresh → s.systemState.phase=.rest ∨ s.isProtected t=true)
    (howned : ∀ w, owned p=some w → owned pc=some w) (hgood : AllAcked s → Good s p → Good s pc) : ProgressInv s' := by
  refine ⟨h.member_update hpc ht,?_,?_,?_,?_,?_,?_⟩
  · refine h.session_update hpc (fun u _ => congrFun hprot u) ?_
    rw [hprot]
    exact hsession
  · exact cleared_update hpc (fun u _ => (h.cleared u).congr hfin) (hcleared.congr hfin)
  · rw [hsys,hfin]
    exact h.entries
  · rw [hsys,hprot,hfin]
    intro hne u hoff hu
    rcases pc_update hpc u with ⟨rfl,heq⟩ | ⟨-,heq⟩
    · rcases hjoin (heq.symm.trans hu) with hrest | hon
      · exact absurd hrest hne
      · rw [hon] at hoff
        cases hoff
    · exact h.joining hne u hoff (heq.symm.trans hu)
  · rw [hsys]
    exact h.owner_update hp hpc howned
  · rw [hsys]
    intro hne hall
    have hall' := hall.congr hsys hprot hfin
    obtain ⟨v,hv⟩ := h.good hne hall'
    refine ⟨v,?_⟩
    rcases pc_update hpc v with ⟨rfl,heq⟩ | ⟨-,heq⟩
    · rw [hp] at hv
      rw [heq]
      exact (hgood hall' hv).congr hsys hprot
    · rw [heq]
      exact hv.congr hsys hprot

/-- A step of a session's call that is not near the word. -/
theorem ProgressInv.pass (hp : s.pc t=p) (hin : PhaseProgress.inSession p=true) (hpc : s'.pc=update s.pc t pc)
    (hsys : s'.systemState=s.systemState) (hprot : s'.isProtected=s.isProtected) (hfin : s'.phaseFinished=s.phaseFinished)
    (hcleared : Cleared s pc) (howned : owned p=none) (hgood : ¬Good s p) : ProgressInv s' := by
  have hon : s.isProtected t=true := by
    refine h.session t ?_
    rw [hp]
    exact hin
  have ht := h.member t (by rw [hp]; rintro rfl; cases hin)
  refine h.keep hp ht hpc hsys hprot hfin (fun _ => hon) hcleared (fun _ => .inr hon) ?_ ?_
  · intro w hw
    rw [howned] at hw
    cases hw
  · exact fun _ hg => absurd hg hgood

omit h in
theorem cleared_of_not_opening (h : opening pc=none) : Cleared s pc := by cases pc <;> trivial

omit h in
/-- No other thread opens an action while this one works on it. -/
theorem cleared_other (hwalk : WalkInv s) (hen : engaged (s.pc t)=true) (hu : u ≠ t) :
    Cleared s' (s.pc u) := by
  refine cleared_of_not_opening ?_
  cases hop : opening (s.pc u) with
  | none => rfl
  | some x => exact absurd hop (hwalk.not_opening hen hu)

/-- The session acknowledges a phase. If it is the last one, it will find all entries
acknowledged. -/
theorem ProgressInv.ack (hwalk : WalkInv s) {w : SystemState} (hp : s.pc t=.ack w r) :
    ProgressInv ((s.acknowledge t w.phase).goto t (.scanPhase w 1 r)) := by
  have hwo : WordOk s t w r := by
    have hok := hwalk.pcs t
    rw [hp] at hok
    exact hok
  have hon := h.session t (by rw [hp]; rfl)
  have ht := h.member t (by rw [hp]; nofun)
  have hfin : ∀ u, u ≠ t → (s.acknowledge t w.phase).phaseFinished u=s.phaseFinished u := fun u hu => update_of_ne hu _ _
  have hmine : (s.acknowledge t w.phase).phaseFinished t=w.phase := update_self _ _ _
  have hcleared : ∀ u, u ≠ t → Cleared ((s.acknowledge t w.phase).goto t (.scanPhase w 1 r)) (s.pc u) :=
    fun u hu => cleared_other hwalk (by rw [hp]; rfl) hu
  refine ⟨h.member_update rfl ht,h.session_update rfl (fun _ _ => rfl) (fun _ => hon),
    cleared_update rfl hcleared trivial,?_,?_,h.owner_update hp rfl nofun,?_⟩
  · intro hne u h1 hle
    change rank ((s.acknowledge t w.phase).phaseFinished u)≤_
    by_cases hut : u=t
    · rw [hut,hmine]
      exact hwo.passed hne
    · rw [hfin u hut]
      exact h.entries hne u h1 hle
  · intro hne u hoff hu
    obtain ⟨hut,hrest⟩ := h.joining_update t (.scanPhase w 1 r) rfl nofun hne u (fun _ => hoff) hu
    exact (hfin u hut).trans hrest
  · intro hne hall
    obtain ⟨hn,hsys⟩ := hwalk.sys hne
    refine ⟨t,?_⟩
    rw [goto_self]
    exact (hwo.word hn).eq_of_phase hsys (hmine.symm.trans (hall t hon))

/-- `Refresh` protects the thread; a session that joins has not acknowledged the phase. -/
theorem ProgressInv.protect (hp : s.pc t=.refresh) : ProgressInv ((s.protect t true).goto t .refreshLoad) := by
  have ht := h.member t (by rw [hp]; nofun)
  cases hprot : s.isProtected t with
  | true =>
    have hsame : (s.protect t true).isProtected=s.isProtected := by
      change update s.isProtected t true=s.isProtected
      rw [←hprot,update_eq_self]
    exact h.keep hp ht rfl rfl hsame rfl (fun _ => hprot) trivial nofun nofun fun _ hg => hg
  | false =>
    have hon : (s.protect t true).isProtected t=true := update_self _ _ _
    have hother : ∀ u, u ≠ t → (s.protect t true).isProtected u=s.isProtected u := fun u hu => update_of_ne hu _ _
    refine ⟨h.member_update rfl ht,h.session_update rfl hother (fun _ => hon),
      cleared_update rfl (fun u _ => (h.cleared u).congr rfl) trivial,h.entries,?_,
      h.owner_update hp rfl nofun,?_⟩
    · intro hne u hoff hu
      exact (h.joining_update t .refreshLoad rfl nofun hne u (fun hut => (hother u hut).symm.trans hoff) hu).2
    · intro hne hall
      have hfin : s.phaseFinished t=s.systemState.phase := hall t hon
      exact absurd (hfin.symm.trans (h.joining hne t hprot hp)) hne

/-- A session leaves; if the action is in a phase, another one has still to acknowledge it. -/
theorem ProgressInv.stop (hp : s.pc t=.idle) (hleaves : s.systemState.phase ≠ .rest →
      ∃ u, u ≠ t ∧ s.isProtected u=true ∧ s.phaseFinished u ≠ s.systemState.phase) : ProgressInv (s.protect t false) := by
  have hother : ∀ u, u ≠ t → (s.protect t false).isProtected u=s.isProtected u := fun u hu => update_of_ne hu _ _
  refine ⟨h.member,?_,fun u => (h.cleared u).congr rfl,h.entries,?_,h.owner,?_⟩
  · intro u hu
    have hut : u ≠ t := by
      rintro rfl
      rw [show (s.protect u false).pc u=s.pc u from rfl,hp] at hu
      cases hu
    exact (hother u hut).trans (h.session u hu)
  · intro hne u hoff hu
    have hut : u ≠ t := by
      rintro rfl
      rw [show (s.protect u false).pc u=s.pc u from rfl,hp] at hu
      cases hu
    exact h.joining hne u ((hother u hut).symm.trans hoff) hu
  · intro hne hall
    obtain ⟨u,hut,hon,hnot⟩ := hleaves hne
    exact absurd (hall u ((hother u hut).trans hon)) hnot

/-- `GlobalMoveToNextState` moves the word; nobody has acknowledged the next phase. -/
theorem ProgressInv.move (hwalk : WalkInv s) (ho : Inv s) {w next : SystemState} {seen : Option ℕ}
    (hp : s.pc t=.move w seen r) (hnext : w.getNextState=some next) (hsys : s.systemState=w) :
    ProgressInv ({ s with systemState := next }.goto t (.settle next r)) := by
  have hwo : WordOk s t w r := by
    have hok := hwalk.pcs t
    rw [hp] at hok
    exact hok
  have hne : s.systemState.phase ≠ .rest := by
    rw [hsys]
    exact ho.target t w (by rw [hp]; rfl)
  have hw := hwo.word (hwalk.sys hne).1
  have hon := h.session t (by rw [hp]; rfl)
  have ht := h.member t (by rw [hp]; nofun)
  refine ⟨h.member_update rfl ht,h.session_update rfl (fun _ _ => rfl) (fun _ => hon),
    cleared_update rfl (fun u _ => (h.cleared u).congr rfl) trivial,?_,?_,?_,?_⟩
  · intro hne' u h1 hle
    have hup := (hw.next hnext hne').2
    have hold := h.entries hne u h1 hle
    rw [hsys] at hold
    exact hold.trans hup.le
  · intro _ u hoff hu
    exact (h.joining_update t (.settle next r) rfl nofun hne u (fun _ => hoff) hu).2
  · intro hrest _
    refine ⟨t,?_⟩
    rw [goto_self]
    exact if_pos hrest
  · intro hne' hall
    have hup := (hw.next hnext hne').2
    have hold := h.entries hne t ht.1 ht.2.le
    have hfin : s.phaseFinished t=next.phase := hall t hon
    rw [hsys,hfin] at hold
    omega

/-- The thread writes a word in the rest phase. -/
theorem ProgressInv.rest (hp : s.pc t=p) (hin : PhaseProgress.inSession p=true) (hpc : s'.pc=update s.pc t pc)
    (hprot : s'.isProtected=s.isProtected) (hfin : ∀ u, u ≠ t → Cleared s' (s.pc u)) (hcleared : Cleared s' pc)
    (hrest : s'.systemState.phase=.rest) (howner : s'.systemState.action ≠ .none → owned pc=some s'.systemState) :
    ProgressInv s' := by
  have hon := h.session t (by rw [hp]; exact hin)
  have ht := h.member t (by rw [hp]; rintro rfl; cases hin)
  refine ⟨h.member_update hpc ht,h.session_update hpc (fun u _ => congrFun hprot u) ?_,
    cleared_update hpc hfin hcleared,fun hne => absurd hrest hne,fun hne => absurd hrest hne,?_,
    fun hne => absurd hrest hne⟩
  · rw [hprot]
    exact fun _ => hon
  · intro _ hact
    refine ⟨t,?_⟩
    rw [hpc,update_self]
    exact howner hact

/-- The first phase of an action is published; nobody has acknowledged it. -/
theorem ProgressInv.publish {a : Action} {v : UInt32} {q : Phase}
    (hp : s.pc t=.publish a v) (hfirst : a.firstPhase=some q) :
    ProgressInv ({ s with systemState := ⟨a,q,v⟩ }.goto t (afterPublish a)) := by
  have hon := h.session t (by rw [hp]; rfl)
  have ht := h.member t (by rw [hp]; nofun)
  have hclear : ClearedBelow s (kMaxNumThreads+1) := by
    have hc := h.cleared t
    rw [hp] at hc
    exact hc
  have hq := firstPhase_ne_rest hfirst
  refine ⟨h.member_update rfl ht,h.session_update rfl (fun _ _ => rfl) (fun _ => hon),
    cleared_update rfl (fun u _ => (h.cleared u).congr rfl) ?_,?_,?_,fun hrest => absurd hrest hq,?_⟩
  · cases a <;> trivial
  · intro _ u h1 hle
    change rank (s.phaseFinished u)≤_
    rw [hclear u h1 (by omega)]
    exact Nat.zero_le _
  · intro _ u hoff hu
    obtain ⟨h1,hlt⟩ := h.member_update rfl ht u (by rw [hu]; nofun)
    exact hclear u h1 (by omega)
  · intro _ hall
    have hfin : s.phaseFinished t=q := hall t hon
    exact absurd (hfin.symm.trans (hclear t ht.1 (by omega))) hq

/-- `ResetPhaseFinished` resets an entry. -/
theorem ProgressInv.reset (hwalk : WalkInv s) (ho : Inv s) {a : Action}
    {v : UInt32} {idx : ℕ} (hp : s.pc t=.reset a v idx) :
    ProgressInv ({ s with phaseFinished := update s.phaseFinished idx .rest }.goto t
      (if idx<kMaxNumThreads then .reset a v (idx+1) else .publish a v)) := by
  have hop : opening (s.pc t)=some (a, v) := by
    rw [hp]
    rfl
  have hsys := opened_word ho hop
  have hnext : ClearedBelow { s with phaseFinished := update s.phaseFinished idx .rest } (idx+1) := by
    intro u h1 hlt
    change update s.phaseFinished idx .rest u=.rest
    by_cases hu : u=idx
    · rw [hu,update_self]
    · have hc := h.cleared t
      rw [hp] at hc
      rw [update_of_ne hu]
      exact hc u h1 (by omega)
  refine h.rest hp rfl rfl rfl ?_ ?_ ?_ ?_
  · exact fun u hu => cleared_other hwalk (by rw [hp]; rfl) hu
  · split_ifs with hlt
    · exact hnext
    · exact fun u h1 hu => hnext u h1 (by omega)
  · change s.systemState.phase=.rest
    rw [hsys]
  · intro _
    change _=some s.systemState
    rw [hsys]
    split_ifs <;> rfl

/-- The steps of a call keep the invariant. -/
theorem ProgressInv.callStep (hwalk : WalkInv s) (ho : Inv s)
    (hs : callStep s t ready (s.pc t)=some s') : ProgressInv s' := by
  generalize hp : s.pc t=p at hs
  cases moves_of_callStep hs with
  | join hrest =>
    have ht := h.member t (by rw [hp]; rintro ⟨⟩)
    exact h.keep hp ht rfl rfl rfl rfl (by rintro ⟨⟩) trivial (fun _ => .inl hrest) (by rintro _ ⟨⟩) fun _ hg => hg
  | reject =>
    have ht := h.member t (by rw [hp]; rintro ⟨⟩)
    exact h.keep hp ht rfl rfl rfl rfl (by rintro ⟨⟩) trivial (by rintro ⟨⟩) (by rintro _ ⟨⟩) fun _ hg => hg
  | refresh => exact h.protect hp
  | iterate => exact h.pass hp rfl rfl rfl rfl rfl (cleared_of_not_opening (opening_afterWork _ _)) rfl id
  | leave =>
    refine h.pass hp rfl rfl rfl rfl rfl (cleared_of_not_opening ?_) rfl id
    split_ifs <;> rfl
  | ack => exact h.ack hwalk hp
  | scanPhase w idx =>
    have hon := h.session t (by rw [hp]; rfl)
    have ht := h.member t (by rw [hp]; rintro ⟨⟩)
    refine h.keep hp ht rfl rfl rfl rfl (fun _ => hon) trivial (by rintro ⟨⟩) (by rintro _ ⟨⟩) ?_
    intro hall hg
    have hw : w=s.systemState := hg
    refine ⟨hw,fun hidx => ?_⟩
    rw [hw]
    exact hall idx hidx
  | refuse _ _ _ r hrefused =>
    have hon := h.session t (by rw [hp]; rfl)
    have ht := h.member t (by rw [hp]; rintro ⟨⟩)
    refine h.keep hp ht rfl rfl rfl rfl (fun _ => hon)
      (cleared_of_not_opening (opening_afterRefusal r)) (fun _ => .inr hon) (by rintro _ ⟨⟩) ?_
    exact fun _ hg => absurd (hg.2 hrefused.1) hrefused.2
  | scanOn =>
    have hon := h.session t (by rw [hp]; rfl)
    have ht := h.member t (by rw [hp]; rintro ⟨⟩)
    refine h.keep hp ht rfl rfl rfl rfl (fun _ => hon)
      (cleared_of_not_opening (opening_scanFrom _ _ _ _)) (fun _ => .inr hon) (by rintro _ ⟨⟩) ?_
    intro _ hg
    unfold scanFrom
    split_ifs <;> exact hg.1
  | move _ _ _ _ hnext hsys => exact h.move hwalk ho hp hnext hsys
  | overtaken w _ r _ _ hsys =>
    have hon := h.session t (by rw [hp]; rfl)
    have ht := h.member t (by rw [hp]; rintro ⟨⟩)
    refine h.keep hp ht rfl rfl rfl rfl (fun _ => hon)
      (cleared_of_not_opening (opening_afterMove r)) (fun _ => .inr hon) (by rintro _ ⟨⟩) ?_
    intro _ hg
    have hw : w=s.systemState := hg
    exact absurd hw.symm hsys
  | close _ r =>
    exact h.rest hp rfl rfl rfl (fun u _ => (h.cleared u).congr rfl)
      (cleared_of_not_opening (opening_afterMove r)) rfl fun hact => absurd rfl hact
  | settle _ r hrest => exact h.pass hp rfl rfl rfl rfl rfl (cleared_of_not_opening (opening_afterMove r)) (if_neg hrest) id
  | spin => exact h
  | leaveSpin l => exact h.pass hp rfl rfl rfl rfl rfl (cleared_of_not_opening (opening_afterSplit l)) rfl id
  | start =>
    refine h.rest hp rfl rfl rfl (fun u _ => (h.cleared u).congr rfl) ?_ rfl fun _ => rfl
    exact fun u h1 hlt => absurd h1 (by omega)
  | reset => exact h.reset hwalk ho hp
  | publish _ _ _ hfirst => exact h.publish hp hfirst
  | _ => exact h.pass hp rfl rfl rfl rfl rfl trivial rfl id

/-- The calls of the sessions keep the invariant. -/
theorem ProgressInv.startCall {act : Act} (ht : 1≤t ∧ t<kMaxNumThreads)
    (hp : s.pc t=.idle) (hleaves : act=.stopSession → s.systemState.phase ≠ .rest →
      ∃ u, u ≠ t ∧ s.isProtected u=true ∧ s.phaseFinished u ≠ s.systemState.phase)
    (hs : startCall s t act=some s') : ProgressInv s' := by
  cases starts_of_startCall hs with
  | startSession => exact h.keep hp ht rfl rfl rfl rfl nofun trivial nofun nofun fun _ hg => hg
  | stopSession => exact h.stop hp (hleaves rfl)
  | refresh hon => exact h.keep hp ht rfl rfl rfl rfl nofun trivial (fun _ => .inr hon) nofun fun _ hg => hg
  | heavyEnter hon =>
    refine h.keep hp ht rfl rfl rfl rfl (fun _ => hon) (cleared_of_not_opening ?_) (fun _ => .inr hon)
      nofun fun _ hg => False.elim hg
    cases (s.ctx t).phase <;> rfl
  | start a hon =>
    obtain ⟨hon,-⟩ := hon
    exact h.keep hp ht rfl rfl rfl rfl (fun _ => hon) trivial nofun nofun fun _ hg => hg

end

theorem ProgressInv.of_quiescent (h : Quiescent s) : ProgressInv s := by
  obtain ⟨hnone,hrest,hidle,-⟩ := h
  refine ⟨?_,?_,?_,fun hne => absurd hrest hne,fun hne => absurd hrest hne,?_, fun hne => absurd hrest hne⟩
  · exact fun t ht => absurd (hidle t) ht
  · intro t ht
    rw [hidle] at ht
    cases ht
  · intro t
    rw [hidle]
    trivial
  · exact fun _ hact => absurd hnone hact

/-- The invariant of progress holds in every run that meets the condition. -/
theorem reachable_progress (hs : Reachable machine leavesSafely s) : Inv s ∧ WalkInv s ∧ ProgressInv s := by
  refine hs.invariant (P := fun s => Inv s ∧ WalkInv s ∧ ProgressInv s) ?_ ?_
  · exact fun s hi => ⟨.of_quiescent hi,.of_quiescent hi,.of_quiescent hi⟩
  · rintro s label s' ⟨ho,hwalk,h⟩ ⟨hfresh,hzero,hleaves⟩ hstep
    refine ⟨ho.step hstep,hwalk.step ho hfresh hstep,?_⟩
    obtain ⟨hlt,hcases⟩ := step_cases hstep
    rcases hcases with ⟨ready,-,hc⟩ | ⟨hidle,hc⟩
    · exact h.callStep hwalk ho hc
    · exact h.startCall ⟨Nat.pos_of_ne_zero hzero,hlt⟩ hidle hleaves hc

/-- Sessions that are protected refresh, or go on with a call. -/
def refreshing : Guard State Label := fun s label =>
  s.isProtected label.thread = true ∧ (label.act = .refresh ∨ ∃ ready, label.act = .step ready)

/-- The sessions that are protected can change the system state. -/
def Moves (s : State) : Prop := ∃ s', Run machine refreshing s s' ∧ s'.systemState ≠ s.systemState

section

variable (ht : t<kMaxNumThreads) (hon : s.isProtected t=true)

include ht hon

/-- A step of a protected session's call. -/
theorem run_own (hs : callStep s t true (s.pc t)=some s') : Run machine refreshing s s' :=
  Run.single (a := ⟨t,.step true⟩) ⟨hon,.inr ⟨true,rfl⟩⟩ ((if_pos ht).trans hs)

omit ht hon in
theorem Moves.of_run (h : Moves s') (hr : Run machine refreshing s s') (hsys : s'.systemState=s.systemState) : Moves s := by
  obtain ⟨s₂,hr₂,hne⟩ := h
  rw [hsys] at hne
  exact ⟨s₂,hr.trans hr₂,hne⟩

/-- `GlobalMoveToNextState` changes the word that it was asked to move. -/
theorem moves_of_move {seen : Option ℕ} (hp : s.pc t=.move s.systemState seen r) {next : SystemState}
    (hnext : s.systemState.getNextState=some next) (hne : next ≠ s.systemState) : Moves s := by
  refine ⟨{ s with systemState := next }.goto t (.settle next r),run_own ht hon ?_,hne⟩
  rw [hp]
  simp only [Phases.callStep,hnext,Option.map_some,if_true]

/-- The scan does not give up at an entry. -/
theorem moves_of_scanEpoch {idx : ℕ} {entry : Phase} (hp : s.pc t=.scanEpoch s.systemState idx entry r)
    (hentry : s.isProtected idx=true → entry=s.systemState.phase)
    (h : Moves (s.goto t (scanFrom s s.systemState (idx+1) r))) : Moves s := by
  refine h.of_run (run_own ht hon ?_) rfl
  rw [hp]
  exact if_neg fun hrefused => hrefused.2 (hentry hrefused.1)

theorem moves_of_scanPhase {idx : ℕ} (hall : AllAcked s) (hp : s.pc t=.scanPhase s.systemState idx r)
    (h : Moves ((s.goto t (.scanEpoch s.systemState idx (s.phaseFinished idx) r)).goto t
      (scanFrom s s.systemState (idx+1) r))) : Moves s := by
  have hentry : Moves (s.goto t (.scanEpoch s.systemState idx (s.phaseFinished idx) r)) :=
    moves_of_scanEpoch ht hon (goto_self _ _ _) (hall idx) h
  refine hentry.of_run (run_own ht hon ?_) rfl
  rw [hp]
  rfl

end

/-- The scan goes over the rest of the entries, which are all acknowledged, and the word is
moved. -/
theorem moves_of_scanFrom (k idx : ℕ) (hk : kMaxNumThreads < idx+k) (ht : t<kMaxNumThreads) (hon : s.isProtected t=true)
    (hall : AllAcked s) (hp : s.pc t=scanFrom s s.systemState idx r) {next : SystemState}
    (hnext : s.systemState.getNextState=some next) (hne : next ≠ s.systemState) : Moves s := by
  induction k generalizing s idx with
  | zero =>
    unfold scanFrom at hp
    rw [if_neg (by omega)] at hp
    exact moves_of_move ht hon hp hnext hne
  | succ k ih =>
    unfold scanFrom at hp
    split_ifs at hp with hle
    · refine moves_of_scanPhase ht hon hall hp ?_
      exact ih (idx+1) (by omega) hon hall (goto_self _ _ _) hnext hne
    · exact moves_of_move ht hon hp hnext hne

/-- A thread that is about to move the word can do so. -/
theorem Good.moves (hg : Good s (s.pc t)) (ht : t<kMaxNumThreads) (hon : s.isProtected t=true)
    (hall : AllAcked s) {next : SystemState} (hnext : s.systemState.getNextState=some next)
    (hne : next ≠ s.systemState) : Moves s := by
  cases hp : s.pc t with
  | scanPhase w idx r =>
    rw [hp] at hg
    cases (show w=s.systemState from hg)
    refine moves_of_scanPhase ht hon hall hp ?_
    exact moves_of_scanFrom kMaxNumThreads (idx+1) (by omega) ht hon hall (goto_self _ _ _) hnext hne
  | scanEpoch w idx entry r =>
    rw [hp] at hg
    obtain ⟨rfl,hentry⟩ := hg
    refine moves_of_scanEpoch ht hon hp hentry ?_
    exact moves_of_scanFrom kMaxNumThreads (idx+1) (by omega) ht hon hall (goto_self _ _ _) hnext hne
  | move w seen r =>
    rw [hp] at hg
    cases (show w=s.systemState from hg)
    exact moves_of_move ht hon hp hnext hne
  | _ =>
    rw [hp] at hg
    cases hg

/-- The thread that starts an action resets the rest of the entries and publishes its
first phase. -/
theorem moves_of_reset (k idx : ℕ) {a : Action} {v : UInt32} (hk : kMaxNumThreads ≤ idx+k)
    (ht : t<kMaxNumThreads) (hon : s.isProtected t=true) (hrest : s.systemState.phase=.rest)
    (hfirst : a.firstPhase.isSome) (hp : s.pc t=.reset a v idx ∨ s.pc t=.publish a v) : Moves s := by
  have hpublish : ∀ s : State, s.isProtected t=true → s.systemState.phase=.rest → s.pc t=.publish a v → Moves s := by
    intro s hon hrest hp
    obtain ⟨q,hq⟩ := Option.isSome_iff_exists.mp hfirst
    refine ⟨{ s with systemState := ⟨a,q,v⟩ }.goto t (afterPublish a),run_own ht hon ?_,?_⟩
    · rw [hp,Phases.callStep,hq]
      rfl
    · intro heq
      have hq' : q=s.systemState.phase := congrArg SystemState.phase heq
      exact firstPhase_ne_rest hq (hq'.trans hrest)
  induction k generalizing s idx with
  | zero =>
    rcases hp with hp | hp
    · have hlast : Moves ({ s with
          phaseFinished := update s.phaseFinished idx .rest }.goto t (.publish a v)) :=
        hpublish _ hon hrest (goto_self _ _ _)
      refine hlast.of_run (run_own ht hon ?_) rfl
      rw [hp,Phases.callStep,if_neg (by omega)]
    · exact hpublish s hon hrest hp
  | succ k ih =>
    rcases hp with hp | hp
    · have hrest' : Moves ({ s with
          phaseFinished := update s.phaseFinished idx .rest }.goto t
          (if idx<kMaxNumThreads then .reset a v (idx+1) else .publish a v)) := by
        refine ih (idx+1) (by omega) hon hrest ?_
        rw [goto_self]
        split_ifs
        · exact .inl rfl
        · exact .inr rfl
      refine hrest'.of_run (run_own ht hon ?_) rfl
      rw [hp]
      rfl
    · exact hpublish s hon hrest hp

/-- The owner of a word in the rest phase overwrites it. -/
theorem moves_of_owner (ho : Inv s) (ht : t<kMaxNumThreads) (hon : s.isProtected t=true)
    (hact : s.systemState.action ≠ .none) (howned : owned (s.pc t)=some s.systemState) : Moves s := by
  obtain ⟨-,hrest,-⟩ := ho.owner t _ howned
  have hstarting := ho.starting t
  cases hp : s.pc t with
  | reset a v idx =>
    rw [hp] at hstarting
    exact moves_of_reset kMaxNumThreads idx (by omega) ht hon hrest (hstarting a rfl) (.inl hp)
  | publish a v =>
    rw [hp] at hstarting
    exact moves_of_reset kMaxNumThreads 0 (by omega) ht hon hrest (hstarting a rfl) (.inr hp)
  | settle next r =>
    rw [hp] at howned
    obtain ⟨hnext,-⟩ := Option.ite_none_right_eq_some.mp howned
    refine ⟨{ s with systemState := ⟨.none,.rest,next.version⟩ }.goto t (afterMove r), run_own ht hon ?_,?_⟩
    · rw [hp]
      exact if_pos hnext
    · exact fun heq => hact (congrArg SystemState.action heq).symm
  | _ =>
    rw [hp] at howned
    cases howned

/-- An action is not stranded: if it is in progress and every session that is protected has
acknowledged its phase, those sessions change the system state by going on. -/
theorem action_not_stranded (hs : Reachable machine leavesSafely s)
    (hact : s.systemState.action ≠ .none) (hall : s.systemState.phase ≠ .rest → AllAcked s) :
    ∃ s', Run machine refreshing s s' ∧ s'.systemState ≠ s.systemState := by
  obtain ⟨ho,hwalk,h⟩ := reachable_progress hs
  by_cases hrest : s.systemState.phase=.rest
  · obtain ⟨t,howned⟩ := h.owner hrest hact
    have hin : inSession (s.pc t)=true := by
      cases hp : s.pc t <;> rw [hp] at howned <;> first | rfl | cases howned
    have ht := h.member t fun hidle => by rw [hidle] at hin; cases hin
    exact moves_of_owner ho ht.2 (h.session t hin) hact howned
  · obtain ⟨t,hg⟩ := h.good hrest (hall hrest)
    have hin := hg.inSession
    have ht := h.member t fun hidle => by rw [hidle] at hin; cases hin
    obtain ⟨-,hword⟩ := hwalk.sys hrest
    obtain ⟨next,hnext⟩ := hword.exists_next
    refine hg.moves ht.2 (h.session t hin) (hall hrest) hnext ?_
    rintro rfl
    exact lt_irrefl _ (hword.next hnext hrest).2

/-- Thread 1 moves alone and does not leave. -/
def staysCheck (s : State) (label : Label) : Bool :=
  PhaseLoop.aloneCheck s label && decide (label.act ≠ .stopSession)

theorem leavesSafely_of_alone (h : Alone s) (hcheck : staysCheck s label=true)
    (hs : step s label=some s') : leavesSafely s label ∧ Alone s' := by
  rw [staysCheck,Bool.and_eq_true,decide_eq_true_eq] at hcheck
  obtain ⟨hfresh,halone⟩ := startsFresh_of_alone h hcheck.1 hs
  refine ⟨⟨hfresh,?_,fun hstop => absurd hstop hcheck.2⟩,halone⟩
  have hthread := hcheck.1
  rw [aloneCheck,Bool.and_eq_true,decide_eq_true_eq] at hthread
  rw [hthread.1]
  exact Nat.one_ne_zero

/-- A session alone has acknowledged the first phase of a checkpoint, and moves it on. -/
theorem action_not_stranded_one : ∃ s s', Reachable machine leavesSafely s ∧
    s.systemState = ⟨.checkpointIndex, .prepIndexChkpt, 1⟩ ∧ AllAcked s ∧
    Run machine refreshing s s' ∧ s'.systemState ≠ s.systemState := by
  have hrun : (execGuarded machine staysCheck (sessions fun u => u == 1)
      (startAction 1 .checkpointIndex ++ ⟨1,.refresh⟩::steps 1 5)).any (fun s =>
        decide (s.systemState=⟨.checkpointIndex,.prepIndexChkpt,1⟩ ∧
          s.phaseFinished 1=.prepIndexChkpt))=true := by
    decide +kernel
  obtain ⟨s,hr,hend⟩ := exists_run_of_execGuarded (fun _ _ => id) hrun
  obtain ⟨hsys,hfin⟩ := of_decide_eq_true hend
  obtain ⟨hr',halone⟩ := hr.strengthen (fun _ _ _ => leavesSafely_of_alone) alone_sessions
  have hs : Reachable machine leavesSafely s := ⟨_,sessions_quiescent _,hr'⟩
  have hall : AllAcked s := by
    intro u hu
    by_cases hu1 : u=1
    · rw [hu1,hfin,hsys]
    · rw [(halone u hu1).1] at hu
      cases hu
  obtain ⟨s',hr'',hne⟩ := action_not_stranded hs (by rw [hsys]; nofun) fun _ => hall
  exact ⟨s,s',hs,hsys,hall,hr'',hne⟩

/-- The word of a growth of the index that waits for the sessions. -/
def growing : SystemState := ⟨.growIndex, .growPrepare, 1⟩

/-- Thread 1 is the only session and has acknowledged that the index is going to grow. -/
structure Stuck (s : State) : Prop where
  sys : s.systemState = growing
  only : ∀ u, s.isProtected u = true → u = 1
  ctx : s.ctx 1 = ⟨.growPrepare, 1⟩
  pc : s.pc 1 ∈ [.idle, .refresh, .refreshLoad, .handleLoad, .iterate growing growing,
    .leave ⟨growing, growing⟩]

/-- It does not look at the epoch table again. -/
theorem Stuck.callStep (h : Stuck s) (hs : callStep s 1 ready (s.pc 1)=some s') : Stuck s' := by
  obtain ⟨hsys,honly,hctx,hpc⟩ := h
  simp only [List.mem_cons,List.not_mem_nil,or_false] at hpc
  rcases hpc with hp | hp | hp | hp | hp | hp <;> rw [hp] at hs
  · cases hs
  · cases hs
    refine ⟨hsys,fun u hu => ?_,hctx,?_⟩
    · by_contra hu1
      refine hu1 (honly u ?_)
      rw [←show (s.protect 1 true).isProtected u=s.isProtected u from update_of_ne hu1 _ _]
      exact hu
    · rw [goto_self]
      decide
  · simp only [Phases.callStep,hctx] at hs
    rw [if_neg (fun hrest => by cases hrest.1)] at hs
    cases hs
    refine ⟨hsys,honly,hctx,?_⟩
    rw [goto_self]
    decide
  · simp only [Phases.callStep,hctx,hsys] at hs
    rw [if_neg (by rintro ⟨⟩)] at hs
    cases hs
    refine ⟨hsys,honly,hctx,?_⟩
    rw [goto_self]
    decide
  · have hs' : s'=(s.setCtx 1 (s.ctx 1)).goto 1 (.leave ⟨growing,growing⟩) := by
      cases hs
      rfl
    rw [hs']
    refine ⟨hsys,honly,?_,?_⟩
    · change update s.ctx 1 (s.ctx 1) 1=_
      rw [update_self,hctx]
    · rw [goto_self]
      decide
  · have hs' : s'=(s.setCtx 1 ⟨.growPrepare,1⟩).goto 1 .idle := by
      cases hs
      rfl
    rw [hs']
    refine ⟨hsys,honly,?_,?_⟩
    · change update s.ctx 1 ⟨.growPrepare,1⟩ 1=_
      rw [update_self]
    · rw [goto_self]
      decide

theorem Stuck.step (h : Stuck s) (hguard : refreshing s label) (hs : step s label=some s') : Stuck s' := by
  obtain ⟨hon,hact⟩ := hguard
  have ht := h.only _ hon
  rcases (step_cases hs).2 with ⟨ready,-,hc⟩ | ⟨hidle,hc⟩
  · rw [ht] at hc
    exact h.callStep hc
  · rcases hact with hact | ⟨ready,hact⟩
    · rw [hact,ht] at hc
      obtain ⟨-,rfl⟩ := of_guard hc
      refine ⟨h.sys,h.only,h.ctx,?_⟩
      rw [goto_self]
      decide
    · rw [hact] at hc
      cases hc

/-- Only the sessions on the threads 1 and 2 move. -/
def twoCheck (_ : State) (label : Label) : Bool := decide (label.thread = 1 ∨ label.thread = 2)

/-- Thread 1 starts a growth of the index and acknowledges it; then the session on thread 2
leaves, which has not refreshed. Thread 1 has acknowledged the phase and does not look at
the table again, so that the action never ends. -/
theorem action_stranded : ∃ s, Reachable machine anyStep s ∧ s.systemState = growing ∧
    s.isProtected 1 = true ∧ AllAcked s ∧
    ∀ s', Run machine refreshing s s' → s'.systemState = s.systemState := by
  have hrun : (execGuarded machine twoCheck (sessions fun u => u == 1 || u == 2)
      (startAction 1 .growIndex ++ steps 1 10 ++ [⟨2,.stopSession⟩])).any (fun s =>
        decide (s.systemState=growing ∧ s.isProtected 1=true ∧ s.isProtected 2=false ∧
          s.phaseFinished 1=.growPrepare ∧ s.ctx 1=⟨.growPrepare,1⟩ ∧ s.pc 1=.idle))=true := by
    decide +kernel
  obtain ⟨s,hr,hend⟩ := exists_run_of_execGuarded (fun _ _ => id) hrun
  obtain ⟨hsys,hon,hoff,hfin,hctx,hp⟩ := of_decide_eq_true hend
  have hothers : ∀ u, u ≠ 1 → u ≠ 2 → s.isProtected u=false := by
    refine hr.invariant (P := fun s => ∀ u, u ≠ 1 → u ≠ 2 → s.isProtected u=false) ?_ ?_
    · intro s label s' h hcheck hstep u h1 h2
      have hne : u ≠ label.thread := by
        rcases of_decide_eq_true hcheck with ht | ht
        · rw [ht]
          exact h1
        · rw [ht]
          exact h2
      rw [step_protected_other hstep hne]
      exact h u h1 h2
    · intro u h1 h2
      change (u == 1 || u == 2)=false
      rw [Bool.or_eq_false_iff,beq_eq_false_iff_ne,beq_eq_false_iff_ne]
      exact ⟨h1,h2⟩
  have honly : ∀ u, s.isProtected u=true → u=1 := by
    intro u hu
    by_contra h1
    by_cases h2 : u=2
    · rw [h2,hoff] at hu
      cases hu
    · rw [hothers u h1 h2] at hu
      cases hu
  refine ⟨s,⟨_,sessions_quiescent _,hr.mono fun _ _ _ => trivial⟩,hsys,hon,?_,?_⟩
  · intro u hu
    rw [honly u hu,hfin,hsys]
    rfl
  · intro s' hr'
    have hstuck : Stuck s := ⟨hsys,honly,hctx,by rw [hp]; decide⟩
    rw [hsys]
    exact (hr'.invariant (fun _ _ _ h hguard hstep => h.step hguard hstep) hstuck).sys

end

end FishStore.PhaseProgress
