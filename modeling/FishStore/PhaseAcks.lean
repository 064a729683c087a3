import FishStore.PhaseRounds

/-!
# How far a session can lag behind the system state

While a phase is in progress every session has acknowledged all earlier phases of the
action, except the index checkpoint of a full checkpoint, which nobody is asked for. A
session acknowledges a phase of a log checkpoint only when it has come to that phase
itself. So a session's own phase is never more than one acknowledged phase behind the
system state, and when the action is over it has come to the last phase.
-/

namespace FishStore.PhaseAcks

open Runs Phases PhaseWalk PhaseRounds PhaseInvariant
open LightEpoch (kMaxNumThreads)
open PhaseBarrier (engaged)

/-- The place of the phase that the caller of `FinishThreadPhase` has come to. -/
def retRank (c : Context) : Return → ℕ
  | .loop l => rank l.cur.phase
  | .split (some l) => rank l.cur.phase
  | .split none => rank c.phase

/-- The place of the phase that a session has come to. -/
def progress (c : Context) : Pc → ℕ
  | .iterate _ prev => rank prev.phase
  | .leave l => rank l.cur.phase
  | .ack _ r => retRank c r
  | .scanPhase _ _ r => retRank c r
  | .scanEpoch _ _ _ r => retRank c r
  | .move _ _ r => retRank c r
  | .settle _ r => retRank c r
  | .split l => retRank c (.split l)
  | .spin l => retRank c (.split l)
  | _ => rank c.phase

/-- The thread is inside `HandleSpecialPhases` or `SplitHashTableBuckets`. -/
def inLoop : Pc → Bool
  | .iterate _ _ => true
  | .leave _ => true
  | .ack _ _ => true
  | .scanPhase _ _ _ => true
  | .scanEpoch _ _ _ _ => true
  | .move _ _ _ => true
  | .settle _ _ => true
  | .split _ => true
  | .spin _ => true
  | _ => false

/-- The session has taken up the latest action and not yet seen that it is over. -/
def Taking (s : State) (u : ℕ) : Prop := inLoop (s.pc u) = true ∨ (s.ctx u).phase ≠ .rest

/-- A checkpoint of the log. -/
def IsLogCheckpoint (a : Action) : Prop := a = .checkpointFull ∨ a = .checkpointHybridLog

/-- A phase that the sessions are asked to acknowledge. -/
def Asked (a : Action) (q : Phase) : Prop := q ∈ phases a ∧ q ≠ .rest ∧ q ≠ .indexChkpt

/-- The threads whose entries of the epoch table are scanned. -/
def Tracked (u : ℕ) : Prop := 1 ≤ u ∧ u < kMaxNumThreads

/-- The thread is past the first step of `Refresh`, or in a call that only sessions make. -/
def staysOn : Pc → Bool
  | .idle => false
  | .sessionLoad => false
  | .refresh => false
  | _ => true

/-- What is acknowledged is where the loop stands. -/
def RetAck (w : SystemState) : Return → Prop
  | .loop l => w = l.cur
  | .split _ => w.phase = .growInProgress

/-- What is acknowledged and moved on is where the loop stands. -/
def PcAck : Pc → Prop
  | .ack w r => RetAck w r
  | .scanPhase w _ r => RetAck w r
  | .scanEpoch w _ _ r => RetAck w r
  | .move w _ r => RetAck w r
  | .settle next r => ∃ w, RetAck w r ∧ w.phase ≠ .rest ∧ w.getNextState = some next
  | _ => True

/-- The invariant of the acknowledgements. -/
structure AckInv (s : State) : Prop where
  /-- The earlier phases of an action in progress are acknowledged. -/
  passed : s.systemState.phase ≠ .rest → ∀ q, Asked s.origin.action q →
    rank q < rank s.systemState.phase → ∀ u, Tracked u → s.isProtected u = true → s.acked u q = true
  /-- All phases of an action that is over are acknowledged by those who took part in it. -/
  finished : s.started ≠ 0 → s.systemState.phase = .rest → ∀ q, Asked s.origin.action q → ∀ u, Tracked u →
    s.isProtected u = true → Taking s u → s.acked u q = true
  /-- A session acknowledges only phases that it has come to. -/
  reached : s.started ≠ 0 → IsLogCheckpoint s.origin.action → ∀ u,
    s.systemState.phase ≠ .rest ∨ Taking s u → ∀ q, s.acked u q = true → rank q ≤ progress (s.ctx u) (s.pc u)
  pcs : ∀ u, PcAck (s.pc u)
  on : ∀ u, staysOn (s.pc u) = true → s.isProtected u = true
  /-- A session that is joining is in the rest phase. -/
  joining : ∀ u, s.pc u = .refresh → s.isProtected u = false → (s.ctx u).phase = .rest

section

variable {s s' : State} {t u : ℕ} {pc p : Pc} {ready : Bool} {label : Label} {w next : SystemState}

/-- Between a word and the next one there is no other phase. -/
theorem rank_le_of_next {o : SystemState} {q : Phase} (h : OnWalk o w) (hn : w.getNextState=some next)
    (hq : q ∈ phases o.action) (hlt : next.phase ≠ .rest → rank q<rank next.phase) : rank q≤rank w.phase := by
  obtain ⟨act,start,v⟩ := o
  obtain ⟨act',ph,v'⟩ := w
  obtain ⟨ha,hph,hv⟩ := h
  dsimp only at ha hph hv hq
  subst ha hv
  cases act' <;> simp only [phases,List.mem_cons,List.not_mem_nil,or_false] at hph hq <;>
    rcases hph with rfl | rfl | rfl | rfl | rfl | rfl | rfl | rfl <;> cases hn <;>
    rcases hq with rfl | rfl | rfl | rfl | rfl | rfl | rfl | rfl <;>
    first
    | (simp [rank] at hlt; done)
    | simp [rank]

/-- The steps of one thread that leave the phase of the system. -/
theorem AckInv.advance (h : AckInv s) (pc : Pc) (hpc : s'.pc=Function.update s.pc t pc)
    (hphase : s'.systemState.phase=s.systemState.phase) (horigin : s'.origin=s.origin) (hstarted : s'.started=s.started)
    (hctx : ∀ u, u ≠ t → s'.ctx u=s.ctx u) (hprot : ∀ u, u ≠ t → s'.isProtected u=s.isProtected u)
    (hother : ∀ u q, u ≠ t → s'.acked u q=s.acked u q) (hacked : ∀ q, s.acked t q=true → s'.acked t q=true)
    (henter : s'.isProtected t=true → s.isProtected t=true ∨ (s.systemState.phase=.rest ∧ ¬Taking s' t))
    (htake : s.systemState.phase=.rest → Taking s' t → Taking s t)
    (hreach : s.started ≠ 0 → IsLogCheckpoint s.origin.action → s.systemState.phase ≠ .rest ∨ Taking s' t →
      ∀ q, s'.acked t q=true → rank q≤progress (s'.ctx t) pc) (hok : PcAck pc)
    (hon : staysOn pc=true → s'.isProtected t=true)
    (hjoin : pc=.refresh → s'.isProtected t=false → (s'.ctx t).phase=.rest) : AckInv s' := by
  have hself : s'.pc t=pc := by
    rw [hpc]
    exact Function.update_self _ _ _
  have hpcu : ∀ u, u ≠ t → s'.pc u=s.pc u := by
    intro u hu
    rw [hpc]
    exact Function.update_of_ne hu _ _
  have htaking : ∀ u, u ≠ t → (Taking s' u ↔ Taking s u) := by
    intro u hu
    unfold Taking
    rw [hpcu u hu,hctx u hu]
  refine ⟨?_,?_,?_,?_,?_,?_⟩
  · rw [hphase,horigin]
    intro hne q hq hlt u hu hin
    by_cases hut : u=t
    · rw [hut] at hin hu ⊢
      rcases henter hin with hin | ⟨hrest,-⟩
      · exact hacked q (h.passed hne q hq hlt t hu hin)
      · exact absurd hrest hne
    · rw [hprot u hut] at hin
      rw [hother u q hut]
      exact h.passed hne q hq hlt u hu hin
  · rw [hphase,horigin,hstarted]
    intro hn hrest q hq u hu hin htk
    by_cases hut : u=t
    · rw [hut] at hin hu htk ⊢
      rcases henter hin with hin | ⟨-,hnot⟩
      · exact hacked q (h.finished hn hrest q hq t hu hin (htake hrest htk))
      · exact absurd htk hnot
    · rw [hprot u hut] at hin
      rw [htaking u hut] at htk
      rw [hother u q hut]
      exact h.finished hn hrest q hq u hu hin htk
  · rw [hphase,horigin,hstarted]
    intro hn hlog u hact q hq
    by_cases hut : u=t
    · rw [hut] at hact hq ⊢
      rw [hself]
      exact hreach hn hlog hact q hq
    · rw [htaking u hut] at hact
      rw [hother u q hut] at hq
      rw [hctx u hut,hpcu u hut]
      exact h.reached hn hlog u hact q hq
  · intro u
    by_cases hut : u=t
    · rw [hut,hself]
      exact hok
    · rw [hpcu u hut]
      exact h.pcs u
  · intro u
    by_cases hut : u=t
    · rw [hut,hself]
      exact hon
    · rw [hpcu u hut,hprot u hut]
      exact h.on u
  · intro u
    by_cases hut : u=t
    · rw [hut,hself]
      exact hjoin
    · rw [hpcu u hut,hprot u hut,hctx u hut]
      exact h.joining u

/-- The steps of one thread that acknowledge nothing and do not fall behind. -/
theorem AckInv.keep (h : AckInv s) (pc : Pc) (hpc : s'.pc=Function.update s.pc t pc)
    (hphase : s'.systemState.phase=s.systemState.phase) (horigin : s'.origin=s.origin) (hstarted : s'.started=s.started)
    (hctx : ∀ u, u ≠ t → s'.ctx u=s.ctx u) (hprot : ∀ u, u ≠ t → s'.isProtected u=s.isProtected u)
    (hacked : s'.acked=s.acked)
    (henter : s'.isProtected t=true → s.isProtected t=true ∨ (s.systemState.phase=.rest ∧ ¬Taking s' t))
    (htake : s.systemState.phase=.rest → Taking s' t → Taking s t)
    (hle : s.started ≠ 0 → IsLogCheckpoint s.origin.action → s.systemState.phase ≠ .rest ∨ Taking s' t →
      progress (s.ctx t) (s.pc t)≤progress (s'.ctx t) pc) (hok : PcAck pc) (hon : staysOn pc=true → s'.isProtected t=true)
    (hjoin : pc=.refresh → s'.isProtected t=false → (s'.ctx t).phase=.rest) : AckInv s' := by
  refine h.advance (t := t) pc hpc hphase horigin hstarted hctx hprot ?_ ?_ henter htake ?_ hok hon hjoin
  · intro u q _
    rw [hacked]
  · intro q hq
    rw [hacked]
    exact hq
  · intro hn hlog hact q hq
    rw [hacked] at hq
    have hact' : s.systemState.phase ≠ .rest ∨ Taking s t := by
      by_cases hrest : s.systemState.phase=.rest
      · exact .inr (htake hrest (hact.resolve_left fun hne => hne hrest))
      · exact .inl hrest
    exact (h.reached hn hlog t hact' q hq).trans (hle hn hlog hact)

/-- A thread of a session goes on, with the context that it has. -/
theorem AckInv.pass (h : AckInv s) (hp : s.pc t=p) (hpc : s'.pc=s.pc) (hphase : s'.systemState.phase=s.systemState.phase)
    (horigin : s'.origin=s.origin) (hstarted : s'.started=s.started) (hctx : s'.ctx=s.ctx)
    (hprot : s'.isProtected=s.isProtected) (hacked : s'.acked=s.acked)
    (htake : inLoop pc=true → inLoop p=true ∨ (s.ctx t).phase ≠ .rest) (hle : progress (s.ctx t) p≤progress (s.ctx t) pc)
    (hok : PcAck pc) (hon : staysOn pc=true → staysOn p=true ∨ s.isProtected t=true)
    (hjoin : pc=.refresh → s.isProtected t=true ∨ (s.ctx t).phase=.rest) : AckInv (s'.goto t pc) := by
  refine h.keep (t := t) pc ?_ hphase horigin hstarted (fun u _ => congrFun hctx u)
    (fun u _ => congrFun hprot u) hacked ?_ ?_ ?_ hok ?_ ?_
  · rw [←hpc]
    rfl
  · intro hon
    exact .inl ((congrFun hprot t).symm.trans hon)
  · rintro - (hin | hne)
    · rw [goto_self] at hin
      unfold Taking
      rw [hp]
      exact htake hin
    · refine .inr ?_
      rw [←hctx]
      exact hne
  · intro _ _ _
    rw [hp]
    change _≤progress (s'.ctx t) pc
    rw [hctx]
    exact hle
  · intro hstay
    refine (congrFun hprot t).trans ?_
    rcases hon hstay with hp' | hin
    · refine h.on t ?_
      rw [hp]
      exact hp'
    · exact hin
  · intro hr hoff
    have hoff' : s.isProtected t=false := (congrFun hprot t).symm.trans hoff
    change (s'.ctx t).phase=.rest
    rw [hctx]
    refine (hjoin hr).resolve_left fun hon => ?_
    rw [hoff'] at hon
    cases hon

theorem not_log_of_grow {o : SystemState} {v : UInt32} {a : Action} (h : OnWalk o ⟨a,.growInProgress,v⟩) :
    ¬IsLogCheckpoint o.action := by
  rw [growInProgress_action h]
  rintro (hlog | hlog) <;> cases hlog

theorem progress_afterMove (c : Context) (r : Return) : progress c (afterMove r)=retRank c r := by
  rcases r with l | ⟨_ | l⟩ <;> rfl

theorem progress_afterRefusal (c : Context) (r : Return) : progress c (afterRefusal r)=retRank c r := by
  rcases r with l | l <;> rfl

theorem progress_afterWork (c : Context) (l : Loop) (work : Work) : progress c (afterWork l work)=rank l.cur.phase := by
  cases work <;> rfl

theorem progress_scanFrom (c : Context) (s : State) (w : SystemState) (idx : ℕ) (r : Return) :
    progress c (scanFrom s w idx r)=retRank c r := by
  unfold scanFrom
  split_ifs <;> rfl

theorem pcAck_afterMove (r : Return) : PcAck (afterMove r) := by rcases r with l | ⟨_ | l⟩ <;> trivial

theorem pcAck_scanFrom {r : Return} (h : RetAck w r) (s : State) (idx : ℕ) : PcAck (scanFrom s w idx r) := by
  unfold scanFrom
  split_ifs <;> exact h

theorem pcAck_afterRefusal (r : Return) : PcAck (afterRefusal r) := by cases r <;> trivial

theorem pcAck_afterWork (l : Loop) (work : Work) : PcAck (afterWork l work) := by cases work <;> first | rfl | trivial

theorem afterMove_ne_refresh (r : Return) : afterMove r ≠ .refresh := by rcases r with l | ⟨_ | l⟩ <;> rintro ⟨⟩

theorem afterRefusal_ne_refresh (r : Return) : afterRefusal r ≠ .refresh := by cases r <;> rintro ⟨⟩

theorem afterWork_ne_refresh (l : Loop) (work : Work) : afterWork l work ≠ .refresh := by cases work <;> rintro ⟨⟩

theorem scanFrom_ne_refresh (s : State) (w : SystemState) (idx : ℕ) (r : Return) :
    scanFrom s w idx r ≠ .refresh := by
  unfold scanFrom
  split_ifs <;> rintro ⟨⟩

/-- A word of the system moves on: the phase that is left was acknowledged. -/
theorem AckInv.move (h : AckInv s) (ho : Inv s) (hwalk : WalkInv s) (hround : RoundInv s)
    {seen : Option ℕ} {r : Return} (hp : s.pc t=.move w seen r) (hsys : s.systemState=w)
    (hn : w.getNextState=some next) :
    AckInv ({ s with systemState := next }.goto t (.settle next r)) := by
  have hw : w.phase ≠ .rest := ho.target t w (by rw [hp]; rfl)
  have hne : s.systemState.phase ≠ .rest := by
    rw [hsys]
    exact hw
  obtain ⟨-,hon⟩ := hwalk.sys hne
  rw [hsys] at hon
  have hok := hround.pcs t
  rw [hp] at hok
  have hleft : ∀ q, Asked s.origin.action q → (next.phase ≠ .rest → rank q<rank next.phase) →
      ∀ u, Tracked u → s.isProtected u=true → s.acked u q=true := by
    intro q hq hlt u hu hprot
    rcases (rank_le_of_next hon hn hq.1 hlt).lt_or_eq with hbefore | hat
    · refine h.passed hne q hq ?_ u hu hprot
      rw [hsys]
      exact hbefore
    · have heq : q=w.phase := rank_inj hq.1 hon.phase hat
      cases seen with
      | none => exact absurd (heq.trans (hok.2 rfl)) hq.2.2
      | some i =>
        rw [heq]
        exact hok.1 rfl hne u hu.1 (Nat.lt_succ_of_lt hu.2) hprot
  have hprogress : ∀ u, progress (s.ctx u) ((s.goto t (.settle next r)).pc u) = progress (s.ctx u) (s.pc u) := by
    intro u
    by_cases hut : u=t
    · rw [hut,goto_self,hp]
      rfl
    · rw [goto_of_ne hut]
  have hword : RetAck w r := by
    have hpk := h.pcs t
    rw [hp] at hpk
    exact hpk
  refine ⟨?_,?_,?_,?_,?_,?_⟩
  · exact fun hne' q hq hlt => hleft q hq fun _ => hlt
  · exact fun _ hrest q hq u hu hprot _ => hleft q hq (fun hne' => absurd hrest hne') u hu hprot
  · intro hn' hlog u _ q hq
    refine (h.reached hn' hlog u (.inl hne) q hq).trans (hprogress u).ge
  · intro u
    by_cases hut : u=t
    · rw [hut,goto_self]
      exact ⟨w,hword,hw,hn⟩
    · rw [goto_of_ne hut]
      exact h.pcs u
  · intro u
    by_cases hut : u=t
    · rw [hut]
      exact fun _ => h.on t (by rw [hp]; rfl)
    · rw [goto_of_ne hut]
      exact h.on u
  · intro u hr hoff
    by_cases hut : u=t
    · rw [hut,goto_self] at hr
      cases hr
    · rw [goto_of_ne hut] at hr
      exact h.joining u hr hoff

theorem inLoop_of_not_engaged (h : engaged pc=false) : inLoop pc=false := by cases pc <;> first | rfl | cases h

/-- A session in the rest phase that is not in the loop takes part in nothing. -/
theorem not_taking (hctx : (s.ctx u).phase=.rest) (hin : inLoop (s.pc u)=false) : ¬Taking s u := by
  rintro (htrue | hne)
  · rw [hin] at htrue
    cases htrue
  · exact hne hctx

/-- An action starts when the sessions are in the rest phase. -/
theorem AckInv.start (h : AckInv s) {a : Action} {v : UInt32} (hp : s.pc t=.startSwap a v)
    (hfresh : ∀ u, Live s u → s.ctx u=⟨.rest,v⟩ ∧ engaged (s.pc u)=false) :
    AckInv ((s.start a v).goto t (.reset a v 1)) := by
  refine ⟨fun hne => absurd rfl hne,?_,?_,?_,?_,?_⟩
  · intro _ _ q _ u _ hprot htk
    obtain ⟨hctx,hen⟩ := hfresh u (.inl hprot)
    refine absurd htk (not_taking ?_ ?_)
    · change (s.ctx u).phase=.rest
      rw [hctx]
    · by_cases hut : u=t
      · rw [hut,goto_self]
        rfl
      · rw [goto_of_ne hut]
        exact inLoop_of_not_engaged hen
  · intro _ _ u _ q hq
    cases hq
  · intro u
    by_cases hut : u=t
    · rw [hut,goto_self]
      trivial
    · rw [goto_of_ne hut]
      exact h.pcs u
  · intro u
    by_cases hut : u=t
    · rw [hut]
      exact fun _ => h.on t (by rw [hp]; rfl)
    · rw [goto_of_ne hut]
      exact h.on u
  · intro u hr hoff
    by_cases hut : u=t
    · rw [hut,goto_self] at hr
      cases hr
    · rw [goto_of_ne hut] at hr
      exact h.joining u hr hoff

/-- Before the first phase of an action there is only the rest phase. -/
theorem rank_firstPhase {a : Action} {q q' : Phase} (hfirst : a.firstPhase=some q) (hq : q' ∈ phases a)
    (hne : q' ≠ .rest) : rank q≤rank q' := by
  cases a <;> cases hfirst <;> simp only [phases,List.mem_cons,List.not_mem_nil,or_false] at hq <;>
    rcases hq with rfl | rfl | rfl | rfl | rfl | rfl | rfl | rfl <;>
    first
    | exact absurd rfl hne
    | decide

/-- The first phase of an action is published. -/
theorem AckInv.publish (h : AckInv s) (hwalk : WalkInv s) (hround : RoundInv s) {a : Action} {v : UInt32}
    {q : Phase} (hp : s.pc t=.publish a v) (hfirst : a.firstPhase=some q)
    (hjoined : ∀ u, Live s u → s.isProtected u=true) :
    AckInv ({ s with systemState := ⟨a,q,v⟩ }.goto t (afterPublish a)) := by
  have hop : opening (s.pc t)=some (a, v) := by
    rw [hp]
    rfl
  obtain ⟨⟨-,horigin⟩,-⟩ := hwalk.opened t a v hop
  have hunacked : Unacked s := by
    have hok := hround.pcs t
    rw [hp] at hok
    exact hok.1
  refine ⟨?_,?_,?_,?_,?_,?_⟩
  · intro _ q' hq hlt
    change Asked s.origin.action q' at hq
    rw [horigin] at hq
    exact absurd hlt (Nat.not_lt.mpr (rank_firstPhase hfirst hq.1 hq.2.1))
  · exact fun _ hrest => absurd hrest (firstPhase_ne_rest hfirst)
  · intro _ _ u _ q' hq
    have hno := hunacked u q'
    rw [show s.acked u q'=true from hq] at hno
    cases hno
  · intro u
    by_cases hut : u=t
    · rw [hut,goto_self]
      cases a <;> trivial
    · rw [goto_of_ne hut]
      exact h.pcs u
  · intro u
    by_cases hut : u=t
    · rw [hut]
      exact fun _ => h.on t (by rw [hp]; rfl)
    · rw [goto_of_ne hut]
      exact h.on u
  · intro u hr hoff
    by_cases hut : u=t
    · have hon := hjoined u (by rw [hut]; exact live_of_opening hop)
      rw [show s.isProtected u=false from hoff] at hon
      cases hon
    · rw [goto_of_ne hut] at hr
      exact h.joining u hr hoff

/-- The steps of a call keep the invariant. -/
theorem AckInv.callStep (h : AckInv s) (ho : Inv s) (hwalk : WalkInv s) (hround : RoundInv s)
    (hfresh : ∀ a v, s.pc t=.startSwap a v → s.systemState=⟨.none,.rest,v⟩ →
      ∀ u, Live s u → s.ctx u=⟨.rest,v⟩ ∧ engaged (s.pc u)=false)
    (hjoined : ∀ a v, s.pc t=.publish a v → ∀ u, Live s u → s.isProtected u=true)
    (hs : callStep s t ready (s.pc t)=some s') : AckInv s' := by
  have hok := hwalk.pcs t
  have hset : ∀ c u, u ≠ t → (s.setCtx t c).ctx u=s.ctx u := fun c u hu => Function.update_of_ne hu _ _
  have hself : ∀ c, (s.setCtx t c).ctx t=c := fun c => Function.update_self _ _ _
  have hstay := h.on t
  -- A session that takes the context of the rest phase outside the loop is out of the action.
  have hreload : ∀ v pc, s.systemState.phase=.rest → inLoop pc=false → PcAck pc → staysOn pc=false →
      AckInv ((s.setCtx t ⟨.rest,v⟩).goto t pc) := by
    intro v pc hrest hin hack hout
    have hnot : ¬Taking ((s.setCtx t ⟨.rest,v⟩).goto t pc) t := by
      refine not_taking ?_ ?_
      · change ((s.setCtx t ⟨.rest,v⟩).ctx t).phase=.rest
        rw [hself]
      · rw [goto_self]
        exact hin
    refine h.keep (t := t) pc rfl rfl rfl rfl (hset _) (fun _ _ => rfl) rfl .inl
      (fun _ htk => absurd htk hnot) ?_ hack ?_ ?_
    · rintro - - (hne | htk)
      · exact absurd hrest hne
      · exact absurd htk hnot
    · intro htrue
      rw [hout] at htrue
      cases htrue
    · intro _ _
      change ((s.setCtx t ⟨.rest,v⟩).ctx t).phase=.rest
      rw [hself]
  generalize hp : s.pc t=p at hs hok
  cases moves_of_callStep hs with
  | join hrest | reload hrest => exact hreload _ _ hrest rfl trivial rfl
  | reject => exact h.pass hp rfl rfl rfl rfl rfl rfl rfl (by rintro ⟨⟩) le_rfl trivial (by rintro ⟨⟩) (by rintro ⟨⟩)
  | refresh =>
    have hother : ∀ u, u ≠ t → (s.protect t true).isProtected u=s.isProtected u := fun u hu => Function.update_of_ne hu _ _
    have htake : Taking ((s.protect t true).goto t .refreshLoad) t → Taking s t := by
      rintro (hin | hne)
      · rw [goto_self] at hin
        cases hin
      · exact .inr hne
    refine h.keep (t := t) .refreshLoad rfl rfl rfl rfl (fun _ _ => rfl) hother rfl ?_ (fun _ => htake) ?_
      trivial (fun _ => Function.update_self _ _ _) (by rintro ⟨⟩)
    · intro _
      by_cases hrest : s.systemState.phase=.rest
      · cases hprot : s.isProtected t with
        | true => exact .inl rfl
        | false =>
          refine .inr ⟨hrest,not_taking (h.joining t hp hprot) ?_⟩
          rw [goto_self]
          rfl
      · refine .inl (hround.joined hrest t (.inr ?_))
        rw [hp]
        exact ⟨(by rintro ⟨⟩),(by rintro ⟨⟩)⟩
    · intro _ _ _
      rw [hp]
      exact le_rfl
  | enter hrest =>
    refine h.keep (t := t) _ rfl rfl rfl rfl (fun _ _ => rfl) (fun _ _ => rfl) rfl .inl
      (fun hr => absurd hr hrest) ?_ trivial (fun _ => hstay (by rw [hp]; rfl)) (by rintro ⟨⟩)
    intro _ _ _
    rw [hp]
    exact le_rfl
  | iterate final prev _ hcur =>
    have hin := hstay (by rw [hp]; rfl)
    obtain ⟨cur',hcur',-,hlt⟩ := hok.1.step
    cases hcur.symm.trans hcur'
    refine h.keep (t := t) _ rfl rfl rfl rfl (hset _) (fun _ _ => rfl) rfl .inl ?_ ?_
      (pcAck_afterWork _ _) (fun _ => hin) (fun hr => absurd hr (afterWork_ne_refresh _ _))
    · intro _ _
      refine .inl ?_
      rw [hp]
      rfl
    · intro _ _ _
      rw [hp,progress_afterWork]
      by_cases heq : prev=final
      · rw [if_pos heq] at hcur
        cases hcur
        rw [heq]
        exact le_rfl
      · exact (hlt heq).le
  | leave l =>
    have hin := hstay (by rw [hp]; rfl)
    refine h.keep (t := t) _ rfl rfl rfl rfl (hset _) (fun _ _ => rfl) rfl .inl ?_ ?_ ?_ (fun _ => hin) ?_
    · intro _ _
      refine .inl ?_
      rw [hp]
      rfl
    · intro _ _ _
      rw [hp]
      change _≤progress ((s.setCtx t ⟨l.cur.phase,l.cur.version⟩).ctx t) _
      rw [hself]
      split_ifs <;> exact le_rfl
    · split_ifs <;> trivial
    · split_ifs <;> rintro ⟨⟩
  | ack w r =>
    have hin := hstay (by rw [hp]; rfl)
    have hpk := h.pcs t
    rw [hp] at hpk
    refine h.advance (t := t) (.scanPhase w 1 r) rfl rfl rfl rfl (fun _ _ => rfl) (fun _ _ => rfl) ?_ ?_ .inl
      ?_ ?_ hpk (fun _ => hin) (by rintro ⟨⟩)
    · intro u q hu
      change (s.acked u q || (decide (u=t) && decide (q=w.phase)))=s.acked u q
      rw [decide_eq_false hu,Bool.false_and,Bool.or_false]
    · intro q hq
      change (s.acked t q || (decide (t=t) && decide (q=w.phase)))=true
      rw [hq,Bool.true_or]
    · intro _ _
      refine .inl ?_
      rw [hp]
      rfl
    · intro hn hlog _ q hq
      have hq' : (s.acked t q || (decide (t=t) && decide (q=w.phase)))=true := hq
      rcases Bool.or_eq_true_iff.mp hq' with hold | hnew
      · have htk : Taking s t := by
          refine .inl ?_
          rw [hp]
          rfl
        have hle := h.reached hn hlog t (.inr htk) q hold
        rw [hp] at hle
        exact hle
      · have hqw : q=w.phase := of_decide_eq_true (Bool.and_eq_true_iff.mp hnew).2
        rw [hqw]
        rcases r with l | l
        · rw [show w=l.cur from hpk]
          exact le_rfl
        · -- Buckets are split when the index grows.
          have hon := hok.word hn
          obtain ⟨a,ph,v⟩ := w
          cases (show ph=.growInProgress from hpk)
          exact absurd hlog (not_log_of_grow hon)
  | scanPhase =>
    have hpk := h.pcs t
    rw [hp] at hpk
    exact h.pass hp rfl rfl rfl rfl rfl rfl rfl (fun _ => .inl rfl) le_rfl hpk (fun _ => .inl rfl) (by rintro ⟨⟩)
  | refuse _ _ _ r =>
    have hpk := h.pcs t
    rw [hp] at hpk
    exact h.pass hp rfl rfl rfl rfl rfl rfl rfl (fun _ => .inl rfl) (progress_afterRefusal _ r).ge
      (pcAck_afterRefusal r) (fun _ => .inl rfl) (fun hr => absurd hr (afterRefusal_ne_refresh r))
  | scanOn _ _ _ r =>
    have hpk := h.pcs t
    rw [hp] at hpk
    exact h.pass hp rfl rfl rfl rfl rfl rfl rfl (fun _ => .inl rfl) (progress_scanFrom _ _ _ _ r).ge
      (pcAck_scanFrom hpk _ _) (fun _ => .inl rfl) (fun hr => absurd hr (scanFrom_ne_refresh _ _ _ r))
  | move _ _ _ _ hn hsys => exact h.move ho hwalk hround hp hsys hn
  | overtaken _ _ r | settle _ r =>
    exact h.pass hp rfl rfl rfl rfl rfl rfl rfl (fun _ => .inl rfl) (progress_afterMove _ r).ge
      (pcAck_afterMove r) (fun _ => .inl rfl) (fun hr => absurd hr (afterMove_ne_refresh r))
  | close next r hrest =>
    have hown : owned (s.pc t)=some next := by
      rw [hp]
      exact if_pos hrest
    have hsys : s.systemState.phase=.rest := by
      rw [(ho.owner t next hown).1]
      exact hrest
    exact h.pass hp rfl hsys.symm rfl rfl rfl rfl rfl (fun _ => .inl rfl) (progress_afterMove _ r).ge
      (pcAck_afterMove r) (fun _ => .inl rfl) (fun hr => absurd hr (afterMove_ne_refresh r))
  | split =>
    have hin := hstay (by rw [hp]; rfl)
    refine h.keep (t := t) _ rfl rfl rfl rfl (hset _) (fun _ _ => rfl) rfl .inl ?_ ?_ rfl (fun _ => hin) (by rintro ⟨⟩)
    · intro _ _
      refine .inl ?_
      rw [hp]
      rfl
    · intro hn hlog _
      exact absurd hlog (not_log_of_grow (hok.1 hn))
  | spin => exact h
  | leaveSpin l =>
    exact h.pass hp rfl rfl rfl rfl rfl rfl rfl (fun _ => .inl rfl) (progress_afterMove _ (.split l)).ge
      (pcAck_afterMove (.split l)) (fun _ => .inl rfl)
      (fun hr => absurd hr (afterMove_ne_refresh (.split l)))
  | start a v hsys => exact h.start hp (hfresh a v hp hsys)
  | reset =>
    refine h.pass hp rfl rfl rfl rfl rfl rfl rfl ?_ ?_ ?_ (fun _ => .inl rfl) ?_
    · split_ifs <;> rintro ⟨⟩
    · split_ifs <;> exact le_rfl
    · split_ifs <;> trivial
    · split_ifs <;> rintro ⟨⟩
  | publish a v _ hfirst => exact h.publish hwalk hround hp hfirst (hjoined a v hp)
  | _ => exact h.pass hp rfl rfl rfl rfl rfl rfl rfl (by rintro ⟨⟩) le_rfl trivial (fun _ => .inl rfl) (by rintro ⟨⟩)

/-- The calls of the sessions keep the invariant. -/
theorem AckInv.startCall {act : Act} (h : AckInv s) (hp : s.pc t=.idle) (hs : startCall s t act=some s') : AckInv s' := by
  cases starts_of_startCall hs with
  | startSession => exact h.pass hp rfl rfl rfl rfl rfl rfl rfl (by rintro ⟨⟩) le_rfl trivial (by rintro ⟨⟩) (by rintro ⟨⟩)
  | stopSession =>
    have hoff : (s.protect t false).isProtected t=false := Function.update_self _ _ _
    refine h.keep (t := t) .idle ?_ rfl rfl rfl (fun _ _ => rfl) ?_ rfl ?_ (fun _ => id) ?_ trivial
      (by rintro ⟨⟩) (by rintro ⟨⟩)
    · change s.pc=_
      rw [←hp,Function.update_eq_self]
    · exact fun u hu => Function.update_of_ne hu _ _
    · intro hon
      rw [hoff] at hon
      cases hon
    · intro _ _ _
      rw [hp]
      exact le_rfl
  | refresh hprot =>
    exact h.pass hp rfl rfl rfl rfl rfl rfl rfl (by rintro ⟨⟩) le_rfl trivial (by rintro ⟨⟩) (fun _ => .inl hprot)
  | heavyEnter hprot =>
    cases hphase : (s.ctx t).phase <;>
      refine h.pass hp rfl rfl rfl rfl rfl rfl rfl ?_ le_rfl trivial (fun _ => .inr hprot) (fun _ => .inl hprot) <;>
      first
      | (rintro ⟨⟩; done)
      | exact fun _ => .inr (by rw [hphase]; rintro ⟨⟩)
  | start a hon =>
    obtain ⟨hprot,-⟩ := hon
    exact h.pass hp rfl rfl rfl rfl rfl rfl rfl (by rintro ⟨⟩) le_rfl trivial (fun _ => .inr hprot) (by rintro ⟨⟩)

theorem AckInv.of_quiescent (h : Quiescent s) : AckInv s := by
  obtain ⟨-,hrest,hidle,hn⟩ := h
  refine ⟨fun hne => absurd hrest hne,fun hne => absurd hn hne,fun hne => absurd hn hne,?_,?_,?_⟩
  · intro u
    rw [hidle]
    trivial
  · intro u hstay
    rw [hidle] at hstay
    cases hstay
  · intro u hr
    rw [hidle] at hr
    cases hr

/-- The steps of runs whose actions start between sessions keep the invariant. -/
theorem AckInv.step (h : AckInv s) (hr : Rounds s) (hguard : joinsBetween s label)
    (hs : step s label=some s') : AckInv s' := by
  rcases (step_cases hs).2 with ⟨ready,-,hc⟩ | ⟨hidle,hc⟩
  · exact h.callStep hr.inv hr.walk hr.rounds hguard.1 hguard.2 hc
  · exact h.startCall hidle hc

/-- A session that takes part in a log checkpoint and has not come to a phase that the others
wait for holds the system state back. -/
theorem AckInv.holds_back (h : AckInv s) (hn : s.started ≠ 0) (hlog : IsLogCheckpoint s.origin.action)
    (ht : Tracked t) (hprot : s.isProtected t=true) (htk : Taking s t) {q : Phase}
    (hq : Asked s.origin.action q) (hlt : progress (s.ctx t) (s.pc t)<rank q) :
    s.systemState.phase ≠ .rest ∧ rank s.systemState.phase≤rank q := by
  have hnot : s.acked t q ≠ true := fun hacked =>
    absurd (h.reached hn hlog t (.inr htk) q hacked) (Nat.not_le.mpr hlt)
  have hne : s.systemState.phase ≠ .rest := fun hrest => hnot (h.finished hn hrest q hq t ht hprot htk)
  refine ⟨hne,?_⟩
  by_contra hgt
  exact hnot (h.passed hne q hq (Nat.not_le.mp hgt) t ht hprot)

/-- Only the given threads take part. -/
def Among (threads : List ℕ) (s : State) : Prop := ∀ u, u ∉ threads → s.isProtected u = false ∧ s.pc u = .idle

/-- One of the given threads moves, and starts and publishes actions when the others are in
the rest phase and nobody is joining. -/
def joinsCheck (threads : List ℕ) (s : State) (label : Label) : Bool :=
  threads.contains label.thread &&
    match s.pc label.thread with
    | .startSwap _ v => threads.all fun u => decide (s.ctx u = ⟨.rest, v⟩ ∧ engaged (s.pc u) = false)
    | .publish _ _ => threads.all fun u => s.isProtected u
    | _ => true

theorem Among.mem {threads : List ℕ} (h : Among threads s) (hlive : Live s u) : u ∈ threads := by
  by_contra hu
  obtain ⟨hoff,hidle⟩ := h u hu
  rcases hlive with hon | ⟨hbusy,-⟩
  · rw [hoff] at hon
    cases hon
  · exact hbusy hidle

theorem Among.joinsBetween {threads : List ℕ} (h : Among threads s) (hcheck : joinsCheck threads s label=true) :
    joinsBetween s label := by
  rw [joinsCheck,Bool.and_eq_true] at hcheck
  refine ⟨?_,?_⟩
  · intro a v hp _ u hlive
    rw [hp] at hcheck
    exact of_decide_eq_true (List.all_eq_true.mp hcheck.2 u (h.mem hlive))
  · intro a v hp u hlive
    rw [hp] at hcheck
    exact List.all_eq_true.mp hcheck.2 u (h.mem hlive)

theorem Among.step {threads : List ℕ} (h : Among threads s) (hmem : label.thread ∈ threads)
    (hs : step s label=some s') : Among threads s' := by
  intro u hu
  have hne : u ≠ label.thread := by
    rintro rfl
    exact hu hmem
  rw [step_other hs hne]
  refine ⟨?_,(h u hu).2⟩
  rcases (step_cases hs).2 with ⟨ready,-,hc⟩ | ⟨-,hc⟩
  · rw [(callStep_local hc hne).2.1]
    exact (h u hu).1
  · rw [(startCall_local hc hne).2.1]
    exact (h u hu).1

end

end FishStore.PhaseAcks
