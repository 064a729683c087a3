import FishStore.ParserSessions

/-!
# One shift of the parsers

In a run with one shift of the parsers, in which no session joins, the shift starts when
every session is in the rest phase. The tail offset of the log runs past the end of its
page by at most one reservation for each thread, so that `GetTailAddress`, which casts it
to 32 bits, returns an address at which nothing was reserved yet.
-/

namespace FishStore.ShiftOnce

open Layout Runs Parsers ParserShift ParserInvariant ParserSessions Finset PhaseWalk PhaseRounds
open PhaseBarrier PhaseInvariant
open LightEpoch (kMaxNumThreads)
open Function (update update_of_ne update_self)

/-- The sessions are those of the start, and know the version until an action starts. -/
structure Sole (v : UInt32) (p : Phases.State) : Prop where
  session : ∀ u, p.pc u ≠ .idle → p.isProtected u = true
  fresh : p.started = 0 → p.systemState = ⟨.none, .rest, v⟩ ∧
    ∀ u, p.ctx u = ⟨.rest, v⟩ ∧ engaged (p.pc u) = false

section

variable {v : UInt32} {p p' : Phases.State} {t u : ℕ}

theorem callStep_started (hs : Phases.callStep p t true (p.pc t)=some p') :
    p'.started=p.started ∨ p'.started=p.started+1 := by
  generalize p.pc t=pc at hs
  cases Phases.moves_of_callStep hs with
  | start => exact .inr rfl
  | _ => exact .inl rfl

/-- Outside an action a session only takes over the version. -/
theorem callStep_ctx (hs : Phases.callStep p t true (p.pc t)=some p') (hen : engaged (p.pc t)=false)
    (hsys : p.systemState=⟨.none,.rest,v⟩) (hctx : p.ctx t=⟨.rest,v⟩) : p'.ctx t=⟨.rest,v⟩ := by
  generalize p.pc t=pc at hs hen
  cases Phases.moves_of_callStep hs with
  | join | reload =>
    rw [hsys]
    exact update_self _ _ _
  | _ =>
    first
    | exact hctx
    | cases hen

theorem Sole.callStep (h : Sole v p) (hs : Phases.callStep p t true (p.pc t)=some p') : Sole v p' := by
  have hnot : p.pc t ≠ .idle := by
    intro hidle
    rw [hidle] at hs
    cases hs
  refine ⟨?_,?_⟩
  · intro u hu
    by_cases hut : u=t
    · rw [hut]
      rcases PhaseBarrier.callStep_protected hs with hp | hp
      · rw [hp] at hs
        cases hs
        exact update_self _ _ _
      · rw [hp]
        exact h.session t hnot
    · rw [callStep_other hs hut] at hu
      rw [(callStep_local hs hut).2.1]
      exact h.session u hu
  · intro hzero
    have hzero' : p.started=0 := by rcases callStep_started hs with heq | heq <;> omega
    obtain ⟨hsys,hall⟩ := h.fresh hzero'
    have hkeep : engaged (p'.pc t)=false ∧ p'.systemState=p.systemState := by
      rcases PhaseBarrier.callStep_engaged hs with hen | ⟨-,hne⟩ | ⟨a,w,-,-,hstart⟩ | ⟨hen,heq,-⟩
      · rw [(hall t).2] at hen
        cases hen
      · rw [hsys] at hne
        exact absurd rfl hne
      · rw [hzero] at hstart
        exact absurd hstart.symm (Nat.succ_ne_zero _)
      · exact ⟨hen,heq⟩
    refine ⟨hkeep.2.trans hsys,fun u => ?_⟩
    by_cases hut : u=t
    · rw [hut]
      exact ⟨callStep_ctx hs (hall t).2 hsys (hall t).1,hkeep.1⟩
    · rw [callStep_other hs hut,(callStep_local hs hut).1]
      exact hall u

/-- The calls of sessions that do not join. -/
theorem Sole.startCall (h : Sole v p) (act : Phases.Act) (hact : act ≠ .startSession) (hcalls : calls act=true)
    (hidle : p.pc t=.idle) (hs : Phases.startCall p t act=some p') : Sole v p' := by
  have hgoto : ∀ pc, p.isProtected t=true → engaged pc=false → Sole v (p.goto t pc) := by
    intro pc hon hen
    refine ⟨?_,?_⟩
    · intro u hu
      by_cases hut : u=t
      · rw [hut]
        exact hon
      · rw [goto_of_ne hut] at hu
        exact h.session u hu
    · intro hzero
      obtain ⟨hsys,hall⟩ := h.fresh hzero
      refine ⟨hsys,fun u => ⟨(hall u).1,?_⟩⟩
      by_cases hut : u=t
      · rw [hut,goto_self]
        exact hen
      · rw [goto_of_ne hut]
        exact (hall u).2
  cases act with
  | startSession => exact absurd rfl hact
  | heavyEnter => cases hcalls
  | step ready => cases hcalls
  | stopSession =>
    obtain ⟨-,rfl⟩ := of_guard hs
    refine ⟨?_,h.fresh⟩
    intro u hu
    have hut : u ≠ t := by
      rintro rfl
      exact hu hidle
    exact (update_of_ne hut _ _).trans (h.session u hu)
  | refresh =>
    obtain ⟨hon,rfl⟩ := of_guard hs
    exact hgoto _ hon rfl
  | start a =>
    obtain ⟨hon,rfl⟩ := of_guard hs
    exact hgoto _ hon.1 rfl

end

/-- The session joins. -/
def joins : Act → Bool
  | .startSession => true
  | _ => false

section

variable {reg : Registry} {s s' : State reg} {t u : ℕ} {v : UInt32} {label : Label}

/-- One shift is made, sessions run on the threads whose entries are scanned, and none joins. -/
def oneShift : Guard (State reg) Label := fun s label =>
  label.thread ≠ 0 ∧ joins label.act = false ∧ ∀ a v, s.phases.pc label.thread = .startSwap a v →
    s.phases.systemState = ⟨.none, .rest, v⟩ → s.phases.started = 0

theorem calls_of_startCall {act : Act} (hjoins : joins act=false) (hs : startCall s t act=some s') :
    s'.phases=s.phases ∨ ∃ a, a ≠ .startSession ∧ calls a=true ∧ Phases.startCall s.phases t a=some s'.phases := by
  cases act with
  | startSession => cases hjoins
  | stopSession =>
    obtain ⟨p,hc,rfl⟩ := Option.map_eq_some_iff.mp hs
    exact .inr ⟨.stopSession,nofun,rfl,hc⟩
  | refresh =>
    obtain ⟨p,hc,rfl⟩ := Option.map_eq_some_iff.mp hs
    exact .inr ⟨.refresh,nofun,rfl,hc⟩
  | applyParserShift actions =>
    obtain ⟨s₁,hs₁,rfl⟩ := Option.map_eq_some_iff.mp hs
    obtain ⟨p,hc,rfl⟩ := Option.map_eq_some_iff.mp hs₁
    exact .inr ⟨.start .parserShift,nofun,rfl,hc⟩
  | batchInsert records =>
    obtain ⟨-,rfl⟩ := of_guard hs
    exact .inl rfl
  | step order readOnly room => cases hs

theorem sole_step (h : Sole v s.phases) (hguard : oneShift s label) (hs : step s label=some s') : Sole v s'.phases := by
  obtain ⟨-,hs⟩ := step_cases hs
  rcases hs with ⟨order,hc⟩ | ⟨-,hidle,readOnly,room,hc⟩ | ⟨-,hc⟩ | ⟨-,hidle,-,hc⟩
  · rw [hookStep_phases hc]
    exact h
  · rcases batchStep_phases hc with heq | hc
    · rw [heq]
      exact h
    · exact h.startCall .refresh nofun rfl hidle hc
  · exact h.callStep (phaseStep_phases hc)
  · rcases calls_of_startCall hguard.2.1 hc with heq | ⟨a,hne,hcalls,hc⟩
    · rw [heq]
      exact h
    · exact h.startCall a hne hcalls hidle hc

/-- A run with one shift starts it between sessions. -/
theorem shiftsBetween_of_oneShift (h : Sole v s.phases) (hguard : oneShift s label) : shiftsBetween s label := by
  refine ⟨hguard.1,fun _ => ⟨?_,?_⟩⟩
  · intro a w hp hsys u _
    obtain ⟨hword,hall⟩ := h.fresh (hguard.2.2 a w hp hsys)
    rw [hword] at hsys
    cases hsys
    exact hall u
  · intro a w _ u hl
    exact hl.elim id fun hne => h.session u hne.1

theorem sole_of_initial (h : Initial s) : ∃ v, Sole v s.phases := by
  obtain ⟨v,hsys,hctx⟩ := h.word
  refine ⟨v,fun u hu => absurd (h.idle u) hu,fun _ => ⟨hsys,fun u => ⟨hctx u,?_⟩⟩⟩
  rw [h.idle]
  rfl

/-- The page in which the session's last reservation did not fit. -/
def waitsFor : BatchPc → Option ℕ
  | .insert _ _ (.refresh page) => page
  | .insert _ _ (.newPage page) => some page
  | _ => none

/-- The threads that wait for the tail to leave its page. -/
def waiting (s : State reg) : Finset ℕ :=
  (Finset.range kMaxNumThreads).filter fun t => waitsFor (s.batch t) = some s.tail.page

/-- Each of them has moved the offset past the end of the page once. -/
def OffsetOk (s : State reg) : Prop := s.tail.offset ≤ kPageSize + (waiting s).card * kMaxOffset

theorem waiting_congr (h : ∀ u, u<kMaxNumThreads →
    (waitsFor (s'.batch u)=some s'.tail.page ↔ waitsFor (s.batch u)=some s.tail.page)) : waiting s'=waiting s :=
  filter_congr fun u hu => h u (mem_range.mp hu)

/-- The offset stays below 32 bits. -/
theorem OffsetOk.offset_lt (h : OffsetOk s) : s.tail.offset<2^32 := by
  have hcard : (waiting s).card≤kMaxNumThreads := by
    refine (card_filter_le _ _).trans ?_
    rw [card_range]
  have hmul := Nat.mul_le_mul_right kMaxOffset hcard
  have hlt : kPageSize+kMaxNumThreads*kMaxOffset<2^32 := by decide
  unfold OffsetOk at h
  omega

theorem getTailAddress_le_limit (x : PageOffset) : getTailAddress x≤x.limit := by
  have hmod := Nat.mod_le x.offset (2^32)
  unfold getTailAddress PageOffset.limit Layout.address kPageSize
  omega

/-- Nothing but the last byte of a page lies between the tail address and the tail. -/
theorem limit_le_getTailAddress {x : PageOffset} (h : x.offset<2^32) : x.limit≤getTailAddress x+1 := by
  unfold getTailAddress PageOffset.limit Layout.address kPageSize
  rw [Nat.mod_eq_of_lt h]
  omega

/-- A session that does not wait has its reservation refused, and waits. -/
theorem OffsetOk.refuse (h : OffsetOk s) (ht : t<kMaxNumThreads) (hnot : waitsFor (s.batch t)=none)
    {n : ℕ} (hn : n≤kMaxOffset) (htail : s'.tail=s.tail.reserve n) {b : BatchPc}
    (hbatch : s'.batch=update s.batch t b) (hb : waitsFor b=some s.tail.page) : OffsetOk s' := by
  have hpage : s'.tail.page=s.tail.page := by
    rw [htail]
    rfl
  have hwaiting : waiting s'=insert t (waiting s) := by
    ext u
    simp only [waiting,mem_filter,mem_range,mem_insert,hpage]
    by_cases hut : u=t
    · rw [hut,hbatch,update_self]
      simp only [ht,hb,true_and,true_or]
    · rw [hbatch,update_of_ne hut]
      simp only [hut,false_or]
  have hmem : t ∉ waiting s := by simp only [waiting,mem_filter,hnot,reduceCtorEq,and_false,not_false_eq_true]
  unfold OffsetOk at h ⊢
  rw [hwaiting,card_insert_of_notMem hmem,htail]
  change s.tail.offset+n≤_
  rw [Nat.succ_mul]
  omega

/-- The tail is in its page. -/
theorem OffsetOk.of_le (h : s.tail.offset≤kPageSize) : OffsetOk s := h.trans (Nat.le_add_right _ _)

/-- The tail stays, and the session waits for as little as before. -/
theorem OffsetOk.congr (h : OffsetOk s) (htail : s'.tail=s.tail) {b : BatchPc}
    (hbatch : s'.batch=update s.batch t b)
    (hb : waitsFor b=some s.tail.page ↔ waitsFor (s.batch t)=some s.tail.page) : OffsetOk s' := by
  unfold OffsetOk
  rw [waiting_congr (s := s),htail]
  · exact h
  · intro u _
    rw [htail]
    by_cases hut : u=t
    · rw [hut,hbatch,update_self]
      exact hb
    · rw [hbatch,update_of_ne hut]

theorem OffsetOk.same (h : OffsetOk s) (htail : s'.tail=s.tail) (hbatch : s'.batch=s.batch) : OffsetOk s' := by
  unfold OffsetOk waiting
  rw [htail,hbatch]
  exact h

theorem waitsFor_insertFrom (rest : List InsertContext) : waitsFor (insertFrom rest)=none := by cases rest <;> rfl

/-- The steps of a batch keep the bound. -/
theorem OffsetOk.batchStep (h : OffsetOk s) (ht : t<kMaxNumThreads) {readOnly : ℕ} {room : Bool}
    (hs : batchStep s t readOnly room (s.batch t)=some s') : OffsetOk s' := by
  cases hb : s.batch t with
  | idle =>
    rw [hb] at hs
    cases hs
  | prepare todo done =>
    rw [hb] at hs
    cases todo with
    | nil =>
      cases hs
      refine h.congr rfl rfl ?_
      rw [waitsFor_insertFrom,hb]
      rfl
    | cons r todo =>
      obtain ⟨c,-,rfl⟩ := Option.map_eq_some_iff.mp hs
      refine h.congr rfl rfl ?_
      rw [hb]
      rfl
  | insert c rest pc =>
    rw [hb] at hs
    cases pc with
    | reserve =>
      simp only [ParserShift.batchStep] at hs
      cases halloc : s.tail.allocated c.size with
      | some a =>
        have hfit : (s.tail.reserve c.size).offset≤kPageSize := by
          unfold PageOffset.allocated at halloc
          split_ifs at halloc with hfull
          exact Nat.le_of_not_lt hfull
        rw [halloc] at hs
        dsimp only at hs
        split_ifs at hs <;> cases hs <;> exact .of_le hfit
      | none =>
        rw [halloc] at hs
        cases hs
        refine h.refuse ht ?_ c.size_le_max rfl rfl rfl
        rw [hb]
        rfl
    | refresh page =>
      obtain ⟨p,-,rfl⟩ := Option.map_eq_some_iff.mp hs
      refine h.congr rfl rfl ?_
      rw [hb]
      cases page <;> rfl
    | newPage page =>
      simp only [ParserShift.batchStep] at hs
      split_ifs at hs <;> cases hs
      · by_cases hpage : s.tail.page=page
        · refine .of_le ?_
          change (s.tail.newPage page).offset≤kPageSize
          unfold PageOffset.newPage
          rw [if_pos hpage]
          exact Nat.zero_le _
        · refine h.congr ?_ rfl ?_
          · change s.tail.newPage page=s.tail
            unfold PageOffset.newPage
            rw [if_neg hpage]
          · rw [hb]
            refine iff_of_false (by rintro ⟨⟩) ?_
            rintro ⟨⟩
            exact hpage rfl
      · refine h.congr rfl rfl ?_
        rw [hb]
        rfl

end

end FishStore.ShiftOnce
