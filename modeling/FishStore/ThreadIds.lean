import FishStore.LightEpoch

/-!
# Thread identifiers

`Thread::ReserveEntry` looks for an unused identifier from a shared counter on, over twice
their number. The counter and the end of the search are 32-bit numbers: close to the end of
their range the search ends before it starts.
-/

namespace FishStore.ThreadIds

open Runs UInt32 LightEpoch
open Function (update update_of_ne update_self)

/-- Where a thread stands. -/
inductive Pc
  /-- It has not called `ReserveEntry` yet. -/
  | new
  /-- `ReserveEntry` is about to compare `id` with the end of the loop, and to try it. -/
  | search (id stop : UInt32)
  /-- `ReserveEntry` has thrown. -/
  | failed
  /-- The thread has the identifier. -/
  | live (id : ℕ)
  /-- `ReleaseEntry` has returned. -/
  | exited

/-- The identifiers and the threads. -/
structure State where
  /-- `next_index_`. -/
  nextIndex : UInt32
  /-- `id_used_`. -/
  idUsed : ℕ → Bool
  pc : ℕ → Pc

/-- No thread was created. -/
def State.initial : State := ⟨0,fun _ => false,fun _ => .new⟩

/-- The thread moves on. -/
def State.goto (s : State) (t : ℕ) (p : Pc) : State := { s with pc := update s.pc t p }

/-- The end of a search. -/
def State.stop (s : State) : UInt32 := s.nextIndex+2*UInt32.ofNat kMaxNumThreads

/-- The counter is incremented, and the search starts at its former value. -/
def State.reserve (s : State) (t : ℕ) : State :=
  { s with nextIndex := s.nextIndex+1 }.goto t (.search s.nextIndex s.stop)

/-- What a thread does. -/
inductive Act
  /-- The start of `ReserveEntry`; it may be called again when it has thrown. -/
  | reserveEntry
  /-- An iteration of its loop. -/
  | step
  | releaseEntry

/-- A step of a thread. -/
structure Label where
  thread : ℕ
  act : Act

/-- One step: an atomic access of the counter or of `id_used_`. -/
def step (s : State) (label : Label) : Option State :=
  match label.act, s.pc label.thread with
  | .reserveEntry, .new | .reserveEntry, .failed =>
    some (s.reserve label.thread)
  | .step, .search id stop =>
    some (if id<stop then
        if s.idUsed (id.toNat%kMaxNumThreads) then s.goto label.thread (.search (id+1) stop)
        else { s with idUsed := update s.idUsed (id.toNat%kMaxNumThreads) true }.goto label.thread
          (.live (id.toNat%kMaxNumThreads))
      else s.goto label.thread .failed)
  | .releaseEntry, .live id =>
    some ({ s with idUsed := update s.idUsed id false }.goto label.thread .exited)
  | _, _ => none

/-- Any number of threads. -/
def machine : Machine State Label := ⟨fun s => s = .initial,step⟩

/-- An identifier is used while one thread has it. -/
structure Inv (s : State) : Prop where
  used : ∀ i, s.idUsed i = true ↔ ∃ t, s.pc t = .live i
  unique : ∀ t u i, s.pc t = .live i → s.pc u = .live i → t = u
  below : ∀ t i, s.pc t = .live i → i < kMaxNumThreads

variable {s s' : State} {t : ℕ} {p : Pc}

/-- A thread that neither takes an identifier nor gives one back. -/
theorem Inv.pass (h : Inv s) (hold : ∀ i, s.pc t≠.live i) (hnew : ∀ i, p≠.live i)
    (hused : s'.idUsed=s.idUsed) (hpc : s'.pc=update s.pc t p) : Inv s' := by
  have hlive : ∀ u i, s'.pc u=.live i ↔ s.pc u=.live i := by
    intro u i
    rw [hpc]
    by_cases hu : u=t
    · rw [hu,update_self]
      exact ⟨fun hp => absurd hp (hnew i),fun hp => absurd hp (hold i)⟩
    · rw [update_of_ne hu]
  refine ⟨fun i => ?_,fun u v i => ?_,fun u i => ?_⟩
  · rw [hused,h.used i]
    simp only [hlive]
  · rw [hlive,hlive]
    exact h.unique u v i
  · rw [hlive]
    exact h.below u i

/-- A thread takes an identifier that is not used. -/
theorem Inv.take {i : ℕ} (h : Inv s) (hold : ∀ i, s.pc t≠.live i) (hfree : s.idUsed i=false)
    (hi : i<kMaxNumThreads) : Inv ({ s with idUsed := update s.idUsed i true }.goto t (.live i)) := by
  have hnone : ∀ u, s.pc u≠.live i := by
    intro u hu
    rw [(h.used i).mpr ⟨u,hu⟩] at hfree
    cases hfree
  have hlive : ∀ u j, update s.pc t (.live i) u=.live j ↔ u=t ∧ i=j ∨ s.pc u=.live j := by
    intro u j
    by_cases hu : u=t
    · simp [hu,hold]
    · simp [hu]
  refine ⟨fun j => ?_,fun u v j => ?_,fun u j => ?_⟩
  · simp only [State.goto,hlive]
    by_cases hj : j=i
    · simp [hj]
    · simp [hj,Ne.symm hj,h.used]
  · simp only [State.goto,hlive]
    rintro (⟨hu,rfl⟩ | hu) (⟨hv,hj⟩ | hv)
    · exact hu.trans hv.symm
    · exact absurd hv (hnone v)
    · exact absurd (hj ▸ hu) (hnone u)
    · exact h.unique u v j hu hv
  · simp only [State.goto,hlive]
    rintro (⟨rfl,rfl⟩ | hu)
    · exact hi
    · exact h.below u j hu

/-- A thread gives its identifier back. -/
theorem Inv.release {i : ℕ} (h : Inv s) (hp : s.pc t=.live i) :
    Inv ({ s with idUsed := update s.idUsed i false }.goto t .exited) := by
  have hlive : ∀ u j, update s.pc t .exited u=.live j ↔ s.pc u=.live j ∧ i≠j := by
    intro u j
    by_cases hu : u=t
    · simp [hu,hp]
    · rw [update_of_ne hu]
      refine ⟨fun hj => ⟨hj,?_⟩,And.left⟩
      rintro rfl
      exact hu (h.unique u t i hj hp)
  refine ⟨fun j => ?_,fun u v j => ?_,fun u j => ?_⟩
  · simp only [State.goto,hlive]
    by_cases hj : j=i
    · simp [hj]
    · simp [hj,Ne.symm hj,h.used]
  · simp only [State.goto,hlive]
    exact fun hu hv => h.unique u v j hu.1 hv.1
  · simp only [State.goto,hlive]
    exact fun hu => h.below u j hu.1

theorem Inv.step {label : Label} (h : Inv s) (hs : step s label=some s') : Inv s' := by
  obtain ⟨t,act⟩ := label
  unfold ThreadIds.step at hs
  split at hs <;> cases hs
  case h_1 hp => exact h.pass (by rw [hp]; rintro _ ⟨⟩) (by rintro _ ⟨⟩) rfl rfl
  case h_2 hp => exact h.pass (by rw [hp]; rintro _ ⟨⟩) (by rintro _ ⟨⟩) rfl rfl
  case h_3 id stop hp =>
    have hold : ∀ i, s.pc t≠.live i := by rw [hp]; rintro _ ⟨⟩
    split_ifs with hlt hused
    · exact h.pass hold (by rintro _ ⟨⟩) rfl rfl
    · exact h.take hold (Bool.eq_false_of_not_eq_true hused) (Nat.mod_lt _ (by decide))
    · exact h.pass hold (by rintro _ ⟨⟩) rfl rfl
  case h_4 id hp => exact h.release hp

theorem reachable_inv (hs : Reachable machine anyStep s) : Inv s := by
  refine hs.invariant ?_ fun _ _ _ h _ hstep => h.step hstep
  rintro _ rfl
  exact ⟨fun _ => ⟨by rintro ⟨⟩,by rintro ⟨_,⟨⟩⟩⟩,by rintro _ _ _ ⟨⟩,by rintro _ _ ⟨⟩⟩

/-- Only the loop of the thread goes on. -/
def alone (t : ℕ) : Guard State Label := fun _ label => label = ⟨t,.step⟩

/-- `ReserveEntry`, called by the thread and not interfered with, throws. -/
def Throws (t : ℕ) (s s' : State) : Prop :=
  ∃ s₁, step s ⟨t,.reserveEntry⟩ = some s₁ ∧ Run machine (alone t) s₁ s' ∧ s'.pc t = .failed

/-- Every identifier is held. -/
def AllHeld (s : State) : Prop := ∀ i < kMaxNumThreads, ∃ u, s.pc u = .live i

/-- How far a search that is alone has come. -/
def Searched (s : State) (t : ℕ) (x : State) : Prop :=
  (x.idUsed = s.idUsed ∧ ∃ id, x.pc t = .search id s.stop ∧
    s.nextIndex.toNat ≤ id.toNat ∧ id.toNat ≤ s.nextIndex.toNat+2*kMaxNumThreads ∧
    ∀ j, s.nextIndex.toNat ≤ j → j < id.toNat → s.idUsed (j%kMaxNumThreads) = true) ∨
  (∃ i, x.pc t = .live i) ∨ ∀ i < kMaxNumThreads, s.idUsed i = true

theorem State.toNat_stop (s : State) : s.stop.toNat=(s.nextIndex.toNat+2*kMaxNumThreads)%2^32 := by
  unfold State.stop
  rw [UInt32.toNat_add]
  rfl

/-- The search goes over every identifier, if its end is not wrapped around. -/
theorem Searched.step {x y : State} (h : Searched s t x) (hwrap : s.nextIndex.toNat+2*kMaxNumThreads<2^32)
    (hs : step x ⟨t,.step⟩=some y) : Searched s t y := by
  have hstop := s.toNat_stop.trans (Nat.mod_eq_of_lt hwrap)
  rcases h with ⟨hused,id,hp,hge,hle,hall⟩ | ⟨i,hp⟩ | hall
  · simp only [ThreadIds.step,hp,Option.some.injEq] at hs
    split_ifs at hs with hlt hu <;> subst hs
    · rw [lt_iff_toNat_lt,hstop] at hlt
      have hid : (id+1).toNat=id.toNat+1 := by
        rw [UInt32.toNat_add]
        exact Nat.mod_eq_of_lt (by simp only [reduceToNat]; omega)
      refine .inl ⟨hused,id+1,update_self ..,by omega,by omega,fun j hj hlt' => ?_⟩
      rcases Nat.lt_succ_iff_lt_or_eq.mp (hid ▸ hlt') with hj' | rfl
      · exact hall j hj hj'
      · rw [←hused]
        exact hu
    · exact .inr (.inl ⟨_,update_self ..⟩)
    · rw [lt_iff_toNat_lt,hstop] at hlt
      -- every residue has a number in the interval that was searched
      refine .inr (.inr fun i hi => ?_)
      unfold kMaxNumThreads at *
      have hj := hall (s.nextIndex.toNat+(i+96-s.nextIndex.toNat%96)%96) (by omega) (by omega)
      rwa [show (s.nextIndex.toNat+(i+96-s.nextIndex.toNat%96)%96)%96=i by omega] at hj
  · simp only [ThreadIds.step,hp,reduceCtorEq] at hs
  · exact .inr (.inr hall)

/-- A call that throws has found every identifier used, or its end was wrapped around. -/
theorem Inv.all_held (h : Inv s) (hwrap : s.nextIndex.toNat+2*kMaxNumThreads<2^32)
    (hthrows : Throws t s s') : AllHeld s := by
  obtain ⟨s₁,hstart,hrun,hfailed⟩ := hthrows
  have hfirst : Searched s t s₁ := by
    have hs₁ : s₁=s.reserve t := by
      cases hp : s.pc t <;> simp only [ThreadIds.step,hp,Option.some.injEq,reduceCtorEq] at hstart <;>
        exact hstart.symm
    rw [hs₁]
    exact .inl ⟨rfl,_,update_self ..,le_rfl,Nat.le_add_right _ _,fun j hj hlt => absurd hlt (not_lt.mpr hj)⟩
  have hlast : Searched s t s' := by
    refine hrun.invariant (P := Searched s t) ?_ hfirst
    rintro x _ y hx rfl hstep
    exact hx.step hwrap hstep
  rcases hlast with ⟨-,id,hp,-⟩ | ⟨i,hp⟩ | hall
  · rw [hp] at hfailed
    cases hfailed
  · rw [hp] at hfailed
    cases hfailed
  · exact fun i hi => (h.used i).mp (hall i hi)

/-- Near the end of the range the call throws at once. -/
theorem throws_of_wrap (hp : s.pc t=.new ∨ s.pc t=.failed)
    (hwrap : ¬s.nextIndex.toNat+2*kMaxNumThreads<2^32) : ∃ s', Throws t s s' := by
  have hstop : ¬s.nextIndex<s.stop := by
    have hlt := s.nextIndex.toNat_lt
    rw [lt_iff_toNat_lt,s.toNat_stop]
    unfold kMaxNumThreads at *
    omega
  have hstart : step s ⟨t,.reserveEntry⟩=some (s.reserve t) := by rcases hp with hp | hp <;> simp only [ThreadIds.step,hp]
  refine ⟨(s.reserve t).goto t .failed,_,hstart,Run.single (a := ⟨t,.step⟩) rfl ?_,update_self ..⟩
  simp only [machine,ThreadIds.step,State.reserve,State.goto,update_self,if_neg hstop]

/-- Identifiers are held by one thread and below the maximum. A call of `ReserveEntry` that is
alone throws only if all are held, exactly if the counter is not close to the end of its range,
or all are held. -/
theorem ids_unique_iff (hs : Reachable machine anyStep s) :
    (∀ t u i, s.pc t = .live i → s.pc u = .live i → t = u) ∧
    (∀ t i, s.pc t = .live i → i < kMaxNumThreads) ∧
    ∀ t, s.pc t = .new ∨ s.pc t = .failed → ((∀ s', Throws t s s' → AllHeld s) ↔
      s.nextIndex.toNat + 2 * kMaxNumThreads < 2 ^ 32 ∨ AllHeld s) := by
  have h := reachable_inv hs
  refine ⟨h.unique,h.below,fun t hp => ⟨fun hall => ?_,?_⟩⟩
  · by_cases hwrap : s.nextIndex.toNat+2*kMaxNumThreads<2^32
    · exact .inl hwrap
    · obtain ⟨s',hthrows⟩ := throws_of_wrap hp hwrap
      exact .inr (hall s' hthrows)
  · rintro (hwrap | hall) s' hthrows
    · exact h.all_held hwrap hthrows
    · exact hall

theorem ids_unique_initial : Reachable machine anyStep .initial ∧ (∀ s', Throws 0 .initial s' → AllHeld .initial) :=
  ⟨⟨_,rfl,.refl _⟩,((ids_unique_iff ⟨_,rfl,.refl State.initial⟩).2.2 0 (.inl rfl)).mpr (.inl (by decide))⟩

/-- The state after some threads have come and gone. -/
def passed (n : ℕ) : State :=
  ⟨.ofNat n,fun _ => false,fun u => if u < n then .exited else .new⟩

/-- One more thread takes an identifier and releases it. -/
theorem run_passed {n : ℕ} (hn : n+2*kMaxNumThreads<2^32) : Run machine anyStep (passed n) (passed (n+1)) := by
  have hid : (ofNat n).toNat=n := by
    rw [toNat_ofNat']
    exact Nat.mod_eq_of_lt (by omega)
  have hlt : (passed n).nextIndex<(passed n).stop := by
    rw [lt_iff_toNat_lt,(passed n).toNat_stop]
    change (ofNat n).toNat<((ofNat n).toNat+_)%_
    unfold kMaxNumThreads at *
    omega
  have hnew : (passed n).pc n=.new := if_neg (lt_irrefl n)
  refine (((Run.refl _).tail (a := ⟨n,.reserveEntry⟩) (u := (passed n).reserve n) trivial ?_).tail
    (a := ⟨n,.step⟩) (u := { (passed n).reserve n with idUsed := update (passed n).idUsed (n%kMaxNumThreads) true }.goto n
      (.live (n%kMaxNumThreads))) trivial ?_).tail (a := ⟨n,.releaseEntry⟩) trivial ?_
  · simp only [machine,step,hnew]
  · simp only [machine,step,State.reserve,State.goto,update_self,if_pos hlt]
    simp [passed,hid]
  · simp only [machine,step,State.reserve,State.goto,update_self,Function.update_idem,Option.some.injEq]
    simp only [passed,State.mk.injEq,Function.update_eq_self_iff]
    refine ⟨(ofNat_add n 1).symm,trivial,funext fun u => ?_⟩
    by_cases hu : u=n
    · rw [hu,update_self,if_pos (Nat.lt_succ_self n)]
    · rw [update_of_ne hu]
      exact if_congr (by omega) rfl rfl

/-- After `2^32 - 192` threads a call throws while no identifier is held. -/
theorem ids_refused : ∃ s s', Reachable machine anyStep s ∧ (∀ t i, s.pc t ≠ .live i) ∧ (∃ t, Throws t s s') ∧
    ¬AllHeld s := by
  have hreach : ∀ n, n+2*kMaxNumThreads≤2^32 → Reachable machine anyStep (passed n) := by
    intro n hn
    induction n with
    | zero => exact ⟨_,rfl,.refl _⟩
    | succ n ih => exact (ih (by omega)).run (run_passed (by omega))
  have hlive : ∀ t i, (passed (2^32-2*kMaxNumThreads)).pc t≠.live i := by
    intro t i
    unfold passed
    dsimp only
    split_ifs <;> rintro ⟨⟩
  obtain ⟨s',hthrows⟩ := throws_of_wrap (s := passed (2^32-2*kMaxNumThreads)) (t := 2^32-2*kMaxNumThreads)
    (.inl (if_neg (lt_irrefl _))) (by decide)
  refine ⟨_,s',hreach _ (by decide),hlive,⟨_,hthrows⟩,fun hall => ?_⟩
  obtain ⟨u,hu⟩ := hall 0 (by decide)
  exact hlive u 0 hu

end FishStore.ThreadIds
