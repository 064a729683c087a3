import FishStore.Phases
import FishStore.StoredRecords

/-!
# Versions of records

The version of the store is a 32-bit counter, which every checkpoint of the log increments.
A record keeps 13 bits of the version of the session that wrote it. `RecoverFromPage` keeps
the records whose stored version is at most that of the checkpoint, and a session in the
prepare phase detects a shift by a record whose stored version is larger than its own. Both
compare the 13 bits with all 32 bits.

The true version is the one that a counter without a bound would have. Sessions take the
version of the system state at any time, and so does a checkpoint of the log when it starts.
-/

namespace FishStore.RecordVersions

open Runs LogRecords BatchInsert StoredRecords Function UInt32 Phases

/-- A version that a session or a checkpoint has taken. -/
structure Version where
  /-- The 32-bit number. -/
  version : UInt32
  /-- History: the true version. -/
  trueVersion : ℕ
  deriving DecidableEq

/-- A record of the log. -/
structure Stamped where
  header : RecordInfo
  /-- History: the true version of the session that wrote it. -/
  trueVersion : ℕ
  deriving DecidableEq

/-- The system state, the sessions and the log. -/
structure State where
  /-- `system_state_`. -/
  systemState : SystemState
  /-- History: the true version of the system state. -/
  trueVersion : ℕ
  /-- `thread_ctx().version` of each session. -/
  sessions : ℕ → Option Version
  /-- `checkpoint_.log_metadata.version`. -/
  logMetadata : Option Version
  records : List Stamped

/-- A step of an execution. -/
inductive Label
  /-- An action starts. -/
  | start (a : Action)
  /-- `GlobalMoveToNextState`. -/
  | move
  /-- The action is over. -/
  | done
  /-- A session takes the version of the system state. -/
  | enter (t : ℕ)
  /-- A session inserts a record. -/
  | insert (t : ℕ) (ctx : RecordInsertContext)

/-- The version of the system state. -/
def State.current (s : State) : Version := ⟨s.systemState.version, s.trueVersion⟩

/-- The action is a checkpoint of the log. -/
def savesLog : Action → Bool
  | .checkpointFull | .checkpointHybridLog => true
  | _ => false

/-- One step of an execution. -/
def step (s : State) : Label → Option State
  | .start a =>
    if s.systemState.action = .none ∧ s.systemState.phase = .rest then
      a.firstPhase.map fun q =>
        { s with
          systemState := ⟨a, q, s.systemState.version⟩
          logMetadata := if savesLog a then some s.current else s.logMetadata }
    else none
  | .move =>
    if s.systemState.phase = .rest then none
    else s.systemState.getNextState.map fun w =>
      { s with
        systemState := w
        trueVersion := if w.phase = .inProgress then s.trueVersion + 1 else s.trueVersion }
  | .done =>
    if s.systemState.phase = .rest then
      some { s with systemState := ⟨.none, .rest, s.systemState.version⟩ }
    else none
  | .enter t => some { s with sessions := Function.update s.sessions t (some s.current) }
  | .insert t ctx => (s.sessions t).map fun v =>
      { s with records := ⟨truncated (visible (newHeader v.version ctx)), v.trueVersion⟩ :: s.records }

/-- A new store. -/
def newStore : State := ⟨⟨.none, .rest, 1⟩, 1, fun _ => none, none, []⟩

/-- The executions of the store. -/
def machine : Machine State Label := ⟨fun s => s = newStore, step⟩

/-- `RecoverFromPage` keeps the record. -/
def keeps (h : RecordInfo) (version : UInt32) : Bool := decide (h.checkpointVersion ≤ version.toNat)

/-- `latest_record_version` of the records that an operation has seen. -/
def latestRecordVersion (headers : List RecordInfo) : ℕ :=
  headers.foldl (fun v h => max v h.checkpointVersion) 0

/-- `InternalInsert` and `InternalScan` detect a shift. -/
def detects (headers : List RecordInfo) (version : UInt32) : Bool :=
  decide (version.toNat < latestRecordVersion headers)

/-- The version is one that a session or the checkpoint has. -/
def State.Has (s : State) (v : Version) : Prop := (∃ t, s.sessions t = some v) ∨ s.logMetadata = some v

/-- The true versions differ by at most one. -/
def Near (a b : ℕ) : Prop := a ≤ b + 1 ∧ b ≤ a + 1

instance (a b : ℕ) : Decidable (Near a b) := inferInstanceAs (Decidable (_ ∧ _))

/-- A record of true version `a` is compared correctly with true version `b`: a record of the
next version is stamped before the 13 bits wrap, and the previous one before the 32 bits do. -/
def Comparable (a b : ℕ) : Prop :=
  (a = b + 1 → b % 2 ^ 32 < 2 ^ 13 - 1) ∧ (b = a + 1 → b % 2 ^ 32 ≠ 0)

instance (a b : ℕ) : Decidable (Comparable a b) := inferInstanceAs (Decidable (_ ∧ _))

section

variable {s s' : State} {label : Label} {r : Stamped} {v : Version} {w w' : SystemState}

/-- The numbers that are stored are the true versions, as far as they have room. -/
structure Inv (s : State) : Prop where
  systemState : s.systemState.version = UInt32.ofNat s.trueVersion
  has : ∀ v, s.Has v → v.version = UInt32.ofNat v.trueVersion
  records : ∀ r ∈ s.records, r.header.checkpointVersion = r.trueVersion % 2 ^ 13

theorem ofNat_succ (n : ℕ) : ofNat n+1=ofNat (n+1) := by
  rw [ofNat_add]
  rfl

/-- A checkpoint of the log increments the version when it goes to the in-progress phase. -/
theorem getNextState_version (h : w.getNextState=some w') :
    w'.version=if w'.phase=.inProgress then w.version+1 else w.version := by
  obtain ⟨action,phase,version⟩ := w
  unfold SystemState.getNextState at h
  cases action <;> cases phase <;> first | (cases h; rfl) | cases h

/-- The stamp of a record has 13 bits of the version. -/
theorem checkpointVersion_stamp (version : UInt32) (ctx : RecordInsertContext) :
    (truncated (visible (newHeader version ctx))).checkpointVersion=version.toNat%2^13 := by
  change version.toUInt16.toNat%2^13=_
  rw [toNat_toUInt16]
  omega

theorem Inv.step (h : Inv s) (hs : step s label=some s') : Inv s' := by
  have hcurrent : s.current.version=ofNat s.current.trueVersion := h.systemState
  cases label with
  | start a =>
    simp only [RecordVersions.step] at hs
    obtain ⟨q,-,rfl⟩ := Option.map_eq_some_iff.mp (Option.ite_none_right_eq_some.mp hs).2
    refine ⟨h.systemState,fun v hv => ?_,h.records⟩
    rcases hv with hv | hv
    · exact h.has v (.inl hv)
    · cases hlog : savesLog a with
      | true =>
        rw [hlog] at hv
        cases hv
        exact hcurrent
      | false =>
        rw [hlog] at hv
        exact h.has v (.inr hv)
  | move =>
    simp only [RecordVersions.step] at hs
    split_ifs at hs
    obtain ⟨w,hw,rfl⟩ := Option.map_eq_some_iff.mp hs
    refine ⟨?_,fun v hv => h.has v hv,h.records⟩
    dsimp only
    rw [getNextState_version hw,h.systemState]
    split_ifs
    · exact ofNat_succ _
    · rfl
  | done =>
    simp only [RecordVersions.step] at hs
    split_ifs at hs
    cases hs
    exact ⟨h.systemState,fun v hv => h.has v hv,h.records⟩
  | enter t =>
    cases hs
    refine ⟨h.systemState,fun v hv => ?_,h.records⟩
    rcases hv with ⟨u,hu⟩ | hv
    · by_cases hut : u=t
      · subst hut
        dsimp only at hu
        rw [update_self] at hu
        cases hu
        exact hcurrent
      · dsimp only at hu
        rw [update_of_ne hut] at hu
        exact h.has v (.inl ⟨u,hu⟩)
    · exact h.has v (.inr hv)
  | insert t ctx =>
    obtain ⟨v,hv,rfl⟩ := Option.map_eq_some_iff.mp hs
    refine ⟨h.systemState,fun v hv => h.has v hv,fun r hr => ?_⟩
    rcases List.mem_cons.mp hr with rfl | hr
    · have hversion := h.has v (.inl ⟨t,hv⟩)
      dsimp only
      rw [checkpointVersion_stamp,hversion,toNat_ofNat']
      omega
    · exact h.records r hr

theorem reachable_inv (hs : Reachable machine anyStep s) : Inv s := by
  refine hs.invariant ?_ fun s a t hi _ hst => hi.step hst
  rintro s rfl
  refine ⟨rfl,?_,fun r hr => ?_⟩
  · rintro v (⟨t,ht⟩ | hv)
    · cases ht
    · cases hv
  · cases hr

/-- A single comparison of the two numbers is right if and only if the versions are comparable. -/
theorem lt_iff_comparable {a b : ℕ} (h : Near a b) : (b%2^32<a%2^13 ↔ b<a) ↔ Comparable a b := by
  unfold Near at h
  unfold Comparable
  obtain rfl | rfl | rfl : a=b+1 ∨ a=b ∨ b=a+1 := by omega
  · have hlt : b<b+1 ↔ True := iff_true_intro (Nat.lt_succ_self b)
    rw [hlt,iff_true]
    omega
  · omega
  · have hlt : a+1<a ↔ False := iff_false_intro (by omega)
    rw [hlt,iff_false]
    omega

theorem lt_latest_iff (headers : List RecordInfo) (n : ℕ) :
    n<latestRecordVersion headers ↔ ∃ h ∈ headers, n<h.checkpointVersion := by
  have hfold : ∀ (l : List RecordInfo) (m : ℕ), n<l.foldl (fun v h => max v h.checkpointVersion) m ↔
      n < m ∨ ∃ h ∈ l, n<h.checkpointVersion := by
    intro l
    induction l with
    | nil => simp
    | cons h l ih =>
      intro m
      rw [List.foldl_cons,ih,lt_max_iff]
      simp only [List.exists_mem_cons_iff]
      tauto
  rw [latestRecordVersion,hfold]
  simp

/-- In every reachable state, both tests on a record and on a version of a session or of a
checkpoint whose true versions differ by at most one are right if and only if the versions are
comparable. A test on several records is right if they all are. -/
theorem version_tests_iff (hs : Reachable machine anyStep s) (hv : s.Has v) :
    (∀ r ∈ s.records, Near r.trueVersion v.trueVersion →
      (((keeps r.header v.version = true ↔ r.trueVersion ≤ v.trueVersion) ∧
        (detects [r.header] v.version = true ↔ v.trueVersion < r.trueVersion)) ↔
          Comparable r.trueVersion v.trueVersion)) ∧
    ∀ seen : List Stamped, (∀ r ∈ seen, r ∈ s.records ∧ Near r.trueVersion v.trueVersion ∧
        Comparable r.trueVersion v.trueVersion) →
      (detects (seen.map Stamped.header) v.version = true ↔ ∃ r ∈ seen, v.trueVersion < r.trueVersion) := by
  have hinv := reachable_inv hs
  have hversion : v.version.toNat=v.trueVersion%2^32 := by
    rw [hinv.has v hv,toNat_ofNat']
  refine ⟨fun r hr hnear => ?_,fun seen hseen => ?_⟩
  · have hstamp := hinv.records r hr
    have hlt : v.version.toNat<r.header.checkpointVersion ↔
        v.trueVersion%2^32<r.trueVersion%2^13 := by rw [hversion,hstamp]
    unfold keeps detects
    rw [←lt_iff_comparable hnear,decide_eq_true_iff,decide_eq_true_iff,lt_latest_iff]
    simp only [List.mem_singleton,exists_eq_left]
    rw [←not_lt,hlt,←not_lt (a := v.trueVersion)]
    tauto
  · unfold detects
    rw [decide_eq_true_iff,lt_latest_iff]
    simp only [List.mem_map,exists_exists_and_eq_and]
    refine exists_congr fun r => and_congr_right fun hr => ?_
    obtain ⟨hmem,hnear,hcomp⟩ := hseen r hr
    rw [hversion,hinv.records r hmem]
    exact (lt_iff_comparable hnear).mpr hcomp

/-- A context without key pointers. -/
def emptyContext : RecordInsertContext := ⟨0, 0, 0, [], [], 0, 0⟩

/-- A whole checkpoint of the log. -/
def checkpoint : List Label := [.start .checkpointHybridLog, .move, .move, .move, .move, .move, .done]

/-- A store of any version at rest can be reached. -/
theorem reachable_version (n : ℕ) : ∃ m, Reachable machine anyStep ⟨⟨.none,.rest,ofNat (n+1)⟩,n+1,fun _ => none,m,[]⟩ := by
  induction n with
  | zero => exact ⟨none,newStore,rfl,.refl _⟩
  | succ n ih =>
    obtain ⟨m,hm⟩ := ih
    have hexec : exec machine ⟨⟨.none,.rest,ofNat (n+1)⟩,n+1,fun _ => none,m,[]⟩ checkpoint =
        some ⟨⟨.none,.rest,ofNat (n+1)+1⟩,n+1+1,fun _ => none, some ⟨ofNat (n+1),n+1⟩,[]⟩ := rfl
    rw [ofNat_succ] at hexec
    exact ⟨_,hm.run (run_of_exec hexec)⟩

/-- Session 1 prepares for a checkpoint, and session 2 is in progress and inserts a record. -/
def shift : List Label :=
  [.enter 1, .start .checkpointHybridLog, .move, .enter 2, .insert 2 emptyContext]

/-- The first checkpoint: the record of version 2 is compared correctly with version 1. -/
theorem version_tests_first : ∃ s, Reachable machine anyStep s ∧ s.Has ⟨1, 1⟩ ∧
    s.records = [⟨truncated (visible (newHeader 2 emptyContext)), 2⟩] ∧
    keeps (truncated (visible (newHeader 2 emptyContext))) 1 = false ∧
    detects [truncated (visible (newHeader 2 emptyContext))] 1 = true := by
  have hexec : exec machine newStore shift=some ⟨⟨.checkpointHybridLog,.inProgress,2⟩,2,
      update (update (fun _ => none) 1 (some ⟨1,1⟩)) 2 (some ⟨2,2⟩),some ⟨1,1⟩,
      [⟨truncated (visible (newHeader 2 emptyContext)),2⟩]⟩ := rfl
  have hs : Reachable machine anyStep _ := ⟨newStore,rfl,run_of_exec hexec⟩
  have htests := ((version_tests_iff hs (v := ⟨1,1⟩) (.inr rfl)).1 _ (List.mem_singleton_self _)
    (by decide)).mpr (by decide)
  refine ⟨_,hs,.inr rfl,rfl,?_,htests.2.mpr (by decide)⟩
  rw [←Bool.not_eq_true,htests.1]
  decide

/-- In the checkpoint of version 8191 the record of version 8192 is stamped with 0: session 1
does not detect the shift, and a recovery to version 8191 keeps the record. -/
theorem version_wraps : ∃ s r, Reachable machine anyStep s ∧ r ∈ s.records ∧ r.trueVersion = 8192 ∧
    s.sessions 1 = some ⟨8191, 8191⟩ ∧ s.logMetadata = some ⟨8191, 8191⟩ ∧
    detects [r.header] 8191 = false ∧ keeps r.header 8191 = true := by
  obtain ⟨m,hm⟩ := reachable_version 8190
  have hexec : exec machine ⟨⟨.none,.rest,8191⟩,8191,fun _ => none,m,[]⟩ shift =
      some ⟨⟨.checkpointHybridLog,.inProgress,8192⟩,8192,
        update (update (fun _ => none) 1 (some ⟨8191,8191⟩)) 2 (some ⟨8192,8192⟩),
        some ⟨8191,8191⟩,[⟨truncated (visible (newHeader 8192 emptyContext)),8192⟩]⟩ := rfl
  exact ⟨_,_,hm.run (run_of_exec hexec),List.mem_singleton_self _,rfl,rfl,rfl,by decide,by decide⟩

end

end FishStore.RecordVersions
