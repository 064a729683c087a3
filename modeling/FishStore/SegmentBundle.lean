import FishStore.Runs

/-!
# The segment files of the log

`FileSystemSegmentedFile` has its open files in a bundle, one slot for each segment of a range. A read or a write
outside of the range replaces the bundle by a larger one, a truncation by a smaller one; the files that both have
are moved. The bundle that was replaced is released when no thread can look at it any more, and only then the
files that a truncation has cut off are deleted. Offsets are 48-bit addresses, so that no sum here wraps around.
-/

namespace FishStore.SegmentBundle

open Runs List

/-- An open file: its segment, and how many files were opened or deleted before. -/
structure Handle where
  segment : ℕ
  stamp : ℕ

/-- What happens to a file on the disk. -/
inductive Event
  | opened (segment : ℕ)
  | deleted (segment : ℕ)
  deriving DecidableEq

/-- `Status`, as far as a segment is looked for. -/
inductive Status
  | ok
  | ioError
  deriving DecidableEq

/-- `FileSystemSegmentBundle`. A slot has the number of its segment here; in the source it is counted from
`begin_segment`. -/
structure Bundle where
  beginSegment : ℕ
  endSegment : ℕ
  /-- The file that a slot owns: moving the file takes it from the slot. -/
  files : ℕ → Option Handle

namespace Bundle

/-- `exists`. -/
abbrev Exists (b : Bundle) (segment : ℕ) : Prop := b.beginSegment ≤ segment ∧ segment < b.endSegment

/-- The constructor that opens every file. -/
def new (stamp begin_ end_ : ℕ) : Bundle where
  beginSegment := begin_
  endSegment := end_
  files segment := if begin_ ≤ segment ∧ segment < end_ then some ⟨segment, stamp⟩ else none

variable (other : Bundle) (begin_ end_ : ℕ)

/-- The first and the third loop of the copying constructor: the segments that the other bundle has not. -/
def opens : List ℕ :=
  List.Ico begin_ (max begin_ other.beginSegment) ++ List.Ico (min end_ other.endSegment) end_

/-- Its second loop. -/
def moves : List ℕ := List.Ico (max begin_ other.beginSegment) (min end_ other.endSegment)

/-- The constructor that moves the files of another bundle. -/
def copy (stamp : ℕ) : Bundle where
  beginSegment := begin_
  endSegment := end_
  files segment :=
    if segment ∈ other.opens begin_ end_ then some ⟨segment, stamp⟩
    else if segment ∈ other.moves begin_ end_ then other.files segment else none

/-- What it leaves in the other bundle. -/
def moved : Bundle :=
  { other with files := fun segment =>
      if segment ∈ other.moves begin_ end_ then none else other.files segment }

/-- Whether one of the loops comes to a slot that the new bundle has not. -/
def strays : Bool :=
  (other.opens begin_ end_ ++ other.moves begin_ end_).any fun i => decide (i < begin_ ∨ end_ ≤ i)

end Bundle

/-- A bundle that waits for the epoch, and the `new_begin_segment` of the truncation that has replaced it. -/
structure Retired where
  files : Bundle
  newBegin : Option ℕ

/-- The files that the callback closes and deletes. The callback of `OpenSegment` has none. -/
def Retired.deletes (r : Retired) : List ℕ := List.Ico r.files.beginSegment (r.newBegin.getD 0)

structure State where
  /-- `begin_segment_`. -/
  beginSegment : ℕ
  /-- `files_`. -/
  files : Option Bundle
  retired : List Retired
  /-- The last one stands first. -/
  events : List Event
  /-- An assertion has failed, or a slot was used that is none or owns no file. -/
  fault : Bool

namespace State

def new : State := ⟨0, none, [], [], false⟩

/-- The file of a segment in `files_`. -/
def file (s : State) (segment : ℕ) : Option Handle := s.files.bind fun b => b.files segment

/-- A copy of the bundle goes to `files_`; the bundle waits. -/
def replace (s : State) (b : Bundle) (begin_ end_ : ℕ) (newBegin : Option ℕ) : State :=
  { s with
    files := some (b.copy begin_ end_ s.events.length)
    retired := ⟨b.moved begin_ end_, newBegin⟩ :: s.retired
    events := (b.opens begin_ end_).reverse.map .opened ++ s.events
    fault := s.fault || b.strays begin_ end_ }

/-- `OpenSegment`. -/
def openSegment (s : State) (segment : ℕ) : Status × State :=
  if segment < s.beginSegment then (.ioError, s)
  else match s.files with
    | none => (.ok, { s with
        files := some (.new s.events.length segment (segment + 1))
        events := .opened segment :: s.events })
    | some b =>
      if b.Exists segment then (.ok, s)
      else (.ok, s.replace b (min b.beginSegment segment) (max b.endSegment (segment + 1)) none)

/-- `file(segment)`, for the operation on the file. -/
def useFile (s : State) (segment : ℕ) : State := { s with fault := s.fault || (s.file segment).isNone }

/-- `ReadAsync` and `WriteAsync`. -/
def access (S : ℕ) (s : State) (offset : ℕ) : Status × State :=
  let r := if ∃ b ∈ s.files, b.Exists (offset / S) then (.ok, s) else s.openSegment (offset / S)
  (r.1, if r.1 = .ok then r.2.useFile (offset / S) else r.2)

/-- `Truncate` with `TruncateSegments`. -/
def truncate (S : ℕ) (s : State) (offset : ℕ) : State :=
  let s' := { s with beginSegment := offset / S }
  match s.files with
  | none => { s' with fault := true } -- assert(files)
  | some b =>
    if offset / S ≤ b.beginSegment then s'
    else s'.replace b (offset / S) b.endSegment (some (offset / S))

/-- The epoch runs the callback of a bundle. -/
def reclaim (s : State) (i : ℕ) : Option State :=
  s.retired[i]?.map fun r => { s with
    retired := s.retired.eraseIdx i
    events := r.deletes.reverse.map .deleted ++ s.events
    fault := s.fault || r.deletes.any fun i => (r.files.files i).isNone }

end State

inductive Label
  | access (offset : ℕ)
  | truncate (offset : ℕ)
  | reclaim (i : ℕ)

/-- The files of the log with segments of `S` bytes. -/
def machine (S : ℕ) : Machine State Label where
  init s := s = .new
  step s
    | .access offset => some (s.access S offset).2
    | .truncate offset => some (s.truncate S offset)
    | .reclaim i => s.reclaim i

/-- A truncation finds a bundle, does not go back and does not go past the last open segment. -/
def forward (S : ℕ) : Guard State Label
  | s, .truncate offset => ∃ b, s.files = some b ∧ s.beginSegment ≤ offset / S ∧ offset / S ≤ b.endSegment
  | _, _ => True

/-- One file for each segment of the range. -/
structure Bundle.Sound (b : Bundle) : Prop where
  le : b.beginSegment ≤ b.endSegment
  held : ∀ i, b.Exists i → ∃ n, b.files i = some ⟨i, n⟩
  none : ∀ i, ¬b.Exists i → b.files i = none

/-- No file is opened that was deleted before. -/
def Final (events : List Event) : Prop :=
  events.Pairwise fun later earlier => ∀ i, earlier = .deleted i → later ≠ .opened i

section Copy

variable {other : Bundle} {b e i : ℕ}

theorem mem_opens (he : other.endSegment≤e) : i ∈ other.opens b e ↔
    b ≤ i ∧ i<other.beginSegment ∨ other.endSegment ≤ i ∧ i<e := by
  unfold Bundle.opens
  rw [mem_append,List.Ico.mem,List.Ico.mem,min_eq_right he]
  omega

theorem mem_moves (he : other.endSegment≤e) : i ∈ other.moves b e ↔ b ≤ i ∧ other.Exists i := by
  unfold Bundle.moves
  rw [List.Ico.mem,min_eq_right he]
  omega

theorem Bundle.Sound.copy (h : other.Sound) (hb : b≤other.endSegment) (he : other.endSegment≤e) (n : ℕ) :
    (other.copy b e n).Sound := by
  refine ⟨hb.trans he,fun i hi => ?_,fun i hi => ?_⟩
  · by_cases ho : i ∈ other.opens b e
    · exact ⟨n,if_pos ho⟩
    · have hm : i ∈ other.moves b e := by
        rw [mem_opens he] at ho
        rw [mem_moves he]
        have h1 : b ≤ i ∧ i<e := hi
        omega
      obtain ⟨m,hm'⟩ := h.held i ((mem_moves he).mp hm).2
      exact ⟨m,(if_neg ho).trans ((if_pos hm).trans hm')⟩
  · have hle := h.le
    refine (if_neg fun ho => hi ?_).trans (if_neg fun hm => hi ?_)
    · rcases (mem_opens he).mp ho with ⟨h1,h2⟩ | ⟨h1,h2⟩
      · exact ⟨h1,h2.trans_le (hle.trans he)⟩
      · exact ⟨hb.trans h1,h2⟩
    · obtain ⟨h1,-,h2⟩ := (mem_moves he).mp hm
      exact ⟨h1,h2.trans_le he⟩

theorem strays_eq_false (h : other.Sound) (hb : b≤other.endSegment) (he : other.endSegment≤e) : other.strays b e=false := by
  have hle := h.le
  unfold Bundle.strays
  simp only [any_eq_false,mem_append,mem_opens he,mem_moves he,decide_eq_true_eq]
  intro i hi
  unfold Bundle.Exists at hi
  omega

/-- What is left in a bundle lies before the copy. -/
theorem Bundle.Sound.of_moved (h : other.Sound) (he : other.endSegment≤e) {f : Handle}
    (hf : (other.moved b e).files i=some f) : f.segment=i ∧ other.beginSegment ≤ i ∧ i<b := by
  obtain ⟨hm,hf⟩ := Option.ite_none_left_eq_some.mp hf
  rw [mem_moves he] at hm
  by_cases hi : other.Exists i
  · obtain ⟨n,hn⟩ := h.held i hi
    rw [hn] at hf
    cases hf
    exact ⟨rfl,hi.1,not_le.mp fun hbi => hm ⟨hbi,hi⟩⟩
  · rw [h.none i hi] at hf
    cases hf

end Copy

/-- Only files before the truncation are left in a bundle that waits, those to be deleted among them. -/
structure Retired.Cut (r : Retired) (begin_ : ℕ) : Prop where
  left : ∀ i f, r.files.files i = some f → f.segment < begin_
  deletes : ∀ i ∈ r.deletes, i < begin_ ∧ (r.files.files i).isSome

theorem Retired.Cut.mono {r : Retired} {m n : ℕ} (h : r.Cut m) (hmn : m≤n) : r.Cut n :=
  ⟨fun i f hf => (h.left i f hf).trans_le hmn, fun i hi => ⟨(h.deletes i hi).1.trans_le hmn,(h.deletes i hi).2⟩⟩

structure Inv (s : State) : Prop where
  files : ∀ b ∈ s.files, b.Sound ∧ s.beginSegment ≤ b.beginSegment
  retired : ∀ r ∈ s.retired, r.Cut s.beginSegment
  deleted : ∀ i, .deleted i ∈ s.events → i < s.beginSegment
  final : Final s.events
  fault : s.fault = false

section

variable {S : ℕ} {s s' : State} {b : Bundle} {begin_ end_ n : ℕ}

section

variable (h : Inv s)

include h

theorem Inv.file (hb : b ∈ s.files) {i : ℕ} (hi : b.Exists i) : (s.file i).isSome := by
  obtain ⟨m,hm⟩ := (h.files b hb).1.held i hi
  rw [State.file,Option.mem_def.mp hb,Option.bind_some,hm]
  rfl

theorem Inv.not_deleted {i : ℕ} (hi : s.beginSegment ≤ i) : .deleted i ∉ s.events :=
  fun hd => absurd (h.deleted i hd) hi.not_gt

/-- Files at or behind the truncation may be opened. -/
theorem Inv.final_opened {l : List ℕ} (hl : ∀ i ∈ l, s.beginSegment ≤ i) : Final (l.map .opened ++ s.events) := by
  refine pairwise_append.mpr ⟨pairwise_of_forall_mem_list ?_,h.final,?_⟩
  · rintro a - e he i rfl
    obtain ⟨j,-,⟨⟩⟩ := mem_map.mp he
  · rintro a ha e he i rfl rfl
    obtain ⟨j,hj,⟨⟩⟩ := mem_map.mp ha
    exact h.not_deleted (hl i hj) he

/-- A truncation moves the begin, before it looks at the bundle. -/
theorem Inv.replace (hb : b ∈ s.files) (hn : s.beginSegment≤n) (hbegin : n≤begin_)
    (hle : begin_≤b.endSegment) (hend : b.endSegment≤end_)
    (hleft : ∀ i, b.beginSegment ≤ i → i<begin_ → i<n) (newBegin : Option ℕ) (hnew : newBegin.getD 0≤n) :
    Inv (({ s with beginSegment := n } : State).replace b begin_ end_ newBegin) := by
  obtain ⟨hsound,hstart⟩ := h.files b hb
  have hcut : (⟨b.moved begin_ end_,newBegin⟩ : Retired).Cut n := by
    refine ⟨fun i f hf => ?_,fun i hi => ?_⟩
    · obtain ⟨rfl,h1,h2⟩ := hsound.of_moved hend hf
      exact hleft _ h1 h2
    · obtain ⟨h1,h2⟩ := List.Ico.mem.mp hi
      have hin : i<n := h2.trans_le hnew
      obtain ⟨m,hm⟩ := hsound.held i ⟨h1,hin.trans_le (hbegin.trans hle)⟩
      refine ⟨hin,Option.isSome_iff_exists.mpr ⟨_,(if_neg fun hmv => ?_).trans hm⟩⟩
      exact absurd ((mem_moves hend).mp hmv).1 (hin.trans_le hbegin).not_ge
  refine ⟨?_,forall_mem_cons.mpr ⟨hcut,fun r hr => (h.retired r hr).mono hn⟩,fun i hi => ?_,?_,?_⟩
  · rintro _ ⟨⟩
    exact ⟨hsound.copy hle hend _,hbegin⟩
  · rcases mem_append.mp hi with hi | hi
    · obtain ⟨j,-,⟨⟩⟩ := mem_map.mp hi
    · exact (h.deleted i hi).trans_le hn
  · refine h.final_opened fun i hi => ?_
    rcases (mem_opens hend).mp (mem_reverse.mp hi) with ⟨h1,-⟩ | ⟨h1,-⟩
    · exact hn.trans (hbegin.trans h1)
    · exact hn.trans (hbegin.trans (hle.trans h1))
  · exact Bool.or_eq_false_iff.mpr ⟨h.fault,strays_eq_false hsound hle hend⟩

/-- `OpenSegment` of a segment that is not cut off gives its file. -/
theorem Inv.openSegment (i : ℕ) : Inv (s.openSegment i).2 ∧ ((s.openSegment i).1=.ok ↔ s.beginSegment ≤ i) ∧
    ((s.openSegment i).1=.ok → ((s.openSegment i).2.file i).isSome) := by
  unfold State.openSegment
  split_ifs with hi
  · exact ⟨h,by simp [hi],by rintro ⟨⟩⟩
  have hi := not_lt.mp hi
  cases hb : s.files with
  | none =>
    have hnew : (Bundle.new s.events.length i (i+1)).Sound := ⟨i.le_succ,fun j hj => ⟨_,if_pos hj⟩,fun j hj => if_neg hj⟩
    have hinv : Inv { s with files := some (.new s.events.length i (i+1)), events := .opened i::s.events } := by
      refine ⟨?_,h.retired,fun j hj => h.deleted j ?_,h.final_opened (l := [i]) (by simpa using hi),h.fault⟩
      · rintro _ ⟨⟩
        exact ⟨hnew,hi⟩
      · simpa using hj
    exact ⟨hinv,by simp [hi],fun _ => hinv.file rfl ⟨le_rfl,i.lt_succ_self⟩⟩
  | some b =>
    simp only
    split_ifs with hex
    · exact ⟨h,by simp [hi],fun _ => h.file hb hex⟩
    · obtain ⟨hsound,hstart⟩ := h.files b hb
      have hinv := h.replace hb le_rfl (le_min hstart hi) ((min_le_left _ i).trans hsound.le)
        (le_max_left b.endSegment (i+1)) (fun j h1 h2 => absurd (h2.trans_le (min_le_left _ i)) h1.not_gt) none
        (Nat.zero_le _)
      exact ⟨hinv,by simp [hi],fun _ => hinv.file rfl ⟨min_le_right _ _,Nat.lt_of_succ_le (le_max_right _ _)⟩⟩

theorem Inv.useFile {i : ℕ} (hi : (s.file i).isSome) : Inv (s.useFile i) := by
  unfold State.useFile
  rw [Option.isNone_eq_false_iff.mpr hi,Bool.or_false]
  exact h

theorem Inv.access (offset : ℕ) : Inv (s.access S offset).2 ∧ (s.beginSegment≤offset/S → (s.access S offset).1=.ok) := by
  unfold State.access
  by_cases hex : ∃ b ∈ s.files, b.Exists (offset/S)
  · simp only [if_pos hex,if_true,implies_true,and_true]
    obtain ⟨b,hb,hin⟩ := hex
    exact h.useFile (h.file hb hin)
  · simp only [if_neg hex]
    obtain ⟨hinv,hok,hfile⟩ := h.openSegment (offset/S)
    refine ⟨?_,hok.mpr⟩
    split_ifs with hs
    · exact hinv.useFile (hfile hs)
    · exact hinv

theorem Inv.truncate {offset : ℕ} (hok : forward S s (.truncate offset)) :
    Inv (s.truncate S offset) ∧ ∀ i, offset/S ≤ i → (s.truncate S offset).file i=s.file i := by
  obtain ⟨b,hb,hle,hend⟩ := hok
  obtain ⟨hsound,hstart⟩ := h.files b hb
  unfold State.truncate
  rw [hb]
  simp only
  split_ifs with hn
  · refine ⟨⟨?_,fun r hr => (h.retired r hr).mono hle,fun i hi => (h.deleted i hi).trans_le hle,h.final,h.fault⟩,
      fun i _ => congrArg (·.bind fun b => b.files i) hb.symm⟩
    rintro _ ⟨⟩
    exact ⟨hsound,hn⟩
  · refine ⟨h.replace hb hle le_rfl hend le_rfl (fun _ _ hi => hi) _ le_rfl,fun i hi => ?_⟩
    rw [State.file,State.file,hb]
    refine (if_neg fun ho => ?_).trans ?_
    · rw [mem_opens le_rfl] at ho
      omega
    · by_cases hex : b.Exists i
      · exact if_pos ((mem_moves le_rfl).mpr ⟨hi,hex⟩)
      · rw [if_neg fun hm => hex ((mem_moves le_rfl).mp hm).2]
        exact (hsound.none i hex).symm

theorem Inv.reclaim {i : ℕ} (hs : s.reclaim i=some s') : Inv s' := by
  obtain ⟨r,hr,rfl⟩ := Option.map_eq_some_iff.mp hs
  have hcut := h.retired r (mem_of_getElem? hr)
  refine ⟨h.files,fun r' hr' => h.retired r' (mem_of_mem_eraseIdx hr'),fun j hj => ?_,?_,?_⟩
  · rcases mem_append.mp hj with hj | hj
    · obtain ⟨k,hk,⟨⟩⟩ := mem_map.mp hj
      exact (hcut.deletes _ (mem_reverse.mp hk)).1
    · exact h.deleted j hj
  · refine pairwise_append.mpr ⟨pairwise_of_forall_mem_list ?_,h.final,?_⟩
    all_goals
      rintro a ha e - j - rfl
      obtain ⟨k,-,⟨⟩⟩ := mem_map.mp ha
  · refine Bool.or_eq_false_iff.mpr ⟨h.fault,any_eq_false.mpr fun j hj => ?_⟩
    rw [Option.isNone_iff_eq_none]
    exact Option.isSome_iff_ne_none.mp (hcut.deletes j hj).2

theorem Inv.step {a : Label} (hok : forward S s a) (hs : (machine S).step s a=some s') : Inv s' := by
  cases a with
  | access offset =>
    cases hs
    exact (h.access offset).1
  | truncate offset =>
    cases hs
    exact (h.truncate hok).1
  | reclaim i => exact h.reclaim hs

end

/-- What the users of the files rely on. -/
structure Integrity (S : ℕ) (s : State) : Prop where
  /-- `files_` has one file for each segment of its range. -/
  files : ∀ b ∈ s.files, b.Sound
  /-- No bundle that waits owns one of them. -/
  owned : ∀ r ∈ s.retired, ∀ i j f, r.files.files i = some f → s.file j ≠ some f
  /-- No slot was used that is none. -/
  inside : s.fault = false
  /-- Every offset behind the truncation can be read and written. -/
  available : ∀ offset, s.beginSegment ≤ offset / S → (s.access S offset).1 = .ok
  /-- A truncation keeps the files behind it. -/
  kept : ∀ offset, forward S s (.truncate offset) → ∀ i, offset / S ≤ i → (s.truncate S offset).file i = s.file i
  final : Final s.events

/-- In every run in which each truncation finds a bundle, does not go back and does not go past the last open
segment, the bundle is as its users rely on. -/
theorem bundle_integrity (hs : Reachable (machine S) (forward S) s) : Integrity S s := by
  have h : Inv s := by
    refine hs.invariant (P := Inv) ?_ fun s a s' h hok hstep => h.step hok hstep
    rintro _ rfl
    exact ⟨by rintro _ ⟨⟩,by rintro _ ⟨⟩,by rintro _ ⟨⟩,.nil,rfl⟩
  refine ⟨fun b hb => (h.files b hb).1,?_,h.fault,fun offset => (h.access offset).2,
    fun offset hok => (h.truncate hok).2,h.final⟩
  rintro r hr i j f hf hj
  obtain ⟨b,hb,hbj⟩ := Option.bind_eq_some_iff.mp hj
  obtain ⟨hsound,hstart⟩ := h.files b hb
  by_cases hex : b.Exists j
  · obtain ⟨n,hn⟩ := hsound.held j hex
    cases hn.symm.trans hbj
    exact absurd ((h.retired r hr).left i _ hf) (hstart.trans hex.1).not_gt
  · cases (hsound.none j hex).symm.trans hbj

/-- Segment 0 is truncated and deleted, segment 1 stays. -/
theorem bundle_integrity_truncated : ∃ s, Reachable (machine 4) (forward 4) s ∧
    s.events = [.deleted 0, .opened 1, .opened 0] ∧ Integrity 4 s := by
  have hreach : Reachable (machine 4) (forward 4) _ := ⟨_,rfl,(((Run.single (a := Label.access 0) trivial rfl).tail
    (a := Label.access 4) trivial rfl).tail (a := Label.truncate 4) ⟨_,rfl,by decide,by decide⟩ rfl).tail
    (a := Label.reclaim 0) trivial rfl⟩
  exact ⟨_,hreach,by decide,bundle_integrity hreach⟩

/-- A truncation before the first write finds no bundle. One past the last open segment makes a bundle that ends
before it begins, and the callback comes to slots that the old one has not. One that goes back lets a deleted
segment be opened again. -/
theorem truncate_anywhere :
    (∃ s, Reachable (machine 4) anyStep s ∧ s.files.isNone ∧ s.fault = true) ∧
    (∃ s, Reachable (machine 4) anyStep s ∧ (∃ b ∈ s.files, b.endSegment < b.beginSegment) ∧ s.fault = true) ∧
    ∃ s, Reachable (machine 4) anyStep s ∧ s.events = [.opened 0, .deleted 0, .opened 1, .opened 0] := by
  have hearly : exec (machine 4) .new [.truncate 0]=some _ := rfl
  have hbeyond : exec (machine 4) .new [.access 0,.truncate 12,.reclaim 0]=some _ := rfl
  have hback : exec (machine 4) .new [.access 0,.access 4,.truncate 4,.reclaim 0,.truncate 0,.access 0] =
    some _ := rfl
  exact ⟨⟨_,⟨_,rfl,run_of_exec hearly⟩,rfl,rfl⟩,
    ⟨_,⟨_,rfl,run_of_exec hbeyond⟩,⟨_,rfl,by decide⟩,by decide⟩,
    _,⟨_,rfl,run_of_exec hback⟩,by decide⟩

end

end FishStore.SegmentBundle
