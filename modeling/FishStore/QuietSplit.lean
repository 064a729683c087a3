import FishStore.GrowSafety
import FishStore.SplitInvariant

/-!
# Splitting the table of a quiet store

While nothing else runs, any number of threads call `SplitHashTableBuckets`. A thread
takes a chunk, splits all of its buckets and counts it as done, in any interleaving of
whole chunks. The log, the old table and the addresses do not change, so they are given
by one state of the store; the new table begins empty. As history the state keeps how
often each bucket was split and which chunks are done.
-/

namespace FishStore.QuietSplit

open Layout Chains HashIndex BucketInvariant EntryInvariant ChainInvariant Grow SplitTable Finset
open SplitInvariant ChunkCounter Runs InternalInsert LiveChains
open Function (update update_eq_self update_of_ne update_self)

/-- The first `n` entries of a bucket are split. -/
def splitEntries (g : Grow.State) (t : ℕ) (b : BucketRef) :
    ℕ → Index × (Bool → Cursor) → Index × (Bool → Cursor)
  | 0, r => r
  | n + 1, r => splitEntry g t (g.old.index.entries ⟨b, n⟩) (splitEntries g t b n r)

/-- The loop over the buckets of a chain. -/
def splitChain (g : Grow.State) (t : ℕ) :
    ℕ → BucketRef → Index × (Bool → Cursor) → Option (Index × (Bool → Cursor))
  | 0, _, _ => none
  | fuel + 1, b, r =>
    match g.old.index.next b with
    | some c => splitChain g t fuel c (splitEntries g t b kNumEntries r)
    | none => some (splitEntries g t b kNumEntries r)

/-- The chain of buckets with index `j` is split. Its overflow buckets are different ones
that were allocated, so that the loop ends before its fuel does. -/
def splitBucket (g : Grow.State) (t j : ℕ) (m : Index) : Option Index :=
  (splitChain g t (g.old.index.count + 1) (.base j)
    (m, fun side => ⟨.base (newChains g.old.size j side), 0⟩)).map Prod.fst

/-- The first `n` buckets of a chunk are split. -/
def splitBuckets (g : Grow.State) (t chunk : ℕ) : ℕ → Index → Option Index
  | 0, m => some m
  | n + 1, m =>
    (splitBuckets g t chunk n m).bind (splitBucket g t (chunk * kGrowHashTableChunkSize + n))

/-- Where a call of `SplitHashTableBuckets` stands. -/
inductive Pc
  /-- About to take the next chunk. -/
  | fetch
  /-- It has taken the chunk. -/
  | split (chunk : ℕ)
  /-- The loop has ended. -/
  | done
  deriving DecidableEq

/-- The new table, the counters and history. -/
structure State where
  index : Index
  /-- `grow_.next_chunk`. -/
  nextChunk : ℕ
  /-- `grow_.num_pending_chunks`. -/
  numPendingChunks : ℕ
  pc : ℕ → Pc
  /-- The old table was freed. -/
  freed : Bool
  /-- History: how often each bucket of the old table was split. -/
  splits : ℕ → ℕ
  /-- History: the chunks that are done. -/
  chunkDone : ℕ → Bool

/-- `grow_.next_chunk++`: the thread takes a chunk, if there is one. -/
def State.take (g : Grow.State) (s : State) (t : ℕ) : State :=
  { s with
    nextChunk := s.nextChunk + 1
    pc := update s.pc t
      (if s.nextChunk < g.grow.numChunks then .split s.nextChunk else .done) }

/-- `--grow_.num_pending_chunks`: the chunk is done, and the old table is freed after the
last one. -/
def State.finish (g : Grow.State) (s : State) (t chunk : ℕ) (m : Index) : State :=
  { s with
    index := m
    numPendingChunks := s.numPendingChunks - 1
    pc := update s.pc t (if s.numPendingChunks - 1 = 0 then .done else .fetch)
    freed := decide (s.numPendingChunks - 1 = 0)
    splits := fun j => s.splits j + if chunk * kGrowHashTableChunkSize ≤ j ∧
      j < chunk * kGrowHashTableChunkSize + upperBound g chunk then 1 else 0
    chunkDone := update s.chunkDone chunk true }

/-- One step of a thread: it takes a chunk, or it splits the chunk and counts it as done. -/
def step (g : Grow.State) (s : State) (t : ℕ) : Option State :=
  match s.pc t with
  | .fetch => some (s.take g t)
  | .split chunk =>
    if s.freed then none
    else (splitBuckets g t chunk (upperBound g chunk) s.index).map (s.finish g t chunk)
  | .done => none

/-- The new table is empty, and no chunk was taken. -/
def initial (g : Grow.State) : State :=
  ⟨.empty, 0, g.grow.numChunks, fun _ => .fetch, false, fun _ => 0, fun _ => false⟩

/-- The executions of the threads. -/
def machine (g : Grow.State) : Machine State ℕ := ⟨fun s => s = initial g, step g⟩

/-- The key pointer is visited from the entry that `FindEntry` returns for its hash. -/
def Found (g : Grow.State) (size : ℕ) (m : Index) (a : ℕ) : Prop :=
  ∃ fuel x, findEntry size m (g.hashes a) fuel = some (some x) ∧
    Visits kInvalidAddress (prevOf g.store.kpts) (m.entries x).address a

/-- A quiet store with a table of `2 ^ k` buckets, when the threads have loaded the head
and the begin address. -/
structure Quiet (g : Grow.State) (k : ℕ) : Prop where
  oldSize : g.old.size = 2 ^ k
  newSize : g.new.size = 2 * 2 ^ k
  numChunks : g.grow.numChunks = max (2 ^ k / kGrowHashTableChunkSize) 1
  /-- Nobody looks an entry up. -/
  index : IndexInv g.old.index fun _ => none
  bounds : ∀ t, g.bounds t = (g.headAddress, g.store.beginAddress)
  begin_valid : kInvalidAddress < g.store.beginAddress
  begin_le : g.store.beginAddress ≤ g.headAddress
  /-- The chains of the entries lead down. -/
  descends : ∀ x a, Visits kInvalidAddress (prevOf g.store.kpts) (g.old.index.entries x).address a →
    kInvalidAddress < a → prevOf g.store.kpts a < a

/-- What `SplitHashTableBuckets` yields: every bucket of the old table was split once, no
chain has two entries of a tag, and every key pointer that was found is found. -/
structure Grown (g : Grow.State) (k : ℕ) (s : State) : Prop where
  once : ∀ j, j < 2 ^ k → s.splits j = 1
  unique : ∀ q x y, InChain s.index.next q x → InChain s.index.next q y →
    s.index.entries x ≠ kInvalidEntry → s.index.entries y ≠ kInvalidEntry →
    (s.index.entries x).tag = (s.index.entries y).tag → x = y
  found : ∀ a, g.store.beginAddress ≤ a → Found g g.old.size g.old.index a →
    Found g g.new.size s.index a

/-- What is kept while the chain with index `j` is split. -/
structure Keeps (n j : ℕ) (m m' : Index) : Prop where
  index : IndexInv m' fun _ => none
  next_mono : ∀ c d, m.next c = some d → m'.next c = some d
  kept : ∀ x, m.entries x ≠ kInvalidEntry → m'.entries x = m.entries x
  ends : ∀ q c, (∀ side, q ≠ newChains n j side) → EndsAt m q c → EndsAt m' q c

section

variable {g : Grow.State} {k t j n : ℕ} {m m' m'' : Index} {linked : List Link} {s s' : State}
  {b : BucketRef} {dst : Bool → Cursor}

theorem Keeps.refl (h : IndexInv m fun _ => none) : Keeps n j m m := ⟨h,fun _ _ hc => hc,fun _ _ => rfl,fun _ _ _ hc => hc⟩

theorem Keeps.trans (h : Keeps n j m m') (h' : Keeps n j m' m'') : Keeps n j m m'' := by
  refine ⟨h'.index,fun c d hc => h'.next_mono c d (h.next_mono c d hc),fun x hx => ?_,
    fun q c hq hc => h'.ends q c hq (h.ends q c hq hc)⟩
  have hkept := h.kept x hx
  rw [h'.kept x (by rw [hkept]; exact hx),hkept]

theorem Keeps.of_extends {tag : ℕ} (h : Extends (fun q => ∃ side, q=newChains n j side) tag m m') : Keeps n j m m' := by
  refine ⟨h.index,h.next_mono,h.kept,fun q c hq => h.ends q c ?_⟩
  rintro ⟨side,heq⟩
  exact hq side heq

theorem Keeps.live {size : ℕ} {kpts : ℕ → KptWord} {l : Link} (h : Keeps n j m m')
    (hl : Live size m kpts l) : Live size m' kpts l := by
  obtain ⟨x,hin,hx,hv⟩ := hl
  have hkept := h.kept x hx.1.1
  refine ⟨x,InChain.mono h.next_mono hin,?_,?_⟩
  · unfold Holds
    rw [hkept]
    exact hx
  · rw [hkept]
    exact hv

/-- The key pointers about which something is claimed. -/
def Claimed (g : Grow.State) (linked : List Link) : Prop :=
  ∀ l ∈ linked, g.hashes l.address = l.hash ∧ g.store.beginAddress ≤ l.address

/-- The entries of a bucket. -/
theorem splitEntries_spec (hq : Quiet g k) (hl : Claimed g linked) (hindex : IndexInv m fun _ => none)
    (h : Working (2^k) g.old.index m g.store.kpts linked j b 0 dst) (hn : n≤kNumEntries) :
    Working (2^k) g.old.index (splitEntries g t b n (m, dst)).1 g.store.kpts linked j b n
        (splitEntries g t b n (m, dst)).2 ∧ Keeps (2^k) j m (splitEntries g t b n (m, dst)).1 := by
  induction n with
  | zero => exact ⟨h,.refl hindex⟩
  | succ n ih =>
    obtain ⟨hwork,hkeeps⟩ := ih (Nat.le_of_succ_le hn)
    have hbegin := hq.begin_valid
    have hdesc : Descends kInvalidAddress (prevOf g.store.kpts) fun a => ∃ x,
        Visits kInvalidAddress (prevOf g.store.kpts) (g.old.index.entries x).address a := by
      rintro a ⟨x,hv⟩ ha
      exact ⟨hq.descends x a hv ha,x,hv.tail ha⟩
    have hclaimed : ∀ l ∈ linked, g.hashes l.address=l.hash ∧ (g.bounds t).2≤l.address := by
      rw [hq.bounds t]
      exact hl
    have hhead : kInvalidAddress<(g.bounds t).1 := by
      rw [hq.bounds t]
      exact hbegin.trans_le hq.begin_le
    have hpos : 0<(g.bounds t).2 := by
      rw [hq.bounds t]
      exact (Nat.zero_le _).trans_lt hbegin
    obtain ⟨hwork',hext,-⟩ := hwork.splitEntry_growing (t := t) hq.oldSize hq.newSize hdesc hclaimed
      hhead hpos hq.index (fun x => ⟨x,.refl _⟩) hkeeps.index hn
    exact ⟨hwork',hkeeps.trans (.of_extends hext)⟩

/-- The buckets of a chain, which ends before the fuel does. -/
theorem splitChain_spec (hq : Quiet g k) (hl : Claimed g linked) {fuel : ℕ} (hends : EndsWithin g.old.index.next fuel b)
    (hindex : IndexInv m fun _ => none) (h : Working (2^k) g.old.index m g.store.kpts linked j b 0 dst) :
    ∃ r, splitChain g t fuel b (m, dst)=some r ∧ Keeps (2^k) j m r.1 ∧
      ∀ l ∈ linked, l.hash.idx (2^k)=j → Live (2^k) g.old.index g.store.kpts l → Live (2*2^k) r.1 g.store.kpts l := by
  induction fuel generalizing b m dst with
  | zero => exact hends.elim
  | succ fuel ih =>
    obtain ⟨hwork,hkeeps⟩ := splitEntries_spec (t := t) hq hl hindex h le_rfl
    unfold splitChain
    cases hnext : g.old.index.next b with
    | none => exact ⟨_,rfl,hkeeps,fun l hm hidx hlive => hwork.finished (lt_irrefl _) hnext hm hidx hlive⟩
    | some c =>
      obtain ⟨r,hr,hkeeps',hlive⟩ := ih (hends c hnext) hkeeps.index (hwork.hop (lt_irrefl _) hnext)
      exact ⟨r,hr,hkeeps.trans hkeeps',hlive⟩

/-- The chains of buckets of the old table end. -/
theorem endsWithin_base (h : BucketInv m fun _ => none) (j : ℕ) : EndsWithin m.next (m.count+1) (.base j) := by
  have hcard : ((range m.count).image BucketRef.overflow).card<0+(m.count+1) := by
    rw [Nat.zero_add]
    refine Nat.lt_succ_of_le (card_image_le.trans ?_)
    rw [card_range]
  refine endsWithin_of_finite (a := .base j) (S := (range m.count).image BucketRef.overflow)
    ?_ ?_ ?_ (.refl _) ∅ (empty_subset _) ?_ hcard
  · intro b c hc
    obtain ⟨hne,rfl⟩ := next_eq_some hc
    exact mem_image_of_mem _ (mem_range.mpr (h.pointed_lt b hne))
  · intro a b c ha hb
    obtain ⟨ha0,hac⟩ := next_eq_some ha
    obtain ⟨-,hbc⟩ := next_eq_some hb
    rw [hac] at hbc
    exact h.pointed_inj a b ha0 (by injection hbc)
  · intro c hc
    cases (next_eq_some hc).2
  · intro c hc
    cases hc

/-- One bucket of the old table, whose new chains are empty. -/
theorem splitBucket_spec (hq : Quiet g k) (hl : Claimed g linked) (hindex : IndexInv m fun _ => none)
    (hempty : ∀ side, EndsAt m (newChains (2^k) j side) ⟨.base (newChains (2^k) j side),0⟩) :
    ∃ m', splitBucket g t j m=some m' ∧ Keeps (2^k) j m m' ∧
      ∀ l ∈ linked, l.hash.idx (2^k)=j → Live (2^k) g.old.index g.store.kpts l → Live (2*2^k) m' g.store.kpts l := by
  obtain ⟨r,hr,hkeeps,hlive⟩ := splitChain_spec (t := t) hq hl
    (endsWithin_base hq.index.buckets j) hindex (Working.start hempty)
  refine ⟨r.1,?_,hkeeps,hlive⟩
  unfold splitBucket
  rw [hq.oldSize,hr]
  rfl

/-- The new chains of the bucket are empty. -/
def Empty (k : ℕ) (m : Index) (j : ℕ) : Prop :=
  ∀ side, EndsAt m (newChains (2 ^ k) j side) ⟨.base (newChains (2 ^ k) j side), 0⟩

/-- What is known after the first `n` buckets of a chunk were split. -/
structure SplitUpTo (g : Grow.State) (k : ℕ) (linked : List Link) (chunk n : ℕ) (m m' : Index) :
    Prop where
  index : IndexInv m' fun _ => none
  /-- Buckets that were not split stay empty. -/
  empty : ∀ j, j < 2 ^ k → (∀ i, i < n → j ≠ chunk * kGrowHashTableChunkSize + i) → Empty k m j →
    Empty k m' j
  live : ∀ l, Live (2 * 2 ^ k) m g.store.kpts l → Live (2 * 2 ^ k) m' g.store.kpts l
  covered : ∀ i, i < n → ∀ l ∈ linked, l.hash.idx (2 ^ k) = chunk * kGrowHashTableChunkSize + i →
    Live (2 ^ k) g.old.index g.store.kpts l → Live (2 * 2 ^ k) m' g.store.kpts l

/-- The buckets of a chunk. -/
theorem splitBuckets_spec (hq : Quiet g k) (hl : Claimed g linked) {chunk : ℕ}
    (hchunk : ∀ i, i<upperBound g chunk → chunk*kGrowHashTableChunkSize+i<2^k) (hindex : IndexInv m fun _ => none)
    (hempty : ∀ i, i<upperBound g chunk → Empty k m (chunk*kGrowHashTableChunkSize+i)) (hn : n≤upperBound g chunk) :
    ∃ m', splitBuckets g t chunk n m=some m' ∧ SplitUpTo g k linked chunk n m m' := by
  induction n with
  | zero =>
    refine ⟨m,rfl,hindex,fun j _ _ he => he,fun l hlive => hlive,fun i hi => ?_⟩
    exact absurd hi (Nat.not_lt_zero i)
  | succ n ih =>
    obtain ⟨m₁,hm₁,h₁⟩ := ih (Nat.le_of_succ_le hn)
    have hempty₁ : Empty k m₁ (chunk*kGrowHashTableChunkSize+n) := by
      refine h₁.empty _ (hchunk n hn) (fun i hi heq => ?_) (hempty n hn)
      exact hi.ne' (Nat.add_left_cancel heq)
    obtain ⟨m₂,hm₂,hkeeps,hcovered⟩ := splitBucket_spec (t := t) hq hl h₁.index hempty₁
    refine ⟨m₂,?_,hkeeps.index,?_,fun l hlive => hkeeps.live (h₁.live l hlive),?_⟩
    · rw [splitBuckets,hm₁]
      exact hm₂
    · intro j hj hne he side
      refine hkeeps.ends _ _ (fun other => ?_) (h₁.empty j hj (fun i hi => hne i (by omega)) he side)
      exact newChains_disjoint hj (hchunk n hn) (hne n (Nat.lt_succ_self n)) side other
    · intro i hi l hm hidx hlive
      rcases Nat.lt_succ_iff_lt_or_eq.mp hi with hlt | rfl
      · exact hkeeps.live (h₁.covered i hlt l hm hidx hlive)
      · exact hcovered l hm hidx hlive

/-- The chunk that a thread has taken. -/
def chunkOfPc : Pc → Option ℕ
  | .split chunk => some chunk
  | _ => none

def hold (pc : ℕ → Pc) (t : ℕ) : Option ℕ := chunkOfPc (pc t)

theorem chunk_lt (hj : j<2^k) : j/kGrowHashTableChunkSize < max (2^k/kGrowHashTableChunkSize) 1 := by
  rcases lt_or_ge k 14 with hk | hk
  · have hlt : 2^k<2^14 := Nat.pow_lt_pow_right (by decide) hk
    unfold kGrowHashTableChunkSize
    omega
  · obtain ⟨m,rfl⟩ := Nat.exists_eq_add_of_le hk
    have hpow : 2^(14+m)=16384*2^m := by
      rw [pow_add]
      rfl
    rw [hpow] at hj ⊢
    unfold kGrowHashTableChunkSize
    omega

/-- The invariant of the split. -/
structure Inv (g : Grow.State) (k : ℕ) (linked : List Link) (s : State) : Prop where
  chunks : Chunks g.grow.numChunks s.nextChunk s.numPendingChunks s.chunkDone (hold s.pc)
  index : IndexInv s.index fun _ => none
  empty : ∀ j, j < 2 ^ k → s.chunkDone (j / kGrowHashTableChunkSize) = false → Empty k s.index j
  covered : ∀ j, j < 2 ^ k → s.chunkDone (j / kGrowHashTableChunkSize) = true → ∀ l ∈ linked,
    l.hash.idx (2 ^ k) = j → Live (2 ^ k) g.old.index g.store.kpts l →
      Live (2 * 2 ^ k) s.index g.store.kpts l
  splits : ∀ j, j < 2 ^ k → s.splits j = (s.chunkDone (j / kGrowHashTableChunkSize)).toNat
  /-- The old table is freed when no chunk is left. -/
  freed : s.freed = true → s.numPendingChunks = 0
  /-- A thread leaves the loop when all chunks were taken or none is left. -/
  done : ∀ t, s.pc t = .done → g.grow.numChunks ≤ s.nextChunk ∨ s.numPendingChunks = 0

theorem hold_update (pc : ℕ → Pc) (p : Pc) : hold (update pc t p)=update (hold pc) t (chunkOfPc p) := by
  funext u
  by_cases hu : u=t
  · rw [hu,update_self]
    exact congrArg chunkOfPc (update_self _ _ _)
  · rw [update_of_ne hu]
    exact congrArg chunkOfPc (update_of_ne hu _ _)

theorem Inv.fetch (h : Inv g k linked s) (hpc : s.pc t=.fetch) : Inv g k linked (s.take g t) := by
  have hfree : hold s.pc t=none := congrArg chunkOfPc hpc
  refine ⟨?_,h.index,h.empty,h.covered,h.splits,h.freed,fun u hu => ?_⟩
  · change Chunks _ (s.nextChunk+1) _ _ (hold (update s.pc t _))
    rw [hold_update]
    split_ifs with hlt
    · exact h.chunks.take hlt hfree
    · rw [show chunkOfPc .done=hold s.pc t from hfree.symm,update_eq_self]
      exact h.chunks.none_left (not_lt.mp hlt)
  · change update s.pc t _ u=_ at hu
    by_cases hut : u=t
    · rw [hut,update_self] at hu
      split_ifs at hu with hlt
      exact .inl ((not_lt.mp hlt).trans (Nat.le_succ _))
    · rw [update_of_ne hut] at hu
      exact (h.done u hu).imp_left fun hle => hle.trans (Nat.le_succ _)

/-- A thread that has taken a chunk splits it. -/
theorem Inv.split (hq : Quiet g k) (hl : Claimed g linked) (h : Inv g k linked s) {chunk : ℕ}
    (hpc : s.pc t=.split chunk) : ∃ s', step g s t=some s' ∧ Inv g k linked s' ∧
      s'.numPendingChunks=s.numPendingChunks - 1 ∧ s'.nextChunk=s.nextChunk := by
  have hhold : hold s.pc t=some chunk := congrArg chunkOfPc hpc
  obtain ⟨hnum,-,hnotDone⟩ := h.chunks.held t chunk hhold
  obtain ⟨hbound,hcover⟩ := upperBound_spec hq.oldSize hq.numChunks hnum
  have hfreed : s.freed=false := by
    by_contra hfreed
    have hzero := h.freed (by simpa using hfreed)
    have hchunks := h.chunks
    rw [hzero] at hchunks
    rw [hchunks.all_done hnum] at hnotDone
    cases hnotDone
  have hempty : ∀ i, i<upperBound g chunk → Empty k s.index (chunk*kGrowHashTableChunkSize+i) := by
    intro i hi
    refine h.empty _ (hbound i hi).2 ?_
    rw [(bucket_of_chunk (hbound i hi).1).1]
    exact hnotDone
  obtain ⟨m,hm,hsplit⟩ := splitBuckets_spec (t := t) hq hl (fun i hi => (hbound i hi).2) h.index hempty le_rfl
  -- The buckets of the chunk are those that are counted.
  have hmem : ∀ j, j<2^k → (j/kGrowHashTableChunkSize=chunk ↔ chunk*kGrowHashTableChunkSize≤j ∧
        j<chunk*kGrowHashTableChunkSize+upperBound g chunk) := by
    intro j hj
    constructor
    · intro heq
      have hmod := hcover j hj heq
      have hdiv := Nat.div_add_mod j kGrowHashTableChunkSize
      rw [heq,mul_comm] at hdiv
      omega
    · rintro ⟨hle,hlt⟩
      have hi := (hbound (j - chunk*kGrowHashTableChunkSize) (by omega)).1
      have hj' := (bucket_of_chunk (c := chunk) hi).1
      rwa [Nat.add_sub_cancel' hle] at hj'
  have hdone : ∀ j, j/kGrowHashTableChunkSize ≠ chunk → update s.chunkDone chunk true (j/kGrowHashTableChunkSize) =
        s.chunkDone (j/kGrowHashTableChunkSize) := fun j hne => update_of_ne hne _ _
  have hstep : step g s t=some (s.finish g t chunk m) := by
    unfold step
    rw [hpc]
    dsimp only
    rw [hfreed,hm]
    rfl
  refine ⟨_,hstep,⟨?_,hsplit.index,fun j hj hnot => ?_,fun j hj hyes l hm' hidx hlive => ?_,
    fun j hj => ?_,fun hyes => of_decide_eq_true hyes,fun u hu => ?_⟩,rfl,rfl⟩
  · change Chunks _ _ (s.numPendingChunks - 1) (update s.chunkDone chunk true) (hold (update s.pc t _))
    rw [hold_update,show chunkOfPc (if s.numPendingChunks - 1=0 then .done else .fetch)=none by
      split_ifs <;> rfl]
    exact h.chunks.finish hhold
  · have hne : j/kGrowHashTableChunkSize ≠ chunk := by
      intro heq
      change update s.chunkDone chunk true _=false at hnot
      rw [heq,update_self] at hnot
      cases hnot
    refine hsplit.empty j hj (fun i hi heq => hne ?_) (h.empty j hj ((hdone j hne).symm.trans hnot))
    rw [heq]
    exact (bucket_of_chunk (hbound i hi).1).1
  · by_cases heq : j/kGrowHashTableChunkSize=chunk
    · obtain ⟨hle,hlt⟩ := (hmem j hj).mp heq
      refine hsplit.covered (j - chunk*kGrowHashTableChunkSize) (by omega) l hm' ?_ hlive
      rw [hidx,Nat.add_sub_cancel' hle]
    · exact hsplit.live l (h.covered j hj ((hdone j heq).symm.trans hyes) l hm' hidx hlive)
  · change s.splits j+_=(update s.chunkDone chunk true _).toNat
    rw [h.splits j hj]
    by_cases heq : j/kGrowHashTableChunkSize=chunk
    · rw [if_pos ((hmem j hj).mp heq),heq,hnotDone,update_self]
      rfl
    · rw [if_neg fun hin => heq ((hmem j hj).mpr hin),hdone j heq,add_zero]
  · change update s.pc t _ u=_ at hu
    by_cases hut : u=t
    · rw [hut,update_self] at hu
      split_ifs at hu with hzero
      exact .inr hzero
    · rw [update_of_ne hut] at hu
      refine (h.done u hu).imp_right fun hzero => ?_
      change s.numPendingChunks - 1=0
      rw [hzero]

theorem Inv.step (hq : Quiet g k) (hl : Claimed g linked) (h : Inv g k linked s)
    (hs : step g s t=some s') : Inv g k linked s' := by
  cases hpc : s.pc t with
  | fetch =>
    unfold QuietSplit.step at hs
    rw [hpc] at hs
    cases hs
    exact h.fetch hpc
  | split chunk =>
    obtain ⟨s₁,hs₁,h₁,-⟩ := h.split hq hl hpc
    cases hs₁.symm.trans hs
    exact h₁
  | done =>
    unfold QuietSplit.step at hs
    rw [hpc] at hs
    cases hs

theorem inv_initial : Inv g k linked (initial g) := by
  refine ⟨Chunks.start _ fun _ => rfl,(InsertInvariant.inv_empty 1).index,fun j _ _ side => ?_,?_, fun j _ => rfl,?_,?_⟩
  · exact ⟨.refl _,rfl,Nat.zero_le _,fun _ _ _ => rfl⟩
  · rintro j - ⟨⟩
  · rintro ⟨⟩
  · rintro t ⟨⟩

theorem reachable_inv (hq : Quiet g k) (hl : Claimed g linked)
    (hs : Reachable (machine g) anyStep s) : Inv g k linked s := by
  refine hs.invariant (P := Inv g k linked) ?_ ?_
  · rintro s rfl
    exact inv_initial
  · exact fun s t s' h _ hstep => h.step hq hl hstep

/-- As long as a chunk is left, a thread may take one or split the one that it has taken. -/
theorem Inv.progress (hq : Quiet g k) (h : Inv g k [] s) (hpos : 0<s.numPendingChunks) :
    ∃ t s', QuietSplit.step g s t=some s' ∧ s'.numPendingChunks+(g.grow.numChunks - s'.nextChunk) <
        s.numPendingChunks+(g.grow.numChunks - s.nextChunk) := by
  have hsplit : ∀ t chunk, s.pc t=.split chunk → ∃ t s', QuietSplit.step g s t=some s' ∧
      s'.numPendingChunks+(g.grow.numChunks - s'.nextChunk) < s.numPendingChunks+(g.grow.numChunks - s.nextChunk) := by
    intro t chunk hpc
    obtain ⟨s',hs',-,hpending,hnext⟩ := h.split hq (fun l hl => absurd hl List.not_mem_nil) hpc
    exact ⟨t,s',hs',by rw [hpending,hnext]; omega⟩
  by_cases hlt : s.nextChunk<g.grow.numChunks
  · cases hpc : s.pc 0 with
    | fetch =>
      refine ⟨0,s.take g 0,?_,?_⟩
      · unfold QuietSplit.step
        rw [hpc]
      · change s.numPendingChunks+(g.grow.numChunks - (s.nextChunk+1))<_
        omega
    | split chunk => exact hsplit 0 chunk hpc
    | done =>
      rcases h.done 0 hpc with hle | hzero
      · exact absurd hle (not_le.mpr hlt)
      · omega
  · -- All chunks were taken: one that is not done is taken by a thread.
    have hcard := h.chunks.count
    obtain ⟨chunk,hmem⟩ := card_pos.mp (hcard ▸ hpos)
    obtain ⟨hrange,hnot⟩ := mem_filter.mp hmem
    have hnum := mem_range.mp hrange
    rcases h.chunks.cover chunk hnum (by omega) with hyes | ⟨t,ht⟩
    · rw [hnot] at hyes
      cases hyes
    · cases hpc : s.pc t with
      | split c => exact hsplit t c hpc
      | _ =>
        have hnone : hold s.pc t=none := congrArg chunkOfPc hpc
        rw [hnone] at ht
        cases ht

/-- The threads come to an end of the split. -/
theorem exists_finished (hq : Quiet g k) (hs : Reachable (machine g) anyStep s) :
    ∃ s', Run (machine g) anyStep s s' ∧ s'.numPendingChunks=0 := by
  induction hmeasure : s.numPendingChunks+(g.grow.numChunks - s.nextChunk) using Nat.strong_induction_on generalizing s with
  | _ d ih =>
    by_cases hzero : s.numPendingChunks=0
    · exact ⟨s,.refl s,hzero⟩
    · have hinv : Inv g k [] s := reachable_inv hq (fun l hl => absurd hl List.not_mem_nil) hs
      obtain ⟨t,s₁,hstep,hlt⟩ := hinv.progress hq (Nat.pos_of_ne_zero hzero)
      have hrun : Run (machine g) anyStep s s₁ := .single trivial hstep
      obtain ⟨s',hrun',hfin⟩ := ih _ (hmeasure ▸ hlt) (hs.run hrun) rfl
      exact ⟨s',hrun.trans hrun',hfin⟩

/-- What `FindEntry` returns holds the tag. -/
theorem holds_of_findLoop {tag fuel i : ℕ} {x : Slot} (h : findLoop tag m fuel b i=some (some x)) :
    Reaches m.next b x.bucket ∧ x.idx<kNumEntries ∧ Holds m x tag := by
  induction fuel generalizing b i with
  | zero => cases h
  | succ fuel ih =>
    unfold findLoop at h
    by_cases hi : i<kNumEntries
    · by_cases hx : Holds m ⟨b,i⟩ tag
      · rw [findStep_hit hi hx] at h
        cases h
        exact ⟨.refl _,hi,hx⟩
      · rw [findStep_pass hi hx] at h
        exact ih h
    · unfold findStep at h
      rw [if_neg hi] at h
      cases hnext : m.next b with
      | none =>
        simp only [hnext] at h
        cases h
      | some c =>
        simp only [hnext] at h
        obtain ⟨hreach,hrest⟩ := ih h
        exact ⟨.head hnext hreach,hrest⟩

/-- A key pointer is found where its chain has one entry of the tag that leads to it. -/
theorem found_iff (h : IndexInv m fun _ => none) {size : ℕ} {l : Link}
    (hhash : g.hashes l.address=l.hash) : Found g size m l.address ↔ Live size m g.store.kpts l := by
  constructor
  · rintro ⟨fuel,x,hfind,hv⟩
    rw [hhash] at hfind
    obtain ⟨hreach,hidx,hholds⟩ := holds_of_findLoop hfind
    exact ⟨x,⟨hreach,hidx⟩,hholds,hv⟩
  · rintro ⟨x,hin,hx,hv⟩
    obtain ⟨fuel,hfind⟩ := findLoop_found hin.1 hin.2 hx fun y hy hyi hh =>
      h.entries.final_unique _ y x _ ⟨hy,hyi⟩ hin hh hx
    refine ⟨fuel,x,?_,hv⟩
    rw [hhash]
    exact hfind

/-- No chunk is left. -/
theorem grown_of_finished (hq : Quiet g k) (hs : Reachable (machine g) anyStep s)
    (hfin : s.numPendingChunks=0) : Grown g k s := by
  have hinv := fun linked (hl : Claimed g linked) => reachable_inv hq hl hs
  have h₀ := hinv [] fun l hl => absurd hl List.not_mem_nil
  have hdone : ∀ j, j<2^k → s.chunkDone (j/kGrowHashTableChunkSize)=true := by
    intro j hj
    have hchunks := h₀.chunks
    rw [hfin] at hchunks
    refine hchunks.all_done ?_
    rw [hq.numChunks]
    exact chunk_lt hj
  refine ⟨fun j hj => ?_,fun q x y hx hy hxu hyu htag => ?_,fun a ha hfound => ?_⟩
  · rw [h₀.splits j hj,hdone j hj]
    rfl
  · have hfinal : ∀ z, s.index.entries z ≠ kInvalidEntry → (s.index.entries z).Final := by
      intro z hz
      refine ⟨hz,?_⟩
      by_contra htent
      obtain ⟨_,_,hnone,_⟩ := h₀.index.entries.owner z (by simpa using htent)
      cases hnone
    exact h₀.index.entries.final_unique q x y _ hx hy ⟨hfinal x hxu,htag⟩ ⟨hfinal y hyu,rfl⟩
  · -- One key pointer at a time.
    let l : Link := ⟨a,g.hashes a,⟨.base 0,0⟩,false,0⟩
    have hclaimed : Claimed g [l] := by
      intro l' hl'
      cases List.mem_singleton.mp hl'
      exact ⟨rfl,ha⟩
    have h := hinv [l] hclaimed
    have hlive : Live (2^k) g.old.index g.store.kpts l := by
      refine (found_iff (l := l) hq.index rfl).mp ?_
      rw [←hq.oldSize]
      exact hfound
    have hidx := idx_lt (g.hashes a) k
    rw [hq.newSize]
    exact (found_iff (l := l) h.index rfl).mpr (h.covered _ hidx (hdone _ hidx) l (List.mem_singleton_self l) rfl hlive)

/-- However the threads divide the chunks among themselves, they come to an end of the split,
and no thread reads the old table after it was freed. When no chunk is left, each bucket
of the old table was split once, the chains of the new one have at most one entry of a
tag, and every key pointer at or above the begin address that `FindEntry` led to in the
old table is one that it leads to in the new one. -/
theorem splitHashTableBuckets_grows (hq : Quiet g k) (hs : Reachable (machine g) anyStep s) :
    (∃ s', Run (machine g) anyStep s s' ∧ s'.numPendingChunks = 0) ∧
      (∀ t chunk, s.pc t = .split chunk → (step g s t).isSome = true) ∧
      (s.numPendingChunks = 0 → Grown g k s) := by
  refine ⟨exists_finished hq hs,fun t chunk hpc => ?_,grown_of_finished hq hs⟩
  have hl : Claimed g [] := fun l hl => absurd hl List.not_mem_nil
  obtain ⟨s',hs',-⟩ := (reachable_inv hq hl hs).split hq hl hpc
  rw [hs']
  rfl

end

/-- A table of one bucket with one entry, whose chain has key pointers of both sides in
memory and one on disk. -/
def twoSides : Grow.State :=
  { GrowSafety.store [] with
    grow := ⟨false, 1, 1, 0⟩
    table := fun v =>
      if v then ⟨2, .empty, true, 1⟩
      else ⟨1, Index.empty.setEntry ⟨.base 0, 0⟩ ⟨200, 5, false⟩, true, 1⟩
    store := { InternalInsert.State.empty with
      kpts := fun a => ⟨false, 0, if a = 200 then 160 else if a = 160 then 100 else 0⟩ }
    hashes := fun a => ⟨5 * 2 ^ 48 + if a = 200 then 0 else 1⟩
    headAddress := 150
    bounds := fun _ => (150, 64) }

theorem quiet_twoSides : Quiet twoSides 0 := by
  have hempty : IndexInv Index.empty fun _ => none := (InsertInvariant.inv_empty 1).index
  have hends : EndsAt Index.empty 0 ⟨.base 0,0⟩ := ⟨.refl _,rfl,Nat.zero_le _,fun _ _ _ => rfl⟩
  have hadded := addHashEntry_here hempty hends (e := ⟨200,5,false⟩) (by decide) hends.noTag (by decide)
  refine ⟨rfl,rfl,rfl,hadded.1.index,fun _ => rfl,by decide,by decide,fun x a _ ha => ?_⟩
  change (if a=200 then 160 else if a=160 then 100 else 0)<a
  unfold kInvalidAddress at ha
  split_ifs <;> omega

/-- The entry goes to its own side; on the other side begins the chain of the next key pointer. -/
def twoSidesSplit (s : State) : Bool :=
  decide (s.numPendingChunks = 0 ∧ s.index.entries ⟨.base 0, 0⟩ = ⟨200, 5, false⟩ ∧
    s.index.entries ⟨.base 1, 0⟩ = ⟨160, 5, false⟩)

theorem splitHashTableBuckets_grows_twoSides : Quiet twoSides 0 ∧
    ∃ s, Reachable (machine twoSides) anyStep s ∧ twoSidesSplit s = true ∧
      Grown twoSides 0 s := by
  have htrace : (exec (machine twoSides) (initial twoSides) [0,0]).any twoSidesSplit=true := by
    decide +kernel
  obtain ⟨s,hrun,hsplit⟩ := exists_run_of_exec htrace
  have hs : Reachable (machine twoSides) anyStep s := ⟨initial twoSides,rfl,hrun⟩
  exact ⟨quiet_twoSides,s,hs,hsplit,
    (splitHashTableBuckets_grows quiet_twoSides hs).2.2 (of_decide_eq_true hsplit).1⟩

end FishStore.QuietSplit
