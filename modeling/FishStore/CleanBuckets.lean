import FishStore.Grow

/-!
# Cleaning the hash table

After `ShiftBeginAddress` the sessions clean the buckets of the hash table, chunk by chunk: an
entry whose address is below the begin address is cleared. The chunks are counted by `gc_`,
but the size of a chunk depends on `grow_.num_chunks`, the number of chunks of the latest
growth of the index, which is not initialised before the first one.

The sessions only clean; nothing is inserted meanwhile. Every load and compare-and-swap of an
entry is a step, with the steps of `CleanHashTableBuckets` that insertions run beside.
-/

namespace FishStore.CleanBuckets

open Layout HashIndex Chains Runs Function Grow InternalInsert

/-- `kGcHashTableChunkSize`. -/
def kGcHashTableChunkSize : ℕ := 16384

/-- What the chunks depend on: the size of the table and `grow_.num_chunks`. -/
structure Sizes where
  size : ℕ
  growNumChunks : ℕ
  deriving DecidableEq

/-- A call that changes them. -/
inductive Call
  /-- `GrowIndex`, until the growth is over. -/
  | growIndex
  /-- `Recover` of an index of the given size, which leaves `grow_` as it is. -/
  | recover (size : ℕ)

/-- A call, where `Recover` finds a table of a size that is a power of two. -/
def Sizes.step (z : Sizes) : Call → Option Sizes
  | .growIndex => some ⟨z.size * 2, max (z.size / kGrowHashTableChunkSize) 1⟩
  | .recover size => if size = 2 ^ size.log2 then some { z with size } else none

/-- Histories of a store. Its table has a size that is a power of two, and `num_chunks` has no
initial value. -/
def history : Machine Sizes Call := ⟨fun z => z.size = 2 ^ z.size.log2, Sizes.step⟩

/-- `gc_.num_chunks`. -/
def Sizes.gcNumChunks (z : Sizes) : ℕ := max (z.size / kGcHashTableChunkSize) 1

/-- `upper_bound` of a chunk. -/
def Sizes.upperBound (z : Sizes) (chunk : ℕ) : ℕ :=
  if chunk + 1 < z.growNumChunks then kGrowHashTableChunkSize
  else z.size - chunk * kGcHashTableChunkSize

/-- The first bucket of a chunk. -/
def firstBucket (chunk : ℕ) : ℕ := chunk * kGcHashTableChunkSize

/-- The bucket is visited with the chunk. -/
def Sizes.Visits (z : Sizes) (chunk idx : ℕ) : Prop :=
  firstBucket chunk ≤ idx ∧ idx < firstBucket chunk + z.upperBound chunk

instance (z : Sizes) (chunk idx : ℕ) : Decidable (z.Visits chunk idx) := inferInstanceAs (Decidable (_ ∧ _))

/-- The chunks are pairwise disjoint, have no bucket outside of the table, and cover it. -/
structure Sizes.Tiled (z : Sizes) : Prop where
  disjoint : ∀ c < z.gcNumChunks, ∀ d < z.gcNumChunks, ∀ idx, z.Visits c idx → z.Visits d idx → c = d
  inside : ∀ c < z.gcNumChunks, ∀ idx, z.Visits c idx → idx < z.size
  cover : ∀ idx < z.size, ∃ c < z.gcNumChunks, z.Visits c idx

/-- The number of chunks of the latest growth suits the table: it is at most 1 for a table
smaller than a chunk, and not below the number of chunks of a larger one. -/
def Sizes.Suits (z : Sizes) : Prop :=
  (z.size < kGcHashTableChunkSize → z.growNumChunks ≤ 1) ∧
    (kGcHashTableChunkSize < z.size → z.size / kGcHashTableChunkSize ≤ z.growNumChunks)

instance (z : Sizes) : Decidable z.Suits := inferInstanceAs (Decidable (_ ∧ _))

/-- The table while it is cleaned. -/
structure State where
  index : Index
  /-- `gc_.next_chunk`. -/
  nextChunk : ℕ
  /-- Where each session's call of `CleanHashTableBuckets` stands. -/
  pc : ℕ → Pc

/-- A step of a session. -/
inductive Label
  /-- Call `CleanHashTableBuckets`. -/
  | call (t : ℕ)
  /-- Go on. -/
  | go (t : ℕ)

/-- The session goes to another place. -/
def State.goto (s : State) (t : ℕ) (pc : Pc) : State := { s with pc := Function.update s.pc t pc }

/-- One step of a session, for the begin address of the shift. -/
def step (z : Sizes) (begin : ℕ) (s : State) : Label → Option State
  | .call t =>
    match s.pc t with
    | .idle =>
      let chunk := s.nextChunk
      let s := { s with nextChunk := chunk + 1 }
      if chunk ≥ z.gcNumChunks then some s
      else if 0 < z.upperBound chunk then
        some (s.goto t (.clean begin (firstBucket chunk + z.upperBound chunk) (firstBucket chunk)
          (.base (firstBucket chunk)) 0))
      else some s
    | _ => none
  | .go t =>
    match s.pc t with
    | .clean n last idx b i => some (s.goto t (cleanStep s.index n last idx b i))
    | .cleanCas n last idx b i expected =>
      let s := if s.index.entries ⟨b, i⟩ = expected then
        { s with index := s.index.setEntry ⟨b, i⟩ kInvalidEntry } else s
      some (s.goto t (.clean n last idx b (i + 1)))
    | _ => none

/-- The cleaning of a table after `ShiftBeginAddress`. -/
def machine (z : Sizes) (m : Index) (begin : ℕ) : Machine State Label :=
  ⟨fun s => s = ⟨m, 0, fun _ => .idle⟩, step z begin⟩

/-- All chunks are done. -/
def State.Done (s : State) (z : Sizes) : Prop := z.gcNumChunks ≤ s.nextChunk ∧ ∀ t, s.pc t = .idle

/-- The entry is in use and has a log address below the begin address. -/
def Stale (begin : ℕ) (e : HashBucketEntry) : Prop :=
  e.unused = false ∧ e.address ≠ kInvalidAddress ∧ e.address < begin

instance (begin : ℕ) (e : HashBucketEntry) : Decidable (Stale begin e) :=
  inferInstanceAs (Decidable (_ ∧ _ ∧ _))

section

variable {z : Sizes} {m : Index} {begin : ℕ} {s s' : State} {label : Label} {t : ℕ}

theorem not_stale_kInvalidEntry (begin : ℕ) : ¬Stale begin kInvalidEntry := fun h => by
  have hunused := h.1
  simp [HashBucketEntry.unused] at hunused

/-- The sizes of histories are powers of two. -/
theorem history_size {z : Sizes} (h : Reachable history anyStep z) : ∃ k, z.size=2^k := by
  refine h.invariant (P := fun z => ∃ k, z.size=2^k) (fun z hz => ⟨_,hz⟩) ?_
  rintro z call z' ⟨k,hk⟩ - hstep
  cases call with
  | growIndex =>
    cases hstep
    exact ⟨k+1,by rw [pow_succ,←hk]⟩
  | recover size =>
    change (if size=2^size.log2 then some { z with size } else none)=some z' at hstep
    split_ifs at hstep with hpow
    cases hstep
    exact ⟨_,hpow⟩

/-- A power of two is less than a chunk, or a multiple of it. -/
theorem size_cases {k : ℕ} (h : z.size=2^k) : z.size<kGcHashTableChunkSize ∨ ∃ n, 0<n ∧ z.size=n*kGcHashTableChunkSize := by
  by_cases hk : k<14
  · left
    rw [h]
    exact Nat.pow_lt_pow_right (by norm_num) hk
  · right
    refine ⟨2^(k - 14),Nat.two_pow_pos _,?_⟩
    rw [h,kGcHashTableChunkSize]
    change 2^k=2^(k - 14)*2^14
    rw [←pow_add,Nat.sub_add_cancel (by omega)]

/-- The chunks tile the table if and only if the latest growth suits it. -/
theorem tiled_iff {k : ℕ} (h : z.size=2^k) : z.Tiled ↔ z.Suits := by
  have hpos : 0<z.size := by
    rw [h]
    exact Nat.two_pow_pos k
  rcases size_cases h with hlt | ⟨n,hn,hsize⟩
  · -- One chunk.
    have hone : z.gcNumChunks=1 := by
      unfold Sizes.gcNumChunks
      rw [Nat.div_eq_of_lt hlt]
      rfl
    have hsuits : z.Suits ↔ z.growNumChunks≤1 :=
      ⟨fun hs => hs.1 hlt,fun hg => ⟨fun _ => hg,fun hgt => absurd hlt (not_lt.mpr hgt.le)⟩⟩
    rw [hsuits]
    constructor
    · intro ht
      by_contra hg
      have hin := ht.inside 0 (by rw [hone]; norm_num) z.size (by
        unfold Sizes.Visits Sizes.upperBound firstBucket
        rw [if_pos (by omega)]
        unfold kGrowHashTableChunkSize
        unfold kGcHashTableChunkSize at hlt
        omega)
      exact lt_irrefl _ hin
    · intro hg
      have hvisits : ∀ idx, z.Visits 0 idx ↔ idx<z.size := by
        intro idx
        unfold Sizes.Visits Sizes.upperBound firstBucket
        rw [if_neg (by omega)]
        omega
      refine ⟨fun c hc d hd _ _ _ => by omega,fun c hc idx hv => ?_,fun idx hidx => ⟨0,by omega,(hvisits idx).mpr hidx⟩⟩
      obtain rfl : c=0 := by omega
      exact (hvisits idx).mp hv
  · -- A multiple of whole chunks.
    have hchunk : 0<kGcHashTableChunkSize := by norm_num [kGcHashTableChunkSize]
    have hnum : z.size/kGcHashTableChunkSize=n := by rw [hsize,Nat.mul_div_cancel _ hchunk]
    have hgc : z.gcNumChunks=n := by
      unfold Sizes.gcNumChunks
      rw [hnum]
      exact max_eq_left hn
    have hsuits : z.Suits ↔ n≤z.growNumChunks ∨ n=1 := by
      unfold Sizes.Suits
      rw [hnum,hsize]
      unfold kGcHashTableChunkSize
      constructor
      · rintro ⟨-,hg⟩
        by_cases h1 : n=1
        · exact .inr h1
        · exact .inl (hg (by omega))
      · rintro (hg | rfl)
        · exact ⟨fun hlt => by omega,fun _ => hg⟩
        · exact ⟨fun hlt => by omega,fun hgt => by omega⟩
    rw [hsuits]
    constructor
    · intro ht
      by_contra hg
      rw [not_or] at hg
      -- The chunk before the last one goes on to the end of the table.
      obtain ⟨j,rfl⟩ : ∃ j, n=j+2 := ⟨n - 2,by omega⟩
      have hlast : z.Visits (j+1) ((j+1)*kGcHashTableChunkSize) := by
        unfold Sizes.Visits Sizes.upperBound firstBucket
        rw [if_neg (by omega),hsize]
        unfold kGcHashTableChunkSize
        omega
      have hprev : z.Visits j ((j+1)*kGcHashTableChunkSize) := by
        unfold Sizes.Visits Sizes.upperBound firstBucket
        rw [if_neg (by omega),hsize]
        unfold kGcHashTableChunkSize
        omega
      have heq := ht.disjoint j (by omega) (j+1) (by omega) _ hprev hlast
      omega
    · intro hg
      have hbound : ∀ c<n, z.upperBound c=kGcHashTableChunkSize := by
        intro c hc
        unfold Sizes.upperBound
        split_ifs with hif
        · rfl
        · have hc' : c+1=n := by omega
          rw [hsize,←hc',Nat.add_mul,one_mul,Nat.add_sub_cancel_left]
      have hvisits : ∀ c<n, ∀ idx, z.Visits c idx ↔ idx/kGcHashTableChunkSize=c := by
        intro c hc idx
        unfold Sizes.Visits firstBucket
        rw [hbound c hc]
        unfold kGcHashTableChunkSize
        omega
      rw [←hgc] at hvisits
      refine ⟨fun c hc d hd idx hv hv' => ?_,fun c hc idx hv => ?_,fun idx hidx => ?_⟩
      · rw [←(hvisits c hc idx).mp hv,←(hvisits d hd idx).mp hv']
      · have hdiv := (hvisits c hc idx).mp hv
        rw [hgc] at hc
        rw [hsize]
        unfold kGcHashTableChunkSize at *
        omega
      · have hlt : idx/kGcHashTableChunkSize<z.gcNumChunks := by
          rw [hgc]
          rw [hsize] at hidx
          exact Nat.div_lt_of_lt_mul (by rwa [mul_comm])
        exact ⟨_,hlt,(hvisits _ hlt idx).mpr rfl⟩

/-- The call has the bucket before it, or is at it. -/
def holds : Pc → ℕ → Prop
  | .clean _ last idx _ _, x => idx ≤ x ∧ x < last
  | .cleanCas _ last idx _ _ _, x => idx ≤ x ∧ x < last
  | _, _ => False

/-- Entries of the chain are ahead of a call at cell `i` of bucket `b`, or not stale. -/
def Swept (m : Index) (begin : ℕ) (s : State) (idx : ℕ) (b : BucketRef) (i : ℕ) : Prop :=
  ∀ x, InChain m.next idx x → Stale begin (s.index.entries x) → Ahead m.next b i x.bucket x.idx

/-- What is known of a call by its place. -/
def PcOk (m : Index) (begin : ℕ) (s : State) : Pc → Prop
  | .idle => True
  | .clean n _ idx b i => n = begin ∧ Swept m begin s idx b i
  | .cleanCas n _ idx b i e =>
    n = begin ∧ i < kNumEntries ∧ Stale begin e ∧ e = m.entries ⟨b, i⟩ ∧ Swept m begin s idx b i
  | _ => False

/-- The chain of the bucket has no stale entry. -/
def Clean (m : Index) (begin : ℕ) (s : State) (idx : ℕ) : Prop :=
  ∀ x, InChain m.next idx x → ¬Stale begin (s.index.entries x)

/-- A table that is being cleaned. -/
structure Inv (z : Sizes) (m : Index) (begin : ℕ) (s : State) : Prop where
  /-- Chains stay as they are. -/
  overflow : s.index.overflowEntry = m.overflowEntry
  /-- An entry is unchanged, or it was stale and is cleared. -/
  kept : ∀ x, s.index.entries x = m.entries x ∨
    Stale begin (m.entries x) ∧ s.index.entries x = kInvalidEntry
  calls : ∀ t, PcOk m begin s (s.pc t)
  /-- The buckets of the chunks handed out are clean, or a call has them before it. -/
  cover : ∀ c < z.gcNumChunks, c < s.nextChunk → ∀ idx, z.Visits c idx →
    Clean m begin s idx ∨ ∃ t, holds (s.pc t) idx

/-- Entries were only cleared. -/
def Clears (s s' : State) : Prop :=
  ∀ x, s'.index.entries x = s.index.entries x ∨ s'.index.entries x = kInvalidEntry

theorem Clears.stale (h : Clears s s') {x : Slot} (hx : Stale begin (s'.index.entries x)) :
    Stale begin (s.index.entries x) := by
  rcases h x with heq | heq
  · rwa [←heq]
  · rw [heq] at hx
    exact absurd hx (not_stale_kInvalidEntry begin)

theorem Swept.clears {idx i : ℕ} {b : BucketRef} (h : Swept m begin s idx b i) (hc : Clears s s') :
    Swept m begin s' idx b i := fun x hx hs => h x hx (hc.stale hs)

theorem Clean.clears {idx : ℕ} (h : Clean m begin s idx) (hc : Clears s s') : Clean m begin s' idx :=
  fun x hx hs => h x hx (hc.stale hs)

theorem PcOk.clears {pc : Pc} (h : PcOk m begin s pc) (hc : Clears s s') : PcOk m begin s' pc := by
  cases pc with
  | clean n last idx b i => exact ⟨h.1,h.2.clears hc⟩
  | cleanCas n last idx b i e => exact ⟨h.1,h.2.1,h.2.2.1,h.2.2.2.1,h.2.2.2.2.clears hc⟩
  | _ => exact h

/-- A step of one call that clears entries at most. -/
theorem Inv.advance (h : Inv z m begin s) (pc : Pc) (index : Index)
    (hover : index.overflowEntry=s.index.overflowEntry)
    (hkept : ∀ x, index.entries x=s.index.entries x ∨
      Stale begin (m.entries x) ∧ index.entries x=kInvalidEntry)
    (hok : PcOk m begin { s with index } pc)
    (hholds : ∀ idx, holds (s.pc t) idx → holds pc idx ∨ Clean m begin { s with index } idx) :
    Inv z m begin ({ s with index }.goto t pc) := by
  have hclears : Clears s ({ s with index }.goto t pc) := fun x => (hkept x).imp_right And.right
  refine ⟨hover.trans h.overflow,fun x => ?_,fun u => ?_,fun c hc hnext idx hv => ?_⟩
  · rcases hkept x with heq | hcleared
    · change index.entries x=_ ∨ _ ∧ index.entries x=_
      rw [heq]
      exact h.kept x
    · exact .inr hcleared
  · by_cases hut : u=t
    · subst hut
      have hself : ({ s with index }.goto u pc).pc u=pc := update_self _ _ _
      rw [hself]
      exact hok.clears fun x => .inl rfl
    · have hother : ({ s with index }.goto t pc).pc u=s.pc u := update_of_ne hut _ _
      rw [hother]
      exact (h.calls u).clears hclears
  · rcases h.cover c hc hnext idx hv with hclean | ⟨u,hu⟩
    · exact .inl (hclean.clears hclears)
    · by_cases hut : u=t
      · subst hut
        rcases hholds idx hu with hpc | hclean
        · refine .inr ⟨u,?_⟩
          have hself : ({ s with index }.goto u pc).pc u=pc := update_self _ _ _
          rwa [hself]
        · exact .inl (hclean.clears fun x => .inl rfl)
      · refine .inr ⟨u,?_⟩
        have hother : ({ s with index }.goto t pc).pc u=s.pc u := update_of_ne hut _ _
        rwa [hother]

theorem Inv.next_eq (h : Inv z m begin s) (b : BucketRef) : s.index.next b=m.next b := by
  unfold Index.next
  rw [h.overflow]

/-- A cell that is not stale is passed. -/
theorem Swept.pass {idx i : ℕ} {b : BucketRef} (h : Swept m begin s idx b i)
    (hclean : ¬Stale begin (s.index.entries ⟨b,i⟩)) : Swept m begin s idx b (i+1) := by
  intro x hx hs
  refine (h x hx hs).advance ?_
  rintro ⟨rfl,rfl⟩
  exact hclean hs

/-- What a reading step of a call can do: go on to the swap of a stale entry, pass an entry,
follow the chain, go on to the next bucket, or end. -/
inductive Reads (m : Index) (n last idx : ℕ) (b : BucketRef) (i : ℕ) : Pc → Prop
  | stale : i < kNumEntries → Stale n (m.entries ⟨b, i⟩) →
      Reads m n last idx b i (.cleanCas n last idx b i (m.entries ⟨b, i⟩))
  | pass : ¬Stale n (m.entries ⟨b, i⟩) → Reads m n last idx b i (.clean n last idx b (i + 1))
  | follow {c : BucketRef} : kNumEntries ≤ i → m.next b = some c →
      Reads m n last idx b i (.clean n last idx c 0)
  | bucket : kNumEntries ≤ i → m.next b = none → idx + 1 < last →
      Reads m n last idx b i (.clean n last (idx + 1) (.base (idx + 1)) 0)
  | ends : kNumEntries ≤ i → m.next b = none → last ≤ idx + 1 → Reads m n last idx b i .idle

theorem reads_cleanStep (m : Index) (n last idx : ℕ) (b : BucketRef) (i : ℕ) :
    Reads m n last idx b i (cleanStep m n last idx b i) := by
  unfold cleanStep
  by_cases hi : i<kNumEntries
  · rw [if_pos hi]
    dsimp only
    split_ifs with hstale
    · exact .stale hi hstale
    · exact .pass hstale
  · rw [if_neg hi]
    cases hnext : m.next b with
    | some c => exact .follow (not_lt.mp hi) hnext
    | none =>
      dsimp only
      split_ifs with hlast
      · exact .bucket (not_lt.mp hi) hnext hlast
      · exact .ends (not_lt.mp hi) hnext (not_lt.mp hlast)

/-- Where its chain ends, a call leaves it clean. -/
theorem Swept.clean {idx i : ℕ} {b : BucketRef} (h : Swept m begin s idx b i) (hi : kNumEntries ≤ i)
    (hnext : m.next b=none) : Clean m begin s idx :=
  fun x hx hs => not_ahead_of_end (hx.2.trans_le hi) hnext (h x hx hs)

/-- A reading step of a call. -/
theorem Inv.clean (h : Inv z m begin s) {n last idx i : ℕ} {b : BucketRef}
    (hpc : s.pc t=.clean n last idx b i) : Inv z m begin (s.goto t (cleanStep s.index n last idx b i)) := by
  have hok := h.calls t
  rw [hpc] at hok
  obtain ⟨rfl,hswept⟩ := hok
  have hreads := reads_cleanStep s.index n last idx b i
  generalize cleanStep s.index n last idx b i=pc at hreads ⊢
  refine h.advance pc s.index rfl (fun _ => .inl rfl) ?_ fun x hx => ?_
  · cases hreads with
    | stale hi hstale =>
      have hentry : s.index.entries ⟨b,i⟩=m.entries ⟨b,i⟩ := by
        rcases h.kept ⟨b,i⟩ with heq | ⟨-,hinvalid⟩
        · exact heq
        · rw [hinvalid] at hstale
          exact absurd hstale (not_stale_kInvalidEntry n)
      exact ⟨rfl,hi,hstale,hentry,hswept⟩
    | pass hclean => exact ⟨rfl,hswept.pass hclean⟩
    | follow hi hnext =>
      rw [h.next_eq b] at hnext
      exact ⟨rfl,fun x hx hs => (hswept x hx hs).hop (hx.2.trans_le hi) hnext⟩
    | bucket => exact ⟨rfl,fun x hx _ => ahead_of_reaches hx.1 x.idx⟩
    | ends => trivial
  · rw [hpc] at hx
    obtain ⟨hle,hlt⟩ := hx
    cases hreads with
    | stale | pass | follow => exact .inl ⟨hle,hlt⟩
    | bucket hi hnext hlast =>
      rw [h.next_eq b] at hnext
      by_cases hx' : x=idx
      · subst hx'
        exact .inr (hswept.clean hi hnext)
      · exact .inl ⟨by omega,hlt⟩
    | ends hi hnext hlast =>
      rw [h.next_eq b] at hnext
      obtain rfl : x=idx := by omega
      exact .inr (hswept.clean hi hnext)

/-- The swap of a call: the entry is cleared now, or another call has done it. -/
theorem Inv.cleanCas (h : Inv z m begin s) {n last idx i : ℕ} {b : BucketRef} {e : HashBucketEntry}
    (hpc : s.pc t=.cleanCas n last idx b i e) {index : Index} (hindex : index =
      if s.index.entries ⟨b,i⟩=e then s.index.setEntry ⟨b,i⟩ kInvalidEntry else s.index) :
    Inv z m begin ({ s with index }.goto t (.clean n last idx b (i+1))) := by
  have hok := h.calls t
  rw [hpc] at hok
  obtain ⟨rfl,hi,hstale,rfl,hswept⟩ := hok
  have hcleared : index.entries ⟨b,i⟩=kInvalidEntry := by
    rw [hindex]
    split_ifs with heq
    · exact update_self _ _ _
    · rcases h.kept ⟨b,i⟩ with hsame | ⟨-,hinvalid⟩
      · exact absurd hsame heq
      · exact hinvalid
  have hother : ∀ x, x ≠ ⟨b,i⟩ → index.entries x=s.index.entries x := by
    intro x hx
    rw [hindex]
    split_ifs
    · exact update_of_ne hx _ _
    · rfl
  have hkept : ∀ x, index.entries x=s.index.entries x ∨ Stale n (m.entries x) ∧ index.entries x=kInvalidEntry := by
    intro x
    by_cases hx : x=⟨b,i⟩
    · subst hx
      exact .inr ⟨hstale,hcleared⟩
    · exact .inl (hother x hx)
  have hclears : Clears s { s with index } := fun x => (hkept x).imp_right And.right
  refine h.advance _ index ?_ hkept ⟨rfl,(hswept.clears hclears).pass ?_⟩ fun x hx => .inl ?_
  · rw [hindex]
    split_ifs
    · rfl
    · rfl
  · change ¬Stale n (index.entries ⟨b,i⟩)
    rw [hcleared]
    exact not_stale_kInvalidEntry n
  · rw [hpc] at hx
    exact hx

/-- A call that takes the next chunk. -/
theorem Inv.call (h : Inv z m begin s) (hs : CleanBuckets.step z begin s (.call t)=some s') : Inv z m begin s' := by
  simp only [CleanBuckets.step] at hs
  cases hpc : s.pc t with
  | idle =>
    rw [hpc] at hs
    dsimp only at hs
    -- No call has anything of its own before it at `t`.
    have hcover : ∀ {s₁ : State}, s₁.index=s.index → (∀ u, u ≠ t → s₁.pc u=s.pc u) →
        s₁.nextChunk=s.nextChunk+1 → PcOk m begin s₁ (s₁.pc t) →
        (∀ idx, s.nextChunk<z.gcNumChunks → z.Visits s.nextChunk idx → holds (s₁.pc t) idx) →
        Inv z m begin s₁ := by
      intro s₁ hindex hpcs hnext hok hnew
      have hclears : Clears s s₁ := fun x => .inl (by rw [hindex])
      refine ⟨hindex ▸ h.overflow,hindex ▸ h.kept,fun u => ?_,fun c hc hlt idx hv => ?_⟩
      · by_cases hut : u=t
        · rw [hut]
          exact hok
        · rw [hpcs u hut]
          exact (h.calls u).clears hclears
      · by_cases hcn : c=s.nextChunk
        · subst hcn
          exact .inr ⟨t,hnew idx hc hv⟩
        · rcases h.cover c hc (by omega) idx hv with hclean | ⟨u,hu⟩
          · exact .inl (hclean.clears hclears)
          · refine .inr ⟨u,?_⟩
            rw [hpcs u]
            · exact hu
            · rintro rfl
              rw [hpc] at hu
              exact hu
    split_ifs at hs with hfull hpos
    · cases hs
      exact hcover rfl (fun _ _ => rfl) rfl (by rw [hpc]; trivial) fun idx hlt => absurd hlt (not_lt.mpr hfull)
    · cases hs
      have hself : ∀ {s₁ : State} {pc : Pc}, (s₁.goto t pc).pc t=pc := update_self _ _ _
      refine hcover rfl (fun u hu => update_of_ne hu _ _) rfl ?_ fun idx _ hv => ?_
      · rw [hself]
        exact ⟨rfl,fun x hx _ => ahead_of_reaches hx.1 x.idx⟩
      · rw [hself]
        exact hv
    · cases hs
      refine hcover rfl (fun _ _ => rfl) rfl (by rw [hpc]; trivial) fun idx _ hv => ?_
      have hlt := hv.2
      have hle := hv.1
      omega
  | _ =>
    rw [hpc] at hs
    cases hs

theorem Inv.step (h : Inv z m begin s) (hs : step z begin s label=some s') : Inv z m begin s' := by
  cases label with
  | call t => exact h.call hs
  | go t =>
    simp only [CleanBuckets.step] at hs
    cases hpc : s.pc t with
    | clean n last idx b i =>
      rw [hpc] at hs
      cases hs
      exact h.clean hpc
    | cleanCas n last idx b i e =>
      rw [hpc] at hs
      cases hs
      have hcas := h.cleanCas hpc rfl
      split_ifs at hcas ⊢
      · exact hcas
      · exact hcas
    | _ =>
      rw [hpc] at hs
      cases hs

theorem reachable_inv (hs : Reachable (machine z m begin) anyStep s) : Inv z m begin s := by
  refine hs.invariant ?_ fun s a t hi _ hst => hi.step hst
  rintro s rfl
  exact ⟨rfl,fun _ => .inl rfl,fun _ => trivial,fun c _ hc => absurd hc (Nat.not_lt_zero c)⟩

/-- For every history of the store, the chunks of one shift of the begin address tile the table
if and only if the latest growth suits it; and then, when the last chunk is done, no entry of
the table has a log address below the begin address and every other entry is unchanged. -/
theorem clean_once_iff (hz : Reachable history anyStep z) :
    (z.Tiled ∧ ∀ m begin s, Reachable (machine z m begin) anyStep s → s.Done z →
      (∀ idx < z.size, ∀ x, InChain m.next idx x → ¬Stale begin (s.index.entries x)) ∧
        ∀ x, ¬Stale begin (m.entries x) → s.index.entries x = m.entries x) ↔ z.Suits := by
  obtain ⟨k,hk⟩ := history_size hz
  refine ⟨fun h => (tiled_iff hk).mp h.1,fun h => ⟨(tiled_iff hk).mpr h,?_⟩⟩
  intro m begin s hs hdone
  have hinv := reachable_inv hs
  refine ⟨fun idx hidx => ?_,fun x hx => ?_⟩
  · obtain ⟨c,hc,hv⟩ := ((tiled_iff hk).mpr h).cover idx hidx
    rcases hinv.cover c hc (hc.trans_le hdone.1) idx hv with hclean | ⟨t,ht⟩
    · exact hclean
    · rw [hdone.2 t] at ht
      cases ht
  · exact (hinv.kept x).resolve_right fun hcleared => hx hcleared.1

/-- A new store with a table of `2 ^ k` buckets. -/
theorem reachable_new (k g : ℕ) : Reachable history anyStep ⟨2^k,g⟩ := ⟨_,by simp [history,Nat.log2_two_pow],.refl _⟩

/-- It has grown once. -/
theorem reachable_grown (k g : ℕ) : Reachable history anyStep ⟨2^k*2,max (2^k/kGrowHashTableChunkSize) 1⟩ :=
  (reachable_new k g).run (Run.single (a := .growIndex) trivial rfl)

/-- A table of 8192 buckets has grown once. -/
theorem clean_once_grown : Sizes.Tiled ⟨16384, 1⟩ :=
  ((clean_once_iff (reachable_grown 13 0)).mpr (by decide)).1

/-- A table of 16384 buckets has grown once: bucket 16384 is visited with both chunks. And
with an arbitrary value of `num_chunks` before the first growth, a chunk of a small table goes
on behind its end. -/
theorem chunks_overlap : Reachable history anyStep ⟨32768, 1⟩ ∧
    Sizes.Visits ⟨32768, 1⟩ 0 16384 ∧ Sizes.Visits ⟨32768, 1⟩ 1 16384 ∧
    Reachable history anyStep ⟨1024, 5⟩ ∧ Sizes.Visits ⟨1024, 5⟩ 0 1024 :=
  ⟨reachable_grown 14 0,by decide,by decide,reachable_new 10 5,by decide⟩

end

end FishStore.CleanBuckets
