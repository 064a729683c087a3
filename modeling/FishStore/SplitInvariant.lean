import FishStore.SplitTable
import FishStore.GrowInvariant

/-!
# The buckets of a table that is being split

Each bucket of the old table is untouched, or one session splits it, or it was
split. The new chains of an untouched bucket are empty. A session that splits a
bucket has covered the entries that it has passed, and the new chains have no
entry of the tags that are still ahead. The key pointers of a bucket that was
split are visited from entries of the new table. When every chunk was split this
holds for all of them.
-/

namespace FishStore.SplitInvariant

open Layout Chains HashIndex BucketInvariant EntryInvariant ChainInvariant Grow GrowInvariant
open SplitTable LiveChains
open InternalInsert (Link firstAddress)
open Function (update update_of_ne update_self)

/-- Where a session stands that splits the chain with index `j` of a table of `n`
buckets: it is about to load entry `i` of the bucket `b`. -/
structure Working (n : ℕ) (old new : Index) (kpts : ℕ → KptWord) (linked : List Link) (j : ℕ)
    (b : BucketRef) (i : ℕ) (dst : Bool → Cursor) : Prop where
  reach : Reaches old.next (.base j) b
  ends : ∀ side, EndsAt new (newChains n j side) (dst side)
  /-- The tags that are ahead are not in the new chains. -/
  noTag : ∀ x, InChain old.next j x → old.entries x ≠ kInvalidEntry →
    Ahead old.next b i x.bucket x.idx → ∀ side, NoTag new (newChains n j side) (old.entries x).tag
  /-- What was visited from the entries that are not ahead is visited in the new table. -/
  covered : ∀ x, InChain old.next j x → ¬Ahead old.next b i x.bucket x.idx →
    ∀ l ∈ linked, l.hash.idx n = j → Holds old x l.hash.tag →
      Visits kInvalidAddress (prevOf kpts) (old.entries x).address l.address → Live (2 * n) new kpts l

section

variable {n k j i t : ℕ} {old new new' : Index} {kpts : ℕ → KptWord} {linked : List Link}
  {b c : BucketRef} {dst : Bool → Cursor}

/-- A bucket whose new chains are empty may be split. -/
theorem Working.start (h : ∀ side, EndsAt new (newChains n j side) ⟨.base (newChains n j side),0⟩) :
    Working n old new kpts linked j (.base j) 0 fun side => ⟨.base (newChains n j side),0⟩ :=
  ⟨.refl _,h,fun _ _ _ _ side => (h side).noTag, fun x hx hnot => absurd (ahead_of_reaches hx.1 x.idx) hnot⟩

section

variable (h : Working n old new kpts linked j b i dst)

include h

/-- Splitting another bucket leaves this one. -/
theorem Working.extend {own : ℕ → Prop} {tag : ℕ} (he : Extends own tag new new')
    (hown : ∀ side, ¬own (newChains n j side)) : Working n old new' kpts linked j b i dst :=
  ⟨h.reach,fun side => he.ends _ _ (hown side) (h.ends side),
    fun x hx hused ha side => he.noTag _ _ (h.noTag x hx hused ha side) fun ho => absurd ho (hown side),
    fun x hx hnot l hl hidx hh hv => he.live (h.covered x hx hnot l hl hidx hh hv)⟩

/-- The session goes on with the next bucket of the chain. -/
theorem Working.hop (hi : ¬i<kNumEntries) (hc : old.next b=some c) : Working n old new kpts linked j c 0 dst := by
  refine ⟨h.reach.tail hc,h.ends,?_,?_⟩
  · intro x hx hused ha
    refine h.noTag x hx hused (.inr ⟨c,hc,?_⟩)
    rcases ha with ⟨rfl,_⟩ | ⟨d,hd,hr⟩
    · exact .refl _
    · exact .head hd hr
  · intro x hx hnot
    have hxi := hx.2
    exact h.covered x hx fun ha => hnot (ha.hop (by omega) hc)

/-- At the end of the chain every key pointer of the bucket is covered. -/
theorem Working.finished (hi : ¬i<kNumEntries) (hb : old.next b=none) {l : Link} (hl : l ∈ linked) (hidx : l.hash.idx n=j)
    (hlive : Live n old kpts l) : Live (2*n) new kpts l := by
  obtain ⟨x,hin,hx,hv⟩ := hlive
  rw [hidx] at hin
  have hxi := hin.2
  exact h.covered x hin (not_ahead_of_end (by omega) hb) l hl hidx hx hv

omit h in
/-- A bucket is not ahead of itself. -/
theorem not_ahead_self (h : BucketInv old fun _ => none) (hr : Reaches old.next (.base j) b) :
    ¬Ahead old.next b (i+1) b i := by
  rintro (⟨_,hle⟩ | ⟨d,hd,hr'⟩)
  · omega
  · refine Reaches.not_returns ?_ ?_ hr hd hr'
    · intro a b c ha hb
      obtain ⟨ha0,hac⟩ := next_eq_some ha
      obtain ⟨_,hbc⟩ := next_eq_some hb
      rw [hac] at hbc
      exact h.pointed_inj a b ha0 (by injection hbc)
    · intro c hc
      obtain ⟨_,heq⟩ := next_eq_some hc
      cases heq

omit h in
theorem Ahead.of_succ {d : BucketRef} {m : ℕ} (h : Ahead old.next b (i+1) d m) : Ahead old.next b i d m := by
  rcases h with ⟨rfl,hle⟩ | h
  · exact .inl ⟨rfl,by omega⟩
  · exact .inr h

/-- An unused entry is passed. -/
theorem Working.skip (hunused : old.entries ⟨b,i⟩=kInvalidEntry) : Working n old new kpts linked j b (i+1) dst := by
  refine ⟨h.reach,h.ends,fun x hx hused ha => h.noTag x hx hused (Ahead.of_succ ha),?_⟩
  intro x hx hnot l hl hidx hh hv
  refine h.covered x hx (fun ha => hnot (ha.advance ?_)) l hl hidx hh hv
  rintro ⟨hb,hi⟩
  refine hh.1.1 ?_
  rw [show x=⟨b,i⟩ by rw [hb,hi]]
  exact hunused

end

end

/-- Splitting one entry of a bucket, where the chains of the log lead down. -/
theorem Working.splitEntry_growing {s : State} {k j i t : ℕ} {b : BucketRef} {dst : Bool → Cursor} {P : ℕ → Prop}
    {linked : List Link} {m : Index} (hold : s.old.size=2^k) (hnew : s.new.size=2*2^k)
    (hdesc : Descends kInvalidAddress (prevOf s.store.kpts) P)
    (hhash : ∀ l ∈ linked, s.hashes l.address=l.hash ∧ (s.bounds t).2≤l.address) (hhead : kInvalidAddress<(s.bounds t).1)
    (hbegin : 0<(s.bounds t).2) (hindex : IndexInv s.old.index fun _ => none)
    (hentry : ∀ x, P (s.old.index.entries x).address) (hindex' : IndexInv m fun _ => none) (hi : i<kNumEntries)
    (h : Working (2^k) s.old.index m s.store.kpts linked j b i dst) :
    let r := Grow.splitEntry s t (s.old.index.entries ⟨b,i⟩) (m, dst)
    Working (2^k) s.old.index r.1 s.store.kpts linked j b (i+1) r.2 ∧
      Extends (fun q => ∃ side, q=newChains (2^k) j side) (s.old.index.entries ⟨b,i⟩).tag m r.1 ∧
      ∀ x, r.1.entries x=m.entries x ∨ P (r.1.entries x).address := by
  intro r
  by_cases hunused : s.old.index.entries ⟨b,i⟩=kInvalidEntry
  · have hr : r=(m, dst) := by
      change Grow.splitEntry s t _ _=_
      unfold Grow.splitEntry
      rw [show HashBucketEntry.unused _=true from decide_eq_true hunused,if_pos rfl]
    rw [hr]
    exact ⟨h.skip hunused,.refl hindex',fun x => .inl rfl⟩
  · have hin : InChain s.old.index.next j ⟨b,i⟩ := ⟨h.reach,hi⟩
    have hfinal : ∀ {x}, s.old.index.entries x ≠ kInvalidEntry → (s.old.index.entries x).Final := by
      intro x hused
      refine ⟨hused,?_⟩
      by_contra htent
      obtain ⟨_,_,hnone,_⟩ := hindex.entries.owner x (by simpa using htent)
      cases hnone
    have hself : Ahead s.old.index.next b i b i := .inl ⟨rfl,le_rfl⟩
    obtain ⟨hgrow,hext,hentries,hlive⟩ := SplitTable.splitEntry_growing hold hnew hdesc hhead hbegin
      (r := (m, dst)) ⟨hindex',h.ends⟩ (hfinal hunused) (hentry _) (h.noTag ⟨b,i⟩ hin hunused hself)
    refine ⟨⟨h.reach,hgrow.ends,?_,?_⟩,hext,hentries⟩
    · intro x hx hused ha side
      refine hext.noTag _ _ (h.noTag x hx hused (Ahead.of_succ ha) side) fun _ htag => ?_
      -- Another entry ahead has another tag.
      have heq := hindex.entries.final_unique j x ⟨b,i⟩ _ hx hin ⟨hfinal hused,htag⟩ ⟨hfinal hunused,rfl⟩
      rw [heq] at ha
      exact not_ahead_self hindex.buckets h.reach ha
    · intro x hx hnot l hl hidx hh hv
      by_cases hxe : x=⟨b,i⟩
      · rw [hxe] at hh hv
        exact hlive l (hhash l hl).1 (hhash l hl).2 hidx hh.2.symm hv
      · refine hext.live (h.covered x hx (fun ha => hnot (ha.advance ?_)) l hl hidx hh hv)
        rintro ⟨hb,hi'⟩
        exact hxe (by rw [hb,hi'])

/-- Splitting one entry of a bucket. -/
theorem Working.splitEntry {s : State} {k j i t : ℕ} {b : BucketRef} {dst : Bool → Cursor} (hold : s.old.size=2^k)
    (hnew : s.new.size=2*2^k) (hlog : LogInv s.store.kpts s.store.tail s.store.linked)
    (hhash : ∀ l ∈ s.store.linked, s.hashes l.address=l.hash) (hhead : firstAddress≤(s.bounds t).1)
    (hbegin : (s.bounds t).2=firstAddress) (hindex : IndexInv s.old.index fun _ => none)
    (hentry : ∀ x, OnLog s.store.linked (s.old.index.entries x).address) (hindex' : IndexInv s.new.index fun _ => none)
    (hentry' : ∀ x, OnLog s.store.linked (s.new.index.entries x).address) (hi : i<kNumEntries)
    (h : Working (2^k) s.old.index s.new.index s.store.kpts s.store.linked j b i dst) :
    let r := Grow.splitEntry s t (s.old.index.entries ⟨b,i⟩) (s.new.index, dst)
    Working (2^k) s.old.index r.1 s.store.kpts s.store.linked j b (i+1) r.2 ∧
      Extends (fun q => ∃ side, q=newChains (2^k) j side) (s.old.index.entries ⟨b,i⟩).tag
        s.new.index r.1 ∧ ∀ x, OnLog s.store.linked (r.1.entries x).address := by
  intro r
  have hfirst : kInvalidAddress<firstAddress := by decide
  have hpos : 0<(s.bounds t).2 := by
    rw [hbegin]
    decide
  have hlinked : ∀ l ∈ s.store.linked, s.hashes l.address=l.hash ∧ (s.bounds t).2≤l.address := by
    intro l hl
    rw [hbegin]
    exact ⟨hhash l hl,(hlog.range l hl).1⟩
  obtain ⟨hwork,hext,hentries⟩ := h.splitEntry_growing (t := t) hold hnew hlog.descends hlinked
    (hfirst.trans_le hhead) hpos hindex hentry hindex' hi
  refine ⟨hwork,hext,fun x => ?_⟩
  rcases hentries x with hx | hx
  · change OnLog _ ((Grow.splitEntry s t _ _).1.entries x).address
    rw [hx]
    exact hentry' x
  · exact hx

/-- Chunk and index of the bucket that a session splits; a session that has split
its chunk is past all of them. -/
def position : Option SplitPc → Option (ℕ × ℕ)
  | some (.entry chunk idx _ _ _) => some (chunk, idx)
  | some (.finish chunk) => some (chunk, kGrowHashTableChunkSize)
  | _ => none

/-- The bucket `j` is ahead of everybody. -/
def Untouched (s : State) (j : ℕ) : Prop :=
  s.grow.nextChunk ≤ j / kGrowHashTableChunkSize ∨
    ∃ t i, position (splitOf s t) = some (j / kGrowHashTableChunkSize, i) ∧
      i < j % kGrowHashTableChunkSize

/-- The bucket `j` was split. -/
def Passed (s : State) (j : ℕ) : Prop :=
  s.splitDone (j / kGrowHashTableChunkSize) = true ∨
    ∃ t i, position (splitOf s t) = some (j / kGrowHashTableChunkSize, i) ∧
      j % kGrowHashTableChunkSize < i

/-- The two tables while one of `2 ^ k` buckets is being split. -/
structure Tables (k : ℕ) (s : State) : Prop where
  /-- The old table leads to every key pointer, also when it was freed. -/
  old : LiveChains.Inv (2 ^ k) (s.view s.grow.oldVersion)
  idle : ∀ t, s.store.pc t = .idle
  newSize : s.new.size = 2 * 2 ^ k
  num : s.grow.numChunks = max (2 ^ k / kGrowHashTableChunkSize) 1
  /-- It is freed when all chunks are done. -/
  oldSize : ∀ c, c < s.grow.numChunks → s.splitDone c = false → s.old.size = 2 ^ k
  index : IndexInv s.new.index fun _ => none
  entry : ∀ x, OnLog s.store.linked (s.new.index.entries x).address

/-- How far the split has come. -/
structure Progress (k : ℕ) (s : State) : Prop extends Tables k s where
  untouched : ∀ j, j < 2 ^ k → Untouched s j →
    ∀ side, EndsAt s.new.index (newChains (2 ^ k) j side) ⟨.base (newChains (2 ^ k) j side), 0⟩
  passed : ∀ j, j < 2 ^ k → Passed s j → ∀ l ∈ s.store.linked, l.hash.idx (2 ^ k) = j →
    Live (2 * 2 ^ k) s.new.index s.store.kpts l
  working : ∀ t chunk idx b i dst, splitOf s t = some (.entry chunk idx b i dst) →
    (idx < kGrowHashTableChunkSize ∧ chunk * kGrowHashTableChunkSize + idx < 2 ^ k) ∧
      Working (2 ^ k) s.old.index s.new.index s.store.kpts s.store.linked
        (chunk * kGrowHashTableChunkSize + idx) b i dst

section

variable {k t u : ℕ} {s s' : State}

theorem chunkOf_of_position {o : Option SplitPc} {c i : ℕ} (h : position o=some (c, i)) : chunkOf o=some c := by
  rcases o with _ | ⟨_ | _ | _ | _ | _ | _⟩ <;> cases h <;> rfl

/-- The bucket of an index of a chunk. -/
theorem bucket_of_chunk {c idx : ℕ} (h : idx<kGrowHashTableChunkSize) :
    (c*kGrowHashTableChunkSize+idx)/kGrowHashTableChunkSize=c ∧
      (c*kGrowHashTableChunkSize+idx)%kGrowHashTableChunkSize=idx := by
  unfold kGrowHashTableChunkSize at *
  omega

/-- A table of a power of two buckets is divided evenly into chunks, unless it is
smaller than one. -/
theorem upperBound_spec (hold : s.old.size=2^k)
    (hnum : s.grow.numChunks=max (2^k/kGrowHashTableChunkSize) 1) {c : ℕ} (hc : c<s.grow.numChunks) :
    (∀ i, i<upperBound s c → i<kGrowHashTableChunkSize ∧ c*kGrowHashTableChunkSize+i<2^k) ∧
      ∀ j, j<2^k → j/kGrowHashTableChunkSize=c → j%kGrowHashTableChunkSize<upperBound s c := by
  unfold upperBound
  rw [hold]
  rcases lt_or_ge k 14 with hk | hk
  · have hlt : 2^k<2^14 := Nat.pow_lt_pow_right (by decide) hk
    unfold kGrowHashTableChunkSize at *
    split_ifs <;> constructor <;> intros <;> omega
  · obtain ⟨m,rfl⟩ := Nat.exists_eq_add_of_le hk
    have hpow : 2^(14+m)=16384*2^m := by
      rw [pow_add]
      rfl
    rw [hpow] at hnum ⊢
    have hpos : 0<2^m := Nat.two_pow_pos m
    unfold kGrowHashTableChunkSize at *
    split_ifs <;> constructor <;> intros <;> omega

/-- The position of a session that goes on with the buckets of its chunk. -/
theorem position_bucketFrom (s : State) (c i : ℕ) : (i<upperBound s c ∧ position (some (bucketFrom s c i))=some (c, i)) ∨
      (¬i<upperBound s c ∧ position (some (bucketFrom s c i))=some (c, kGrowHashTableChunkSize)) := by
  unfold bucketFrom
  split_ifs with h
  · exact .inl ⟨h,rfl⟩
  · exact .inr ⟨h,rfl⟩

section

variable (hstore : s'.store = s.store) (htable : s'.table = s.table)
  (hold : s'.grow.oldVersion = s.grow.oldVersion) (hnum : s'.grow.numChunks = s.grow.numChunks)
  (hdone : s'.splitDone = s.splitDone)

include htable hold

theorem new_eq : s'.new=s.new := by
  unfold State.new GrowState.newVersion
  rw [htable,hold]

theorem old_eq : s'.old=s.old := by
  unfold State.old
  rw [htable,hold]

include hstore hnum hdone

/-- A step that leaves the tables. -/
theorem Tables.keep (h : Tables k s) : Tables k s' := by
  have hnew := new_eq htable hold
  have hview : s'.view s'.grow.oldVersion=s.view s.grow.oldVersion := by
    unfold State.view
    rw [hstore,htable,hold]
  refine ⟨?_,?_,?_,?_,?_,?_,?_⟩
  · rw [hview]
    exact h.old
  · rw [hstore]
    exact h.idle
  · rw [hnew]
    exact h.newSize
  · rw [hnum]
    exact h.num
  · rw [hnum,hdone,old_eq htable hold]
    exact h.oldSize
  · rw [hnew]
    exact h.index
  · rw [hnew,hstore]
    exact h.entry

/-- A step that leaves the tables and the buckets in work. -/
theorem Progress.keep (h : Progress k s) (hnext : s.grow.nextChunk ≤ s'.grow.nextChunk)
    (hpos : ∀ u, splitOf s' u=splitOf s u ∨
      position (splitOf s' u)=none ∧ position (splitOf s u)=none) : Progress k s' := by
  have hsame : ∀ u p, position (splitOf s' u)=some p → position (splitOf s u)=some p := by
    intro u p hp
    rcases hpos u with heq | ⟨hn,-⟩
    · rwa [heq] at hp
    · rw [hn] at hp
      cases hp
  refine ⟨h.toTables.keep hstore htable hold hnum hdone,?_,?_,?_⟩
  · intro j hj hun
    rw [new_eq htable hold]
    refine h.untouched j hj ?_
    rcases hun with hle | ⟨u,i,hp,hi⟩
    · exact .inl (hnext.trans hle)
    · exact .inr ⟨u,i,hsame u _ hp,hi⟩
  · intro j hj hpassed
    rw [new_eq htable hold,hstore]
    refine h.passed j hj ?_
    rcases hpassed with hd | ⟨u,i,hp,hi⟩
    · rw [hdone] at hd
      exact .inl hd
    · exact .inr ⟨u,i,hsame u _ hp,hi⟩
  · intro u chunk idx b i dst hu
    rw [new_eq htable hold,old_eq htable hold,hstore]
    refine h.working u chunk idx b i dst ?_
    rcases hpos u with heq | ⟨hn,-⟩
    · rwa [heq] at hu
    · rw [hu] at hn
      cases hn

/-- A session goes on with bucket `i` of its chunk: those before were split, and
the others are untouched. -/
theorem Progress.bucketFrom {c i : ℕ} (h : Progress k s) (hc : c<s.grow.numChunks) (hpending : s.splitDone c=false)
    (hbelow : ∀ j, j<2^k → j/kGrowHashTableChunkSize=c → j%kGrowHashTableChunkSize < i →
      ∀ l ∈ s.store.linked, l.hash.idx (2^k)=j → Live (2*2^k) s.new.index s.store.kpts l)
    (habove : ∀ j, j<2^k → j/kGrowHashTableChunkSize=c → i≤j%kGrowHashTableChunkSize →
      ∀ side, EndsAt s.new.index (newChains (2^k) j side) ⟨.base (newChains (2^k) j side),0⟩)
    (hnext : s.grow.nextChunk ≤ s'.grow.nextChunk) (hother : ∀ u, u ≠ t → splitOf s' u=splitOf s u)
    (hself : splitOf s' t=some (Grow.bucketFrom s c i)) : Progress k s' := by
  have hsize := h.oldSize c hc hpending
  obtain ⟨hupper,hlower⟩ := upperBound_spec hsize h.num hc
  refine ⟨h.toTables.keep hstore htable hold hnum hdone,?_,?_,?_⟩
  · intro j hj hun
    rw [new_eq htable hold]
    rcases hun with hle | ⟨u,i',hp,hi'⟩
    · exact h.untouched j hj (.inl (hnext.trans hle))
    · by_cases hut : u=t
      · rw [hut,hself] at hp
        rcases position_bucketFrom s c i with ⟨_,hpos⟩ | ⟨_,hpos⟩
        · rw [hpos] at hp
          cases hp
          exact habove j hj rfl hi'.le
        · rw [hpos] at hp
          cases hp
          exact absurd hi' (not_lt.mpr (Nat.mod_lt _ (by decide)).le)
      · rw [hother u hut] at hp
        exact h.untouched j hj (.inr ⟨u,i',hp,hi'⟩)
  · intro j hj hpassed
    rw [new_eq htable hold,hstore]
    rcases hpassed with hd | ⟨u,i',hp,hi'⟩
    · rw [hdone] at hd
      exact h.passed j hj (.inl hd)
    · by_cases hut : u=t
      · rw [hut,hself] at hp
        rcases position_bucketFrom s c i with ⟨_,hpos⟩ | ⟨hge,hpos⟩
        · rw [hpos] at hp
          cases hp
          exact hbelow j hj rfl hi'
        · rw [hpos] at hp
          have hjc : j/kGrowHashTableChunkSize=c := by
            injection hp with hp
            exact (congrArg Prod.fst hp).symm
          exact hbelow j hj hjc ((hlower j hj hjc).trans_le (not_lt.mp hge))
      · rw [hother u hut] at hp
        exact h.passed j hj (.inr ⟨u,i',hp,hi'⟩)
  · intro u chunk idx b i' dst hu
    rw [new_eq htable hold,old_eq htable hold,hstore]
    by_cases hut : u=t
    · rw [hut,hself] at hu
      unfold Grow.bucketFrom at hu
      split_ifs at hu with hlt
      · cases hu
        obtain ⟨hik,hlt'⟩ := hupper i hlt
        obtain ⟨hdiv,hmod⟩ := bucket_of_chunk (c := c) hik
        have hdst : (fun side => (⟨.base ((if side=true then s.old.size else 0) +
            c*kGrowHashTableChunkSize+i),0⟩ : Cursor))=fun side =>
            ⟨.base (newChains (2^k) (c*kGrowHashTableChunkSize+i) side),0⟩ := by
          funext side
          unfold newChains
          rw [hsize,add_assoc]
        rw [hdst]
        exact ⟨⟨hik,hlt'⟩,.start (habove _ hlt' hdiv hmod.ge)⟩
      · cases hu
    · rw [hother u hut] at hu
      exact h.working u chunk idx b i' dst hu

end

/-- Buckets of different indices have different new chains. -/
theorem newChains_disjoint {n i j : ℕ} (hi : i<n) (hj : j<n) (hij : i ≠ j) (side other : Bool) :
    newChains n i side ≠ newChains n j other := by
  unfold newChains
  split_ifs <;> omega

variable {l : Option Phases.Loop} (hl : s.phases.pc t = .split l)

include hl

/-- A session that splits holds a chunk that is not done. -/
theorem chunk_of_entry (hsplit : SplitInv s) {c idx i : ℕ} {b : BucketRef} {dst : Bool → Cursor}
    (hpc : s.split t=.entry c idx b i dst) : c<s.grow.numChunks ∧ c<s.grow.nextChunk ∧ s.splitDone c=false := by
  refine hsplit.chunks.held t c ?_
  rw [splitOf_of_split hl,hpc]
  rfl

/-- Another session splits buckets of another chunk. -/
theorem chunk_ne (hsplit : SplitInv s) {c idx i c' idx' i' : ℕ} {b b' : BucketRef}
    {dst dst' : Bool → Cursor} (hpc : s.split t=.entry c idx b i dst) (hu : u ≠ t)
    (hpc' : splitOf s u=some (.entry c' idx' b' i' dst')) : c' ≠ c := by
  rintro rfl
  refine hu (hsplit.chunks.unique u t c' (by rw [hpc']; rfl) ?_)
  rw [splitOf_of_split hl,hpc]
  rfl

section

variable (h : Progress k s)

include h

/-- A session that has no chunk moves on without one. -/
theorem Progress.goto {pc : SplitPc} (hphases : s'.phases=s.phases) (hsplit : s'.split=update s.split t pc)
    (hstore : s'.store=s.store) (htable : s'.table=s.table) (hold : s'.grow.oldVersion=s.grow.oldVersion)
    (hnum : s'.grow.numChunks=s.grow.numChunks) (hdone : s'.splitDone=s.splitDone)
    (hnext : s.grow.nextChunk ≤ s'.grow.nextChunk) (hnone : position (some (s.split t))=none)
    (hnone' : position (some pc)=none) : Progress k s' := by
  refine h.keep hstore htable hold hnum hdone hnext fun u => ?_
  by_cases hut : u=t
  · rw [hut,splitOf_self hl hphases hsplit,splitOf_of_split hl]
    exact .inr ⟨hnone',hnone⟩
  · exact .inl (splitOf_of_ne hphases hsplit hut)

/-- A session takes the next chunk. -/
theorem Progress.take (hsplit : SplitInv s) (hlt : s.grow.nextChunk<s.grow.numChunks) :
    Progress k ({ s with grow := { s.grow with nextChunk := s.grow.nextChunk+1 } }.gotoSplit t
      (Grow.bucketFrom s s.grow.nextChunk 0)) := by
  have hpending : s.splitDone s.grow.nextChunk=false := by
    by_contra hdone
    exact absurd (hsplit.chunks.taken _ (by simpa using hdone)).2 (lt_irrefl _)
  refine h.bucketFrom (s := s) rfl rfl rfl rfl rfl hlt hpending ?_ ?_ (Nat.le_succ _) ?_ (splitOf_self hl rfl rfl)
  · exact fun j _ _ hlt => absurd hlt (Nat.not_lt_zero _)
  · exact fun j hj hjc _ => h.untouched j hj (.inl hjc.ge)
  · exact fun u hu => splitOf_of_ne rfl rfl hu

/-- A session goes on with the next bucket of an old chain. -/
theorem Progress.hop {c idx i : ℕ} {b d : BucketRef} {dst : Bool → Cursor}
    (hpc : s.split t=.entry c idx b i dst) (hi : ¬i<kNumEntries) (hd : s.old.index.next b=some d) :
    Progress k (s.gotoSplit t (.entry c idx d 0 dst)) := by
  have hself : splitOf (s.gotoSplit t (.entry c idx d 0 dst)) t=some (.entry c idx d 0 dst) := splitOf_self hl rfl rfl
  have hother : ∀ {u}, u ≠ t → splitOf (s.gotoSplit t (.entry c idx d 0 dst)) u=splitOf s u := splitOf_of_ne rfl rfl
  have hpos : ∀ u, position (splitOf (s.gotoSplit t (.entry c idx d 0 dst)) u)=position (splitOf s u) := by
    intro u
    by_cases hut : u=t
    · rw [hut,hself,splitOf_of_split hl,hpc]
      rfl
    · rw [hother hut]
  refine ⟨h.toTables.keep (s := s) rfl rfl rfl rfl rfl,?_,?_,?_⟩
  · intro j hj hun
    refine h.untouched j hj ?_
    unfold Untouched at hun
    simp only [hpos] at hun
    exact hun
  · intro j hj hpassed
    refine h.passed j hj ?_
    unfold Passed at hpassed
    simp only [hpos] at hpassed
    exact hpassed
  · intro u c' idx' b' i' dst' hu
    by_cases hut : u=t
    · rw [hut,hself] at hu
      cases hu
      obtain ⟨hlt,hw⟩ := h.working t c idx b i dst (by rw [splitOf_of_split hl,hpc])
      exact ⟨hlt,hw.hop hi hd⟩
    · rw [hother hut] at hu
      exact h.working u c' idx' b' i' dst' hu

/-- A session has come to the end of an old chain. -/
theorem Progress.next {c idx i : ℕ} {b : BucketRef} {dst : Bool → Cursor} (hsplit : SplitInv s)
    (hpc : s.split t=.entry c idx b i dst) (hi : ¬i<kNumEntries) (hb : s.old.index.next b=none) :
    Progress k (s.gotoSplit t (Grow.bucketFrom s c (idx+1))) := by
  obtain ⟨hnum,hnext,hpending⟩ := chunk_of_entry hl hsplit hpc
  have hof : splitOf s t=some (.entry c idx b i dst) := by rw [splitOf_of_split hl,hpc]
  obtain ⟨hlt,hw⟩ := h.working t c idx b i dst hof
  have hpos : position (splitOf s t)=some (c, idx) := by
    rw [hof]
    rfl
  refine h.bucketFrom (s := s) rfl rfl rfl rfl rfl hnum hpending ?_ ?_ le_rfl ?_ (splitOf_self hl rfl rfl)
  · intro j hj hjc hji l hl' hidx
    by_cases hlast : j%kGrowHashTableChunkSize=idx
    · have hjeq : j=c*kGrowHashTableChunkSize+idx := by
        rw [←hjc,←hlast]
        exact (Nat.div_add_mod' j _).symm
      rw [hjeq] at hidx
      exact hw.finished hi hb hl' hidx (h.old.table.live l hl')
    · refine h.passed j hj (.inr ⟨t,idx,?_,by omega⟩) l hl' hidx
      rw [hpos,hjc]
  · intro j hj hjc hji
    refine h.untouched j hj (.inr ⟨t,idx,?_,hji⟩)
    rw [hpos,hjc]
  · exact fun u hu => splitOf_of_ne rfl rfl hu

/-- A session splits an entry. -/
theorem Progress.splitEntry {c idx i : ℕ} {b : BucketRef} {dst : Bool → Cursor} (hsplit : SplitInv s)
    (hpc : s.split t=.entry c idx b i dst) (hi : i<kNumEntries) (hhash : ∀ l ∈ s.store.linked, s.hashes l.address=l.hash)
    (hhead : firstAddress≤(s.bounds t).1) (hbegin : (s.bounds t).2=firstAddress) :
    let r := Grow.splitEntry s t (s.old.index.entries ⟨b,i⟩) (s.new.index, dst)
    Progress k ((s.setIndex s.grow.newVersion r.1).gotoSplit t (.entry c idx b (i+1) r.2)) := by
  intro r
  obtain ⟨hnum,hnext,hpending⟩ := chunk_of_entry hl hsplit hpc
  have hof : splitOf s t=some (.entry c idx b i dst) := by rw [splitOf_of_split hl,hpc]
  obtain ⟨⟨hidx,hlt⟩,hw⟩ := h.working t c idx b i dst hof
  have hindex : IndexInv s.old.index fun _ => none := by
    have hlooks : InsertInvariant.looks (2^k) s.store.pc=fun _ => none := by
      funext u
      unfold InsertInvariant.looks
      rw [h.idle u]
      rfl
    rw [←hlooks]
    exact h.old.index
  obtain ⟨hw',hext,hentry⟩ := hw.splitEntry (h.oldSize c hnum hpending) h.newSize h.old.log hhash
    hhead hbegin hindex h.old.table.entry h.index h.entry hi
  set s' := (s.setIndex s.grow.newVersion r.1).gotoSplit t (.entry c idx b (i+1) r.2)
  have hself : splitOf s' t=some (.entry c idx b (i+1) r.2) := splitOf_self hl rfl rfl
  have hother : ∀ {u}, u ≠ t → splitOf s' u=splitOf s u := splitOf_of_ne rfl rfl
  have hposEq : ∀ u, position (splitOf s' u)=position (splitOf s u) := by
    intro u
    by_cases hut : u=t
    · rw [hut,hself,hof]
      rfl
    · rw [hother hut]
  have hne : s.grow.oldVersion ≠ s.grow.newVersion := by
    unfold GrowState.newVersion
    cases s.grow.oldVersion <;> nofun
  have hold : s'.old=s.old := update_of_ne hne _ _
  have hnew : s'.new={ s.new with index := r.1 } := update_self _ _ _
  -- Buckets of other indices have other new chains.
  have hown : ∀ j, j<2^k → j ≠ c*kGrowHashTableChunkSize+idx → ∀ side,
      ¬∃ other, newChains (2^k) j side=newChains (2^k) (c*kGrowHashTableChunkSize+idx) other := by
    rintro j hj hji side ⟨other,heq⟩
    exact newChains_disjoint hj hlt hji side other heq
  obtain ⟨hdiv,hmod⟩ := bucket_of_chunk (c := c) hidx
  refine ⟨⟨?_,h.idle,?_,h.num,?_,?_,?_⟩,?_,?_,?_⟩
  · have hview : s'.view s'.grow.oldVersion=s.view s.grow.oldVersion := by
      change ({ s.store with index := s'.old.index } : InternalInsert.State)=_
      rw [hold]
      rfl
    rw [hview]
    exact h.old
  · rw [hnew]
    exact h.newSize
  · rw [hold]
    exact h.oldSize
  · rw [hnew]
    exact hext.index
  · rw [hnew]
    exact hentry
  · intro j hj hun side
    have hun' : Untouched s j := by
      unfold Untouched at hun
      simp only [hposEq] at hun
      exact hun
    rw [hnew]
    refine hext.ends _ _ (hown j hj ?_ side) (h.untouched j hj hun' side)
    -- The bucket in work is not untouched.
    rintro rfl
    rcases hun' with hle | ⟨u,i',hp,hi'⟩
    · omega
    · rw [hdiv] at hp
      have hut := hsplit.chunks.unique u t c (chunkOf_of_position hp) (by rw [hof]; rfl)
      rw [hut,hof] at hp
      cases hp
      omega
  · intro j hj hpassed l hl' hlidx
    rw [hnew]
    refine hext.live (h.passed j hj ?_ l hl' hlidx)
    unfold Passed at hpassed
    simp only [hposEq] at hpassed
    exact hpassed
  · intro u c' idx' b' i' dst' hu
    rw [hnew,hold]
    by_cases hut : u=t
    · rw [hut,hself] at hu
      cases hu
      exact ⟨⟨hidx,hlt⟩,hw'⟩
    · rw [hother hut] at hu
      obtain ⟨⟨hidx',hlt'⟩,hwork⟩ := h.working u c' idx' b' i' dst' hu
      refine ⟨⟨hidx',hlt'⟩,hwork.extend hext (hown _ hlt' fun heq => ?_)⟩
      refine chunk_ne hl hsplit hpc hut hu ?_
      rw [←hdiv,←heq,(bucket_of_chunk (c := c') hidx').1]

/-- A session counts its chunk as done. -/
theorem Progress.finish {c : ℕ} {pc : SplitPc} (hpc : s.split t=.finish c)
    (hnone : position (some pc)=none) (pending : ℕ) : Progress k ({ s with
      grow := { s.grow with numPendingChunks := pending }
      splitDone := update s.splitDone c true }.gotoSplit t pc) := by
  set s' := { s with
    grow := { s.grow with numPendingChunks := pending }
    splitDone := update s.splitDone c true }.gotoSplit t pc
  have hof : splitOf s t=some (.finish c) := by rw [splitOf_of_split hl,hpc]
  have hself : splitOf s' t=some pc := splitOf_self hl rfl rfl
  have hother : ∀ {u}, u ≠ t → splitOf s' u=splitOf s u := splitOf_of_ne rfl rfl
  -- Nobody comes to stand anywhere else.
  have hpos : ∀ u p, position (splitOf s' u)=some p → position (splitOf s u)=some p := by
    intro u p hp
    by_cases hut : u=t
    · rw [hut,hself,hnone] at hp
      cases hp
    · rwa [hother hut] at hp
  refine ⟨⟨h.old,h.idle,h.newSize,h.num,?_,h.index,h.entry⟩,?_,?_,?_⟩
  · intro d hd hdone
    refine h.oldSize d hd ?_
    change update s.splitDone c true d=false at hdone
    by_cases hdc : d=c
    · rw [hdc,update_self] at hdone
      cases hdone
    · rwa [update_of_ne hdc] at hdone
  · intro j hj hun
    refine h.untouched j hj ?_
    rcases hun with hle | ⟨u,i,hp,hi⟩
    · exact .inl hle
    · exact .inr ⟨u,i,hpos u _ hp,hi⟩
  · intro j hj hpassed
    refine h.passed j hj ?_
    rcases hpassed with hd | ⟨u,i,hp,hi⟩
    · change update s.splitDone c true (j/kGrowHashTableChunkSize)=true at hd
      by_cases hdc : j/kGrowHashTableChunkSize=c
      · refine .inr ⟨t,kGrowHashTableChunkSize,?_,Nat.mod_lt _ (by decide)⟩
        rw [hof,hdc]
        rfl
      · rw [update_of_ne hdc] at hd
        exact .inl hd
    · exact .inr ⟨u,i,hpos u _ hp,hi⟩
  · intro u c' idx b i dst hu
    refine h.working u c' idx b i dst ?_
    by_cases hut : u=t
    · rw [hut,hself] at hu
      cases hu
      cases hnone
    · rwa [hother hut] at hu

/-- The old table is freed. -/
theorem Progress.free (hsplit : SplitInv s) (hpc : s.split t=.free) : Progress k (splitStep s t .free) := by
  have hof : splitOf s t=some .free := by rw [splitOf_of_split hl,hpc]
  have hself : splitOf (splitStep s t .free) t=some .done := splitOf_self hl rfl rfl
  have hother : ∀ {u}, u ≠ t → splitOf (splitStep s t .free) u=splitOf s u := splitOf_of_ne rfl rfl
  have hpos : ∀ u, position (splitOf (splitStep s t .free) u)=position (splitOf s u) := by
    intro u
    by_cases hut : u=t
    · rw [hut,hself,hof]
      rfl
    · rw [hother hut]
  have hne : s.grow.newVersion ≠ s.grow.oldVersion := by
    unfold GrowState.newVersion
    cases s.grow.oldVersion <;> nofun
  have hold : (splitStep s t .free).old={ s.old with size := 0, isInitialized := false } := update_self _ _ _
  have hnew : (splitStep s t .free).new=s.new := update_of_ne hne _ _
  refine ⟨⟨?_,h.idle,?_,h.num,?_,?_,?_⟩,?_,?_,?_⟩
  · have hview : (splitStep s t .free).view (splitStep s t .free).grow.oldVersion = s.view s.grow.oldVersion := by
      change ({ s.store with index := (splitStep s t .free).old.index } : InternalInsert.State)=_
      rw [hold]
      rfl
    rw [hview]
    exact h.old
  · rw [hnew]
    exact h.newSize
  · intro c hc hdone
    have hall := hsplit.freeing t hof c hc
    exact absurd (hall.symm.trans hdone) nofun
  · rw [hnew]
    exact h.index
  · rw [hnew]
    exact h.entry
  · intro j hj hun
    rw [hnew]
    refine h.untouched j hj ?_
    unfold Untouched at hun
    simp only [hpos] at hun
    exact hun
  · intro j hj hpassed
    rw [hnew]
    refine h.passed j hj ?_
    unfold Passed at hpassed
    simp only [hpos] at hpassed
    exact hpassed
  · intro u c idx b i dst hu
    rw [hnew,hold]
    refine h.working u c idx b i dst ?_
    by_cases hut : u=t
    · rw [hut,hself] at hu
      cases hu
    · rwa [hother hut] at hu

end

omit hl in
/-- When every chunk was split the new table leads to every key pointer. -/
theorem Progress.all_live (h : Progress k s) (hdone : ∀ c, c<s.grow.numChunks → s.splitDone c=true) :
    LiveChains.Inv (2*2^k) (s.view s.grow.newVersion) := by
  refine h.old.exchange h.idle h.index ⟨h.entry,fun l hl => ?_⟩
  have hidx := idx_lt l.hash k
  refine h.passed _ hidx (.inl (hdone _ ?_)) l hl rfl
  rw [h.num]
  rcases lt_or_ge k 14 with hk | hk
  · have hlt : 2^k<2^14 := Nat.pow_lt_pow_right (by decide) hk
    unfold kGrowHashTableChunkSize
    omega
  · obtain ⟨m,rfl⟩ := Nat.exists_eq_add_of_le hk
    have hpow : 2^(14+m)=16384*2^m := by
      rw [pow_add]
      rfl
    rw [hpow] at hidx ⊢
    unfold kGrowHashTableChunkSize
    omega

end

end FishStore.SplitInvariant
