import FishStore.Recovery

/-!
# The image of the hash table

`InternalHashTable::Checkpoint` writes the buckets as `kNumMergeChunks` pieces of one file, and
`Recover` reads as many pieces back. Both compute the place of a piece in the table and in
the file from its number, in 32 bits, and the pieces are transferred in any order.

A file is opened with `O_DIRECT`, so that it refuses a piece that does not lie on its alignment.
-/

namespace FishStore.TableImage

open Layout Recovery

/-- The checks of the constructor: `Utility::IsPowerOfTwo`, and at most `INT32_MAX`. -/
def accepted (tableSize : ℕ) : Prop :=
  (0 < tableSize ∧ tableSize &&& (tableSize - 1) = 0) ∧ tableSize ≤ 2 ^ 31 - 1

instance : DecidablePred accepted := fun _ => inferInstanceAs (Decidable (_ ∧ _))

/-- A conversion to `uint32_t`. -/
def u32 (n : ℕ) : ℕ := n % 2 ^ 32

/-- One request to the file. -/
structure Piece where
  /-- The first bucket. -/
  bucket : ℕ
  /-- The offset in the file. -/
  offset : ℕ
  /-- The number of bytes. -/
  length : ℕ
  deriving DecidableEq

/-- The piece of one iteration. Both products are of `uint32_t`. -/
def piece (chunkSize length idx : ℕ) : Piece := ⟨u32 (idx * chunkSize), u32 (idx * length), length⟩

/-- Whether the file takes the request; the buckets themselves are aligned in memory. -/
def Piece.Aligned (alignment : ℕ) (p : Piece) : Prop :=
  alignment ∣ p.bucket * sizeofHashBucket ∧ alignment ∣ p.offset ∧ alignment ∣ p.length

instance (alignment : ℕ) (p : Piece) : Decidable (p.Aligned alignment) :=
  inferInstanceAs (Decidable (_ ∧ _ ∧ _))

/-- The loop of either function, which returns where the file refuses a request. -/
def issue (alignment : ℕ) : List Piece → List Piece × Status
  | [] => ([], .ok)
  | p :: ps =>
    if p.Aligned alignment then ((p :: (issue alignment ps).1), (issue alignment ps).2) else ([], .ioError)

/-- The size of a chunk in `Checkpoint`, in buckets. -/
def chunkSize (size : ℕ) : ℕ := u32 (size / kNumMergeChunks)

/-- The size of a chunk in `Checkpoint`, in bytes. -/
def writeSize (size : ℕ) : ℕ := u32 (chunkSize size * sizeofHashBucket)

/-- The requests of `Checkpoint`. -/
def written (size : ℕ) : List Piece := (List.range kNumMergeChunks).map (piece (chunkSize size) (writeSize size))

/-- `Checkpoint`: the requests that were issued, and the status. -/
def checkpoint (alignment size : ℕ) : List Piece × Status := issue alignment (written size)

/-- The size that a checkpoint records. -/
def checkpointSize (size : ℕ) : ℕ := size * sizeofHashBucket

/-- The size of a chunk in `Recover`, in bytes. -/
def readSize (checkpointSize : ℕ) : ℕ := u32 (checkpointSize / kNumMergeChunks)

/-- The size of a chunk in `Recover`, in buckets. -/
def readChunk (checkpointSize : ℕ) : ℕ := u32 (readSize checkpointSize / sizeofHashBucket)

/-- `Recover`: the requests that were issued, and the status. -/
def recover (alignment checkpointSize : ℕ) : List Piece × Status :=
  issue alignment ((List.range kNumMergeChunks).map (piece (readChunk checkpointSize) (readSize checkpointSize)))

/-- The file after one request has been written from a table, byte by byte. -/
def write (table : ℕ → UInt8) (file : ℕ → UInt8) (p : Piece) (a : ℕ) : UInt8 :=
  if p.offset ≤ a ∧ a < p.offset + p.length then table (p.bucket * sizeofHashBucket + (a - p.offset)) else file a

/-- The table after one request has been read from a file. -/
def read (file : ℕ → UInt8) (table : ℕ → UInt8) (p : Piece) (a : ℕ) : UInt8 :=
  if p.bucket * sizeofHashBucket ≤ a ∧ a < p.bucket * sizeofHashBucket + p.length then
    file (p.offset + (a - p.bucket * sizeofHashBucket))
  else table a

/-- The bytes of a bucket. -/
def bucket (table : ℕ → UInt8) (idx : ℕ) : List UInt8 :=
  (List.range sizeofHashBucket).map fun j => table (idx * sizeofHashBucket + j)

/-- The file range of a request. -/
def Piece.range (p : Piece) : Set ℕ := Set.Ico p.offset (p.offset + p.length)

/-- What a checkpoint of a table of this size is for. -/
structure RoundTrip (alignment size : ℕ) (table : ℕ → UInt8) : Prop where
  /-- Every write is issued. -/
  issued : checkpoint alignment size = (written size, .ok)
  /-- No two of them overlap. -/
  disjoint : (written size).Pairwise fun p q => Disjoint p.range q.range
  /-- Together they hold the table. -/
  covers : ∀ a, (∃ p ∈ written size, a ∈ p.range) ↔ a < checkpointSize size
  /-- A recovery reads the same buckets, in whatever order the transfers end. -/
  recovered : ∀ (writes reads : List Piece) (file : ℕ → UInt8), writes.Perm (checkpoint alignment size).1 →
    reads.Perm (recover alignment (checkpointSize size)).1 →
    (recover alignment (checkpointSize size)).2 = .ok ∧
      ∀ idx < size, bucket (reads.foldl (read (writes.foldl (write table) file)) fun _ => 0) idx = bucket table idx

variable {size alignment : ℕ}

theorem exists_pow_of_accepted (h : accepted size) : ∃ k≤30, size=2^k := by
  obtain ⟨⟨hpos,hand⟩,hle⟩ := h
  obtain ⟨k,rfl⟩ := (Nat.and_sub_one_eq_zero_iff_isPowerOfTwo (by omega)).mp hand
  refine ⟨k,?_,rfl⟩
  by_contra hk
  have hbig : 2^31≤2^k := Nat.pow_le_pow_right (by decide) (by omega)
  omega

theorem chunkSize_eq (hle : size≤2^31 - 1) : chunkSize size=size/256 := Nat.mod_eq_of_lt (by unfold kNumMergeChunks; omega)

theorem writeSize_eq (hle : size≤2^31 - 1) : writeSize size=size/256*64 := by
  unfold writeSize
  rw [chunkSize_eq hle]
  exact Nat.mod_eq_of_lt (by unfold sizeofHashBucket; omega)

theorem issue_iff (ps : List Piece) : issue alignment ps=(ps, .ok) ↔ ∀ p ∈ ps, p.Aligned alignment := by
  induction ps with
  | nil => exact iff_of_true rfl (by rintro _ ⟨⟩)
  | cons p ps ih =>
    rw [List.forall_mem_cons,←ih,issue]
    by_cases hp : p.Aligned alignment
    · rw [if_pos hp,Prod.mk.injEq,List.cons.injEq,and_iff_right hp,Prod.ext_iff]
      simp only [true_and]
    · rw [if_neg hp]
      refine iff_of_false ?_ fun h => hp h.1
      rintro ⟨⟩

/-- The pieces where nothing wraps, for chunks of `c` buckets. -/
def tiles (c : ℕ) : List Piece :=
  (List.range kNumMergeChunks).map fun idx => ⟨idx * c, idx * (c * sizeofHashBucket), c * sizeofHashBucket⟩

variable {c a : ℕ}

theorem mem_tiles {p : Piece} : p ∈ tiles c ↔
    ∃ idx<kNumMergeChunks, ⟨idx*c,idx*(c*sizeofHashBucket),c*sizeofHashBucket⟩=p := by
  unfold tiles
  simp only [List.mem_map,List.mem_range]

/-- The products of the loop do not wrap in a file of at most 4 GB. -/
theorem map_piece_eq (hc : c*kNumMergeChunks*sizeofHashBucket≤2^32) :
    (List.range kNumMergeChunks).map (piece c (c*sizeofHashBucket))=tiles c := by
  refine List.map_congr_left fun idx hidx => ?_
  have hlt := List.mem_range.mp hidx
  unfold kNumMergeChunks sizeofHashBucket at hc
  unfold kNumMergeChunks at hlt
  have hbucket : idx*c<2^32 := by nlinarith
  have hoffset : idx*(c*sizeofHashBucket)<2^32 := by
    unfold sizeofHashBucket
    nlinarith
  unfold piece u32
  rw [Nat.mod_eq_of_lt hbucket,Nat.mod_eq_of_lt hoffset]

theorem tiles_aligned (h : alignment ∣ c*sizeofHashBucket) : ∀ p ∈ tiles c, p.Aligned alignment := by
  intro p hp
  obtain ⟨idx,-,rfl⟩ := mem_tiles.mp hp
  refine ⟨?_,h.mul_left idx,h⟩
  change alignment ∣ idx*c*sizeofHashBucket
  rw [mul_assoc]
  exact h.mul_left idx

theorem tiles_disjoint : (tiles c).Pairwise fun p q => Disjoint p.range q.range := by
  refine List.pairwise_map.mpr (List.pairwise_lt_range.imp fun {i j} hij => ?_)
  refine Set.disjoint_left.mpr fun a hi hj => ?_
  have hnext : (i+1)*(c*sizeofHashBucket)≤j*(c*sizeofHashBucket) := Nat.mul_le_mul_right _ hij
  rw [Nat.add_mul,one_mul] at hnext
  exact absurd (hi.2.trans_le hnext) (not_lt.mpr hj.1)

/-- Each byte below the end is in one of the pieces. -/
theorem exists_tile : (∃ idx<kNumMergeChunks, idx*(c*sizeofHashBucket)≤a ∧
    a < idx*(c*sizeofHashBucket)+c*sizeofHashBucket) ↔ a<c*kNumMergeChunks*sizeofHashBucket := by
  constructor
  · rintro ⟨idx,hidx,-,hlt⟩
    have hnext : (idx+1)*(c*sizeofHashBucket)≤kNumMergeChunks*(c*sizeofHashBucket) := Nat.mul_le_mul_right _ hidx
    rw [Nat.add_mul,one_mul] at hnext
    rw [mul_comm c,mul_assoc]
    exact hlt.trans_le hnext
  · intro ha
    rw [mul_comm c,mul_assoc] at ha
    refine ⟨a/(c*sizeofHashBucket),Nat.div_lt_of_lt_mul (by rwa [mul_comm]),Nat.div_mul_le_self _ _,?_⟩
    have hpos : 0<c*sizeofHashBucket := by
      refine Nat.pos_of_ne_zero fun hzero => ?_
      rw [hzero] at ha
      exact absurd ha (Nat.not_lt_zero a)
    exact Nat.lt_div_mul_add hpos

/-- Requests that move each byte to its own place move all of them, in whatever order they end. -/
theorem foldl_tiles {move : (ℕ → UInt8) → Piece → ℕ → UInt8} {source : ℕ → UInt8} (hmove : ∀ m, ∀ p ∈ tiles c, move m p a =
      if p.offset≤a ∧ a<p.offset+p.length then source a else m a) {ps : List Piece} (h : ps.Perm (tiles c))
    (ha : a<c*kNumMergeChunks*sizeofHashBucket) (m : ℕ → UInt8) : ps.foldl move m a=source a := by
  have hall : ∀ (ps : List Piece) (m : ℕ → UInt8), (∀ p ∈ ps, p ∈ tiles c) →
      (m a=source a ∨ ∃ p ∈ ps, a ∈ p.range) → ps.foldl move m a=source a := by
    intro ps
    induction ps with
    | nil =>
      rintro m - (hm | ⟨_,⟨⟩,-⟩)
      exact hm
    | cons p ps ih =>
      intro m hps hm
      obtain ⟨hp,hps⟩ := List.forall_mem_cons.mp hps
      refine ih (move m p) hps ?_
      rw [hmove m p hp]
      split_ifs with hin
      · exact .inl rfl
      · rcases hm with hm | ⟨q,hq,hqin⟩
        · exact .inl hm
        · rcases List.mem_cons.mp hq with rfl | hq
          · exact absurd hqin hin
          · exact .inr ⟨q,hq,hqin⟩
  refine hall ps m (fun p hp => h.mem_iff.mp hp) (.inr ?_)
  obtain ⟨idx,hidx,hin⟩ := exists_tile.mpr ha
  exact ⟨_,h.mem_iff.mpr (mem_tiles.mpr ⟨idx,hidx,rfl⟩),hin⟩

theorem write_tile (table file : ℕ → UInt8) : ∀ p ∈ tiles c,
    write table file p a=if p.offset≤a ∧ a<p.offset+p.length then table a else file a := by
  intro p hp
  obtain ⟨idx,-,rfl⟩ := mem_tiles.mp hp
  refine ite_congr rfl (fun hin => congrArg table ?_) fun _ => rfl
  change idx*c*sizeofHashBucket+(a - idx*(c*sizeofHashBucket))=a
  rw [mul_assoc,Nat.add_sub_cancel' hin.1]

theorem read_tile (table file : ℕ → UInt8) : ∀ p ∈ tiles c,
    read file table p a=if p.offset≤a ∧ a<p.offset+p.length then file a else table a := by
  intro p hp
  obtain ⟨idx,-,rfl⟩ := mem_tiles.mp hp
  unfold read
  rw [show (⟨idx*c,idx*(c*sizeofHashBucket),c*sizeofHashBucket⟩ : Piece).bucket*sizeofHashBucket =
    idx*(c*sizeofHashBucket) from mul_assoc _ _ _]
  exact ite_congr rfl (fun hin => congrArg file (Nat.add_sub_cancel' hin.1)) fun _ => rfl

/-- A table is checkpointed as it should be if it has a bucket for each chunk, its image does not
exceed 4 GB, and a chunk is a number of sectors. -/
def Fits (alignment size : ℕ) : Prop :=
  kNumMergeChunks ≤ size ∧ size * sizeofHashBucket ≤ 2 ^ 32 ∧ alignment ∣ size / kNumMergeChunks * sizeofHashBucket

theorem roundTrip_of_fits (hsize : accepted size) (h : Fits alignment size) (table : ℕ → UInt8) :
    RoundTrip alignment size table := by
  obtain ⟨hmany,hbytes,halign⟩ := h
  obtain ⟨k,hk,hpow⟩ := exists_pow_of_accepted hsize
  -- The chunks divide the table.
  obtain ⟨c,rfl⟩ : ∃ c, size=c*kNumMergeChunks := by
    have hk8 : 8≤k := by
      by_contra hlt
      have hsmall : 2^k<2^8 := Nat.pow_lt_pow_right (by decide) (by omega)
      rw [←hpow] at hsmall
      exact absurd hsmall (not_lt.mpr hmany)
    rw [hpow]
    exact exists_eq_mul_left_of_dvd (pow_dvd_pow 2 hk8)
  have hdiv : c*kNumMergeChunks/kNumMergeChunks=c := Nat.mul_div_cancel c (by decide)
  rw [hdiv] at halign
  have hchunk : chunkSize (c*kNumMergeChunks)=c := (chunkSize_eq hsize.2).trans hdiv
  have hwrite : writeSize (c*kNumMergeChunks)=c*sizeofHashBucket := (writeSize_eq hsize.2).trans (congrArg (·*64) hdiv)
  have hread : readSize (checkpointSize (c*kNumMergeChunks))=c*sizeofHashBucket := by
    unfold readSize checkpointSize
    rw [mul_right_comm,Nat.mul_div_cancel _ (by decide)]
    exact Nat.mod_eq_of_lt (by unfold kNumMergeChunks sizeofHashBucket at *; omega)
  have hback : readChunk (checkpointSize (c*kNumMergeChunks))=c := by
    unfold readChunk
    rw [hread,Nat.mul_div_cancel _ (by decide)]
    exact Nat.mod_eq_of_lt (by unfold kNumMergeChunks sizeofHashBucket at *; omega)
  have hwritten : written (c*kNumMergeChunks)=tiles c := by
    unfold written
    rw [hchunk,hwrite,map_piece_eq hbytes]
  have hissue : issue alignment (tiles c)=(tiles c, .ok) := (issue_iff _).mpr (tiles_aligned halign)
  have hcheckpoint : checkpoint alignment (c*kNumMergeChunks)=(tiles c, .ok) := by
    unfold checkpoint
    rw [hwritten,hissue]
  have hrecover : recover alignment (checkpointSize (c*kNumMergeChunks))=(tiles c, .ok) := by
    unfold recover
    rw [hread,hback,map_piece_eq hbytes,hissue]
  refine ⟨?_,?_,fun a => ?_,fun writes reads file hw hr => ?_⟩
  · rw [hcheckpoint,hwritten]
  · rw [hwritten]
    exact tiles_disjoint
  · rw [hwritten,checkpointSize,←exists_tile]
    constructor
    · rintro ⟨p,hp,hin⟩
      obtain ⟨idx,hidx,rfl⟩ := mem_tiles.mp hp
      exact ⟨idx,hidx,hin⟩
    · rintro ⟨idx,hidx,hin⟩
      exact ⟨_,mem_tiles.mpr ⟨idx,hidx,rfl⟩,hin⟩
  · rw [hcheckpoint] at hw
    rw [hrecover] at hr ⊢
    refine ⟨rfl,fun idx hidx => List.map_congr_left fun j hj => ?_⟩
    have ha : idx*sizeofHashBucket+j<c*kNumMergeChunks*sizeofHashBucket := by
      have hj' := List.mem_range.mp hj
      unfold sizeofHashBucket at *
      omega
    rw [foldl_tiles (fun m => read_tile m _) hr ha,foldl_tiles (fun m => write_tile table m) hw ha]

theorem fits_of_roundTrip (hsize : accepted size) (h : RoundTrip alignment size fun _ => 0) : Fits alignment size := by
  obtain ⟨k,hk,rfl⟩ := exists_pow_of_accepted hsize
  have hwrite := writeSize_eq hsize.2
  have hget : ∀ idx<kNumMergeChunks, piece (chunkSize (2^k)) (writeSize (2^k)) idx ∈ written (2^k) :=
    fun idx hidx => List.mem_map_of_mem (List.mem_range.mpr hidx)
  have halign := ((issue_iff _).mp h.issued _ (hget 0 (by decide))).2.2
  refine ⟨?_,?_,?_⟩
  · -- The first byte of the table is in a chunk.
    obtain ⟨p,hp,hin⟩ := (h.covers 0).mpr (by unfold checkpointSize sizeofHashBucket; positivity)
    obtain ⟨idx,-,rfl⟩ := List.mem_map.mp hp
    have hpos : 0<writeSize (2^k) := by
      have hlt := hin.2
      have hle := hin.1
      change 0<u32 _+writeSize (2^k) at hlt
      change u32 _≤0 at hle
      omega
    rw [hwrite] at hpos
    unfold kNumMergeChunks
    omega
  · by_contra hbig
    -- The product wraps to the start of the file before the last chunk.
    have hk27 : 27≤k := by
      by_contra hlt
      have hle : 2^k≤2^26 := Nat.pow_le_pow_right (by decide) (by omega)
      unfold sizeofHashBucket at hbig
      omega
    have hlap : ∀ j, 0<j → j<kNumMergeChunks → u32 (j*writeSize (2^k))=0 → 0<writeSize (2^k) → False := by
      intro j hj hlt hzero hpos
      have hdis := List.pairwise_map.mp h.disjoint
      have hpair := List.pairwise_iff_getElem.mp hdis 0 j (by simpa using hj.trans hlt) (by simpa using hlt) hj
      rw [List.getElem_range,List.getElem_range] at hpair
      have hfirst : u32 (0*writeSize (2^k))=0 := by
        rw [zero_mul]
        rfl
      have hin : ∀ idx, u32 (idx*writeSize (2^k))=0 → 0 ∈ (piece (chunkSize (2^k)) (writeSize (2^k)) idx).range :=
        fun idx hidx => ⟨hidx.le,hpos.trans_le (Nat.le_add_left _ _)⟩
      exact Set.disjoint_left.mp hpair (hin 0 hfirst) (hin j hzero)
    have hk' : k=27 ∨ k=28 ∨ k=29 ∨ k=30 := by omega
    rcases hk' with rfl | rfl | rfl | rfl
    · exact hlap 128 (by decide) (by decide) (by decide) (by decide)
    · exact hlap 64 (by decide) (by decide) (by decide) (by decide)
    · exact hlap 32 (by decide) (by decide) (by decide) (by decide)
    · exact hlap 16 (by decide) (by decide) (by decide) (by decide)
  · change alignment ∣ writeSize (2^k) at halign
    rw [hwrite] at halign
    exact halign

end FishStore.TableImage
