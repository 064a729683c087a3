import FishStore.Layout
import FishStore.Segments

/-!
# Records of the log, as bytes

The bytes of a page are a function of the offset. A record begins with a header of
one word, whose bit fields give the size of the record; a word of zeros is empty
space. `Record::size()` and the walks over a page depend on the header only, and the
header keeps 15 bits of the number of key pointers, 25 of the size of the payload
and 8 of the size of the options.
-/

namespace FishStore.LogRecords

open Layout Segments List

/-- The bytes of a page, by their offset. -/
abbrev Bytes := ℕ → ℕ

/-- Copy bytes to an offset, `memcpy`. -/
def store (mem : Bytes) (o : ℕ) (bytes : List ℕ) : Bytes :=
  fun x => if x < o then mem x else bytes.getD (x - o) (mem x)

/-- The 64-bit word at an offset, least significant byte first. -/
def word (mem : Bytes) (o : ℕ) : ℕ := Nat.ofDigits 256 ((List.range 8).map fun i => mem (o + i))

/-- The bytes of a 64-bit word. -/
def wordBytes (w : ℕ) : List ℕ := (List.range 8).map fun i => w / 256 ^ i % 256

/-- `RecordInfo`, by its bit fields. -/
structure RecordInfo where
  /-- Number of key pointers. -/
  ptrCnt : ℕ
  /-- Size of the payload. -/
  payloadSize : ℕ
  /-- Size of the options behind the payload. -/
  optionalSize : ℕ
  /-- Version of the session that inserted the record. -/
  checkpointVersion : ℕ
  /-- The record is not visible. -/
  invalid : Bool
  tombstone : Bool
  finalBit : Bool
  deriving DecidableEq

/-- `RecordInfo::control_`; each field keeps its lowest bits. -/
def RecordInfo.control (h : RecordInfo) : ℕ :=
  h.ptrCnt % 2 ^ 15 + h.payloadSize % 2 ^ 25 * 2 ^ 15 + h.optionalSize % 2 ^ 8 * 2 ^ 40 +
    h.checkpointVersion % 2 ^ 13 * 2 ^ 48 + h.invalid.toNat * 2 ^ 61 + h.tombstone.toNat * 2 ^ 62 +
    h.finalBit.toNat * 2 ^ 63

/-- The fields of a control word. -/
def RecordInfo.ofControl (w : ℕ) : RecordInfo where
  ptrCnt := w % 2 ^ 15
  payloadSize := w / 2 ^ 15 % 2 ^ 25
  optionalSize := w / 2 ^ 40 % 2 ^ 8
  checkpointVersion := w / 2 ^ 48 % 2 ^ 13
  invalid := decide (w / 2 ^ 61 % 2 = 1)
  tombstone := decide (w / 2 ^ 62 % 2 = 1)
  finalBit := decide (w / 2 ^ 63 % 2 = 1)

/-- `Record::size()`. -/
def RecordInfo.size (h : RecordInfo) : ℕ := recordSize h.ptrCnt h.payloadSize h.optionalSize

/-- The header of the record at an offset. -/
def header (mem : Bytes) (o : ℕ) : RecordInfo := .ofControl (word mem o)

/-- Where a walk goes on from an offset: behind the empty word or behind the record. -/
def next (mem : Bytes) (o : ℕ) : ℕ :=
  o + if word mem o = 0 then sizeofRecordInfo else (header mem o).size

/-- `Record::payload()`, as many bytes as `payload_size()`. -/
def payload (mem : Bytes) (o : ℕ) : List ℕ :=
  (List.range (header mem o).payloadSize).map fun i =>
    mem (o + sizeofRecordInfo + sizeofKeyPointer * (header mem o).ptrCnt + i)

/-- What `InternalInsert` writes: a record that is visible in the end. -/
structure Record where
  /-- `thread_ctx().version`. -/
  version : ℕ
  /-- `kpts().size()`. -/
  ptrCnt : ℕ
  /-- The bytes of the key pointers. -/
  kpts : List ℕ
  /-- The bytes of the payload. -/
  payload : List ℕ
  /-- The bytes of the options. -/
  options : List ℕ
  /-- A key pointer has 16 bytes. -/
  kpts_length : kpts.length = sizeofKeyPointer * ptrCnt

/-- The header that `InternalInsert` leaves behind. -/
def Record.header (r : Record) : RecordInfo :=
  ⟨r.ptrCnt, r.payload.length, r.options.length, r.version, false, false, true⟩

/-- The size that `InternalInsert` allocates. -/
def Record.size (r : Record) : ℕ := recordSize r.ptrCnt r.payload.length r.options.length

/-- The bytes of a record without the padding. -/
def Record.bytes (r : Record) : List ℕ :=
  wordBytes r.header.control ++ r.kpts ++ r.payload ++ r.options

/-- The header has room for the sizes of the record and for its version. -/
structure Record.Fits (r : Record) : Prop where
  ptrCnt : r.ptrCnt < 2 ^ 15
  payload : r.payload.length < 2 ^ 25
  options : r.options.length < 2 ^ 8
  version : r.version < 2 ^ 13

section

variable {mem mem' : Bytes} {o x : ℕ} {w : ℕ} {bytes : List ℕ}

theorem store_of_lt (h : x<o) : store mem o bytes x=mem x := if_pos h

theorem store_of_ge (h : o+bytes.length≤x) : store mem o bytes x=mem x := by
  unfold store
  rw [if_neg (by omega),getD_eq_default _ _ (by omega)]

theorem store_add {i : ℕ} (h : i<bytes.length) (d : ℕ) : store mem o bytes (o+i)=bytes.getD i d := by
  unfold store
  rw [if_neg (by omega),Nat.add_sub_cancel_left,getD_eq_getElem _ _ h, getD_eq_getElem _ _ h]

theorem word_congr (h : ∀ i<8, mem' (o+i)=mem (o+i)) : word mem' o=word mem o := by
  unfold word
  congr 1
  exact map_congr_left fun i hi => h i (mem_range.mp hi)

theorem ofDigits_wordBytes (w k : ℕ) : Nat.ofDigits 256 ((range k).map fun i => w/256^i%256)=w%256^k := by
  induction k generalizing w with
  | zero => simp [Nat.mod_one]
  | succ k ih =>
    have hshift : ((range k).map fun i => w/256^(i+1)%256) = (range k).map fun i => w/256/256^i%256 := by
      refine map_congr_left fun i _ => ?_
      rw [Nat.div_div_eq_div_mul,pow_succ']
    rw [range_succ_eq_map,map_cons,map_map,Nat.ofDigits_cons]
    change _+256*Nat.ofDigits 256 ((range k).map fun i => w/256^(i+1)%256)=_
    rw [hshift,ih,pow_zero,Nat.div_one,pow_succ',Nat.mod_mul]

theorem wordBytes_length (w : ℕ) : (wordBytes w).length=8 := by simp [wordBytes]

/-- The word that was stored is read back. -/
theorem word_store (hw : w<2^64) (rest : List ℕ) :
    word (store mem o (wordBytes w ++ rest)) o=w := by
  have hbytes : ((range 8).map fun i => store mem o (wordBytes w ++ rest) (o+i)) = (range 8).map fun i => w/256^i%256 := by
    refine map_congr_left fun i hi => ?_
    have hi8 : i<(wordBytes w).length := by
      rw [wordBytes_length]
      exact mem_range.mp hi
    rw [store_add (by rw [length_append]; omega) 0,getD_append _ _ _ _ hi8]
    simp only [wordBytes]
    rw [getD_eq_getElem _ _ (by simpa using hi)]
    simp
  unfold word
  rw [hbytes,ofDigits_wordBytes]
  exact Nat.mod_eq_of_lt (by norm_num at hw ⊢; exact hw)

theorem word_store_word (hw : w<2^64) : word (store mem o (wordBytes w)) o=w := by
  have h : word (store mem o (wordBytes w ++ [])) o=w := word_store hw []
  rwa [append_nil] at h

theorem control_lt (h : RecordInfo) : h.control<2^64 := by
  have hi : h.invalid.toNat≤1 := Bool.toNat_le _
  have ht : h.tombstone.toNat≤1 := Bool.toNat_le _
  have hf : h.finalBit.toNat≤1 := Bool.toNat_le _
  unfold RecordInfo.control
  omega

/-- The fields of a header whose sizes have room. -/
theorem ofControl_control {h : RecordInfo} (hp : h.ptrCnt<2^15) (hs : h.payloadSize<2^25)
    (ho : h.optionalSize<2^8) (hv : h.checkpointVersion<2^13) : RecordInfo.ofControl h.control=h := by
  obtain ⟨p,s,q,v,i,t,f⟩ := h
  dsimp only at hp hs ho hv
  have hi : i.toNat≤1 := Bool.toNat_le _
  have ht : t.toNat≤1 := Bool.toNat_le _
  have hf : f.toNat≤1 := Bool.toNat_le _
  have hdec : ∀ {b : Bool} {n : ℕ}, n=b.toNat → decide (n=1)=b := by
    rintro b n rfl
    cases b <;> rfl
  unfold RecordInfo.ofControl RecordInfo.control
  dsimp only
  congr 1
  · omega
  · omega
  · omega
  · omega
  · exact hdec (by omega)
  · exact hdec (by omega)
  · exact hdec (by omega)

theorem control_ne_zero {h : RecordInfo} (hf : h.finalBit=true) : h.control ≠ 0 := by
  unfold RecordInfo.control
  rw [hf]
  simp

/-- The fields of any word have room in a header. -/
theorem header_lt (mem : Bytes) (o : ℕ) : (header mem o).ptrCnt<2^15 ∧
    (header mem o).payloadSize<2^25 ∧ (header mem o).optionalSize<2^8 ∧ (header mem o).checkpointVersion<2^13 :=
  ⟨Nat.mod_lt _ (by norm_num),Nat.mod_lt _ (by norm_num),Nat.mod_lt _ (by norm_num), Nat.mod_lt _ (by norm_num)⟩

/-- The size of a record whose header has room does not wrap around. -/
theorem recordSize_eq {p s q : ℕ} (hp : p<2^15) (hs : s<2^25) (hq : q<2^8) : recordSize p s q=(8+16*p+s+q+7)/8*8 := by
  unfold recordSize padAlignment sizeofRecordInfo sizeofKeyPointer
  omega

theorem le_recordSize {p s q : ℕ} (hp : p<2^15) (hs : s<2^25) (hq : q<2^8) : 8+16*p+s+q≤recordSize p s q := by
  rw [recordSize_eq hp hs hq]
  omega

theorem size_header (mem : Bytes) (o : ℕ) : 8≤(header mem o).size ∧ 8 ∣ (header mem o).size := by
  obtain ⟨hp,hs,hq,-⟩ := header_lt mem o
  unfold RecordInfo.size
  rw [recordSize_eq hp hs hq]
  exact ⟨by omega,⟨_,mul_comm _ _⟩⟩

theorem le_next (mem : Bytes) (o : ℕ) : o+8≤next mem o := by
  unfold next sizeofRecordInfo
  split_ifs
  · exact le_rfl
  · exact Nat.add_le_add_left (size_header mem o).1 o

theorem lt_next (mem : Bytes) (o : ℕ) : o<next mem o := (Nat.lt_add_of_pos_right (by norm_num)).trans_le (le_next mem o)

theorem word_of_zero (h : ∀ i<8, mem (o+i)=0) : word mem o=0 := by
  have hrepl : ((range 8).map fun i => mem (o+i))=replicate 8 0 := by
    rw [eq_replicate_iff]
    refine ⟨by simp,fun b hb => ?_⟩
    obtain ⟨i,hi,rfl⟩ := mem_map.mp hb
    exact h i (mem_range.mp hi)
  unfold word
  rw [hrepl]
  rfl

theorem next_of_word_zero (h : word mem o=0) : next mem o=o+8 := by
  unfold next
  rw [if_pos h]
  rfl

/-- Words outside the bytes that were stored. -/
theorem word_store_of_disjoint (h : x+8≤o ∨ o+bytes.length≤x) : word (store mem o bytes) x=word mem x := by
  refine word_congr fun i hi => ?_
  rcases h with h | h
  · exact store_of_lt (by omega)
  · exact store_of_ge (by omega)

end

end FishStore.LogRecords
