import FishStore.BatchInsert
import FishStore.DiskCallbacks

/-!
# Records as they are stored

`InternalInsert` allocates a record for an insert context and fills it: first the header,
then the payload, the strings that have to be copied, and the key pointers, and at last it
makes the record visible. The sizes are 32-bit numbers, of which the header keeps 15, 25 and
8 bits, and a key pointer keeps 14 bits of the id of a general PSF.

Where the key pointers link to is left open.
-/

namespace FishStore.StoredRecords

open Layout LogRecords BatchInsert List DiskCallbacks

/-- The header that `InternalInsert` constructs. The record is not yet visible. -/
def newHeader (version : UInt32) (ctx : RecordInsertContext) : RecordInfo :=
  ⟨ctx.kpts.length % 2 ^ 32, ctx.payloadSize, ctx.optionalSize, version.toUInt16.toNat, true, false, true⟩

/-- The size that `InternalInsert` allocates. -/
def allocatedSize (ctx : RecordInsertContext) : ℕ :=
  recordSize (ctx.kpts.length % 2 ^ 32) ctx.payloadSize ctx.optionalSize

/-- `Record::payload()`. -/
def payloadAddress (mem : Bytes) (a : ℕ) : ℕ :=
  a + sizeofRecordInfo + (header mem a).ptrCnt * sizeofKeyPointer

/-- The loop that copies the options, from `ptr` on. -/
def copyOptions (ram : Bytes) : Bytes → ℕ → List NullableStringRef → Bytes
  | mem, _, [] => mem
  | mem, ptr, o :: os => copyOptions ram (store mem ptr (o.bytes ram)) (ptr + o.size) os

/-- The first word of a key pointer: mode, index and link. -/
def kptControl (nGeneralPts i prev : ℕ) : ℕ :=
  (if i < nGeneralPts then 0 else 1) + i % 2 ^ 15 * 2 + prev % 2 ^ 48 * 2 ^ 16

/-- The second word of a key pointer, from the fields of its `KPTUtil`. -/
def kptFields (nGeneralPts i : ℕ) (k : KptUtil) : ℕ :=
  if i < nGeneralPts then
    generalFields (k.fields % 2 ^ 14) (k.fields / 2 ^ 14 % 2 ^ 25) (k.fields / 2 ^ 39 % 2 ^ 25)
  else inlineFields (k.fields % 2 ^ 32) (k.fields / 2 ^ 32 % 2 ^ 32)

/-- The loops that construct the key pointers of the record at `a`, from index `i` on. -/
def writeKpts (nGeneralPts : ℕ) (prev : ℕ → ℕ) (a : ℕ) : ℕ → List KptUtil → Bytes → Bytes
  | _, [], mem => mem
  | i, k :: ks, mem => writeKpts nGeneralPts prev a (i + 1) ks
      (store mem (kptAddress a i)
        (wordBytes (kptControl nGeneralPts i (prev i)) ++ wordBytes (kptFields nGeneralPts i k)))

/-- The header is written. -/
def withHeader (mem : Bytes) (a : ℕ) (version : UInt32) (ctx : RecordInsertContext) : Bytes :=
  store mem a (wordBytes (newHeader version ctx).control)

/-- The payload is copied. -/
def withPayload (ram mem : Bytes) (a : ℕ) (version : UInt32) (ctx : RecordInsertContext) : Bytes :=
  let mem := withHeader mem a version ctx
  store mem (payloadAddress mem a) (slice ram ctx.payload ctx.payloadSize)

/-- The options are copied. -/
def withOptions (ram mem : Bytes) (a : ℕ) (version : UInt32) (ctx : RecordInsertContext) : Bytes :=
  let mem := withPayload ram mem a version ctx
  if 0 < ctx.optionalSize then
    copyOptions ram mem (payloadAddress mem a + ctx.payloadSize) ctx.options
  else mem

/-- The key pointers are constructed. -/
def withKpts (ram mem : Bytes) (a : ℕ) (version : UInt32) (ctx : RecordInsertContext) (prev : ℕ → ℕ) :
    Bytes :=
  writeKpts ctx.nGeneralPts prev a 0 ctx.kpts (withOptions ram mem a version ctx)

/-- `header.invalid = false`. -/
def visible (h : RecordInfo) : RecordInfo := { h with invalid := false }

/-- What `InternalInsert` writes to the record allocated at `a`. Its loops over the key
pointers count with 16 bits, so they do not end if there are more. -/
def internalInsert (ram mem : Bytes) (a : ℕ) (version : UInt32) (ctx : RecordInsertContext)
    (prev : ℕ → ℕ) : Option Bytes :=
  if ctx.kpts.length < 2 ^ 16 then
    let mem := withKpts ram mem a version ctx prev
    some (store mem a (wordBytes (visible (header mem a)).control))
  else none

/-- `KeyPointer::mode`. -/
def mode (mem : Bytes) (kpt : ℕ) : ℕ := word mem kpt % 2

/-- `general_psf_id`. -/
def generalPsfId (mem : Bytes) (kpt : ℕ) : ℕ := word mem (kpt + 8) % 2 ^ 14

/-- `value_offset`. -/
def valueOffset (mem : Bytes) (kpt : ℕ) : ℕ := word mem (kpt + 8) / 2 ^ 14 % 2 ^ 25

/-- `value_size`. -/
def valueSize (mem : Bytes) (kpt : ℕ) : ℕ := word mem (kpt + 8) / 2 ^ 39 % 2 ^ 25

/-- `inline_psf_id`. -/
def inlinePsfId (mem : Bytes) (kpt : ℕ) : ℕ := word mem (kpt + 8) % 2 ^ 32

/-- `value`, an unsigned number. -/
def inlineValue (mem : Bytes) (kpt : ℕ) : ℕ := word mem (kpt + 8) / 2 ^ 32 % 2 ^ 32

/-- `get_value()`, as many bytes as `value_size`. -/
def getValue (mem : Bytes) (kpt : ℕ) : List ℕ :=
  slice mem (payloadAddress mem (getRecord mem kpt) + valueOffset mem kpt) (valueSize mem kpt)

/-- `get_hash()`. -/
def getHash (mem : Bytes) (kpt : ℕ) : KeyHash :=
  if mode mem kpt = 0 then ⟨hashBytesWithPsfId (generalPsfId mem kpt) (getValue mem kpt)⟩
  else ⟨getHashCode (inlinePsfId mem kpt) (inlineValue mem kpt)⟩

/-- The fields of a header, as its word keeps them. -/
def truncated (h : RecordInfo) : RecordInfo :=
  ⟨h.ptrCnt % 2 ^ 15, h.payloadSize % 2 ^ 25, h.optionalSize % 2 ^ 8, h.checkpointVersion % 2 ^ 13,
    h.invalid, h.tombstone, h.finalBit⟩

section Writes

variable {ram mem mem' : Bytes} {a o x ptr n i : ℕ} {prev : ℕ → ℕ} {version : UInt32}
  {ctx : RecordInsertContext} {xs ys : List ℕ} {ks : List KptUtil} {os : List NullableStringRef}

theorem ofControl_truncated (h : RecordInfo) : RecordInfo.ofControl h.control=truncated h := by
  have hcontrol : (truncated h).control=h.control := by simp only [truncated,RecordInfo.control,Nat.mod_mod]
  rw [←hcontrol]
  exact ofControl_control (Nat.mod_lt _ (by norm_num)) (Nat.mod_lt _ (by norm_num))
    (Nat.mod_lt _ (by norm_num)) (Nat.mod_lt _ (by norm_num))

theorem store_append : store mem o (xs ++ ys)=store (store mem o xs) (o+xs.length) ys := by
  funext x
  by_cases hx : x<o
  · rw [store_of_lt hx,store_of_lt (by omega),store_of_lt hx]
  · obtain ⟨i,rfl⟩ := Nat.exists_eq_add_of_le (not_lt.mp hx)
    by_cases hi : i<xs.length
    · rw [store_add (by rw [length_append]; omega) 0,store_of_lt (by omega),store_add hi 0, getD_append _ _ _ _ hi]
    · obtain ⟨j,rfl⟩ := Nat.exists_eq_add_of_le (not_lt.mp hi)
      by_cases hj : j<ys.length
      · rw [store_add (by rw [length_append]; omega) 0,←add_assoc,store_add hj 0,
          getD_append_right _ _ _ _ (by omega),Nat.add_sub_cancel_left]
      · rw [store_of_ge (by rw [length_append]; omega),store_of_ge (by omega), store_of_ge (by omega)]

/-- What was stored is read back. -/
theorem slice_store : slice (store mem o xs) o xs.length=xs := by
  refine ext_getElem (slice_length _ _ _) fun i hi hi' => ?_
  simp only [slice,getElem_map,getElem_range]
  rw [store_add hi' 0,getD_eq_getElem _ _ hi']

theorem copyOptions_of_lt (h : x<ptr) : copyOptions ram mem ptr os x=mem x := by
  induction os generalizing mem ptr with
  | nil => rfl
  | cons o os ih => rw [copyOptions,ih (by omega),store_of_lt h]

/-- Each option is where the sizes of those before it say. -/
theorem slice_copyOptions {j : ℕ} {opt : NullableStringRef} (h : os[j]?=some opt) :
    slice (copyOptions ram mem ptr os) (ptr+((os.take j).map (·.size)).sum) opt.size = opt.bytes ram := by
  induction os generalizing mem ptr j with
  | nil => simp at h
  | cons o os ih =>
    cases j with
    | zero =>
      rw [getElem?_cons_zero] at h
      cases h
      have hlen : (opt.bytes ram).length=opt.size := slice_length _ _ _
      have hsame : slice (copyOptions ram mem ptr (opt::os)) (ptr+0) opt.size =
          slice (store mem ptr (opt.bytes ram)) ptr (opt.bytes ram).length := by
        rw [hlen,Nat.add_zero,copyOptions]
        exact slice_congr fun i hi => copyOptions_of_lt (Nat.add_lt_add_left hi ptr)
      rw [take_zero,map_nil,sum_nil,hsame,slice_store]
    | succ j =>
      rw [getElem?_cons_succ] at h
      rw [take_succ_cons,map_cons,sum_cons,←add_assoc,copyOptions]
      exact ih h

theorem kptAddress_succ (a i : ℕ) : kptAddress a (i+1)=kptAddress a i+16 := by
  unfold kptAddress sizeofKeyPointer
  omega

theorem writeKpts_of_lt (h : x<kptAddress a i) : writeKpts n prev a i ks mem x=mem x := by
  induction ks generalizing mem i with
  | nil => rfl
  | cons k ks ih => rw [writeKpts,ih (by rw [kptAddress_succ]; omega),store_of_lt h]

theorem writeKpts_of_ge (h : kptAddress a (i+ks.length)≤x) : writeKpts n prev a i ks mem x=mem x := by
  induction ks generalizing mem i with
  | nil => rfl
  | cons k ks ih =>
    have hlen : i+(k::ks).length=i+1+ks.length := by rw [length_cons]; omega
    rw [hlen] at h
    rw [writeKpts,ih h,store_of_ge]
    rw [length_append,wordBytes_length,wordBytes_length]
    unfold kptAddress sizeofKeyPointer at h ⊢
    omega

theorem kptControl_lt (n i prev : ℕ) : kptControl n i prev<2^64 := by
  unfold kptControl
  split_ifs <;> omega

theorem kptFields_lt (n i : ℕ) (k : KptUtil) : kptFields n i k<2^64 := by
  unfold kptFields generalFields inlineFields
  split_ifs <;> omega

/-- The words of each key pointer. -/
theorem word_writeKpts {j : ℕ} {k : KptUtil} (h : ks[j]?=some k) :
    word (writeKpts n prev a i ks mem) (kptAddress a (i+j))=kptControl n (i+j) (prev (i+j)) ∧
      word (writeKpts n prev a i ks mem) (kptAddress a (i+j)+8)=kptFields n (i+j) k := by
  induction ks generalizing mem i j with
  | nil => simp at h
  | cons k' ks ih =>
    cases j with
    | zero =>
      rw [getElem?_cons_zero] at h
      cases h
      have hnext := kptAddress_succ a i
      rw [Nat.add_zero,writeKpts]
      constructor
      · rw [word_congr fun i hi => writeKpts_of_lt (by omega)]
        exact word_store (kptControl_lt _ _ _) _
      · rw [word_congr fun i hi => writeKpts_of_lt (by omega),store_append,wordBytes_length]
        exact word_store_word (kptFields_lt _ _ _)
    | succ j =>
      rw [getElem?_cons_succ] at h
      have hindex : i+(j+1)=i+1+j := by omega
      rw [hindex,writeKpts]
      exact ih h

theorem le_payloadAddress (mem : Bytes) (a : ℕ) : a+8≤payloadAddress mem a := Nat.le_add_right _ _

theorem payloadAddress_congr (h : word mem' a=word mem a) : payloadAddress mem' a=payloadAddress mem a := by
  unfold payloadAddress header
  rw [h]

/-- The header is not written over while the record is filled. -/
theorem header_withKpts (ram mem : Bytes) (a : ℕ) (version : UInt32) (ctx : RecordInsertContext)
    (prev : ℕ → ℕ) : header (withKpts ram mem a version ctx prev) a=truncated (newHeader version ctx) := by
  have hpayload : word (withPayload ram mem a version ctx) a=(newHeader version ctx).control := by
    unfold withPayload
    rw [word_store_of_disjoint (.inl (le_payloadAddress _ _))]
    exact word_store_word (control_lt _)
  have hoptions : word (withOptions ram mem a version ctx) a=(newHeader version ctx).control := by
    unfold withOptions
    have hle := le_payloadAddress (withPayload ram mem a version ctx) a
    split_ifs
    · rw [word_congr fun i hi => copyOptions_of_lt (by omega),hpayload]
    · exact hpayload
  have hkpt : kptAddress a 0=a+8 := rfl
  unfold header withKpts
  rw [word_congr fun i hi => writeKpts_of_lt (by omega),hoptions,ofControl_truncated]

/-- The header of the record that was inserted. -/
theorem header_internalInsert (h : internalInsert ram mem a version ctx prev=some mem') :
    header mem' a=truncated (visible (newHeader version ctx)) := by
  unfold internalInsert at h
  split_ifs at h
  cases h
  rw [header,word_store_word (control_lt _),ofControl_truncated,header_withKpts]
  simp only [truncated,visible,Nat.mod_mod]

/-- What a record that was inserted holds behind its header. -/
structure Stored (ram mem : Bytes) (a : ℕ) (ctx : RecordInsertContext) (prev : ℕ → ℕ) : Prop where
  /-- The words of the key pointers. -/
  kpts : ∀ i k, ctx.kpts[i]? = some k →
    word mem (kptAddress a i) = kptControl ctx.nGeneralPts i (prev i) ∧
      word mem (kptAddress a i + 8) = kptFields ctx.nGeneralPts i k
  /-- The payload. -/
  payload : slice mem (payloadAddress mem a) ctx.payloadSize = slice ram ctx.payload ctx.payloadSize
  /-- The copied strings, one behind the other. -/
  options : 0 < ctx.optionalSize → ∀ j o, ctx.options[j]? = some o →
    slice mem (payloadAddress mem a + ctx.payloadSize + ((ctx.options.take j).map (·.size)).sum) o.size =
      o.bytes ram

/-- Behind the header the last step changes nothing. -/
theorem internalInsert_behind (h : internalInsert ram mem a version ctx prev=some mem') (hx : a+8≤x) :
    mem' x=withKpts ram mem a version ctx prev x := by
  unfold internalInsert at h
  split_ifs at h
  cases h
  exact store_of_ge (by rwa [wordBytes_length])

section

variable (hn : ctx.kpts.length<2^15)

include hn

/-- If the header has room for the number of key pointers, the payload is behind them. -/
theorem payloadAddress_of_header (h : (header mem a).ptrCnt=ctx.kpts.length%2^32%2^15) :
    payloadAddress mem a=kptAddress a (0+ctx.kpts.length) := by
  unfold payloadAddress kptAddress sizeofKeyPointer
  rw [h]
  omega

theorem payloadAddress_withHeader : payloadAddress (withHeader mem a version ctx) a=kptAddress a (0+ctx.kpts.length) := by
  refine payloadAddress_of_header hn ?_
  unfold header withHeader
  rw [word_store_word (control_lt _),ofControl_truncated]
  rfl

theorem payloadAddress_withPayload :
    payloadAddress (withPayload ram mem a version ctx) a=kptAddress a (0+ctx.kpts.length) := by
  have hsame : payloadAddress (withPayload ram mem a version ctx) a = payloadAddress (withHeader mem a version ctx) a :=
    payloadAddress_congr (word_store_of_disjoint (.inl (le_payloadAddress _ _)))
  rw [hsame,payloadAddress_withHeader hn]

theorem slice_withPayload : slice (withPayload ram mem a version ctx) (kptAddress a (0+ctx.kpts.length)) ctx.payloadSize =
      slice ram ctx.payload ctx.payloadSize := by
  have hread : slice (withPayload ram mem a version ctx) (payloadAddress (withHeader mem a version ctx) a)
      (slice ram ctx.payload ctx.payloadSize).length=slice ram ctx.payload ctx.payloadSize := slice_store
  rwa [slice_length,payloadAddress_withHeader hn] at hread

/-- Then nothing is written over. -/
theorem stored_internalInsert (h : internalInsert ram mem a version ctx prev=some mem') : Stored ram mem' a ctx prev := by
  have hlast : payloadAddress mem' a=kptAddress a (0+ctx.kpts.length) :=
    payloadAddress_of_header hn (congrArg RecordInfo.ptrCnt (header_internalInsert h))
  have hge : a+8≤kptAddress a (0+ctx.kpts.length) := Nat.le_add_right _ _
  -- Behind the key pointers the memory is as after the options.
  have hbehind : ∀ x, kptAddress a (0+ctx.kpts.length)≤x → mem' x=withOptions ram mem a version ctx x := by
    intro x hx
    rw [internalInsert_behind h (hge.trans hx)]
    exact writeKpts_of_ge hx
  refine ⟨fun i k hk => ?_,?_,fun hpos j o ho => ?_⟩
  · have hkpt : a+8≤kptAddress a i := Nat.le_add_right _ _
    rw [word_congr fun j _ => internalInsert_behind h (by omega), word_congr fun j _ => internalInsert_behind h (by omega)]
    have hwords := @word_writeKpts (withOptions ram mem a version ctx) a ctx.nGeneralPts 0 prev _ _ _ hk
    rw [Nat.zero_add] at hwords
    exact hwords
  · rw [hlast,←slice_withPayload hn]
    refine slice_congr fun i hi => ?_
    rw [hbehind _ (Nat.le_add_right _ _)]
    unfold withOptions
    rw [payloadAddress_withPayload hn]
    split_ifs
    · exact copyOptions_of_lt (Nat.add_lt_add_left hi _)
    · rfl
  · rw [hlast,←slice_copyOptions ho]
    refine slice_congr fun i _ => ?_
    rw [hbehind _ (by omega)]
    unfold withOptions
    rw [payloadAddress_withPayload hn,if_pos hpos]

end

end Writes

section Results

variable {F : Type} {p : Psfs F} {r : ParsedRecord F} {ram : Bytes} {text : StringRef}
  {done : List (ℕ × NullableStringRef)} {acc : GeneralLoop}

/-- The results of the general PSFs for the record, in the order of the loop. -/
def results (p : Psfs F) (r : ParsedRecord F) : List (ℕ × NullableStringRef) :=
  p.ptrGeneralPsf.filterMap fun id => (p.generalResult r id).map (id, ·)

/-- The results of the inline PSFs for the record, in the order of the loop. -/
def inlineResults (p : Psfs F) (r : ParsedRecord F) : List (ℕ × Int32) :=
  p.ptrInlinePsf.filterMap fun id => (p.inlineResult r id).map (id, ·)

/-- The results that are copied. -/
def copied (text : StringRef) (done : List (ℕ × NullableStringRef)) : List NullableStringRef :=
  (done.map Prod.snd).filter fun res => !inText text res

/-- The number of bytes that are copied. -/
def copiedBytes (text : StringRef) (done : List (ℕ × NullableStringRef)) : ℕ :=
  ((copied text done).map (·.size)).sum

/-- Where the value of the result with index `k` is, from the start of the payload. -/
def place (text : StringRef) (done : List (ℕ × NullableStringRef)) (k : ℕ) (res : NullableStringRef) : ℕ :=
  if inText text res then res.payload - text.data else text.length + copiedBytes text (done.take k)

/-- The loop over the general PSFs has come past the results in `done`. -/
structure Placed (ram : Bytes) (text : StringRef) (done : List (ℕ × NullableStringRef)) (acc : GeneralLoop) :
    Prop where
  optionalOffset : acc.optionalOffset = (text.length + copiedBytes text done) % 2 ^ 32
  nGeneralPts : acc.nGeneralPts = done.length % 2 ^ 16
  options : acc.options = copied text done
  kpts : acc.kpts = done.mapIdx fun k x =>
    .general (hashBytesWithPsfId x.1 (x.2.bytes ram)) x.1 (place text done k x.2 % 2 ^ 32) x.2.size

theorem place_append {k : ℕ} {x : ℕ × NullableStringRef} (res : NullableStringRef) (hk : k<done.length) :
    place text (done ++ [x]) k res=place text done k res := by
  unfold place
  rw [take_append_of_le_length hk.le]

/-- One turn of the loop with a result that is not null. -/
theorem Placed.push (h : Placed ram text done acc) (psfId : ℕ) (res : NullableStringRef) :
    Placed ram text (done ++ [(psfId, res)]) (acc.push ram text psfId res) := by
  have hlen : (acc.nGeneralPts+1)%2^16=(done ++ [(psfId, res)]).length%2^16 := by
    rw [h.nGeneralPts,length_append,length_singleton]
    omega
  have hold : (done.mapIdx fun k x => KptUtil.general (hashBytesWithPsfId x.1 (x.2.bytes ram)) x.1
        (place text (done ++ [(psfId, res)]) k x.2%2^32) x.2.size)=acc.kpts := by
    rw [h.kpts]
    refine mapIdx_eq_mapIdx_iff.mpr fun k hk => ?_
    rw [place_append _ hk]
  have hnew : place text (done ++ [(psfId, res)]) done.length res =
      if inText text res then res.payload - text.data else text.length+copiedBytes text done := by
    unfold place
    rw [take_left]
  have hkpts : ∀ v, v=place text (done ++ [(psfId, res)]) done.length res%2^32 →
      acc.kpts ++ [KptUtil.general (hashBytesWithPsfId psfId (res.bytes ram)) psfId v res.size] =
        (done ++ [(psfId, res)]).mapIdx fun k x => KptUtil.general (hashBytesWithPsfId x.1 (x.2.bytes ram)) x.1
          (place text (done ++ [(psfId, res)]) k x.2%2^32) x.2.size := by
    rintro v rfl
    rw [mapIdx_append,hold]
    simp
  unfold GeneralLoop.push
  dsimp only
  by_cases hin : inText text res=true
  · have hcopied : copied text (done ++ [(psfId, res)])=copied text done := by simp [copied,hin]
    rw [if_pos hin]
    rw [if_pos hin] at hnew
    refine ⟨?_,hlen,?_,hkpts _ (by rw [hnew])⟩
    · unfold copiedBytes
      rw [hcopied]
      exact h.optionalOffset
    · rw [hcopied]
      exact h.options
  · have hcopied : copied text (done ++ [(psfId, res)])=copied text done ++ [res] := by simp [copied,hin]
    rw [if_neg hin]
    rw [if_neg hin] at hnew
    refine ⟨?_,hlen,?_,hkpts _ (by rw [hnew,h.optionalOffset])⟩
    · unfold copiedBytes
      rw [hcopied,map_append,sum_append,h.optionalOffset]
      simp only [map_cons,map_nil,sum_singleton]
      unfold copiedBytes
      omega
    · rw [hcopied,h.options]

/-- The loop over the general PSFs, for the rest of the ids. -/
theorem Placed.foldl (h : Placed r.ram r.text done acc) (ids : List ℕ) :
    Placed r.ram r.text (done ++ ids.filterMap fun id => (p.generalResult r id).map (id, ·))
      (ids.foldl (p.generalStep r) acc) := by
  induction ids generalizing done acc with
  | nil =>
    rw [filterMap_nil,append_nil]
    exact h
  | cons id ids ih =>
    rw [foldl_cons,filterMap_cons]
    unfold Psfs.generalStep
    cases hres : p.generalResult r id with
    | none => exact ih h
    | some res =>
      have hpush := ih (h.push id res)
      rw [append_assoc] at hpush
      exact hpush

/-- The loop over the general PSFs. -/
theorem placed_generalLoop (p : Psfs F) (r : ParsedRecord F) : Placed r.ram r.text (results p r) (p.generalLoop r) := by
  have hstart : Placed r.ram r.text [] ⟨r.text.length%2^32,0,[],[]⟩ := ⟨rfl,rfl,rfl,rfl⟩
  exact hstart.foldl p.ptrGeneralPsf

theorem inlineKpts_eq (p : Psfs F) (r : ParsedRecord F) :
    p.inlineKpts r=(inlineResults p r).map fun x => KptUtil.inline x.1 x.2 := by
  unfold Psfs.inlineKpts inlineResults
  rw [map_filterMap]
  simp only [Option.map_map,Function.comp_def]

/-- The number of key pointers of the record. -/
theorem kpts_length (p : Psfs F) (o : ℕ) (r : ParsedRecord F) :
    (p.insertContext o r).kpts.length=(results p r).length+(inlineResults p r).length := by
  simp [Psfs.insertContext,(placed_generalLoop p r).kpts,inlineKpts_eq]

/-- The optional size that `BatchInsert` computes with 32 bits. -/
theorem optionalSize_eq (p : Psfs F) (o : ℕ) (r : ParsedRecord F) :
    (p.insertContext o r).optionalSize=copiedBytes r.text (results p r)%2^32 := by
  simp only [Psfs.insertContext,(placed_generalLoop p r).optionalOffset]
  omega

/-- The header that is stored describes the record: its fields are the number of key
pointers and the sizes of the payload and of the options, the size is what was allocated,
and every key pointer finds the record. -/
structure Described (mem : Bytes) (a : ℕ) (p : Psfs F) (o : ℕ) (r : ParsedRecord F) : Prop where
  ptrCnt : (header mem a).ptrCnt = (results p r).length + (inlineResults p r).length
  payloadSize : (header mem a).payloadSize = r.text.length
  optionalSize : (header mem a).optionalSize = copiedBytes r.text (results p r)
  size : (header mem a).size = allocatedSize (p.insertContext o r)
  getRecord : ∀ i < (results p r).length + (inlineResults p r).length, getRecord mem (kptAddress a i) = a

/-- The header has room for the sizes of the record. -/
structure Room (p : Psfs F) (r : ParsedRecord F) : Prop where
  ptrCnt : (results p r).length + (inlineResults p r).length < 2 ^ 15
  payload : r.text.length < 2 ^ 25
  options : copiedBytes r.text (results p r) < 2 ^ 8

section Insert

variable {mem mem' : Bytes} {a o : ℕ} {version : UInt32} {prev : ℕ → ℕ}

/-- The sizes in the header of the record that was inserted. -/
theorem header_sizes (h : internalInsert ram mem a version (p.insertContext o r) prev=some mem') :
    (header mem' a).ptrCnt=((results p r).length+(inlineResults p r).length)%2^15 ∧
      (header mem' a).payloadSize=r.text.length%2^25 ∧
      (header mem' a).optionalSize=copiedBytes r.text (results p r)%2^8 := by
  rw [header_internalInsert h]
  refine ⟨?_,?_,?_⟩
  · change (p.insertContext o r).kpts.length%2^32%2^15=_
    rw [kpts_length]
    omega
  · change r.text.length%2^32%2^25=_
    omega
  · change (p.insertContext o r).optionalSize%2^8=_
    rw [optionalSize_eq]
    omega

/-- Every key pointer finds the record. -/
theorem getRecord_stored (hn : (results p r).length+(inlineResults p r).length<2^15)
    (h : Stored ram mem a (p.insertContext o r) prev) {i : ℕ}
    (hi : i<(results p r).length+(inlineResults p r).length) : getRecord mem (kptAddress a i)=a := by
  have hk : i<(p.insertContext o r).kpts.length := by rwa [kpts_length]
  have hindex : word mem (kptAddress a i)/2%2^15=i := by
    rw [(h.kpts i _ (getElem?_eq_getElem hk)).1]
    unfold kptControl
    split_ifs <;> omega
  unfold getRecord ptrOffset
  rw [hindex]
  unfold kptAddress
  omega

end Insert

/-- A PSF with a string of 256 bytes elsewhere in the memory. -/
def longString : Psfs Unit :=
  { noPsfs with ptrGeneralPsf := [3], generalPsfMap := fun _ => ⟨[], fun _ => ⟨false, false, 256, 1000⟩⟩ }

/-- Payload, options and values have room in their bit fields. -/
structure Fits (p : Psfs F) (r : ParsedRecord F) : Prop where
  payload : r.text.length < 2 ^ 25
  options : copiedBytes r.text (results p r) < 2 ^ 8
  values : ∀ k x, (results p r)[k]? = some x →
    place r.text (results p r) k x.2 < 2 ^ 25 ∧ x.2.size < 2 ^ 25

/-- The bytes of the result are bytes of the text. -/
def Inside (text : StringRef) (res : NullableStringRef) : Prop :=
  text.data ≤ res.payload ∧ res.payload + res.size ≤ text.data + text.length

/-- No byte of the result is a byte of the text. -/
def Outside (text : StringRef) (res : NullableStringRef) : Prop :=
  res.payload + res.size ≤ text.data ∨ text.data + text.length ≤ res.payload

/-- What the key pointers of a record need: there is room for their number and for the ids of
their PSFs, no string begins right behind the text, and until they are copied the text and
the strings outside of it stay as they were when the PSFs were evaluated. -/
structure Kept (ram : Bytes) (p : Psfs F) (r : ParsedRecord F) : Prop where
  count : (results p r).length + (inlineResults p r).length < 2 ^ 15
  ids : ∀ x ∈ results p r, x.1 < 2 ^ 14
  inlineIds : ∀ x ∈ inlineResults p r, x.1 < 2 ^ 32
  behind : ∀ x ∈ results p r, x.2.payload = r.text.data + r.text.length → x.2.size = 0
  text : slice ram r.text.data r.text.length = slice r.ram r.text.data r.text.length
  options : ∀ x ∈ results p r, inText r.text x.2 = false → x.2.bytes ram = x.2.bytes r.ram

/-- The key pointers of the stored record reproduce the results and their hashes. -/
structure Reproduced (mem : Bytes) (a : ℕ) (p : Psfs F) (o : ℕ) (r : ParsedRecord F) : Prop where
  /-- The value of a general PSF, the hash under which it was linked and that of a scan. -/
  general : ∀ k id res, (results p r)[k]? = some (id, res) → mode mem (kptAddress a k) = 0 ∧
    getValue mem (kptAddress a k) = res.bytes r.ram ∧
    (p.insertContext o r).kpts[k]?.map KptUtil.hash = some (getHash mem (kptAddress a k)) ∧
    getHash mem (kptAddress a k) = ⟨hashBytesWithPsfId id (res.bytes r.ram)⟩
  /-- The same for an inline PSF. -/
  inline : ∀ j id value, (inlineResults p r)[j]? = some (id, value) →
    mode mem (kptAddress a ((results p r).length + j)) = 1 ∧
    inlineValue mem (kptAddress a ((results p r).length + j)) = value.toUInt32.toNat ∧
    (p.insertContext o r).kpts[(results p r).length + j]?.map KptUtil.hash =
      some (getHash mem (kptAddress a ((results p r).length + j))) ∧
    getHash mem (kptAddress a ((results p r).length + j)) = ⟨getHashCode id value.toUInt32.toNat⟩
  /-- Copied values do not overlap. -/
  disjoint : ∀ k l x y, k < l → (results p r)[k]? = some x → (results p r)[l]? = some y →
    inText r.text x.2 = false → inText r.text y.2 = false →
    valueOffset mem (kptAddress a k) + x.2.size ≤ valueOffset mem (kptAddress a l)

theorem getElem_of_slice {mem mem' : Bytes} {a a' n i : ℕ} (h : slice mem a n=slice mem' a' n) (hi : i<n) :
    mem (a+i)=mem' (a'+i) := by
  have hget := congrArg (fun l => l[i]?) h
  simpa [slice,hi] using hget

/-- A piece of a slice. -/
theorem slice_of_slice {mem mem' : Bytes} {a a' n i m : ℕ} (h : slice mem a n=slice mem' a' n)
    (hi : i+m≤n) : slice mem (a+i) m=slice mem' (a'+i) m := by
  refine slice_congr fun j hj => ?_
  rw [add_assoc,add_assoc]
  exact getElem_of_slice h (by omega)

/-- The results split at one of them. -/
theorem split_at {α : Type} {l : List α} {k : ℕ} {x : α} (h : l[k]?=some x) : l=l.take k ++ x::l.drop (k+1) := by
  obtain ⟨hk,rfl⟩ := List.getElem?_eq_some_iff.mp h
  rw [←drop_eq_getElem_cons hk,take_append_drop]

theorem copied_append (text : StringRef) (l l' : List (ℕ × NullableStringRef)) :
    copied text (l ++ l')=copied text l ++ copied text l' := by
  simp [copied]

theorem copied_cons {x : ℕ × NullableStringRef} (hx : inText text x.2=false)
    (l : List (ℕ × NullableStringRef)) : copied text (x::l)=x.2::copied text l := by
  simp [copied,hx]

/-- A copied result is an option, behind those of the results before it. -/
theorem copied_getElem {k : ℕ} {x : ℕ × NullableStringRef} (h : done[k]?=some x)
    (hx : inText text x.2=false) : (copied text done)[(copied text (done.take k)).length]?=some x.2 ∧
      (copied text done).take (copied text (done.take k)).length=copied text (done.take k) := by
  have hsplit : copied text done = copied text (done.take k) ++ x.2::copied text (done.drop (k+1)) := by
    conv_lhs => rw [split_at h]
    rw [copied_append,copied_cons hx]
  rw [hsplit]
  simp

/-- The places of copied results. -/
theorem copiedBytes_take {k l : ℕ} {x : ℕ × NullableStringRef} (h : done[k]?=some x) (hx : inText text x.2=false)
    (hkl : k<l) : copiedBytes text (done.take k)+x.2.size≤copiedBytes text (done.take l) := by
  have hk : (done.take l)[k]?=some x := by rw [getElem?_take_of_lt hkl,h]
  have hsplit := split_at hk
  rw [take_take,min_eq_left hkl.le] at hsplit
  have hbytes : copiedBytes text (done.take l)=copiedBytes text (done.take k) +
      (x.2.size+copiedBytes text ((done.take l).drop (k+1))) := by
    conv_lhs => rw [hsplit]
    unfold copiedBytes
    rw [copied_append,copied_cons hx]
    simp
  omega

/-- A result in the sense of the test is inside the text. -/
theorem inside_of_inText {res : NullableStringRef} (h : Inside text res ∨ Outside text res)
    (hbehind : res.payload=text.data+text.length → res.size=0) (hin : inText text res=true) : Inside text res := by
  have hrange := of_decide_eq_true hin
  unfold Inside Outside at *
  omega

section Key

variable {mem : Bytes} {a o : ℕ} {prev : ℕ → ℕ}

theorem generalFields_spec (psfId valueOffset valueSize : ℕ) : generalFields psfId valueOffset valueSize%2^14=psfId%2^14 ∧
      generalFields psfId valueOffset valueSize/2^14%2^25=valueOffset%2^25 ∧
      generalFields psfId valueOffset valueSize/2^39%2^25=valueSize%2^25 := by
  unfold generalFields
  omega

theorem inlineFields_spec (psfId value : ℕ) : inlineFields psfId value%2^32=psfId%2^32 ∧
      inlineFields psfId value/2^32%2^32=value%2^32 := by
  unfold inlineFields
  omega

/-- The insert context has the key pointers of the general PSFs first. -/
theorem kpts_general {k : ℕ} {x : ℕ × NullableStringRef} (h : (results p r)[k]?=some x) :
    (p.insertContext o r).kpts[k]?=some (.general (hashBytesWithPsfId x.1 (x.2.bytes r.ram)) x.1
      (place r.text (results p r) k x.2%2^32) x.2.size) := by
  have hk := (List.getElem?_eq_some_iff.mp h).1
  simp only [Psfs.insertContext]
  rw [(placed_generalLoop p r).kpts,List.getElem?_append_left (by simpa using hk),List.getElem?_mapIdx,h]
  rfl

theorem kpts_inline {j : ℕ} {x : ℕ × Int32} (h : (inlineResults p r)[j]?=some x) :
    (p.insertContext o r).kpts[(results p r).length+j]?=some (.inline x.1 x.2) := by
  simp only [Psfs.insertContext]
  rw [(placed_generalLoop p r).kpts,getElem?_append_right (by simp),length_mapIdx,
    Nat.add_sub_cancel_left,inlineKpts_eq,getElem?_map,h]
  rfl

theorem nGeneralPts_eq (hn : (results p r).length+(inlineResults p r).length<2^15) :
    (p.insertContext o r).nGeneralPts=(results p r).length := by
  simp only [Psfs.insertContext]
  rw [(placed_generalLoop p r).nGeneralPts]
  omega

/-- The fields of a general key pointer. -/
theorem general_fields (hfits : Fits p r) (hkept : Kept ram p r) (h : Stored ram mem a (p.insertContext o r) prev) {k : ℕ}
    {x : ℕ × NullableStringRef} (hx : (results p r)[k]?=some x) :
    mode mem (kptAddress a k)=0 ∧ generalPsfId mem (kptAddress a k)=x.1 ∧
      valueOffset mem (kptAddress a k)=place r.text (results p r) k x.2 ∧ valueSize mem (kptAddress a k)=x.2.size := by
  have hk := (List.getElem?_eq_some_iff.mp hx).1
  obtain ⟨hcontrol,hfields⟩ := h.kpts k _ (kpts_general hx)
  rw [nGeneralPts_eq hkept.count] at hcontrol hfields
  have hid := hkept.ids x (List.mem_of_getElem? hx)
  obtain ⟨hplace,hsize⟩ := hfits.values k x hx
  simp only [kptControl,if_pos hk] at hcontrol
  simp only [kptFields,if_pos hk,KptUtil.general] at hfields
  obtain ⟨h1,h2,h3⟩ := generalFields_spec x.1 (place r.text (results p r) k x.2%2^32) x.2.size
  rw [h1,h2,h3] at hfields
  obtain ⟨h1,h2,h3⟩ := generalFields_spec (x.1%2^14) (place r.text (results p r) k x.2%2^32%2^25) (x.2.size%2^25)
  unfold mode generalPsfId valueOffset valueSize
  rw [hfields,h1,h2,h3,hcontrol]
  exact ⟨by omega,by omega,by omega,by omega⟩

/-- The value of a general key pointer. -/
theorem general_value (hfits : Fits p r) (hkept : Kept ram p r)
    (hplace : ∀ x ∈ results p r, Inside r.text x.2 ∨ Outside r.text x.2) (h : Stored ram mem a (p.insertContext o r) prev)
    {k : ℕ} {x : ℕ × NullableStringRef} (hx : (results p r)[k]?=some x) :
    slice mem (payloadAddress mem a+place r.text (results p r) k x.2) x.2.size=x.2.bytes r.ram := by
  have hmem := mem_of_getElem? hx
  have hsize : (p.insertContext o r).payloadSize=r.text.length := Nat.mod_eq_of_lt (hfits.payload.trans (by norm_num))
  have hpayload := h.payload
  rw [hsize] at hpayload
  unfold place
  by_cases hin : inText r.text x.2=true
  · -- The value is a piece of the payload.
    obtain ⟨hle,hend⟩ := inside_of_inText (hplace x hmem) (hkept.behind x hmem) hin
    have hfit : x.2.payload - r.text.data+x.2.size≤r.text.length := by omega
    have hstart : r.text.data+(x.2.payload - r.text.data)=x.2.payload := by omega
    rw [if_pos hin,slice_of_slice (hpayload.trans hkept.text) hfit,hstart]
    rfl
  · -- The value is one of the options.
    have hout : inText r.text x.2=false := by simpa using hin
    rw [if_neg hin,←hkept.options x hmem hout]
    by_cases hzero : x.2.size=0
    · unfold NullableStringRef.bytes
      rw [hzero]
      rfl
    · have hopts : (p.insertContext o r).options=copied r.text (results p r) := (placed_generalLoop p r).options
      have hpos : 0<(p.insertContext o r).optionalSize := by
        have hbytes := copiedBytes_take hx hout (List.getElem?_eq_some_iff.mp hx).1
        rw [take_length] at hbytes
        have hfit := hfits.options
        rw [optionalSize_eq]
        omega
      obtain ⟨hget,htake⟩ := copied_getElem hx hout
      have hread := h.options hpos _ x.2 (by rw [hopts]; exact hget)
      rw [hopts,htake,hsize,add_assoc] at hread
      exact hread

/-- The fields of an inline key pointer. -/
theorem inline_fields (hkept : Kept ram p r) (h : Stored ram mem a (p.insertContext o r) prev) {j : ℕ}
    {x : ℕ × Int32} (hx : (inlineResults p r)[j]?=some x) : mode mem (kptAddress a ((results p r).length+j))=1 ∧
      inlinePsfId mem (kptAddress a ((results p r).length+j))=x.1 ∧
      inlineValue mem (kptAddress a ((results p r).length+j))=x.2.toUInt32.toNat := by
  obtain ⟨hcontrol,hfields⟩ := h.kpts _ _ (kpts_inline hx)
  have hnot : ¬(results p r).length+j<(results p r).length := by omega
  have hid := hkept.inlineIds x (mem_of_getElem? hx)
  have hvalue : x.2.toUInt32.toNat<2^32 := UInt32.toNat_lt _
  rw [nGeneralPts_eq hkept.count] at hcontrol hfields
  simp only [kptControl,if_neg hnot] at hcontrol
  simp only [kptFields,if_neg hnot,KptUtil.inline] at hfields
  obtain ⟨h1,h2⟩ := inlineFields_spec x.1 x.2.toUInt32.toNat
  rw [h1,h2] at hfields
  obtain ⟨h1,h2⟩ := inlineFields_spec (x.1%2^32) (x.2.toUInt32.toNat%2^32)
  unfold mode inlinePsfId inlineValue
  rw [hfields,h1,h2,hcontrol]
  exact ⟨by omega,by omega,by omega⟩

end Key

/-- A memory in which neighbouring bytes differ. -/
def counting : Bytes := fun x => x % 256

/-- A general PSF with a string of the text, one with a string elsewhere, and an inline PSF. -/
def threePsfs : Psfs Unit where
  ptrGeneralPsf := [0, 1]
  ptrInlinePsf := [0]
  mainParserFieldIds := []
  generalPsfMap id := ⟨[], fun _ => if id = 0 then ⟨false, false, 2, 101⟩ else ⟨false, false, 3, 200⟩⟩
  inlinePsfMap _ := ⟨[], fun _ => some (-5)⟩

/-- A PSF whose string begins right behind the text of the record at 100. -/
def stringBehind : Psfs Unit :=
  { noPsfs with ptrGeneralPsf := [3], generalPsfMap := fun _ => ⟨[], fun _ => ⟨false, false, 1, 102⟩⟩ }

end Results

end FishStore.StoredRecords
