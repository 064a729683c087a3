import FishStore.LogRecords

/-!
# Batches of records

`BatchInsert` parses a buffer and builds one insert context for each record, before any
record is inserted. The context has the payload, what the key pointers need of the results
of the PSFs, and the offset at which the ingestion can be resumed behind the record. A
general PSF returns a string somewhere in the memory of the process. If it begins inside the
text of the record, or right behind it, the key pointer refers to the payload, otherwise the
string is to be copied behind the payload.

The memory of the process is a function of the address. A record has the memory at the time
at which its PSFs are evaluated.
-/

namespace FishStore.BatchInsert

open Layout LogRecords List

/-- The bytes from an address on. -/
def slice (mem : Bytes) (a n : ℕ) : List ℕ := (List.range n).map fun i => mem (a + i)

/-- `Utility::Rotr64`. -/
def rotr64 (x n : ℕ) : ℕ := x / 2 ^ n ||| x * 2 ^ (64 - n) % 2 ^ 64

/-- `kMagicNum`. -/
def kMagicNum : ℕ := 40343

/-- A `char` as it is added to an unsigned number of 64 bits. It is signed. -/
def charValue (b : ℕ) : ℕ := if b < 128 then b else 2 ^ 64 - 256 + b

/-- `hashState = kMagicNum * hashState + x`. -/
def mix (state x : ℕ) : ℕ := (kMagicNum * state + x) % 2 ^ 64

/-- `Utility::HashBytesWithPSFID`. -/
def hashBytesWithPsfId (psfId : ℕ) (str : List ℕ) : ℕ :=
  rotr64 (mix (str.foldl (fun state b => mix state (charValue b)) (mix str.length psfId)) 0) 6

/-- `Utility::GetHashCode`, of one number. -/
def getHashCode64 (input : ℕ) : ℕ :=
  let state := mix 8 (input % 2 ^ 16)
  let state := mix state (input / 2 ^ 16 % 2 ^ 16)
  let state := mix state (input / 2 ^ 32 % 2 ^ 16)
  let state := mix state (input / 2 ^ 48)
  rotr64 (mix state 0) 43

/-- `Utility::GetHashCode`, of two numbers. -/
def getHashCode (a b : ℕ) : ℕ := getHashCode64 ((a * 2 ^ 32 + b) % 2 ^ 64)

/-- `StringRef`, a piece of the memory of the process. -/
structure StringRef where
  data : ℕ
  length : ℕ
  deriving DecidableEq

/-- `NullableStringRef`, the result of a general PSF. -/
structure NullableStringRef where
  isNull : Bool
  /-- The bytes are deleted when they have been copied. -/
  needFree : Bool
  size : ℕ
  payload : ℕ
  deriving DecidableEq

/-- The bytes of a result. -/
def NullableStringRef.bytes (res : NullableStringRef) (ram : Bytes) : List ℕ :=
  slice ram res.payload res.size

/-- `GeneralPSF`, whether it is a projection, compiled or from a library. -/
structure GeneralPsf (F : Type) where
  fields : List ℕ
  eval : List F → NullableStringRef

/-- `InlinePSF`. -/
structure InlinePsf (F : Type) where
  fields : List ℕ
  /-- `NullableInt`. -/
  eval : List F → Option Int32

/-- The state of the parser, and the PSFs by their ids. -/
structure Psfs (F : Type) where
  ptrGeneralPsf : List ℕ
  ptrInlinePsf : List ℕ
  mainParserFieldIds : List ℕ
  generalPsfMap : ℕ → GeneralPsf F
  inlinePsfMap : ℕ → InlinePsf F

/-- What the parser delivers of a record. -/
structure ParsedRecord (F : Type) where
  /-- `GetRawText`. -/
  text : StringRef
  /-- `GetFields`, with the number that the parser has given to the field. -/
  fields : List (ℕ × F)
  /-- The memory while the PSFs are evaluated. -/
  ram : Bytes

/-- `KPTUtil`: a hash, and the 64 bits that two kinds of key pointers use differently. -/
structure KptUtil where
  hash : KeyHash
  fields : ℕ
  deriving DecidableEq

/-- The bit fields `general_psf_id`, `value_offset` and `value_size`. -/
def generalFields (psfId valueOffset valueSize : ℕ) : ℕ :=
  psfId % 2 ^ 14 + valueOffset % 2 ^ 25 * 2 ^ 14 + valueSize % 2 ^ 25 * 2 ^ 39

/-- The fields `inline_psf_id` and `value`. -/
def inlineFields (psfId value : ℕ) : ℕ := psfId % 2 ^ 32 + value % 2 ^ 32 * 2 ^ 32

/-- `KPTUtil` of a general PSF. -/
def KptUtil.general (hash psfId valueOffset valueSize : ℕ) : KptUtil :=
  ⟨⟨hash⟩, generalFields psfId valueOffset valueSize⟩

/-- `KPTUtil` of an inline PSF. -/
def KptUtil.inline (psfId : ℕ) (value : Int32) : KptUtil :=
  ⟨⟨getHashCode psfId value.toUInt32.toNat⟩, inlineFields psfId value.toUInt32.toNat⟩

/-- `RecordInsertContext`. -/
structure RecordInsertContext where
  payload : ℕ
  payloadSize : ℕ
  offset : ℕ
  kpts : List KptUtil
  options : List NullableStringRef
  nGeneralPts : ℕ
  optionalSize : ℕ

section

variable {F : Type} {p : Psfs F} {r : ParsedRecord F} {rs : List (ParsedRecord F)}

/-- `field_map`. A field that comes twice keeps its first value. -/
def Psfs.fieldMap (p : Psfs F) (r : ParsedRecord F) : List (ℕ × F) :=
  r.fields.map fun field => (p.mainParserFieldIds.getD field.1 0, field.2)

/-- The arguments of a PSF, if no field is missing. -/
def Psfs.args (p : Psfs F) (r : ParsedRecord F) (fields : List ℕ) : Option (List F) :=
  fields.mapM fun id => (p.fieldMap r).lookup id

/-- The result of a general PSF for the record, if it has one that is not null. -/
def Psfs.generalResult (p : Psfs F) (r : ParsedRecord F) (psfId : ℕ) : Option NullableStringRef :=
  match p.args r (p.generalPsfMap psfId).fields with
  | none => none
  | some args =>
    let res := (p.generalPsfMap psfId).eval args
    if res.isNull then none else some res

/-- The result of an inline PSF for the record, if it has one that is not null. -/
def Psfs.inlineResult (p : Psfs F) (r : ParsedRecord F) (psfId : ℕ) : Option Int32 :=
  match p.args r (p.inlinePsfMap psfId).fields with
  | none => none
  | some args => (p.inlinePsfMap psfId).eval args

/-- The test of `BatchInsert` for a result that need not be copied. -/
def inText (text : StringRef) (res : NullableStringRef) : Bool :=
  decide (text.data ≤ res.payload ∧ res.payload ≤ text.data + text.length)

/-- The variables of the loop over the general PSFs. -/
structure GeneralLoop where
  optionalOffset : ℕ
  nGeneralPts : ℕ
  kpts : List KptUtil
  options : List NullableStringRef

/-- The loop goes on with a result that is not null. -/
def GeneralLoop.push (acc : GeneralLoop) (ram : Bytes) (text : StringRef) (psfId : ℕ)
    (res : NullableStringRef) : GeneralLoop :=
  let hash := hashBytesWithPsfId psfId (res.bytes ram)
  let n := (acc.nGeneralPts + 1) % 2 ^ 16
  if inText text res then
    { acc with
      nGeneralPts := n
      kpts := acc.kpts ++ [.general hash psfId ((res.payload - text.data) % 2 ^ 32) res.size] }
  else
    { optionalOffset := (acc.optionalOffset + res.size) % 2 ^ 32
      nGeneralPts := n
      kpts := acc.kpts ++ [.general hash psfId acc.optionalOffset res.size]
      options := acc.options ++ [res] }

/-- The body of the loop over the general PSFs. -/
def Psfs.generalStep (p : Psfs F) (r : ParsedRecord F) (acc : GeneralLoop) (psfId : ℕ) : GeneralLoop :=
  match p.generalResult r psfId with
  | none => acc
  | some res => acc.push r.ram r.text psfId res

/-- The loop over the general PSFs. -/
def Psfs.generalLoop (p : Psfs F) (r : ParsedRecord F) : GeneralLoop :=
  p.ptrGeneralPsf.foldl (p.generalStep r) ⟨r.text.length % 2 ^ 32, 0, [], []⟩

/-- The key pointers of the loop over the inline PSFs. -/
def Psfs.inlineKpts (p : Psfs F) (r : ParsedRecord F) : List KptUtil :=
  p.ptrInlinePsf.filterMap fun id => (p.inlineResult r id).map (KptUtil.inline id)

/-- The insert context of a record. -/
def Psfs.insertContext (p : Psfs F) (currentOffset : ℕ) (r : ParsedRecord F) : RecordInsertContext where
  payload := r.text.data
  payloadSize := r.text.length % 2 ^ 32
  offset := currentOffset
  kpts := (p.generalLoop r).kpts ++ p.inlineKpts r
  options := (p.generalLoop r).options
  nGeneralPts := (p.generalLoop r).nGeneralPts
  optionalSize := ((p.generalLoop r).optionalOffset + 2 ^ 32 - r.text.length % 2 ^ 32) % 2 ^ 32

/-- The loop of `BatchInsert` over the records; `current_offset` has 32 bits. -/
def Psfs.insertContexts (p : Psfs F) : ℕ → List (ParsedRecord F) → List RecordInsertContext
  | _, [] => []
  | currentOffset, r :: rs =>
    let currentOffset := (currentOffset + r.text.length % 2 ^ 32) % 2 ^ 32
    p.insertContext currentOffset r :: p.insertContexts currentOffset rs

/-- The records lie one behind the other in the memory from `a` up to `stop`. -/
def Increasing (a stop : ℕ) : List (ParsedRecord F) → Prop
  | [] => a ≤ stop
  | r :: rs => a ≤ r.text.data ∧ 0 < r.text.length ∧ Increasing (r.text.data + r.text.length) stop rs

/-- Each record begins where the one before it ends, and the first one at `a`. -/
def Contiguous (a : ℕ) : List (ParsedRecord F) → Prop
  | [] => True
  | r :: rs => r.text.data = a ∧ Contiguous (r.text.data + r.text.length) rs

instance Contiguous.decidable (a : ℕ) : (rs : List (ParsedRecord F)) → Decidable (Contiguous a rs)
  | [] => inferInstanceAs (Decidable True)
  | r :: rs =>
    have := Contiguous.decidable (r.text.data + r.text.length) rs
    inferInstanceAs (Decidable (_ ∧ _))

/-- Where the last of the records ends that begin at or after `a`. -/
def lastEnd : ℕ → List (ParsedRecord F) → ℕ
  | a, [] => a
  | _, r :: rs => lastEnd (r.text.data + r.text.length) rs

/-- The number of bytes of the texts. -/
def textBytes (rs : List (ParsedRecord F)) : ℕ := (rs.map fun r => r.text.length).sum

/-- A buffer, with the records that the parser delivers of it from an offset on. -/
structure Input (F : Type) where
  data : ℕ
  length : ℕ
  /-- What the parser delivers of `data[offset, length)`. -/
  deliver : ℕ → List (ParsedRecord F)
  /-- They are disjoint substrings in increasing position. -/
  increasing : ∀ o ≤ length, Increasing (data + o) (data + length) (deliver o)
  /-- From a place between two records on the parser delivers the records that follow. -/
  resumes : ∀ o k o', o ≤ length → o' ≤ length →
    lastEnd (data + o) ((deliver o).take k) ≤ data + o' →
    (∀ r, (deliver o)[k]? = some r → data + o' ≤ r.text.data) → deliver o' = (deliver o).drop k

/-- The records that `BatchInsert` takes from the parser. -/
def Input.ingested (b : Input F) (internalOffset : ℕ) : List (ParsedRecord F) :=
  if b.length = internalOffset then [] else b.deliver internalOffset

/-- The insert contexts of `BatchInsert`. -/
def Input.batchInsert (b : Input F) (p : Psfs F) (internalOffset : ℕ) : List RecordInsertContext :=
  p.insertContexts internalOffset (b.ingested internalOffset)

/-- `serial_num` and `offset` of a session, which a checkpoint persists. -/
structure Session where
  serialNum : ℕ
  offset : ℕ
  deriving DecidableEq

/-- The session after `Insert` of some records of a batch. -/
def Session.insertAll (s : Session) (serialNum : ℕ) (ctxs : List RecordInsertContext) : Session :=
  ctxs.foldl (fun _ ctx => ⟨serialNum, ctx.offset⟩) s

/-- The offset is a position of the buffer behind record `i` and not behind the start of the next. -/
structure Input.Between (b : Input F) (o i offset : ℕ) : Prop where
  le_length : offset ≤ b.length
  behind : ∀ r, (b.deliver o)[i]? = some r → r.text.data + r.text.length ≤ b.data + offset
  before : ∀ r, (b.deliver o)[i + 1]? = some r → b.data + offset ≤ r.text.data

theorem slice_length (mem : Bytes) (a n : ℕ) : (slice mem a n).length=n := by simp [slice]

theorem slice_congr {mem mem' : Bytes} {a a' n : ℕ} (h : ∀ i<n, mem (a+i)=mem' (a'+i)) :
    slice mem a n=slice mem' a' n :=
  map_congr_left fun i hi => h i (mem_range.mp hi)

theorem insertContexts_length (o : ℕ) : (p.insertContexts o rs).length=rs.length := by
  induction rs generalizing o with
  | nil => rfl
  | cons r rs ih => simp [Psfs.insertContexts,ih]

/-- The offset of a record counts the bytes of the records up to it. -/
theorem insertContexts_offset {o i : ℕ} {ctx : RecordInsertContext} (ho : o<2^32)
    (h : (p.insertContexts o rs)[i]?=some ctx) : ctx.offset=(o+textBytes (rs.take (i+1)))%2^32 := by
  induction rs generalizing o i with
  | nil => simp [Psfs.insertContexts] at h
  | cons r rs ih =>
    have hsum : textBytes ((r::rs).take (i+1))=r.text.length+textBytes (rs.take i) := by simp [textBytes]
    rw [hsum]
    rw [Psfs.insertContexts] at h
    cases i with
    | zero =>
      rw [getElem?_cons_zero] at h
      cases h
      simp [Psfs.insertContext,textBytes]
    | succ i =>
      rw [getElem?_cons_succ] at h
      rw [ih (Nat.mod_lt _ (by norm_num)) h]
      omega

/-- Records fill the space up to the end of the last one, but for the separators. -/
theorem add_textBytes_le {a stop : ℕ} (h : Increasing a stop rs) :
    a+textBytes rs≤lastEnd a rs ∧ (a+textBytes rs=lastEnd a rs ↔ Contiguous a rs) := by
  induction rs generalizing a with
  | nil => simp [textBytes,lastEnd,Contiguous]
  | cons r rs ih =>
    obtain ⟨hle,-,hrest⟩ := h
    obtain ⟨hih,hiff⟩ := ih hrest
    have hsum : textBytes (r::rs)=r.text.length+textBytes rs := by simp [textBytes]
    simp only [lastEnd,Contiguous,hsum]
    refine ⟨by omega,fun heq => ⟨by omega,hiff.mp (by omega)⟩,fun ⟨hstart,hcont⟩ => ?_⟩
    have := hiff.mpr hcont
    omega

theorem Increasing.le {a stop : ℕ} (h : Increasing a stop rs) : a ≤ stop := by
  induction rs generalizing a with
  | nil => exact h
  | cons r rs ih =>
    have := ih h.2.2
    have := h.1
    omega

theorem Increasing.take {a stop : ℕ} (h : Increasing a stop rs) (k : ℕ) : Increasing a stop (rs.take k) := by
  induction rs generalizing a k with
  | nil => rwa [take_nil]
  | cons r rs ih =>
    cases k with
    | zero => exact h.le
    | succ k => exact ⟨h.1,h.2.1,ih h.2.2 k⟩

theorem lastEnd_take {a i : ℕ} (h : rs[i]?=some r) : lastEnd a (rs.take (i+1))=r.text.data+r.text.length := by
  induction rs generalizing a i with
  | nil => simp at h
  | cons r' rs ih =>
    cases i with
    | zero =>
      rw [getElem?_cons_zero] at h
      cases h
      rfl
    | succ i => exact ih h

/-- A record is not empty, and ends in the buffer and before the next one. -/
theorem Increasing.getElem {a stop i : ℕ} (h : Increasing a stop rs) (hr : rs[i]?=some r) :
    a≤r.text.data ∧ 0<r.text.length ∧ r.text.data+r.text.length ≤ stop ∧
      ∀ r', rs[i+1]?=some r' → r.text.data+r.text.length≤r'.text.data := by
  induction rs generalizing a i with
  | nil => simp at hr
  | cons q rs ih =>
    obtain ⟨hle,hpos,hrest⟩ := h
    cases i with
    | zero =>
      rw [getElem?_cons_zero] at hr
      cases hr
      refine ⟨hle,hpos,hrest.le,fun r' hr' => ?_⟩
      cases rs with
      | nil => simp at hr'
      | cons q' rs =>
        cases hr'
        exact hrest.1
    | succ i =>
      obtain ⟨hle',hpos',hstop,hnext⟩ := ih hrest hr
      exact ⟨by omega,hpos',hstop,hnext⟩

/-- After `Insert` of some records the session has the offset of the last one. -/
theorem insertAll_take (s : Session) (serialNum : ℕ) {ctxs : List RecordInsertContext} {i : ℕ}
    {ctx : RecordInsertContext} (h : ctxs[i]?=some ctx) :
    s.insertAll serialNum (ctxs.take (i+1))=⟨serialNum,ctx.offset⟩ := by
  unfold Session.insertAll
  rw [take_add_one,h,foldl_append]
  rfl

/-- Where nothing of the buffer is left, no record follows. -/
theorem ingested_of_between (b : Input F) {o i offset : ℕ} (hle : o≤b.length) (h : b.Between o i offset)
    (hr : (b.deliver o)[i]?=some r) (hoff : r.text.data+r.text.length=b.data+offset) :
    b.ingested offset=(b.deliver o).drop (i+1) := by
  have hresume := b.resumes o (i+1) offset hle h.le_length (by rw [lastEnd_take hr,hoff]) h.before
  unfold Input.ingested
  split_ifs with hfull
  · rw [eq_comm,drop_eq_nil_iff]
    by_contra hlen
    have hnext := getElem?_eq_getElem (not_le.mp hlen)
    obtain ⟨-,hpos,hstop,-⟩ := (b.increasing o hle).getElem hnext
    have hbefore := h.before _ hnext
    omega
  · exact hresume

/-- The offset of record `i` is exact, for the session that has inserted the batch up to
this record, if and only if no separator comes before the end of the record and this end has
a 32-bit offset. Ingestion then goes on with the records that follow. -/
theorem offset_exact_iff (b : Input F) (p : Psfs F) (s : Session) (serialNum o i : ℕ) (ho : o < 2 ^ 32)
    (hle : o ≤ b.length) (hr : (b.ingested o)[i]? = some r) :
    (b.Between o i (s.insertAll serialNum ((b.batchInsert p o).take (i + 1))).offset ∧
      b.ingested (s.insertAll serialNum ((b.batchInsert p o).take (i + 1))).offset =
        (b.ingested o).drop (i + 1)) ↔
      Contiguous (b.data + o) ((b.ingested o).take (i + 1)) ∧
        r.text.data + r.text.length - b.data < 2 ^ 32 := by
  have hne : b.length ≠ o := by
    intro heq
    rw [Input.ingested,if_pos heq] at hr
    simp at hr
  have hing : b.ingested o=b.deliver o := if_neg hne
  have hinc := b.increasing o hle
  -- The session has the offset of record `i`, a sum of lengths.
  obtain ⟨ctx,hctx⟩ : ∃ ctx, (b.batchInsert p o)[i]?=some ctx := by
    refine ⟨_,getElem?_eq_getElem ?_⟩
    rw [Input.batchInsert,insertContexts_length]
    exact (List.getElem?_eq_some_iff.mp hr).1
  rw [insertAll_take s serialNum hctx]
  have hoff := insertContexts_offset ho hctx
  rw [hing] at hr hoff ⊢
  obtain ⟨hstart,hpos,hstop,hnext⟩ := hinc.getElem hr
  obtain ⟨hbytes,hcont⟩ := add_textBytes_le (hinc.take (i+1))
  rw [lastEnd_take hr] at hbytes hcont
  constructor
  · rintro ⟨hbetween,-⟩
    have hbehind := hbetween.behind r hr
    dsimp only at hbehind
    exact ⟨hcont.mp (by omega),by omega⟩
  · rintro ⟨hc,hlt⟩
    have hend := hcont.mpr hc
    have hexact : r.text.data+r.text.length=b.data+ctx.offset := by omega
    have hbetween : b.Between o i ctx.offset := by
      refine ⟨by omega,fun r' hr' => ?_,fun r' hr' => hexact ▸ hnext r' hr'⟩
      rw [hr] at hr'
      cases hr'
      exact hexact.le
    exact ⟨hbetween,ingested_of_between b hle hbetween hr hexact⟩

section Records

variable {a a' stop : ℕ}

/-- From a place at or before the first record on, all records follow. -/
theorem filter_of_le (h : Increasing a stop rs) (hle : a'≤a) : rs.filter (fun r => decide (a'≤r.text.data))=rs := by
  induction rs generalizing a with
  | nil => rfl
  | cons r rs ih =>
    have hr := h.1
    rw [filter_cons_of_pos (by simpa using hle.trans hr),ih h.2.2 (by omega)]

theorem Increasing.filter (h : Increasing a stop rs) (hle : a' ≤ stop) :
    Increasing a' stop (rs.filter fun r => decide (a'≤r.text.data)) := by
  induction rs generalizing a with
  | nil => exact hle
  | cons r rs ih =>
    by_cases hr : a'≤r.text.data
    · rw [filter_cons_of_pos (by simpa using hr),filter_of_le h.2.2 (by omega)]
      exact ⟨hr,h.2.1,h.2.2⟩
    · rw [filter_cons_of_neg (by simpa using hr)]
      exact ih h.2.2

/-- From a place between two records on, the records behind it follow. -/
theorem filter_eq_drop {k : ℕ} (h : Increasing a stop rs) (hend : lastEnd a (rs.take k)≤a')
    (hnext : ∀ r, rs[k]?=some r → a'≤r.text.data) : rs.filter (fun r => decide (a'≤r.text.data))=rs.drop k := by
  induction rs generalizing a k with
  | nil => rw [drop_nil,filter_nil]
  | cons r rs ih =>
    cases k with
    | zero =>
      have hr := hnext r rfl
      rw [filter_cons_of_pos (by simpa using hr),filter_of_le h.2.2 (by omega),drop_zero]
    | succ k =>
      have hend' : lastEnd (r.text.data+r.text.length) (rs.take k)≤a' := hend
      have hle := (add_textBytes_le (h.2.2.take k)).1
      have hpos := h.2.1
      rw [filter_cons_of_neg (by simp only [decide_eq_true_eq]; omega),drop_succ_cons]
      exact ih h.2.2 hend' hnext

end Records

/-- A parser that finds the given records, from any offset on. -/
def Input.ofRecords (data length : ℕ) (rs : List (ParsedRecord F)) (h : Increasing data (data + length) rs) :
    Input F where
  data
  length
  deliver o := rs.filter fun r => decide (data + o ≤ r.text.data)
  increasing _ ho := h.filter (Nat.add_le_add_left ho data)
  resumes o k o' ho _ hend hnext := by
    have hinc := h.filter (Nat.add_le_add_left ho data)
    have hle := (add_textBytes_le (hinc.take k)).1
    rw [← filter_eq_drop hinc hend hnext, List.filter_filter]
    refine List.filter_congr fun r _ => ?_
    rw [Bool.eq_iff_iff, Bool.and_eq_true, decide_eq_true_iff, decide_eq_true_iff]
    omega

/-- A record of the buffer, without fields. -/
def plain (data length : ℕ) : ParsedRecord Unit := ⟨⟨data, length⟩, [], fun _ => 0⟩

/-- No PSFs. -/
def noPsfs : Psfs Unit := ⟨[], [], [], fun _ => ⟨[], fun _ => ⟨true, false, 0, 0⟩⟩, fun _ => ⟨[], fun _ => none⟩⟩

/-- Two records of two bytes, one right behind the other. -/
def adjacent : Input Unit := .ofRecords 100 4 [plain 100 2, plain 102 2] (by simp [Increasing, plain])

/-- Two records of two bytes, each followed by a newline. -/
def lines : Input Unit := .ofRecords 100 6 [plain 100 2, plain 103 2] (by simp [Increasing, plain])

theorem offset_exact_adjacent : adjacent.Between 0 0 2 ∧ adjacent.ingested 2 = [plain 102 2] :=
  (offset_exact_iff adjacent noPsfs ⟨0,0⟩ 7 0 0 (by norm_num) (by decide) (r := plain 100 2) rfl).mpr
    ⟨⟨rfl,trivial⟩,by decide⟩

/-- After both lines the offset of the session is 4, in the middle of the second record. -/
theorem offset_inside_record : (Session.insertAll ⟨0, 0⟩ 7 (lines.batchInsert noPsfs 0)).offset = 4 ∧
    (lines.ingested 0)[1]? = some (plain 103 2) ∧ ¬lines.Between 0 1 4 := by
  refine ⟨by decide,rfl,fun h => ?_⟩
  exact absurd (h.behind (plain 103 2) rfl) (by decide)

end

end FishStore.BatchInsert
