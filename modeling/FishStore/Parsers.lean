import FishStore.Layout

/-!
# Parser states and the key pointers of a record

A parser state holds the property subset functions (PSFs) that are registered and
the list of fields that their arguments need. A session's parser is built from the
names of such a list, and refers to a field by its position; the position is looked
up in the list of field ids of the parser state. So the key pointers of a record are
those of the registered functions exactly if both lists come from the same state.
-/

namespace FishStore.Parsers

open Layout List

/-- `ParserActionType`. -/
inductive ParserActionType
  | registerInlinePsf
  | registerGeneralPsf
  | deregisterInlinePsf
  | deregisterGeneralPsf
  deriving DecidableEq

/-- `ParserAction`. -/
structure ParserAction where
  /-- `type`. -/
  type : ParserActionType
  /-- `id`. -/
  id : ℕ
  deriving DecidableEq

/-- A PSF, by the map that it is in and its id there. -/
inductive PsfId
  | inlinePsf (id : ℕ)
  | generalPsf (id : ℕ)
  deriving DecidableEq

/-- The id as a key pointer stores it: `inline_psf_id` has 32 bits, and
`general_psf_id` of `KPTUtil` has 14. -/
def PsfId.stored : PsfId → PsfId
  | .inlinePsf id => .inlinePsf (id % 2 ^ 32)
  | .generalPsf id => .generalPsf (id % 2 ^ 14)

/-- The PSF that an action is about. -/
def ParserAction.psf (a : ParserAction) : PsfId :=
  match a.type with
  | .registerInlinePsf => .inlinePsf a.id
  | .registerGeneralPsf => .generalPsf a.id
  | .deregisterInlinePsf => .inlinePsf a.id
  | .deregisterGeneralPsf => .generalPsf a.id

/-- The action registers its PSF. -/
def ParserAction.registers (a : ParserAction) : Bool :=
  match a.type with
  | .registerInlinePsf => true
  | .registerGeneralPsf => true
  | .deregisterInlinePsf => false
  | .deregisterGeneralPsf => false

/-- The registered PSFs of a parser state. -/
structure PtrSets where
  /-- `ptr_general_psf`. -/
  ptrGeneralPsf : List ℕ
  /-- `ptr_inline_psf`. -/
  ptrInlinePsf : List ℕ
  deriving DecidableEq

/-- No PSF is registered. -/
def PtrSets.empty : PtrSets := ⟨[], []⟩

/-- The PSF is registered. -/
def PtrSets.Has (p : PtrSets) : PsfId → Prop
  | .inlinePsf id => id ∈ p.ptrInlinePsf
  | .generalPsf id => id ∈ p.ptrGeneralPsf

instance (p : PtrSets) (x : PsfId) : Decidable (p.Has x) := by
  cases x <;> exact inferInstanceAs (Decidable (_ ∈ _))

/-- One turn of the first loop of `ParserStateApplyActions`. -/
def PtrSets.apply (p : PtrSets) (a : ParserAction) : PtrSets :=
  match a.type with
  | .registerInlinePsf => { p with ptrInlinePsf := p.ptrInlinePsf.insert a.id }
  | .registerGeneralPsf => { p with ptrGeneralPsf := p.ptrGeneralPsf.insert a.id }
  | .deregisterInlinePsf => { p with ptrInlinePsf := p.ptrInlinePsf.filter (· ≠ a.id) }
  | .deregisterGeneralPsf => { p with ptrGeneralPsf := p.ptrGeneralPsf.filter (· ≠ a.id) }

/-- The first loop of `ParserStateApplyActions`. -/
def PtrSets.applyAll (p : PtrSets) (actions : List ParserAction) : PtrSets :=
  actions.foldl PtrSets.apply p

/-- The last of the actions that is about the PSF. -/
def lastAction (actions : List ParserAction) (x : PsfId) : Option ParserAction :=
  (actions.filter (·.psf = x)).getLast?

/-- `InlinePSF` and `GeneralPSF`. -/
structure Psf where
  /-- `fields`, the ids of its arguments. -/
  fields : List ℕ
  /-- `eval_`: none where the result is null, otherwise the number of bytes of the
  result that do not lie in the record's payload. -/
  eval : List String → Option ℕ

/-- The names and functions that the store knows. -/
structure Registry where
  /-- `field_names`. -/
  fieldNames : ℕ → String
  /-- `inline_psf_map`. -/
  inlinePsfMap : ℕ → Psf
  /-- `general_psf_map`. -/
  generalPsfMap : ℕ → Psf

/-- The function of an id. -/
def Registry.psf (reg : Registry) : PsfId → Psf
  | .inlinePsf id => reg.inlinePsfMap id
  | .generalPsf id => reg.generalPsfMap id

/-- The fields that the registered functions need. -/
def Registry.fieldIds (reg : Registry) (p : PtrSets) : List ℕ :=
  p.ptrInlinePsf.flatMap (fun id => (reg.inlinePsfMap id).fields) ++
    p.ptrGeneralPsf.flatMap (fun id => (reg.generalPsfMap id).fields)

/-- `ParserState`: the registered PSFs with the fields that they need, in the order of
the hash set that `ParserStateApplyActions` collects them in. -/
structure ParserState (reg : Registry) extends PtrSets where
  /-- `main_parser_fields`. -/
  mainParserFields : List String
  /-- `main_parser_field_ids`. -/
  mainParserFieldIds : List ℕ
  /-- Both lists are filled together. -/
  fields_eq : mainParserFields = mainParserFieldIds.map reg.fieldNames
  /-- The ids come out of a set. -/
  nodup : mainParserFieldIds.Nodup
  /-- They are the fields that the functions need. -/
  mem_ids : ∀ f, f ∈ mainParserFieldIds ↔ f ∈ reg.fieldIds toPtrSets

section

variable {reg : Registry} {p : PtrSets} {x : PsfId} {a : ParserAction} {actions : List ParserAction}

/-- `ParserStateApplyActions`. The order of the hash set `field_ids` is `order`. -/
def parserStateApplyActions (state : ParserState reg) (actions : List ParserAction)
    (order : List ℕ) : Option (ParserState reg) :=
  if h : order.Nodup ∧ (∀ f ∈ order, f ∈ reg.fieldIds (state.applyAll actions)) ∧
      ∀ f ∈ reg.fieldIds (state.applyAll actions), f ∈ order then
    some ⟨state.applyAll actions, order.map reg.fieldNames, order, rfl, h.1,
      fun f => ⟨h.2.1 f, h.2.2 f⟩⟩
  else none

/-- Both parser states go through the same actions. -/
theorem parserStateApplyActions_sets {state state' : ParserState reg} {order : List ℕ}
    (h : parserStateApplyActions state actions order=some state') : state'.toPtrSets=state.applyAll actions := by
  unfold parserStateApplyActions at h
  split_ifs at h
  cases h
  rfl

theorem applyAll_append (p : PtrSets) (xs ys : List ParserAction) :
    p.applyAll (xs ++ ys)=(p.applyAll xs).applyAll ys := foldl_append

/-- An action decides about its own PSF. -/
theorem has_apply_self (p : PtrSets) (a : ParserAction) :
    (p.apply a).Has a.psf ↔ a.registers=true := by
  obtain ⟨type,id⟩ := a
  cases type <;> simp [PtrSets.apply,PtrSets.Has,ParserAction.psf,ParserAction.registers]

/-- An action leaves the other PSFs alone. -/
theorem has_apply_of_ne (hx : a.psf ≠ x) : (p.apply a).Has x ↔ p.Has x := by
  obtain ⟨type,id⟩ := a
  cases type <;> cases x <;> simp [ParserAction.psf] at hx <;>
    simp [PtrSets.apply,PtrSets.Has] <;> omega

theorem lastAction_append (xs : List ParserAction) (a : ParserAction) (x : PsfId) :
    lastAction (xs ++ [a]) x=if a.psf=x then some a else lastAction xs x := by
  by_cases hx : a.psf=x <;> simp [lastAction,hx]

/-- The last action about a PSF decides whether it is registered. -/
theorem has_applyAll (p : PtrSets) (actions : List ParserAction) (h : lastAction actions x=some a) :
    (p.applyAll actions).Has x ↔ a.registers=true := by
  induction actions using reverseRecOn with
  | nil => cases h
  | append_singleton xs b ih =>
    rw [applyAll_append]
    change ((p.applyAll xs).apply b).Has x ↔ _
    rw [lastAction_append] at h
    split_ifs at h with hb
    · cases h
      rw [←hb]
      exact has_apply_self _ _
    · rw [has_apply_of_ne hb]
      exact ih h

end

/-- A record of a batch, as the parser sees it. -/
structure Record where
  /-- The length of the payload. -/
  payloadSize : ℕ
  /-- The value of a field of that name, if the record has it. -/
  fields : String → Option String

/-- `field_map` after the fields that a parser found were put in: the parser's list of
names gives the positions, the parser state's list of ids names them. -/
def fieldMap (parser : List String) (ids : List ℕ) (r : Record) (f : ℕ) : Option String :=
  (parser.zip ids).findSome? fun x => if x.2 = f then r.fields x.1 else none

/-- A PSF is evaluated if all of its fields are found. -/
def Psf.evalOn (psf : Psf) (map : ℕ → Option String) : Option ℕ := (psf.fields.mapM map).bind psf.eval

/-- The PSF is not null on the record. -/
def NonNull (reg : Registry) (x : PsfId) (r : Record) : Prop :=
  ((reg.psf x).evalOn fun f => r.fields (reg.fieldNames f)).isSome = true

instance (reg : Registry) (x : PsfId) (r : Record) : Decidable (NonNull reg x r) :=
  inferInstanceAs (Decidable (_ = true))

/-- `RecordInsertContext`: what `BatchInsert` prepares for a record. -/
structure InsertContext where
  /-- The record. -/
  record : Record
  /-- The PSFs of `kpts()`. -/
  kpts : List PsfId
  /-- `optional_size()`. -/
  optionalSize : ℕ
  /-- `Reserve` asserts that a record is not larger than this. -/
  size_le : padAlignment (sizeofRecordInfo + sizeofKeyPointer * kpts.length + record.payloadSize +
    optionalSize) sizeofRecordInfo ≤ kMaxOffset

/-- The size that `InternalInsert` allocates. -/
def InsertContext.size (c : InsertContext) : ℕ :=
  recordSize c.kpts.length c.record.payloadSize c.optionalSize

/-- The key pointers that `BatchInsert` prepares for a record: those of the general PSFs
first, for each function whose fields are found and which is not null. -/
def prepareKpts {reg : Registry} (parser : List String) (state : ParserState reg) (r : Record) :
    List PsfId :=
  let map := fieldMap parser state.mainParserFieldIds r
  (state.ptrGeneralPsf.filter fun id => ((reg.generalPsfMap id).evalOn map).isSome).map
      (fun id => (PsfId.generalPsf id).stored) ++
    (state.ptrInlinePsf.filter fun id => ((reg.inlinePsfMap id).evalOn map).isSome).map
      (fun id => (PsfId.inlinePsf id).stored)

/-- The bytes of the general PSFs' values that are stored beside the payload. -/
def prepareOptions {reg : Registry} (parser : List String) (state : ParserState reg) (r : Record) : ℕ :=
  (state.ptrGeneralPsf.map fun id =>
    ((reg.generalPsfMap id).evalOn (fieldMap parser state.mainParserFieldIds r)).getD 0).sum

/-- One turn of the loop of `BatchInsert` that prepares the insert contexts. -/
def prepare {reg : Registry} (parser : List String) (state : ParserState reg) (r : Record) :
    Option InsertContext :=
  let kpts := prepareKpts parser state r
  let options := prepareOptions parser state r
  if h : padAlignment (sizeofRecordInfo + sizeofKeyPointer * kpts.length + r.payloadSize + options)
      sizeofRecordInfo ≤ kMaxOffset then some ⟨r, kpts, options, h⟩
  else none

section

variable {reg : Registry} {r : Record} {x : PsfId}

theorem findSome_names {ι ν β : Type} [DecidableEq ι] (names : ι → ν) (fields : ν → Option β) (ids : List ι)
    {f : ι} (hf : f ∈ ids) :
    ((ids.map names).zip ids).findSome? (fun x => if x.2=f then fields x.1 else none)=fields (names f) := by
  induction ids with
  | nil => cases hf
  | cons id ids ih =>
    rw [map_cons,zip_cons_cons,findSome?_cons]
    by_cases hid : id=f
    · subst hid
      simp only [if_pos]
      cases hval : fields (names id) with
      | some v => rfl
      | none =>
        by_cases hmem : id ∈ ids
        · rw [ih hmem,hval]
        · -- No other position has this id.
          refine findSome?_eq_none_iff.mpr ?_
          intro y hy
          have hy2 := (of_mem_zip (a := y.1) (b := y.2) hy).2
          rw [if_neg]
          rintro heq
          rw [heq] at hy2
          exact hmem hy2
    · simp only [if_neg hid]
      exact ih ((mem_cons.mp hf).resolve_left fun heq => hid heq.symm)

/-- A parser that was built from the state's own list finds the fields by their names. -/
theorem fieldMap_own (state : ParserState reg) (r : Record) {f : ℕ} (hf : f ∈ state.mainParserFieldIds) :
    fieldMap state.mainParserFields state.mainParserFieldIds r f=r.fields (reg.fieldNames f) := by
  rw [state.fields_eq]
  exact findSome_names reg.fieldNames r.fields _ hf

/-- The value of a PSF depends on its fields only. -/
theorem evalOn_congr (psf : Psf) {map map' : ℕ → Option String} (h : ∀ f ∈ psf.fields, map f=map' f) :
    psf.evalOn map=psf.evalOn map' := by
  have hargs : ∀ fields : List ℕ, (∀ f ∈ fields, map f=map' f) → fields.mapM map=fields.mapM map' := by
    intro fields
    induction fields with
    | nil => exact fun _ => rfl
    | cons f fields ih =>
      intro hall
      rw [mapM_cons,mapM_cons,hall f mem_cons_self, ih fun g hg => hall g (mem_cons_of_mem f hg)]
  unfold Psf.evalOn
  rw [hargs _ h]

/-- The fields of a registered PSF are in the list. -/
theorem mem_ids_of_has (state : ParserState reg) (hx : state.Has x) {f : ℕ}
    (hf : f ∈ (reg.psf x).fields) : f ∈ state.mainParserFieldIds := by
  refine (state.mem_ids f).mpr ?_
  cases x with
  | inlinePsf id => exact mem_append_left _ (mem_flatMap.mpr ⟨id,hx,hf⟩)
  | generalPsf id => exact mem_append_right _ (mem_flatMap.mpr ⟨id,hx,hf⟩)

/-- With the parser of the state, a record gets a key pointer for each registered PSF
that is not null on it. -/
theorem prepareKpts_complete (state : ParserState reg) (hx : state.Has x) (hr : NonNull reg x r) :
    x.stored ∈ prepareKpts state.mainParserFields state r := by
  have heval : ((reg.psf x).evalOn (fieldMap state.mainParserFields state.mainParserFieldIds r)).isSome=true := by
    rw [evalOn_congr _ fun f hf => fieldMap_own state r (mem_ids_of_has state hx hf)]
    exact hr
  unfold prepareKpts
  cases x with
  | inlinePsf id => exact mem_append_right _ (mem_map.mpr ⟨id,mem_filter.mpr ⟨hx,heval⟩,rfl⟩)
  | generalPsf id => exact mem_append_left _ (mem_map.mpr ⟨id,mem_filter.mpr ⟨hx,heval⟩,rfl⟩)

theorem prepare_spec {parser : List String} {state : ParserState reg} {c : InsertContext}
    (h : prepare parser state r=some c) : c.record=r ∧ c.kpts=prepareKpts parser state r := by
  unfold prepare at h
  dsimp only at h
  split_ifs at h
  cases h
  exact ⟨rfl,rfl⟩

/-- A record takes at least the space of its header. -/
theorem InsertContext.le_size (c : InsertContext) : sizeofRecordInfo≤c.size := by
  have hle := c.size_le
  have hpad := le_padAlignment (sizeofRecordInfo+sizeofKeyPointer*c.kpts.length+c.record.payloadSize+c.optionalSize)
  have hlt : kMaxOffset<2^32 := by decide
  unfold InsertContext.size recordSize
  rw [Nat.mod_eq_of_lt (hle.trans_lt hlt)]
  omega

theorem InsertContext.size_le_max (c : InsertContext) : c.size≤kMaxOffset := (Nat.mod_le _ _).trans c.size_le

end

end FishStore.Parsers
