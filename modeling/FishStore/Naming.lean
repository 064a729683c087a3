import FishStore.Runs
import FishStore.Parsers
import FishStore.TextStream

/-!
# The naming file of a checkpoint

Field names, libraries, property subset functions (PSFs) and their registration are kept
in tables that a checkpoint of the log prints to a file, item by item, and that `Recover`
reads back word by word. The function of a PSF is not printed: it is found again from
the library or from the generated code, by its name.
-/

namespace FishStore.Naming

open Runs TextStream Option Parsers

/-- `ezpsf::DataType`. -/
inductive DataType
  | strT
  | int8T
  | int32T
  | int64T
  | uint32T
  | uint64T
  | floatT
  | doubleT
  | boolT
  | errorT
  deriving DecidableEq

/-- `ezpsf::canInline`: the flag `INLINE_ABLE` of the type. -/
def DataType.canInline : DataType → Bool
  | .strT => false
  | .int64T => false
  | .uint64T => false
  | .doubleT => false
  | _ => true

/-- `LIB_PROJECTION`. -/
def libProjection : ℤ := -1

/-- `LIB_EZ_PSF`. -/
def libEzPsf : ℤ := -2

/-- `ezpsf::PsfInfo`. -/
structure PsfInfo (F : Type) where
  /-- The compiled function. -/
  psf : F
  name : Text
  /-- Its return type. -/
  type : DataType
  fields : List Text
  /-- The generated code as text. -/
  ir : Text

/-- The system that the store runs on, with function pointers in `F`. -/
structure Platform (F : Type) where
  /-- The current directory. -/
  cwd : Text
  /-- The library at the path can be loaded. -/
  dlopen : Text → Bool
  /-- The function of that name in the library at the path. -/
  dlsym : Text → Text → Option F
  /-- `ezpsf::getPsf`. -/
  getPsf : Text → Option (PsfInfo F)
  /-- `ezpsf::recoverPsf`, of a name and the text of the code. -/
  recoverPsf : Text → Text → Option F
  /-- `projection<A>`. -/
  projection : F
  /-- The current directory is absolute. -/
  cwd_root : cwd.head? = some '/'
  /-- The text of generated code compiles to the function that it was generated for. -/
  recover_getPsf : ∀ str info, getPsf str = some info → recoverPsf info.name info.ir = some info.psf

/-- `filesystem::absolute`. -/
def Platform.absolute {F : Type} (p : Platform F) (path : Text) : Text :=
  if path.head? = some '/' then path else p.cwd ++ '/' :: path

/-- `InlinePSF`, and the fields that `GeneralPSF` shares with it. -/
structure Psf (F : Type) where
  fields : List UInt16
  libId : ℤ
  funcName : Text
  /-- `eval_` or `ez_eval`. -/
  eval : F
  deriving DecidableEq

/-- `GeneralPSF`. -/
structure GeneralPsf (F : Type) extends Psf F where
  retType : DataType
  deriving DecidableEq

/-- `ParserState`, with the registered PSFs by their ids. -/
structure ParserState where
  /-- `ptr_general_psf` and `ptr_inline_psf`. -/
  sets : PtrSets
  mainParserFields : List Text
  mainParserFieldIds : List UInt16
  deriving DecidableEq

/-- The tables of names and functions. Hash maps and sets are lists without a repeated
key, in the order in which they are iterated. -/
structure Names (F : Type) where
  /-- `field_names`. -/
  fieldNames : List Text
  /-- `field_lookup_map`. -/
  fieldLookup : List (Text × UInt16)
  /-- The paths of `libs`. -/
  libs : List Text
  /-- `psf_irs`. -/
  psfIrs : List (Text × Text)
  /-- `general_psf_map`. -/
  generalPsfs : List (GeneralPsf F)
  /-- `inline_psf_map`. -/
  inlinePsfs : List (Psf F)
  /-- `parser_states`. -/
  parserStates : Bool → ParserState
  /-- `system_parser_no_`. -/
  systemParserNo : Bool

/-- The tables of a new store. -/
def Names.fresh (F : Type) : Names F :=
  ⟨[], [], [], [], [], [], fun _ => ⟨.empty, [], []⟩, false⟩

/-- Insertion into a map, which keeps the value that a key has. -/
def emplace {κ ν : Type} [BEq κ] (m : List (κ × ν)) (x : κ × ν) : List (κ × ν) :=
  if (m.lookup x.1).isSome then m else m ++ [x]

section

variable {F : Type}

/-- `AcquireFieldID`: the id of a field, a new one if the name is new. -/
def Names.acquireFieldId (m : Names F) (field : Text) : UInt16 × Names F :=
  match m.fieldLookup.lookup field with
  | some id => (id, m)
  | none =>
    let id := UInt16.ofNat m.fieldNames.length
    (id, { m with fieldNames := m.fieldNames ++ [field], fieldLookup := m.fieldLookup ++ [(field, id)] })

/-- The loop over the field names of a new PSF. -/
def Names.acquireAll (m : Names F) : List Text → List UInt16 × Names F
  | [] => ([], m)
  | field :: fields =>
    let r := m.acquireFieldId field
    let rest := r.2.acquireAll fields
    (r.1 :: rest.1, rest.2)

/-- A general PSF gets the next id, of 14 bits. -/
def Names.pushGeneral (m : Names F) (psf : GeneralPsf F) : Names F :=
  if m.generalPsfs.length > 2 ^ 14 - 1 then m else { m with generalPsfs := m.generalPsfs ++ [psf] }

/-- An inline PSF gets the next id, of 32 bits. -/
def Names.pushInline (m : Names F) (psf : Psf F) : Names F :=
  if m.inlinePsfs.length > 2 ^ 32 - 1 then m else { m with inlinePsfs := m.inlinePsfs ++ [psf] }

/-- `LoadPSFLibrary`. -/
def Names.loadPsfLibrary (p : Platform F) (m : Names F) (path : Text) : Names F :=
  if p.dlopen (p.absolute path) then { m with libs := m.libs ++ [p.absolute path] } else m

/-- `MakeProjection`. -/
def Names.makeProjection (p : Platform F) (m : Names F) (field : Text) : Names F :=
  let r := m.acquireFieldId field
  r.2.pushGeneral ⟨⟨[r.1], libProjection, ['p', 'r', 'o', 'j'], p.projection⟩, .errorT⟩

/-- The function of a library that `MakeGeneralPSF` and `MakeInlinePSF` look up. -/
def Names.libFunction (p : Platform F) (m : Names F) (libId : ℕ) (funcName : Text) : Option F :=
  m.libs[libId]?.bind fun path => p.dlsym path funcName

/-- `MakeGeneralPSF`. -/
def Names.makeGeneralPsf (p : Platform F) (m : Names F) (fields : List Text) (libId : ℕ)
    (funcName : Text) : Names F :=
  match m.libFunction p libId funcName with
  | none => m
  | some f =>
    let r := m.acquireAll fields
    r.2.pushGeneral ⟨⟨r.1, libId, funcName, f⟩, .errorT⟩

/-- `MakeInlinePSF`. -/
def Names.makeInlinePsf (p : Platform F) (m : Names F) (fields : List Text) (libId : ℕ)
    (funcName : Text) : Names F :=
  match m.libFunction p libId funcName with
  | none => m
  | some f =>
    let r := m.acquireAll fields
    r.2.pushInline ⟨r.1, libId, funcName, f⟩

/-- `MakeEzPsf`. The compiler refuses a second function of the same name. -/
def Names.makeEzPsf (p : Platform F) (m : Names F) (str : Text) : Names F :=
  match p.getPsf str with
  | none => m
  | some info =>
    if (m.psfIrs.lookup info.name).isSome then m
    else
      let r := { m with psfIrs := m.psfIrs ++ [(info.name, info.ir)] }.acquireAll info.fields
      if info.type.canInline then r.2.pushInline ⟨r.1, libEzPsf, info.name, info.psf⟩
      else r.2.pushGeneral ⟨⟨r.1, libEzPsf, info.name, info.psf⟩, info.type⟩

/-- The parser state of registered PSFs, as `ParserStateApplyActions` and `Recover`
construct it. There is none where an index goes beyond its table. -/
def Names.parserState (m : Names F) (sets : PtrSets) : Option ParserState := do
  let general ← sets.ptrGeneralPsf.mapM fun id => m.generalPsfs[id]?.map fun psf => psf.fields
  let inl ← sets.ptrInlinePsf.mapM fun id => m.inlinePsfs[id]?.map fun psf => psf.fields
  let ids := (general.flatten ++ inl.flatten).dedup
  let fields ← ids.mapM fun id => m.fieldNames[id.toNat]?
  some ⟨sets, fields, ids⟩

/-- `ParserStateApplyActions` on one of the parser states. -/
def Names.applyActions (m : Names F) (b : Bool) (actions : List ParserAction) : Option (Names F) :=
  (m.parserState ((m.parserStates b).sets.applyAll actions)).map fun st =>
    { m with parserStates := Function.update m.parserStates b st }

/-- `ApplyParserShift` to the end of the action, which applies the actions to the other
parser state too. -/
def Names.applyParserShift (m : Names F) (actions : List ParserAction) : Option (Names F) := do
  let m₁ ← m.applyActions (!m.systemParserNo) actions
  let m₂ := { m₁ with systemParserNo := !m.systemParserNo }
  m₂.applyActions (!m₂.systemParserNo) actions

/-- The calls that change the tables. -/
inductive Call
  | loadPsfLibrary (path : Text)
  | makeProjection (field : Text)
  | makeGeneralPsf (fields : List Text) (libId : ℕ) (funcName : Text)
  | makeInlinePsf (fields : List Text) (libId : ℕ) (funcName : Text)
  | makeEzPsf (str : Text)
  | applyParserShift (actions : List ParserAction)
  deriving DecidableEq

/-- The tables after a call. -/
def step (p : Platform F) (m : Names F) : Call → Option (Names F)
  | .loadPsfLibrary path => some (m.loadPsfLibrary p path)
  | .makeProjection field => some (m.makeProjection p field)
  | .makeGeneralPsf fields libId funcName => some (m.makeGeneralPsf p fields libId funcName)
  | .makeInlinePsf fields libId funcName => some (m.makeInlinePsf p fields libId funcName)
  | .makeEzPsf str => some (m.makeEzPsf p str)
  | .applyParserShift actions => m.applyParserShift actions

/-- The calls on a new store. -/
def machine (p : Platform F) : Machine (Names F) Call := ⟨fun m => m = .fresh F, step p⟩

/-- What is printed of a PSF. -/
structure PsfLine where
  fields : List UInt16
  libId : ℤ
  funcName : Text
  deriving DecidableEq

/-- What is printed to the naming file. -/
structure NamingFile where
  fields : List Text
  libs : List Text
  irs : List (Text × Text)
  generalPsfs : List PsfLine
  inlinePsfs : List PsfLine
  ptrGeneralPsf : List ℕ
  ptrInlinePsf : List ℕ
  deriving DecidableEq

/-- `c_str()`, as it is printed: up to the first null character. -/
def cStr (s : Text) : Text := s.takeWhile fun c => c ≠ Char.ofNat 0

/-- Prints `%s` and a new line. -/
def line (s : Text) : Text := cStr s ++ ['\n']

/-- Prints `%u` and a new line. -/
def idLine (n : ℕ) : Text := natText n ++ ['\n']

/-- Prints `%s %s` and a new line. -/
def irLine (x : Text × Text) : Text := cStr x.1 ++ ' ' :: line x.2

/-- Prints the number of fields, the fields, the library and the function's name. -/
def psfLine (l : PsfLine) : Text :=
  natText l.fields.length ++ l.fields.flatMap (fun f => ' ' :: natText f.toNat) ++
    ' ' :: (intText l.libId ++ ' ' :: line l.funcName)

/-- Prints the size of a table and its lines. -/
def table {α : Type} (print : α → Text) (l : List α) : Text := idLine l.length ++ l.flatMap print

/-- The text of the naming file. -/
def NamingFile.text (f : NamingFile) : Text :=
  table line f.fields ++ (table line f.libs ++ (table irLine f.irs ++ (table psfLine f.generalPsfs ++
    (table psfLine f.inlinePsfs ++ (table idLine f.ptrGeneralPsf ++ table idLine f.ptrInlinePsf)))))

/-- Reads a size and as many items. -/
def readTable {α : Type} (r : Reader α) : Reader (List α) := do
  let n ← unsigned 64
  times r n

/-- Reads the name and the text of generated code. -/
def readIr : Reader (Text × Text) := do
  let name ← word
  let ir ← word
  pure (name, ir)

/-- Reads a PSF. -/
def readPsf : Reader PsfLine := do
  let n ← unsigned 64
  let fields ← times (UInt16.ofNat <$> unsigned 16) n
  let libId ← signed 64
  let funcName ← word
  pure ⟨fields, libId, funcName⟩

/-- Reads the naming file. -/
def readNaming : Reader NamingFile := do
  let fields ← readTable word
  let libs ← readTable word
  let irs ← readTable readIr
  let generalPsfs ← readTable readPsf
  let inlinePsfs ← readTable readPsf
  let ptrGeneralPsf ← readTable (unsigned 16)
  let ptrInlinePsf ← readTable (unsigned 32)
  pure ⟨fields, libs, irs, generalPsfs, inlinePsfs, ptrGeneralPsf, ptrInlinePsf⟩

def Psf.line (psf : Psf F) : PsfLine := ⟨psf.fields, psf.libId, psf.funcName⟩

/-- What a checkpoint prints of the tables. -/
def Names.save (m : Names F) : NamingFile where
  fields := m.fieldNames
  libs := m.libs
  irs := m.psfIrs
  generalPsfs := m.generalPsfs.map fun psf => psf.toPsf.line
  inlinePsfs := m.inlinePsfs.map Psf.line
  ptrGeneralPsf := (m.parserStates m.systemParserNo).sets.ptrGeneralPsf
  ptrInlinePsf := (m.parserStates m.systemParserNo).sets.ptrInlinePsf

/-- The function of a PSF that `Recover` has read. -/
def Platform.recoverEval (p : Platform F) (libs : List Text) (restored : List (Text × F)) (l : PsfLine) :
    Option F :=
  if l.libId = libEzPsf then restored.lookup l.funcName
  else if l.libId < 0 then none
  else libs[l.libId.toNat]?.bind fun path => p.dlsym path l.funcName

/-- A general PSF that `Recover` has read. Its return type is the default one. -/
def Platform.recoverGeneral (p : Platform F) (libs : List Text) (restored : List (Text × F))
    (l : PsfLine) : Option (GeneralPsf F) :=
  (if l.libId = libProjection then some p.projection else p.recoverEval libs restored l).map fun f =>
    ⟨⟨l.fields, l.libId, l.funcName, f⟩, .errorT⟩

/-- An inline PSF that `Recover` has read. -/
def Platform.recoverInline (p : Platform F) (libs : List Text) (restored : List (Text × F))
    (l : PsfLine) : Option (Psf F) :=
  (p.recoverEval libs restored l).map fun f => ⟨l.fields, l.libId, l.funcName, f⟩

/-- What `Recover` does with the content of the naming file. There is no result where a
library or a function is not found or an index goes beyond its table. -/
def Names.load (p : Platform F) (m : Names F) (f : NamingFile) : Option (Names F) := do
  let paths := f.libs.map p.absolute
  guard (paths.all p.dlopen)
  let restored ← f.irs.mapM fun x => (p.recoverPsf x.1 x.2).map fun g => (x.1, g)
  let generalPsfs ← f.generalPsfs.mapM (p.recoverGeneral (m.libs ++ paths) (restored.foldl emplace []))
  let inlinePsfs ← f.inlinePsfs.mapM (p.recoverInline (m.libs ++ paths) (restored.foldl emplace []))
  let m₁ : Names F :=
    { m with
      fieldNames := m.fieldNames ++ f.fields
      fieldLookup := (f.fields.zipIdx.map fun x => (x.1, UInt16.ofNat x.2)).foldl emplace m.fieldLookup
      libs := m.libs ++ paths
      psfIrs := f.irs.foldl emplace m.psfIrs
      generalPsfs := m.generalPsfs ++ generalPsfs
      inlinePsfs := m.inlinePsfs ++ inlinePsfs }
  let st ← m₁.parserState ⟨f.ptrGeneralPsf.foldr List.insert [], f.ptrInlinePsf.foldr List.insert []⟩
  some { m₁ with parserStates := fun _ => st, systemParserNo := false }

/-- The two ways to checkpoint the log. -/
inductive LogCheckpoint
  /-- `Checkpoint`. -/
  | full
  /-- `CheckpointHybridLog`. -/
  | hybridLog
  deriving DecidableEq

/-- The naming file of the checkpoint's token. `Checkpoint` does not write one. -/
def namingFile (m : Names F) : LogCheckpoint → Option Text
  | .full => none
  | .hybridLog => some m.save.text

/-- The part of `Recover` that reads the naming file. There is no result where the stream
fails: the source goes on with variables that were never written. -/
def Names.recoverNames (p : Platform F) (m : Names F) (file : Option Text) : Option (Names F) := do
  let text ← file
  let r ← readNaming text
  m.load p r.1

end

/-- A string that is printed and extracted as a whole. -/
def Plain (s : Text) : Prop := IsWord s ∧ Char.ofNat 0 ∉ s

instance (s : Text) : Decidable (Plain s) := inferInstanceAs (Decidable (_ ∧ _))

/-- What is printed of a PSF can be read back. -/
structure PsfLine.Printable (l : PsfLine) : Prop where
  fewFields : l.fields.length < 2 ^ 64
  libId_le : -2 ^ 63 ≤ l.libId
  libId_lt : l.libId < 2 ^ 63
  funcName : Plain l.funcName

/-- What is printed to the naming file can be read back. -/
structure NamingFile.Printable (f : NamingFile) : Prop where
  sizes : f.fields.length < 2 ^ 64 ∧ f.libs.length < 2 ^ 64 ∧ f.irs.length < 2 ^ 64 ∧
    f.generalPsfs.length < 2 ^ 64 ∧ f.inlinePsfs.length < 2 ^ 64 ∧ f.ptrGeneralPsf.length < 2 ^ 64 ∧
    f.ptrInlinePsf.length < 2 ^ 64
  fields : ∀ x ∈ f.fields, Plain x
  libs : ∀ x ∈ f.libs, Plain x
  irs : ∀ x ∈ f.irs, Plain x.1 ∧ Plain x.2
  generalPsfs : ∀ l ∈ f.generalPsfs, l.Printable
  inlinePsfs : ∀ l ∈ f.inlinePsfs, l.Printable
  ptrGeneralPsf : ∀ n ∈ f.ptrGeneralPsf, n < 2 ^ 16
  ptrInlinePsf : ∀ n ∈ f.ptrInlinePsf, n < 2 ^ 32

section

variable {F : Type} {s rest : Text} {f : NamingFile}

theorem Plain.cStr (h : Plain s) : cStr s=s := by
  refine List.takeWhile_eq_self_iff.mpr fun c hc => ?_
  rw [decide_eq_true_eq]
  rintro rfl
  exact h.2 hc

theorem reads_line (h : Plain s) : Reads word (line s) s := by
  unfold line
  rw [h.cStr]
  exact reads_word h.1 (by decide)

theorem reads_idLine {bits n : ℕ} (h : n<2^bits) : Reads (unsigned bits) (idLine n) n := reads_unsigned h (by decide)

theorem reads_irLine {x : Text × Text} (h : Plain x.1 ∧ Plain x.2) : Reads readIr (irLine x) x := by
  have hname : Reads word (cStr x.1 ++ [' ']) x.1 := by
    rw [h.1.cStr]
    exact reads_word h.1.1 (by decide)
  have hir : Reads (do let ir ←word; pure (x.1, ir)) (line x.2) x := (reads_line h.2).map fun ir => (x.1, ir)
  have hboth := hname.bind (f := fun name => do let ir ←word; pure (name, ir)) hir
  rw [List.append_assoc] at hboth
  exact hboth

/-- The fields of a PSF are read back. -/
theorem reads_fields (l : List UInt16) :
    Reads (times (UInt16.ofNat <$> unsigned 16) l.length) (l.flatMap fun f => natText f.toNat ++ [' ']) l := by
  refine reads_times fun x _ => ?_
  have h : Reads (unsigned 16) (natText x.toNat ++ [' ']) x.toNat := reads_unsigned x.toNat_lt (by decide)
  have hmap := h.map UInt16.ofNat
  rw [UInt16.ofNat_toNat] at hmap
  exact hmap

/-- A printed PSF is its size, its fields, its library and its name, each followed by
white space. -/
theorem psfLine_eq (l : PsfLine) : psfLine l=(natText l.fields.length ++ [' ']) ++
    ((l.fields.flatMap fun f => natText f.toNat ++ [' ']) ++ ((intText l.libId ++ [' ']) ++ line l.funcName)) := by
  unfold psfLine
  rw [List.append_assoc,flatMap_shift]
  simp only [List.append_assoc,List.cons_append,List.nil_append]

theorem reads_psfLine {l : PsfLine} (h : l.Printable) : Reads readPsf (psfLine l) l := by
  rw [psfLine_eq]
  refine (reads_unsigned h.fewFields (by decide)).bind ?_
  refine (reads_fields l.fields).bind ?_
  refine (reads_signed 64 h.libId_le h.libId_lt (by decide)).bind ?_
  exact (reads_line h.funcName).map fun name => PsfLine.mk l.fields l.libId name

theorem reads_table {α : Type} {r : Reader α} {print : α → Text} {l : List α} (hsize : l.length<2^64)
    (h : ∀ x ∈ l, Reads r (print x) x) : Reads (readTable r) (table print l) l :=
  (reads_idLine hsize).bind (reads_times h)

/-- The printed naming file is read back. -/
theorem reads_naming (h : f.Printable) : Reads readNaming f.text f := by
  obtain ⟨h1,h2,h3,h4,h5,h6,h7⟩ := h.sizes
  refine (reads_table h1 fun x hx => reads_line (h.fields x hx)).bind ?_
  refine (reads_table h2 fun x hx => reads_line (h.libs x hx)).bind ?_
  refine (reads_table h3 fun x hx => reads_irLine (h.irs x hx)).bind ?_
  refine (reads_table h4 fun x hx => reads_psfLine (h.generalPsfs x hx)).bind ?_
  refine (reads_table h5 fun x hx => reads_psfLine (h.inlinePsfs x hx)).bind ?_
  refine (reads_table h6 fun x hx => reads_idLine (h.ptrGeneralPsf x hx)).bind ?_
  exact (reads_table h7 fun x hx => reads_idLine (h.ptrInlinePsf x hx)).map _

/-- Every field name that was read is a word. -/
theorem isWord_of_readNaming (h : readNaming s=some (f, rest)) : ∀ x ∈ f.fields, IsWord x := by
  unfold readNaming at h
  obtain ⟨⟨fields,s₁⟩,hfields,h⟩ := bind_eq_some_iff.mp h
  obtain ⟨⟨libs,s₂⟩,-,h⟩ := bind_eq_some_iff.mp h
  obtain ⟨⟨irs,s₃⟩,-,h⟩ := bind_eq_some_iff.mp h
  obtain ⟨⟨generalPsfs,s₄⟩,-,h⟩ := bind_eq_some_iff.mp h
  obtain ⟨⟨inlinePsfs,s₅⟩,-,h⟩ := bind_eq_some_iff.mp h
  obtain ⟨⟨ptrGeneralPsf,s₆⟩,-,h⟩ := bind_eq_some_iff.mp h
  obtain ⟨⟨ptrInlinePsf,s₇⟩,-,h⟩ := bind_eq_some_iff.mp h
  cases h
  obtain ⟨⟨n,s₀⟩,-,htimes⟩ := bind_eq_some_iff.mp hfields
  exact times_forall (fun s a s' hw => word_isWord hw) htimes

end

end FishStore.Naming
