import FishStore.NamesRecovered

/-!
# The names of generated functions

The function of an EzPsf is named by the user or by a counter of the process. The JIT keeps
the first definition of a name; that a later one was refused is only logged, and the lookup
that follows finds the first. After `Recover` in a new process the counter starts again.
-/

namespace FishStore.EzPsfSymbols

open Runs TextStream Naming NamesRecovered List

/-- What the parser and the generator make of an expression. -/
structure Source where
  /-- The name in front of the arrow. -/
  name : Option Text
  type : DataType
  fields : List Text
  /-- The module, printed, for the name of its function. -/
  ir : Text → Text

/-- The functions are the texts of their code. -/
def texts : Platform Text where
  cwd := ['/']
  dlopen _ := false
  dlsym _ _ := none
  getPsf _ := none
  recoverPsf _ ir := some ir
  projection := []
  cwd_root := plainPlatform.cwd_root
  recover_getPsf _ _ h := (Option.some_ne_none _ h.symm).elim

/-- The PSFs of one of the two tables, by their ids. -/
def tableOf (m : Names Text) (inline : Bool) : List (Psf Text) :=
  if inline then m.inlinePsfs else m.generalPsfs.map (·.toPsf)

/-- The table has no room for another id. -/
def full (m : Names Text) (inline : Bool) : Bool :=
  (tableOf m inline).length>if inline then 2^32-1 else 2^14-1

/-- A process with its store, and the naming file that was written last. -/
structure State where
  names : Names Text
  /-- `anon_psf_counter`. -/
  counter : ℕ
  /-- The definitions that the JIT keeps. -/
  jit : List (Text × Text)
  /-- The code generated by the calls that gave the ids of a table. -/
  own : Bool → List Text
  /-- What was printed, and the calls until then. -/
  file : Option (NamingFile × (Bool → List Text))

/-- A new process. -/
def State.start (file : Option (NamingFile × (Bool → List Text))) : State :=
  ⟨.fresh Text,0,[],fun _ => [],file⟩

/-- `createPsf`: the name of the function. -/
def State.nameOf (s : State) (src : Source) : Text :=
  src.name.getD ("anonymousPsf".toList++natText s.counter)

/-- What `MakeEzPsf` does with the function that was found for the name. -/
def enter (m : Names Text) (src : Source) (name psf : Text) : Names Text :=
  let r := Names.acquireAll { m with psfIrs := emplace m.psfIrs (name,src.ir name) } src.fields
  if src.type.canInline then r.2.pushInline ⟨r.1,libEzPsf,name,psf⟩
  else r.2.pushGeneral ⟨⟨r.1,libEzPsf,name,psf⟩,src.type⟩

/-- `MakeEzPsf`. -/
def State.makeEzPsf (s : State) (src : Source) : Option State :=
  let name := s.nameOf src
  let jit := emplace s.jit (name,src.ir name)
  let inline := src.type.canInline
  (jit.lookup name).map fun psf =>
    { s with
      names := enter s.names src name psf
      counter := if src.name.isSome then s.counter else s.counter+1
      jit
      own := if full s.names inline then s.own else Function.update s.own inline (s.own inline++[src.ir name]) }

/-- The steps. -/
inductive Label
  | makeEzPsf (src : Source)
  | checkpoint
  /-- `Recover` in a new process. -/
  | recover

def step (s : State) : Label → Option State
  | .makeEzPsf src => s.makeEzPsf src
  | .checkpoint => some { s with file := some (s.names.save,s.own) }
  | .recover => do
    let (f,own) ← s.file
    let names ← (Names.fresh Text).recoverNames texts (some f.text)
    some { State.start s.file with names,jit := names.psfIrs,own }

def machine : Machine State Label := ⟨fun s => s=.start none,step⟩

/-- The name is new, and what was printed can be read back. -/
def distinct : Guard State Label
  | s, .makeEzPsf src => s.names.psfIrs.lookup (s.nameOf src)=none
  | _, .checkpoint => True
  | s, .recover => ∀ x ∈ s.file, x.1.Printable

/-- Every id runs the code of its own call, and that code is kept under the function's name. -/
def Own (s : State) : Prop :=
  ∀ b, (tableOf s.names b).map (·.eval)=s.own b ∧
    ∀ psf ∈ tableOf s.names b, s.names.psfIrs.lookup psf.funcName=some psf.eval

/-- The code under the name of each function is the one that runs. -/
structure Good (m : Names Text) (own : Bool → List Text) : Prop where
  keys : (m.psfIrs.map Prod.fst).Nodup
  own : ∀ b, (tableOf m b).map (·.eval)=own b
  found : ∀ b, ∀ psf ∈ tableOf m b, psf.libId=libEzPsf ∧ m.psfIrs.lookup psf.funcName=some psf.eval

structure Inv (s : State) : Prop where
  jit : s.jit=s.names.psfIrs
  good : Good s.names s.own
  file : ∀ x ∈ s.file, ∃ m, x.1=m.save ∧ Good m x.2

section

variable {m names : Names Text} {s s' : State} {irs : List (Text × Text)} {name ir : Text} {src : Source}

/-- The fields of a PSF are entered without a change to the functions. -/
theorem acquireAll_frame (m : Names Text) (fields : List Text) :
    (m.acquireAll fields).2.psfIrs=m.psfIrs ∧ tableOf (m.acquireAll fields).2=tableOf m := by
  induction fields generalizing m with
  | nil => exact ⟨rfl,rfl⟩
  | cons field fields ih =>
    have hone : (m.acquireFieldId field).2.psfIrs=m.psfIrs ∧ tableOf (m.acquireFieldId field).2=tableOf m := by
      unfold Names.acquireFieldId
      cases m.fieldLookup.lookup field <;> exact ⟨rfl,rfl⟩
    obtain ⟨hirs,htable⟩ := ih (m.acquireFieldId field).2
    exact ⟨hirs.trans hone.1,htable.trans hone.2⟩

/-- A new name is entered at the end. -/
theorem emplace_new (h : irs.lookup name=none) : emplace irs (name,ir)=irs++[(name,ir)] := by
  unfold emplace
  rw [h]
  rfl

theorem lookup_new (h : irs.lookup name=none) : (irs++[(name,ir)]).lookup name=some ir := by
  rw [lookup_append,h]
  exact lookup_cons_self

theorem pushInline_spec (m : Names Text) (psf : Psf Text) : (m.pushInline psf).psfIrs=m.psfIrs ∧ ∀ b,
    tableOf (m.pushInline psf) b=tableOf m b++if b=true ∧ full m b=false then [psf] else [] := by
  unfold Names.pushInline full tableOf
  split_ifs with hfull <;> exact ⟨rfl,fun b => by cases b <;> (simp; try omega)⟩

theorem pushGeneral_spec (m : Names Text) (psf : GeneralPsf Text) : (m.pushGeneral psf).psfIrs=m.psfIrs ∧ ∀ b,
    tableOf (m.pushGeneral psf) b=tableOf m b++if b=false ∧ full m b=false then [psf.toPsf] else [] := by
  unfold Names.pushGeneral full tableOf
  split_ifs with hfull <;> exact ⟨rfl,fun b => by cases b <;> (simp; try omega)⟩

/-- The code is kept under the new name, and the table gets the entry if it has room. -/
theorem enter_spec (src : Source) (psf : Text) (hnew : m.psfIrs.lookup name=none) :
    (enter m src name psf).psfIrs=m.psfIrs++[(name,src.ir name)] ∧ ∃ fields, ∀ b,
      tableOf (enter m src name psf) b=tableOf m b++
        if b=src.type.canInline ∧ full m b=false then [⟨fields,libEzPsf,name,psf⟩] else [] := by
  obtain ⟨hirs,htable⟩ := acquireAll_frame { m with psfIrs := emplace m.psfIrs (name,src.ir name) } src.fields
  unfold enter
  generalize Names.acquireAll { m with psfIrs := emplace m.psfIrs (name,src.ir name) } src.fields=r at *
  have hfull : full r.2=full m := by
    unfold full
    rw [htable]
    rfl
  have hirs' : r.2.psfIrs=m.psfIrs++[(name,src.ir name)] := hirs.trans (emplace_new hnew)
  have htable' : tableOf r.2=tableOf m := htable
  dsimp only
  rw [←hfull,←htable',←hirs']
  cases src.type.canInline with
  | true => exact ⟨(pushInline_spec ..).1,r.1,(pushInline_spec ..).2⟩
  | false => exact ⟨(pushGeneral_spec ..).1,r.1,(pushGeneral_spec ..).2⟩

/-- `MakeEzPsf` with a new name. -/
theorem Inv.makeEzPsf (h : Inv s) (hnew : s.names.psfIrs.lookup (s.nameOf src)=none)
    (hs : s.makeEzPsf src=some s') : Inv s' := by
  unfold State.makeEzPsf at hs
  dsimp only at hs
  rw [h.jit,emplace_new hnew,lookup_new hnew] at hs
  cases hs
  dsimp only
  generalize s.nameOf src=name at *
  obtain ⟨hirs,fields,htable⟩ := enter_spec src (src.ir name) hnew
  refine ⟨hirs.symm,⟨?_,?_,?_⟩,h.file⟩
  · rw [hirs,map_append,map_singleton,←concat_eq_append]
    exact List.Nodup.concat (lookup_eq_none.mp hnew) h.good.keys
  · intro b
    rw [htable,map_append,h.good.own]
    dsimp only
    by_cases hb : b=src.type.canInline
    · rw [←hb]
      cases hfull : full s.names b <;> simp
    · rw [if_neg fun hin => hb hin.1]
      split_ifs
      · exact append_nil _
      · rw [Function.update_of_ne hb]
        exact append_nil _
  · intro b psf hpsf
    rw [htable] at hpsf
    rw [hirs]
    rcases mem_append.mp hpsf with hold | hnewPsf
    · obtain ⟨hlib,hfound⟩ := h.good.found b psf hold
      refine ⟨hlib,?_⟩
      rw [lookup_append,hfound]
      rfl
    · split_ifs at hnewPsf
      · rw [mem_singleton.mp hnewPsf]
        exact ⟨rfl,lookup_new hnew⟩
      · cases hnewPsf

/-- A new store loads the functions that were saved. -/
theorem Good.load {own : Bool → List Text} (h : Good m own) (hs : (Names.fresh Text).load texts m.save=some names) :
    names.psfIrs=m.psfIrs ∧ tableOf names=tableOf m := by
  obtain ⟨-,-,hs⟩ := Option.bind_eq_some_iff.mp hs
  obtain ⟨restored,hrestored,hs⟩ := Option.bind_eq_some_iff.mp hs
  obtain ⟨generalPsfs,hgeneral,hs⟩ := Option.bind_eq_some_iff.mp hs
  obtain ⟨inlinePsfs,hinline,hs⟩ := Option.bind_eq_some_iff.mp hs
  obtain ⟨st,-,hs⟩ := Option.bind_eq_some_iff.mp hs
  cases hs
  have hirs : m.psfIrs.foldl emplace []=m.psfIrs := foldl_emplace h.keys
  have hself : restored=m.psfIrs := by
    have hmap := mapM_eq (l := m.psfIrs) (g := id) (f := fun x => (texts.recoverPsf x.1 x.2).map fun c => (x.1,c))
      fun x _ => rfl
    rw [map_id] at hmap
    exact Option.some.inj (hrestored.symm.trans hmap)
  have heval : ∀ libs b, ∀ psf ∈ tableOf m b, texts.recoverEval libs (restored.foldl emplace []) psf.line=some psf.eval := by
    intro libs b psf hpsf
    obtain ⟨hlib,hfound⟩ := h.found b psf hpsf
    unfold Platform.recoverEval
    rw [if_pos (show psf.line.libId=libEzPsf from hlib),hself,hirs]
    exact hfound
  have hgeneral' := mapM_eq (l := m.generalPsfs) (g := fun psf => { psf with retType := .errorT })
    (f := fun psf => texts.recoverGeneral ((Names.fresh Text).libs++m.libs.map texts.absolute)
      (restored.foldl emplace []) psf.toPsf.line) fun psf hpsf => by
        have hmem : psf.toPsf ∈ tableOf m false := mem_map_of_mem hpsf
        unfold Platform.recoverGeneral
        rw [if_neg,heval _ false _ hmem]
        · rfl
        · rw [show psf.toPsf.line.libId=libEzPsf from (h.found false _ hmem).1]
          decide
  have hinline' := mapM_eq (l := m.inlinePsfs) (g := id) (f := fun psf => texts.recoverInline
    ((Names.fresh Text).libs++m.libs.map texts.absolute) (restored.foldl emplace []) psf.line) fun psf hpsf => by
      unfold Platform.recoverInline
      rw [heval _ true psf hpsf]
      rfl
  refine ⟨hirs,funext fun b => ?_⟩
  cases b with
  | true =>
    change inlinePsfs=m.inlinePsfs
    rw [←Option.some_inj,←hinline,←map_id m.inlinePsfs,←hinline']
    exact mapM_map
  | false =>
    change generalPsfs.map _=m.generalPsfs.map _
    have hloaded : generalPsfs=m.generalPsfs.map fun psf => { psf with retType := .errorT } := by
      rw [←Option.some_inj,←hgeneral,←hgeneral']
      exact mapM_map
    rw [hloaded,map_map]
    rfl

theorem Inv.recover (h : Inv s) (hok : distinct s .recover) (hs : step s .recover=some s') : Inv s' := by
  obtain ⟨⟨f,own⟩,hfile,hs⟩ := Option.bind_eq_some_iff.mp hs
  obtain ⟨names,hnames,hs⟩ := Option.bind_eq_some_iff.mp hs
  cases hs
  obtain ⟨m,hf,hgood⟩ := h.file _ hfile
  obtain ⟨rest,hread,-⟩ := reads_naming (hok _ hfile) f.text [] (by rw [append_nil])
  have hload : (Names.fresh Text).load texts f=some names := by
    unfold Names.recoverNames at hnames
    rw [Option.bind_eq_bind,Option.bind_some,hread] at hnames
    exact hnames
  rw [show f=m.save from hf] at hload
  obtain ⟨hirs,htable⟩ := hgood.load hload
  refine ⟨rfl,⟨?_,?_,?_⟩,h.file⟩
  · rw [hirs]
    exact hgood.keys
  · rw [htable]
    exact hgood.own
  · rw [hirs,htable]
    exact hgood.found

theorem Inv.step {l : Label} (h : Inv s) (hok : distinct s l) (hs : step s l=some s') : Inv s' := by
  cases l with
  | makeEzPsf src => exact h.makeEzPsf hok hs
  | checkpoint =>
    cases hs
    refine ⟨h.jit,h.good,?_⟩
    rintro _ ⟨⟩
    exact ⟨s.names,rfl,h.good⟩
  | recover => exact h.recover hok hs

theorem inv_start : Inv (.start none) := by
  refine ⟨rfl,⟨nodup_nil,?_,?_⟩,?_⟩
  · rintro (_|_) <;> rfl
  · rintro (_|_) _ ⟨⟩
  · rintro _ ⟨⟩

end

/-- In every run in which each function gets a new name and what `Recover` reads was printed
without white space, every id runs the code of its own call. -/
theorem runs_own_code {s : State} (hs : Reachable machine distinct s) : Own s := by
  have h : Inv s := hs.invariant (fun _ hinit => hinit ▸ inv_start) fun _ _ _ => Inv.step
  exact fun b => ⟨h.good.own b,fun psf hpsf => (h.good.found b psf hpsf).2⟩

/-- An expression whose code is printed as one word. -/
def constant (name : Option Text) (c : Char) : Source := ⟨name,.int32T,[],fun f => c::f⟩

/-- A function with a name of its own. -/
theorem runs_own_code_one : ∃ s, step (.start none) (.makeEzPsf (constant (some ['f']) 'a'))=some s ∧
    Own s := by
  refine ⟨_,rfl,runs_own_code ⟨.start none,rfl,.single (a := .makeEzPsf (constant (some ['f']) 'a')) ?_ rfl⟩⟩
  rfl

/-- Of two expressions with one name the second runs the code of the first. In a new process
so does an anonymous one after another that was recovered. -/
theorem runs_other_code :
    (exec machine (.start none) [.makeEzPsf (constant (some ['f']) 'a'),.makeEzPsf (constant (some ['f']) 'b')]).map
      (fun s => ((tableOf s.names true).map (·.eval),s.own true))=some ([['a','f'],['a','f']],[['a','f'],['b','f']]) ∧
    (exec machine (.start none) [.makeEzPsf (constant none 'a'),.checkpoint,.recover,
      .makeEzPsf (constant none 'b')]).map (fun s => (tableOf s.names true).map (·.eval))=
        some ['a'::"anonymousPsf0".toList,'a'::"anonymousPsf0".toList] := by
  refine ⟨rfl,?_⟩
  decide +kernel

end FishStore.EzPsfSymbols
