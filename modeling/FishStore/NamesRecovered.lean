import FishStore.Naming

/-!
# Names and registration after recovery

The tables that the calls of a store build up can be found again from what a checkpoint
prints of them: every function from its library or its generated code, every field id
from the position of its name. What is printed is read back if all strings are words.
The return type of a PSF is not printed.
-/

namespace FishStore.NamesRecovered

open Runs TextStream Naming List Function Parsers

section

variable {κ ν α β : Type} [BEq κ] [LawfulBEq κ] {m l : List (κ × ν)} {k : κ} {v : ν}

theorem lookup_of_mem (hk : (m.map Prod.fst).Nodup) (h : (k, v) ∈ m) : m.lookup k=some v := by
  induction m with
  | nil => cases h
  | cons x m ih =>
    rw [map_cons,nodup_cons] at hk
    rcases mem_cons.mp h with rfl | h
    · exact lookup_cons_self
    · have hne : (k == x.1)=false := by
        rw [beq_eq_false_iff_ne]
        rintro rfl
        exact hk.1 (mem_map.mpr ⟨_,h,rfl⟩)
      rw [lookup_cons,hne]
      exact ih hk.2 h

theorem lookup_eq_none : m.lookup k=none ↔ k ∉ m.map Prod.fst := by
  rw [lookup_eq_none_iff,mem_map]
  constructor
  · rintro h ⟨x,hx,rfl⟩
    exact absurd rfl (bne_iff_ne.mp (h x hx))
  · intro h x hx
    rw [bne_iff_ne]
    rintro rfl
    exact h ⟨x,hx,rfl⟩

/-- New keys are inserted at the end. -/
theorem foldl_emplace (h : ((m ++ l).map Prod.fst).Nodup) : l.foldl emplace m=m ++ l := by
  induction l generalizing m with
  | nil => rw [append_nil,foldl_nil]
  | cons x l ih =>
    have hnew : emplace m x=m ++ [x] := by
      have hnone : m.lookup x.1=none := by
        rw [lookup_eq_none]
        rw [map_append,map_cons,nodup_append] at h
        exact fun hmem => h.2.2 _ hmem _ mem_cons_self rfl
      unfold emplace
      rw [hnone]
      rfl
    rw [foldl_cons,hnew,ih]
    · rw [append_assoc,singleton_append]
    · rwa [append_assoc,singleton_append]

/-- A loop all of whose steps succeed. -/
theorem mapM_eq {f : α → Option β} {g : α → β} {l : List α} (h : ∀ x ∈ l, f x=some (g x)) : l.mapM f=some (l.map g) := by
  induction l with
  | nil => rfl
  | cons x l ih =>
    rw [mapM_cons,h x mem_cons_self,ih fun y hy => h y (mem_cons_of_mem _ hy)]
    rfl

theorem exists_mapM {f : α → Option β} {l : List α} (h : ∀ x ∈ l, (f x).isSome=true) : ∃ l', l.mapM f=some l' := by
  induction l with
  | nil => exact ⟨[],rfl⟩
  | cons x l ih =>
    obtain ⟨l',hl'⟩ := ih fun y hy => h y (mem_cons_of_mem _ hy)
    obtain ⟨y,hy⟩ := Option.isSome_iff_exists.mp (h x mem_cons_self)
    rw [mapM_cons,hy,hl']
    exact ⟨y::l',rfl⟩

theorem isSome_of_mapM {f : α → Option β} {l : List α} {l' : List β} (h : l.mapM f=some l') :
    ∀ x ∈ l, (f x).isSome=true := by
  induction l generalizing l' with
  | nil => exact fun x hx => absurd hx not_mem_nil
  | cons x l ih =>
    rw [mapM_cons] at h
    obtain ⟨y,hy,h⟩ := Option.bind_eq_some_iff.mp h
    obtain ⟨ys,hys,-⟩ := Option.bind_eq_some_iff.mp h
    intro z hz
    rcases mem_cons.mp hz with rfl | hz
    · rw [hy]
      rfl
    · exact ih hys z hz

theorem mem_of_mapM {f : α → Option β} {l : List α} {l' : List β} (h : l.mapM f=some l') {y : β}
    (hy : y ∈ l') : ∃ x ∈ l, f x=some y := by
  induction l generalizing l' with
  | nil =>
    cases h
    cases hy
  | cons x l ih =>
    rw [mapM_cons] at h
    obtain ⟨z,hz,h⟩ := Option.bind_eq_some_iff.mp h
    obtain ⟨zs,hzs,h⟩ := Option.bind_eq_some_iff.mp h
    cases h
    rcases mem_cons.mp hy with rfl | hy
    · exact ⟨x,mem_cons_self,hz⟩
    · obtain ⟨x',hx',hf⟩ := ih hzs hy
      exact ⟨x',mem_cons_of_mem _ hx',hf⟩

theorem lt_of_isSome {l : List α} {i : ℕ} (h : l[i]?.isSome=true) : i<l.length := by
  by_contra hge
  rw [getElem?_eq_none (not_lt.mp hge)] at h
  cases h

theorem foldr_insert [DecidableEq α] {l : List α} (h : l.Nodup) : l.foldr List.insert []=l := by
  induction l with
  | nil => rfl
  | cons x l ih =>
    rw [List.nodup_cons] at h
    rw [List.foldr_cons,ih h.2,List.insert_of_not_mem h.1]

end

section

variable {F : Type}

/-- The function of a PSF can be found again, in the generated code or in a library. -/
def Found (p : Platform F) (libs : List Text) (irs : List (Text × Text)) (psf : Psf F) : Prop :=
  (psf.libId = libEzPsf ∧ ∃ ir, (psf.funcName, ir) ∈ irs ∧ p.recoverPsf psf.funcName ir = some psf.eval) ∨
    ∃ (i : ℕ) (path : Text), psf.libId = i ∧ libs[i]? = some path ∧ p.dlsym path psf.funcName = some psf.eval

/-- The ids of the registered PSFs are those of PSFs that exist. -/
structure Registered (m : Names F) (sets : PtrSets) : Prop where
  general_nodup : sets.ptrGeneralPsf.Nodup
  inline_nodup : sets.ptrInlinePsf.Nodup
  general : ∀ id ∈ sets.ptrGeneralPsf, id < m.generalPsfs.length
  inl : ∀ id ∈ sets.ptrInlinePsf, id < m.inlinePsfs.length

/-- The invariant of the tables. -/
structure Wf (p : Platform F) (m : Names F) : Prop where
  /-- A field's id is the position of its name. -/
  lookup : m.fieldLookup = m.fieldNames.zipIdx.map fun x => (x.1, UInt16.ofNat x.2)
  names : m.fieldNames.Nodup
  libs : ∀ path ∈ m.libs, p.absolute path = path ∧ p.dlopen path = true
  keys : (m.psfIrs.map Prod.fst).Nodup
  irs : ∀ x ∈ m.psfIrs, (p.recoverPsf x.1 x.2).isSome = true
  general : ∀ psf ∈ m.generalPsfs, (psf.libId = libProjection ∧ psf.eval = p.projection) ∨
    Found p m.libs m.psfIrs psf.toPsf
  inl : ∀ psf ∈ m.inlinePsfs, Found p m.libs m.psfIrs psf
  generalFields : ∀ psf ∈ m.generalPsfs, ∀ id ∈ psf.fields, id.toNat < m.fieldNames.length
  inlineFields : ∀ psf ∈ m.inlinePsfs, ∀ id ∈ psf.fields, id.toNat < m.fieldNames.length
  generalFew : m.generalPsfs.length ≤ 2 ^ 14
  inlineFew : m.inlinePsfs.length ≤ 2 ^ 32
  /-- Between two calls both parser states have the same PSFs registered. -/
  both : ∀ b, (m.parserStates b).sets = (m.parserStates false).sets
  registered : Registered m (m.parserStates false).sets

/-- Only names of fields were added. -/
structure AddsFields (m m' : Names F) : Prop where
  libs : m'.libs = m.libs
  irs : m'.psfIrs = m.psfIrs
  len : m.fieldNames.length ≤ m'.fieldNames.length

variable {p : Platform F} {m m' : Names F} {psf : Psf F}

theorem Found.mono {libs : List Text} {irs : List (Text × Text)} (h : Found p libs irs psf)
    (libs' : List Text) (irs' : List (Text × Text)) : Found p (libs ++ libs') (irs ++ irs') psf := by
  rcases h with ⟨hlib,ir,hmem,hrec⟩ | ⟨i,path,hlib,hget,hsym⟩
  · exact .inl ⟨hlib,ir,mem_append_left _ hmem,hrec⟩
  · refine .inr ⟨i,path,hlib,?_,hsym⟩
    obtain ⟨hi,-⟩ := List.getElem?_eq_some_iff.mp hget
    rw [getElem?_append_left hi,hget]

theorem wf_fresh (p : Platform F) : Wf p (.fresh F) where
  lookup := rfl
  names := nodup_nil
  libs := nofun
  keys := nodup_nil
  irs := nofun
  general := nofun
  inl := nofun
  generalFields := nofun
  inlineFields := nofun
  generalFew := Nat.zero_le _
  inlineFew := Nat.zero_le _
  both := fun _ => rfl
  registered := ⟨nodup_nil,nodup_nil,nofun,nofun⟩

section

variable (h : Wf p m)

include h

/-- The keys of the lookup table are the names. -/
theorem Wf.lookup_keys : m.fieldLookup.map Prod.fst=m.fieldNames := by
  rw [h.lookup,map_map]
  exact zipIdx_map_fst 0 m.fieldNames

/-- A name is added at the end, with its position as id. -/
theorem Wf.addField {field : Text} (hnew : field ∉ m.fieldNames) : Wf p { m with
      fieldNames := m.fieldNames ++ [field]
      fieldLookup := m.fieldLookup ++ [(field, UInt16.ofNat m.fieldNames.length)] } := by
  have hlen := (sublist_append_left m.fieldNames [field]).length_le
  refine { h with lookup := ?_, names := ?_, generalFields := ?_, inlineFields := ?_, registered := ?_ }
  · change m.fieldLookup ++ _=map _ (zipIdx (m.fieldNames ++ [field]))
    rw [h.lookup,zipIdx_append,map_append]
    simp only [zipIdx_singleton,Nat.zero_add,map_cons,map_nil]
  · exact h.names.append (nodup_singleton _) (disjoint_singleton.mpr hnew)
  · exact fun psf hp id hid => (h.generalFields psf hp id hid).trans_le hlen
  · exact fun psf hp id hid => (h.inlineFields psf hp id hid).trans_le hlen
  · exact ⟨h.registered.general_nodup,h.registered.inline_nodup,h.registered.general,h.registered.inl⟩

theorem Wf.acquireFieldId (field : Text) : Wf p (m.acquireFieldId field).2 ∧
    (m.acquireFieldId field).1.toNat<(m.acquireFieldId field).2.fieldNames.length ∧
    AddsFields m (m.acquireFieldId field).2 := by
  unfold Names.acquireFieldId
  cases hl : m.fieldLookup.lookup field with
  | some id =>
    refine ⟨h,?_,rfl,rfl,le_rfl⟩
    -- The id is a position, cut to 16 bits.
    have hmem : (field, id) ∈ m.fieldLookup := by
      obtain ⟨l₁,l₂,heq,-⟩ := lookup_eq_some_iff.mp hl
      rw [heq]
      exact mem_append_right _ mem_cons_self
    rw [h.lookup] at hmem
    obtain ⟨⟨x,i⟩,hx,heq⟩ := mem_map.mp hmem
    cases heq
    have hi := (mem_zipIdx hx).2.1
    rw [Nat.zero_add] at hi
    rw [UInt16.toNat_ofNat']
    exact (Nat.mod_le _ _).trans_lt hi
  | none =>
    have hnew : field ∉ m.fieldNames := by
      rw [←h.lookup_keys]
      exact lookup_eq_none.mp hl
    refine ⟨h.addField hnew,?_,rfl,rfl,?_⟩
    · change (UInt16.ofNat m.fieldNames.length).toNat<(m.fieldNames ++ [field]).length
      rw [UInt16.toNat_ofNat',length_append]
      exact (Nat.mod_le _ _).trans_lt (Nat.lt_succ_self _)
    · exact (sublist_append_left ..).length_le

/-- The loop over the fields of a PSF. -/
theorem Wf.acquireAll (fields : List Text) : Wf p (m.acquireAll fields).2 ∧
    (∀ id ∈ (m.acquireAll fields).1, id.toNat<(m.acquireAll fields).2.fieldNames.length) ∧
    AddsFields m (m.acquireAll fields).2 := by
  induction fields generalizing m with
  | nil => exact ⟨h,fun _ hid => absurd hid not_mem_nil,rfl,rfl,le_rfl⟩
  | cons field fields ih =>
    obtain ⟨h₁,hid₁,hadd₁⟩ := h.acquireFieldId field
    obtain ⟨h₂,hid₂,hadd₂⟩ := ih h₁
    refine ⟨h₂,?_,hadd₂.libs.trans hadd₁.libs,hadd₂.irs.trans hadd₁.irs,hadd₁.len.trans hadd₂.len⟩
    intro id hid
    rcases mem_cons.mp hid with rfl | hid
    · exact hid₁.trans_le hadd₂.len
    · exact hid₂ id hid

omit h in
theorem Registered.mono {sets : PtrSets} (h : Registered m sets)
    (hg : m.generalPsfs.length ≤ m'.generalPsfs.length) (hi : m.inlinePsfs.length ≤ m'.inlinePsfs.length) :
    Registered m' sets :=
  ⟨h.general_nodup,h.inline_nodup,fun id hid => (h.general id hid).trans_le hg, fun id hid => (h.inl id hid).trans_le hi⟩

theorem Wf.pushGeneral {psf : GeneralPsf F}
    (hfound : (psf.libId=libProjection ∧ psf.eval=p.projection) ∨ Found p m.libs m.psfIrs psf.toPsf)
    (hfields : ∀ id ∈ psf.fields, id.toNat < m.fieldNames.length) : Wf p (m.pushGeneral psf) := by
  unfold Names.pushGeneral
  split_ifs with hfull
  · exact h
  refine { h with general := ?_, generalFields := ?_, generalFew := ?_, registered := ?_ }
  · exact forall_mem_append.mpr ⟨h.general,forall_mem_singleton.mpr hfound⟩
  · exact forall_mem_append.mpr ⟨h.generalFields,forall_mem_singleton.mpr hfields⟩
  · change (m.generalPsfs ++ [psf]).length≤_
    rw [length_append,length_singleton]
    omega
  · exact h.registered.mono (sublist_append_left ..).length_le le_rfl

theorem Wf.pushInline (hfound : Found p m.libs m.psfIrs psf)
    (hfields : ∀ id ∈ psf.fields, id.toNat < m.fieldNames.length) : Wf p (m.pushInline psf) := by
  unfold Names.pushInline
  split_ifs with hfull
  · exact h
  refine { h with inl := ?_, inlineFields := ?_, inlineFew := ?_, registered := ?_ }
  · exact forall_mem_append.mpr ⟨h.inl,forall_mem_singleton.mpr hfound⟩
  · exact forall_mem_append.mpr ⟨h.inlineFields,forall_mem_singleton.mpr hfields⟩
  · change (m.inlinePsfs ++ [psf]).length≤_
    rw [length_append,length_singleton]
    omega
  · exact h.registered.mono le_rfl (sublist_append_left ..).length_le

theorem Wf.loadPsfLibrary (path : Text) : Wf p (m.loadPsfLibrary p path) := by
  unfold Names.loadPsfLibrary
  split_ifs with hopen
  · refine { h with libs := ?_, general := ?_, inl := ?_, registered := ?_ }
    · refine forall_mem_append.mpr ⟨h.libs,forall_mem_singleton.mpr ⟨?_,hopen⟩⟩
      -- An absolute path stays as it is.
      unfold Platform.absolute
      split_ifs with hroot hcwd
      · rfl
      · rfl
      · refine absurd ?_ hcwd
        rw [head?_append,p.cwd_root]
        rfl
    · intro psf hp
      refine (h.general psf hp).imp_right fun hf => ?_
      have hmono := hf.mono [p.absolute path] []
      rwa [append_nil] at hmono
    · intro psf hp
      have hmono := (h.inl psf hp).mono [p.absolute path] []
      rwa [append_nil] at hmono
    · exact h.registered.mono le_rfl le_rfl
  · exact h

omit h in
/-- A library's function can be found again. -/
theorem found_of_libFunction {libId : ℕ} {funcName : Text} {f : F} {fields : List UInt16}
    (hf : m.libFunction p libId funcName=some f) : Found p m.libs m.psfIrs ⟨fields,libId,funcName,f⟩ := by
  obtain ⟨path,hpath,hsym⟩ := Option.bind_eq_some_iff.mp hf
  exact .inr ⟨libId,path,rfl,hpath,hsym⟩

theorem Wf.makeProjection (field : Text) : Wf p (m.makeProjection p field) := by
  obtain ⟨h₁,hid,-⟩ := h.acquireFieldId field
  refine h₁.pushGeneral (.inl ⟨rfl,rfl⟩) fun id hmem => ?_
  rw [mem_singleton.mp hmem]
  exact hid

theorem Wf.makeGeneralPsf (fields : List Text) (libId : ℕ) (funcName : Text) :
    Wf p (m.makeGeneralPsf p fields libId funcName) := by
  unfold Names.makeGeneralPsf
  cases hf : m.libFunction p libId funcName with
  | none => exact h
  | some f =>
    obtain ⟨h₁,hids,hadd⟩ := h.acquireAll fields
    refine h₁.pushGeneral (.inr ?_) hids
    rw [hadd.libs,hadd.irs]
    exact found_of_libFunction hf

theorem Wf.makeInlinePsf (fields : List Text) (libId : ℕ) (funcName : Text) :
    Wf p (m.makeInlinePsf p fields libId funcName) := by
  unfold Names.makeInlinePsf
  cases hf : m.libFunction p libId funcName with
  | none => exact h
  | some f =>
    obtain ⟨h₁,hids,hadd⟩ := h.acquireAll fields
    refine h₁.pushInline ?_ hids
    rw [hadd.libs,hadd.irs]
    exact found_of_libFunction hf

/-- New generated code. -/
theorem Wf.addIr {x : Text × Text} (hnew : m.psfIrs.lookup x.1=none)
    (hrec : (p.recoverPsf x.1 x.2).isSome=true) : Wf p { m with psfIrs := m.psfIrs ++ [x] } := by
  have hmono : ∀ psf, Found p m.libs m.psfIrs psf → Found p m.libs (m.psfIrs ++ [x]) psf := by
    intro psf hf
    have happ := hf.mono [] [x]
    rwa [append_nil] at happ
  refine { h with keys := ?_, irs := ?_, general := ?_, inl := ?_, registered := ?_ }
  · rw [map_append]
    exact h.keys.append (nodup_singleton _) (disjoint_singleton.mpr (lookup_eq_none.mp hnew))
  · exact forall_mem_append.mpr ⟨h.irs,forall_mem_singleton.mpr hrec⟩
  · exact fun psf hp => (h.general psf hp).imp_right (hmono _)
  · exact fun psf hp => hmono _ (h.inl psf hp)
  · exact h.registered.mono le_rfl le_rfl

theorem Wf.makeEzPsf (str : Text) : Wf p (m.makeEzPsf p str) := by
  unfold Names.makeEzPsf
  cases hget : p.getPsf str with
  | none => exact h
  | some info =>
    dsimp only
    split_ifs with hold hinline
    · exact h
    all_goals
      have hnew : m.psfIrs.lookup info.name=none := by
        rwa [Bool.not_eq_true,Option.isSome_eq_false_iff,Option.isNone_iff_eq_none] at hold
      have hrec := p.recover_getPsf str info hget
      obtain ⟨h₁,hids,hadd⟩ := (h.addIr (x := (info.name, info.ir)) hnew (by rw [hrec]; rfl)).acquireAll info.fields
      have hfound : ∀ fields, Found p (m.libs) (m.psfIrs ++ [(info.name, info.ir)])
          ⟨fields,libEzPsf,info.name,info.psf⟩ := fun _ =>
        .inl ⟨rfl,info.ir,mem_append_right _ mem_cons_self,hrec⟩
    · refine h₁.pushInline ?_ hids
      rw [hadd.libs,hadd.irs]
      exact hfound _
    · refine h₁.pushGeneral (.inr ?_) hids
      rw [hadd.libs,hadd.irs]
      exact hfound _

/-- The parser state of PSFs that exist. -/
theorem Wf.parserState {sets : PtrSets} (hr : Registered m sets) : ∃ st, m.parserState sets=some st ∧ st.sets=sets := by
  obtain ⟨general,hgeneral⟩ : ∃ l, sets.ptrGeneralPsf.mapM (fun id =>
      m.generalPsfs[id]?.map fun psf => psf.fields)=some l := by
    refine exists_mapM fun id hid => ?_
    rw [Option.isSome_map,getElem?_eq_getElem (hr.general id hid)]
    rfl
  obtain ⟨inl,hinline⟩ : ∃ l, sets.ptrInlinePsf.mapM (fun id =>
      m.inlinePsfs[id]?.map fun psf => psf.fields)=some l := by
    refine exists_mapM fun id hid => ?_
    rw [Option.isSome_map,getElem?_eq_getElem (hr.inl id hid)]
    rfl
  have hids : ∀ id ∈ (general.flatten ++ inl.flatten).dedup, id.toNat < m.fieldNames.length := by
    intro id hid
    rw [mem_dedup] at hid
    rcases mem_append.mp hid with hid | hid
    · obtain ⟨fields,hmem,hid⟩ := mem_flatten.mp hid
      obtain ⟨x,-,hx⟩ := mem_of_mapM hgeneral hmem
      obtain ⟨psf,hpsf,rfl⟩ := Option.map_eq_some_iff.mp hx
      exact h.generalFields psf (mem_of_getElem? hpsf) id hid
    · obtain ⟨fields,hmem,hid⟩ := mem_flatten.mp hid
      obtain ⟨x,-,hx⟩ := mem_of_mapM hinline hmem
      obtain ⟨psf,hpsf,rfl⟩ := Option.map_eq_some_iff.mp hx
      exact h.inlineFields psf (mem_of_getElem? hpsf) id hid
  obtain ⟨names,hnames⟩ : ∃ l, (general.flatten ++ inl.flatten).dedup.mapM (fun id => m.fieldNames[id.toNat]?)=some l := by
    refine exists_mapM fun id hid => ?_
    rw [getElem?_eq_getElem (hids id hid)]
    rfl
  refine ⟨⟨sets,names,(general.flatten ++ inl.flatten).dedup⟩,?_,rfl⟩
  refine Option.bind_eq_some_iff.mpr ⟨general,hgeneral,?_⟩
  refine Option.bind_eq_some_iff.mpr ⟨inl,hinline,?_⟩
  exact Option.bind_eq_some_iff.mpr ⟨names,hnames,rfl⟩

omit h in
/-- A parser state is built of PSFs that exist only. -/
theorem parserState_spec {sets : PtrSets} {st : ParserState} (h : m.parserState sets=some st) :
    st.sets=sets ∧ (∀ id ∈ sets.ptrGeneralPsf, id < m.generalPsfs.length) ∧
      ∀ id ∈ sets.ptrInlinePsf, id < m.inlinePsfs.length := by
  unfold Names.parserState at h
  obtain ⟨general,hgeneral,h⟩ := Option.bind_eq_some_iff.mp h
  obtain ⟨inl,hinline,h⟩ := Option.bind_eq_some_iff.mp h
  obtain ⟨names,-,h⟩ := Option.bind_eq_some_iff.mp h
  cases h
  refine ⟨rfl,fun id hid => ?_,fun id hid => ?_⟩
  · have hsome := isSome_of_mapM hgeneral id hid
    rw [Option.isSome_map] at hsome
    exact lt_of_isSome hsome
  · have hsome := isSome_of_mapM hinline id hid
    rw [Option.isSome_map] at hsome
    exact lt_of_isSome hsome

omit h in
/-- Registration keeps the sets free of repetition. -/
theorem applyAll_nodup {sets : PtrSets} (actions : List ParserAction)
    (h : sets.ptrGeneralPsf.Nodup ∧ sets.ptrInlinePsf.Nodup) :
    (sets.applyAll actions).ptrGeneralPsf.Nodup ∧ (sets.applyAll actions).ptrInlinePsf.Nodup := by
  induction actions generalizing sets with
  | nil => exact h
  | cons a actions ih =>
    change ((sets.apply a).applyAll actions).ptrGeneralPsf.Nodup ∧ ((sets.apply a).applyAll actions).ptrInlinePsf.Nodup
    refine ih ?_
    unfold PtrSets.apply
    cases a.type with
    | registerInlinePsf => exact ⟨h.1,h.2.insert⟩
    | registerGeneralPsf => exact ⟨h.1.insert,h.2⟩
    | deregisterInlinePsf => exact ⟨h.1,h.2.filter _⟩
    | deregisterGeneralPsf => exact ⟨h.1.filter _,h.2⟩

omit h in
/-- The actions applied to one parser state. -/
theorem applyActions_spec {b : Bool} {actions : List ParserAction}
    (h : m.applyActions b actions=some m') : ∃ st,
      m'={ m with parserStates := update m.parserStates b st } ∧
      st.sets=(m.parserStates b).sets.applyAll actions ∧
      (∀ id ∈ st.sets.ptrGeneralPsf, id < m.generalPsfs.length) ∧
      ∀ id ∈ st.sets.ptrInlinePsf, id < m.inlinePsfs.length := by
  obtain ⟨st,hst,rfl⟩ := Option.map_eq_some_iff.mp h
  obtain ⟨hsets,hgeneral,hinline⟩ := parserState_spec hst
  rw [←hsets] at hgeneral hinline
  exact ⟨st,rfl,hsets,hgeneral,hinline⟩

theorem Wf.applyParserShift {actions : List ParserAction} (hs : m.applyParserShift actions=some m') : Wf p m' := by
  obtain ⟨m₁,h₁,h₂⟩ := Option.bind_eq_some_iff.mp hs
  obtain ⟨st,rfl,hst,hgeneral,hinline⟩ := applyActions_spec h₁
  obtain ⟨st',rfl,hst',-,-⟩ := applyActions_spec h₂
  have hother : (update m.parserStates (!m.systemParserNo) st (!!m.systemParserNo)).sets = (m.parserStates false).sets := by
    rw [Bool.not_not,update_of_ne (Bool.self_ne_not _)]
    exact h.both _
  -- Both states have gone from the same sets through the same actions.
  have hsame : st.sets=st'.sets := by
    rw [hst,hst']
    change _=(update m.parserStates (!m.systemParserNo) st (!!m.systemParserNo)).sets.applyAll actions
    rw [hother,h.both]
  have hall : ∀ b, ((update (update m.parserStates (!m.systemParserNo) st) (!!m.systemParserNo) st') b).sets=st.sets := by
    intro b
    by_cases hb : b=!!m.systemParserNo
    · rw [hb,update_self,hsame]
    · have hb' : b=!m.systemParserNo := by
        rw [Bool.not_not] at hb
        exact Bool.eq_not.mpr hb
      rw [update_of_ne hb,hb',update_self]
  refine { h with both := ?_, registered := ?_ }
  · intro b
    exact (hall b).trans (hall false).symm
  · refine ⟨?_,?_,?_,?_⟩ <;> rw [hall false]
    · rw [hst,h.both]
      exact (applyAll_nodup actions ⟨h.registered.general_nodup,h.registered.inline_nodup⟩).1
    · rw [hst,h.both]
      exact (applyAll_nodup actions ⟨h.registered.general_nodup,h.registered.inline_nodup⟩).2
    · exact hgeneral
    · exact hinline

theorem Wf.step {call : Call} (hs : step p m call=some m') : Wf p m' := by
  cases call with
  | loadPsfLibrary path =>
    cases hs
    exact h.loadPsfLibrary path
  | makeProjection field =>
    cases hs
    exact h.makeProjection field
  | makeGeneralPsf fields libId funcName =>
    cases hs
    exact h.makeGeneralPsf fields libId funcName
  | makeInlinePsf fields libId funcName =>
    cases hs
    exact h.makeInlinePsf fields libId funcName
  | makeEzPsf str =>
    cases hs
    exact h.makeEzPsf str
  | applyParserShift actions => exact h.applyParserShift hs

end

theorem reachable_wf (hm : Reachable (machine p) anyStep m) : Wf p m := by
  refine hm.invariant (P := Wf p) ?_ ?_
  · rintro _ rfl
    exact wf_fresh p
  · exact fun m call m' h _ hs => h.step hs

/-- The recovered tables are those of the store: field names and ids, libraries, the fields,
function and return type of every PSF, and the PSFs registered in both parser states. -/
structure SameNames (m' m : Names F) : Prop where
  fieldNames : m'.fieldNames = m.fieldNames
  fieldLookup : m'.fieldLookup = m.fieldLookup
  libs : m'.libs = m.libs
  generalPsfs : m'.generalPsfs = m.generalPsfs
  inlinePsfs : m'.inlinePsfs = m.inlinePsfs
  registered : ∀ b, (m'.parserStates b).sets = (m.parserStates b).sets

/-- The functions that `Recover` compiles from the generated code. -/
def restoredPsfs (p : Platform F) (m : Names F) : List (Text × F) :=
  m.psfIrs.map fun x => (x.1, (p.recoverPsf x.1 x.2).getD p.projection)

theorem Wf.restored (h : Wf p m) : (m.psfIrs.mapM fun x => (p.recoverPsf x.1 x.2).map fun g => (x.1, g)) =
    some (restoredPsfs p m) := by
  refine mapM_eq fun x hx => ?_
  obtain ⟨g,hg⟩ := Option.isSome_iff_exists.mp (h.irs x hx)
  rw [hg]
  rfl

theorem Wf.restored_keys (h : Wf p m) : ((restoredPsfs p m).map Prod.fst).Nodup := by
  unfold restoredPsfs
  rw [map_map]
  exact h.keys

/-- A function that can be found again is found. -/
theorem Wf.recoverEval (h : Wf p m) (hf : Found p m.libs m.psfIrs psf) :
    p.recoverEval m.libs (restoredPsfs p m) psf.line=some psf.eval ∧ psf.libId ≠ libProjection := by
  unfold Platform.recoverEval
  rcases hf with ⟨hlib,ir,hmem,hrec⟩ | ⟨i,path,hlib,hget,hsym⟩
  · refine ⟨?_,?_⟩
    · rw [if_pos (show psf.line.libId=libEzPsf from hlib)]
      refine lookup_of_mem h.restored_keys (mem_map.mpr ⟨(psf.funcName, ir),hmem,?_⟩)
      rw [hrec]
      rfl
    · rw [hlib]
      decide
  · have hnat : ¬(psf.line.libId<0) := by
      change ¬psf.libId<0
      rw [hlib]
      exact not_lt.mpr (Int.natCast_nonneg i)
    have hez : psf.line.libId ≠ libEzPsf := by
      change psf.libId ≠ -2
      rw [hlib]
      omega
    refine ⟨?_,?_⟩
    · rw [if_neg hez,if_neg hnat]
      change m.libs[psf.libId.toNat]?.bind _=_
      rw [hlib,Int.toNat_natCast,hget]
      exact hsym
    · rw [hlib]
      change (i : ℤ) ≠ -1
      omega

theorem Wf.recoverGeneral (h : Wf p m) {psf : GeneralPsf F} (hpsf : psf ∈ m.generalPsfs)
    (hret : psf.retType=.errorT) : p.recoverGeneral m.libs (restoredPsfs p m) psf.toPsf.line=some psf := by
  have hsome : (if psf.toPsf.line.libId=libProjection then some p.projection
      else p.recoverEval m.libs (restoredPsfs p m) psf.toPsf.line)=some psf.eval := by
    rcases h.general _ hpsf with ⟨hlib,heval⟩ | hf
    · rw [if_pos (show psf.toPsf.line.libId=libProjection from hlib),heval]
    · obtain ⟨heval,hne⟩ := h.recoverEval hf
      rw [if_neg (show psf.toPsf.line.libId ≠ libProjection from hne),heval]
  unfold Platform.recoverGeneral
  rw [hsome,←hret]
  rfl

theorem Wf.recoverInline (h : Wf p m) (hpsf : psf ∈ m.inlinePsfs) :
    p.recoverInline m.libs (restoredPsfs p m) psf.line=some psf := by
  unfold Platform.recoverInline
  rw [(h.recoverEval (h.inl psf hpsf)).1]
  rfl

/-- Loading what was saved into a new store gives the tables back. -/
theorem Wf.load (h : Wf p m) (hret : ∀ psf ∈ m.generalPsfs, psf.retType=.errorT) :
    ∃ m', (Names.fresh F).load p m.save=some m' ∧ SameNames m' m := by
  have hpaths : m.libs.map p.absolute=m.libs := by
    conv_rhs => rw [←map_id m.libs]
    exact map_congr_left fun path hp => (h.libs path hp).1
  have hopen : m.libs.all p.dlopen=true := all_eq_true.mpr fun path hp => (h.libs path hp).2
  have hrestored : (restoredPsfs p m).foldl emplace []=restoredPsfs p m := by
    rw [foldl_emplace (by rw [nil_append]; exact h.restored_keys),nil_append]
  have hlookup : (m.save.fields.zipIdx.map fun x => (x.1, UInt16.ofNat x.2)).foldl emplace
      (Names.fresh F).fieldLookup=m.fieldLookup := by
    change (m.fieldNames.zipIdx.map _).foldl emplace []=_
    rw [←h.lookup,foldl_emplace,nil_append]
    rw [nil_append,h.lookup_keys]
    exact h.names
  have hgeneral : (m.generalPsfs.map fun psf => psf.toPsf.line).mapM
      (p.recoverGeneral m.libs (restoredPsfs p m))=some m.generalPsfs := by
    rw [mapM_map]
    exact (mapM_eq (g := id) fun psf hp => h.recoverGeneral hp (hret psf hp)).trans (by rw [map_id])
  have hinline : (m.inlinePsfs.map Psf.line).mapM (p.recoverInline m.libs (restoredPsfs p m))=some m.inlinePsfs := by
    rw [mapM_map]
    exact (mapM_eq (g := id) fun psf hp => h.recoverInline hp).trans (by rw [List.map_id])
  -- The sets are read back as they were printed.
  have hsets : (⟨m.save.ptrGeneralPsf.foldr List.insert [],m.save.ptrInlinePsf.foldr List.insert []⟩ :
      PtrSets)=(m.parserStates false).sets := by
    rw [←h.both m.systemParserNo] at *
    have hr := h.registered
    rw [←h.both m.systemParserNo] at hr
    change PtrSets.mk ((m.parserStates m.systemParserNo).sets.ptrGeneralPsf.foldr List.insert [])
      ((m.parserStates m.systemParserNo).sets.ptrInlinePsf.foldr List.insert [])=_
    rw [foldr_insert hr.general_nodup,foldr_insert hr.inline_nodup]
  obtain ⟨st,hst,hstsets⟩ := h.parserState h.registered
  refine ⟨{ m with
      psfIrs := m.psfIrs.foldl emplace []
      parserStates := fun _ => st
      systemParserNo := false },?_,rfl,rfl,rfl,rfl,rfl,fun b => hstsets.trans (h.both b).symm⟩
  refine Option.bind_eq_some_iff.mpr ⟨(),?_,?_⟩
  · rw [show m.save.libs.map p.absolute=m.libs from hpaths,hopen]
    rfl
  refine Option.bind_eq_some_iff.mpr ⟨restoredPsfs p m,h.restored,?_⟩
  rw [hrestored,show m.save.libs.map p.absolute=m.libs from hpaths]
  refine Option.bind_eq_some_iff.mpr ⟨m.generalPsfs,hgeneral,?_⟩
  refine Option.bind_eq_some_iff.mpr ⟨m.inlinePsfs,hinline,?_⟩
  dsimp only
  rw [hsets,hlookup]
  exact Option.bind_eq_some_iff.mpr ⟨st,hst,rfl⟩

/-- Everything but the names of the fields is printed as words, there are no null
characters, and sizes fit their types. -/
structure Printable (m : Names F) : Prop where
  fewNames : m.fieldNames.length < 2 ^ 64
  fewLibs : m.libs.length < 2 ^ 63
  fewIrs : m.psfIrs.length < 2 ^ 64
  fewGeneral : ∀ psf ∈ m.generalPsfs, psf.fields.length < 2 ^ 64
  fewInline : ∀ psf ∈ m.inlinePsfs, psf.fields.length < 2 ^ 64
  names : ∀ x ∈ m.fieldNames, Char.ofNat 0 ∉ x
  libs : ∀ path ∈ m.libs, Plain path
  irs : ∀ x ∈ m.psfIrs, Plain x.1 ∧ Plain x.2
  general : ∀ psf ∈ m.generalPsfs, Plain psf.funcName
  inl : ∀ psf ∈ m.inlinePsfs, Plain psf.funcName

/-- The library of a PSF that can be found again is printed with its index. -/
theorem Found.libId (hf : Found p m.libs m.psfIrs psf) (hfew : m.libs.length<2^63) : -2^63≤psf.libId ∧ psf.libId<2^63 := by
  rcases hf with ⟨hlib,-⟩ | ⟨i,path,hlib,hget,-⟩
  · rw [hlib]
    decide
  · obtain ⟨hi,-⟩ := List.getElem?_eq_some_iff.mp hget
    rw [hlib]
    omega

/-- Ids below a bound, without repetition, are few. -/
theorem length_le_of_nodup {l : List ℕ} {n : ℕ} (hl : l.Nodup) (h : ∀ x ∈ l, x<n) : l.length≤n := by
  have hsub : l ⊆ range n := fun x hx => mem_range.mpr (h x hx)
  have hle := (hl.subperm hsub).length_le
  rwa [length_range] at hle

/-- What is saved of the tables is printable if the names of the fields are words. -/
theorem Wf.printable (h : Wf p m) (hp : Printable m) (hnames : ∀ x ∈ m.fieldNames, IsWord x) : m.save.Printable := by
  have hr := h.registered
  rw [←h.both m.systemParserNo] at hr
  have hgeneralIds : ∀ id ∈ (m.parserStates m.systemParserNo).sets.ptrGeneralPsf, id<2^14 :=
    fun id hid => (hr.general id hid).trans_le h.generalFew
  have hinlineIds : ∀ id ∈ (m.parserStates m.systemParserNo).sets.ptrInlinePsf, id<2^32 :=
    fun id hid => (hr.inl id hid).trans_le h.inlineFew
  refine ⟨⟨hp.fewNames,?_,hp.fewIrs,?_,?_,?_,?_⟩,fun x hx => ⟨hnames x hx,hp.names x hx⟩,hp.libs,
    hp.irs,?_,?_,?_,hinlineIds⟩
  · exact hp.fewLibs.trans (by decide)
  · change (m.generalPsfs.map _).length<2^64
    rw [length_map]
    exact h.generalFew.trans_lt (by decide)
  · change (m.inlinePsfs.map _).length<2^64
    rw [length_map]
    exact h.inlineFew.trans_lt (by decide)
  · exact (length_le_of_nodup hr.general_nodup hgeneralIds).trans_lt (by decide)
  · exact (length_le_of_nodup hr.inline_nodup hinlineIds).trans_lt (by decide)
  · intro l hl
    obtain ⟨psf,hpsf,rfl⟩ := mem_map.mp hl
    have hlib : -2^63≤psf.libId ∧ psf.libId<2^63 := by
      rcases h.general psf hpsf with ⟨hlib,-⟩ | hf
      · rw [hlib]
        decide
      · exact hf.libId hp.fewLibs
    exact ⟨hp.fewGeneral psf hpsf,hlib.1,hlib.2,hp.general psf hpsf⟩
  · intro l hl
    obtain ⟨psf,hpsf,rfl⟩ := mem_map.mp hl
    have hlib := (h.inl psf hpsf).libId hp.fewLibs
    exact ⟨hp.fewInline psf hpsf,hlib.1,hlib.2,hp.inl psf hpsf⟩
  · exact fun id hid => (hgeneralIds id hid).trans (by decide)

/-- A recovered PSF has the default return type. -/
theorem retType_of_recoverGeneral {libs : List Text} {restored : List (Text × F)} {l : PsfLine}
    {psf : GeneralPsf F} (h : p.recoverGeneral libs restored l=some psf) : psf.retType=.errorT := by
  obtain ⟨f,-,rfl⟩ := Option.map_eq_some_iff.mp h
  rfl

/-- What a new store has after loading a naming file. -/
theorem load_spec {f : NamingFile} (h : (Names.fresh F).load p f=some m') :
    m'.fieldNames=f.fields ∧ ∀ psf ∈ m'.generalPsfs, psf.retType=.errorT := by
  obtain ⟨-,-,h⟩ := Option.bind_eq_some_iff.mp h
  obtain ⟨restored,-,h⟩ := Option.bind_eq_some_iff.mp h
  obtain ⟨generalPsfs,hgeneral,h⟩ := Option.bind_eq_some_iff.mp h
  obtain ⟨inlinePsfs,-,h⟩ := Option.bind_eq_some_iff.mp h
  obtain ⟨st,-,h⟩ := Option.bind_eq_some_iff.mp h
  cases h
  refine ⟨rfl,fun psf hpsf => ?_⟩
  obtain ⟨l,-,hl⟩ := mem_of_mapM hgeneral hpsf
  exact retType_of_recoverGeneral hl

end

/-- A system without libraries, whose compiler knows one function that returns strings. -/
def plainPlatform : Platform ℕ where
  cwd := ['/']
  dlopen := fun _ => true
  dlsym := fun _ _ => none
  getPsf := fun str => if str = ['f'] then some ⟨7, ['f'], .strT, [['b']], ['x']⟩ else none
  recoverPsf := fun name _ => if name = ['f'] then some 7 else none
  projection := 0
  cwd_root := rfl
  recover_getPsf := by
    intro str info h
    split_ifs at h
    cases h
    rfl

/-- The tables after a projection on the field `a` was made and registered. -/
def oneProjection : Names ℕ where
  fieldNames := [['a']]
  fieldLookup := [(['a'], 0)]
  libs := []
  psfIrs := []
  generalPsfs := [⟨⟨[0], libProjection, ['p', 'r', 'o', 'j'], 0⟩, .errorT⟩]
  inlinePsfs := []
  parserStates := fun _ => ⟨⟨[0], []⟩, [['a']], [0]⟩
  systemParserNo := true

theorem oneProjection_reachable : Reachable (machine plainPlatform) anyStep oneProjection := by
  refine ⟨.fresh ℕ,rfl,?_⟩
  refine (Run.single (a := .makeProjection ['a']) trivial rfl).tail
    (a := .applyParserShift [⟨.registerGeneralPsf,0⟩]) trivial ?_
  refine (congrArg (fun st => some { oneProjection with parserStates := st }) ?_)
  funext b
  cases b <;> rfl

theorem oneProjection_printable : Printable oneProjection := by refine ⟨?_,?_,?_,?_,?_,?_,?_,?_,?_,?_⟩ <;> decide

end FishStore.NamesRecovered
