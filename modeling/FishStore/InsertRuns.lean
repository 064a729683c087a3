import FishStore.InsertInvariant

/-!
# Insertion without garbage collection

What a step of the system can do to the hash index, said once: nothing, a step
of a lookup, the swap of a bucket entry by an insertion, or the cleaner's swap.
Without garbage collection an entry that a lookup returned keeps its tag, so
that every run satisfies the guard of the invariant. It follows that hash
entries are unique, and that chains are descending and lose nothing.
-/

namespace FishStore.InsertRuns

open Layout Chains HashIndex BucketInvariant EntryInvariant InternalInsert ChainInvariant
open InsertInvariant Runs

/-- What a step does to the hash index. -/
inductive IndexChange (size : ℕ) (s : State) : Label → Index → Prop
  | same (label : Label) : IndexChange size s label s.index
  | lookup {t ro : ℕ} {L : Lookup} : looks size s.pc t = some L →
      IndexChange size s (.thread t (.step ro)) (lookupStep L.idx L.tag t s.index L.pc).1
  | swap {t ro a i : ℕ} {ctx : InsertContext} {helpers : ℕ → HashBucketCASHelper} :
      s.pc t = .insert ctx helpers (.casEntry a i (s.index.entries (helpers i).atomicEntry)) →
      IndexChange size s (.thread t (.step ro)) (s.index.setEntry (helpers i).atomicEntry
        ⟨kptAddress a i, (ctx.hash i).tag, false⟩)
  | clean {t ro n last idx i : ℕ} {b : BucketRef} :
      s.pc t = .cleanCas n last idx b i (s.index.entries ⟨b, i⟩) →
      IndexChange size s (.thread t (.step ro)) (s.index.setEntry ⟨b, i⟩ kInvalidEntry)

section

variable {size : ℕ} {s s' : State} {t u ro : ℕ} {label : Label} {m m' : Index}
  {ctx : InsertContext} {helpers : ℕ → HashBucketCASHelper}

/-- What a step of thread `t` leaves alone: the begin address, the other
threads, and the key pointers linked so far. -/
structure ThreadFrame (s s' : State) (t : ℕ) : Prop where
  begin_eq : s'.beginAddress = s.beginAddress
  others : ∀ u, u ≠ t → s'.pc u = s.pc u
  linked_sub : ∀ l ∈ s.linked, l ∈ s'.linked

theorem ThreadFrame.goto {s₁ : State} {p : Pc} (hb : s₁.beginAddress=s.beginAddress) (hpc : s₁.pc=s.pc)
    (hl : ∀ l ∈ s.linked, l ∈ s₁.linked) : ThreadFrame s (s₁.goto t p) t := by
  refine ⟨hb,fun u hu => ?_,hl⟩
  rw [←hpc]
  exact Function.update_of_ne hu ..

theorem insertStep_change {pc : InsertPc} (hp : s.pc t=.insert ctx helpers pc) :
    IndexChange size s (.thread t (.step ro)) (insertStep size t ro s ctx helpers pc).index ∧
      ThreadFrame s (insertStep size t ro s ctx helpers pc) t := by
  cases pc with
  | lookup i pc =>
    have hL : looks size s.pc t=some ⟨(ctx.hash i).idx size,(ctx.hash i).tag,pc⟩ := by
      unfold looks
      rw [hp]
      rfl
    simp only [insertStep]
    split <;> exact ⟨.lookup hL,.goto rfl rfl fun _ hl => hl⟩
  | reserve =>
    simp only [insertStep]
    split <;> exact ⟨.same _,.goto rfl rfl fun _ hl => hl⟩
  | reserved a =>
    simp only [insertStep]
    split_ifs <;> exact ⟨.same _,.goto rfl rfl fun _ hl => hl⟩
  | casEntry a i e =>
    simp only [insertStep]
    split_ifs with hcas
    · subst hcas
      exact ⟨.swap hp,.goto rfl rfl fun _ hl => List.mem_cons_of_mem _ hl⟩
    · exact ⟨.same _,.goto rfl rfl fun _ hl => hl⟩
    · exact ⟨.same _,.goto rfl rfl fun _ hl => hl⟩
  | alter a i kpt w =>
    simp only [insertStep]
    split_ifs
    · exact ⟨.same _,.goto rfl rfl fun _ hl => List.mem_cons_of_mem _ hl⟩
    · exact ⟨.same _,.goto rfl rfl fun _ hl => hl⟩
  | _ => exact ⟨.same _,.goto rfl rfl fun _ hl => hl⟩

theorem callStep_change (hs : callStep size t ro s (s.pc t)=some s') :
    IndexChange size s (.thread t (.step ro)) s'.index ∧ ThreadFrame s s' t := by
  cases hp : s.pc t with
  | create hash pc =>
    have hL : looks size s.pc t=some ⟨hash.idx size,hash.tag,pc⟩ := by
      unfold looks
      rw [hp]
      rfl
    simp only [hp,callStep] at hs
    split at hs <;> cases hs <;> exact ⟨.lookup hL,.goto rfl rfl fun _ hl => hl⟩
  | insert ctx helpers pc =>
    rw [hp] at hs
    cases hs
    exact insertStep_change hp
  | find hash b i =>
    simp only [hp,callStep] at hs
    split at hs <;> cases hs <;> exact ⟨.same _,.goto rfl rfl fun _ hl => hl⟩
  | clean n last idx b i =>
    rw [hp] at hs
    cases hs
    exact ⟨.same _,.goto rfl rfl fun _ hl => hl⟩
  | cleanCas n last idx b i e =>
    simp only [hp,callStep] at hs
    cases hs
    split_ifs with hcas
    · subst hcas
      exact ⟨.clean hp,.goto rfl rfl fun _ hl => hl⟩
    · exact ⟨.same _,.goto rfl rfl fun _ hl => hl⟩
  | _ => rw [hp] at hs; cases hs

/-- What a step of a thread can do. -/
theorem thread_change {act : Act} (hs : step size s (.thread t act)=some s') :
    IndexChange size s (.thread t act) s'.index ∧ ThreadFrame s s' t := by
  cases act with
  | step ro => exact callStep_change hs
  | cprShift =>
    simp only [step] at hs
    split at hs <;> cases hs
    exact ⟨.same _,.goto rfl rfl fun _ hl => hl⟩
  | _ =>
    simp only [step] at hs
    split_ifs at hs
    obtain ⟨p,_,rfl⟩ := Option.map_eq_some_iff.mp hs
    exact ⟨.same _,.goto rfl rfl fun _ hl => hl⟩

theorem step_indexChange (hs : step size s label=some s') : IndexChange size s label s'.index := by
  cases label with
  | shiftBegin address =>
    cases hs
    exact .same _
  | thread t act => exact (thread_change hs).1

theorem thread_frame {act : Act} (hs : step size s (.thread t act)=some s') :
    ThreadFrame s s' t := (thread_change hs).2

/-- Chains of buckets only grow. -/
theorem next_mono (h : Inv size s) (hs : step size s label=some s') :
    ∀ c d, s.index.next c=some d → s'.index.next c=some d := by
  have hc := step_indexChange hs
  generalize s'.index=m' at hc ⊢
  cases hc with
  | same | swap hp | clean hp => exact fun _ _ hc => hc
  | lookup hL => exact (h.index.lookupFrame hL).next_mono

/-- Key pointers that are linked stay linked. -/
theorem linked_mono (hs : step size s label=some s') : ∀ l ∈ s.linked, l ∈ s'.linked := by
  cases label with
  | shiftBegin address =>
    cases hs
    exact fun _ hl => hl
  | thread t act => exact (thread_frame hs).linked_sub

/-- An entry in use keeps its tag until it is cleared: a swap that satisfies
the guard replaces an entry of the key pointer's own tag or an unused one. -/
theorem tag_kept (h : Inv size s) (hguard : casGuard size s label) (hs : step size s label=some s')
    {x : Slot} (hx : s.index.entries x ≠ kInvalidEntry) (hx' : s'.index.entries x ≠ kInvalidEntry) :
    (s'.index.entries x).tag=(s.index.entries x).tag := by
  have hc := step_indexChange hs
  generalize s'.index=m' at hc hx' ⊢
  cases hc with
  | same => rfl
  | lookup hL => exact h.index.lookup_tag hL hx hx'
  | @swap t ro a i ctx helpers hp =>
    by_cases hy : x=(helpers i).atomicEntry
    · subst hy
      rw [setEntry_self]
      rcases (casGuard_swap hguard hp).1 rfl with hh | ⟨h0,_⟩
      · exact hh.2.symm
      · exact absurd h0 hx
    · rw [setEntry_of_ne hy]
  | @clean t ro n last idx i b hp =>
    by_cases hy : x=⟨b,i⟩
    · subst hy
      rw [setEntry_self] at hx'
      exact absurd rfl hx'
    · rw [setEntry_of_ne hy]

/-- The step belongs to garbage collection. -/
def collects : Label → Bool
  | .shiftBegin _ => true
  | .thread _ (.cleanHashTableBuckets _ _) => true
  | _ => false

/-- The steps without garbage collection. -/
def noGc : Guard State Label := fun _ label => collects label = false

/-- The number of key pointers for which the entry was found. -/
def looked (ctx : InsertContext) : InsertPc → ℕ
  | .lookup i _ => i
  | _ => ctx.kpts.length

/-- What lookups returned is still there, and no thread cleans. -/
def PcFound (size : ℕ) (m : Index) : Pc → Prop
  | .insert ctx helpers pc => ∀ j < looked ctx pc,
      InChain m.next ((ctx.hash j).idx size) (helpers j).atomicEntry ∧
        Holds m (helpers j).atomicEntry (ctx.hash j).tag
  | .created hash x e =>
      InChain m.next (hash.idx size) x ∧ Holds m x hash.tag ∧ e.Final ∧ e.tag = hash.tag
  | .clean _ _ _ _ _ => False
  | .cleanCas _ _ _ _ _ _ => False
  | _ => True

/-- The invariant without garbage collection. -/
structure NoGcInv (size : ℕ) (s : State) : Prop where
  inv : Inv size s
  begin_eq : s.beginAddress = firstAddress
  found : ∀ t, PcFound size s.index (s.pc t)

theorem PcFound.mono {p : Pc} (h : PcFound size m p) (hholds : ∀ x tag, Holds m x tag → Holds m' x tag)
    (hnext : ∀ c d, m.next c=some d → m'.next c=some d) : PcFound size m' p := by
  cases p with
  | insert ctx helpers pc =>
    intro j hj
    obtain ⟨hin,hx⟩ := h j hj
    exact ⟨InChain.mono hnext hin,hholds _ _ hx⟩
  | created hash x e =>
    obtain ⟨hin,hx,hrest⟩ := h
    exact ⟨InChain.mono hnext hin,hholds x _ hx,hrest⟩
  | clean n last idx b i => exact h
  | cleanCas n last idx b i e => exact h
  | _ => trivial

/-- Without garbage collection a step satisfies the guard on swaps. -/
theorem NoGcInv.casGuard (h : NoGcInv size s) (hg : noGc s label) : casGuard size s label := by
  cases label with
  | shiftBegin address => exact Bool.noConfusion hg
  | thread t act =>
    cases act with
    | step ro =>
      unfold InsertInvariant.casGuard
      simp only
      split
      · rename_i ctx helpers a i e hp
        have hlt : i<ctx.kpts.length := (h.inv.insertOk hp).1.lt
        have hf := h.found t
        rw [hp] at hf
        have hh : Holds s.index (helpers i).atomicEntry (ctx.hash i).tag := (hf i hlt).2
        exact ⟨fun _ => .inl hh,fun _ _ => hh.2⟩
      · trivial
    | _ => trivial

/-- Without garbage collection a non-tentative entry stays. -/
theorem NoGcInv.holds_mono (h : NoGcInv size s) (hs : step size s label=some s') :
    ∀ x tag, Holds s.index x tag → Holds s'.index x tag := by
  intro x tag hx
  have hc := step_indexChange hs
  generalize s'.index=m' at hc ⊢
  cases hc with
  | same => exact hx
  | lookup hL =>
    unfold Holds
    rw [(h.inv.index.lookupFrame hL).final_kept x hx.1]
    exact hx
  | @swap t ro a i ctx helpers hp =>
    by_cases hy : x=(helpers i).atomicEntry
    · subst hy
      have hl := (h.inv.insertOk hp).1
      have hf := h.found t
      rw [hp] at hf
      have hh : Holds s.index (helpers i).atomicEntry (ctx.hash i).tag := (hf i hl.lt).2
      rw [holds_setEntry_self]
      refine ⟨⟨?_,rfl⟩,hh.2.symm.trans hx.2⟩
      intro h0
      have : kptAddress a i=0 := congrArg HashBucketEntry.address h0
      unfold kptAddress sizeofRecordInfo at this
      omega
    · exact (holds_setEntry_of_ne hy).mpr hx
  | @clean t ro n last idx i b hp =>
    have hf := h.found t
    rw [hp] at hf
    exact hf.elim

theorem looked_linkFrom (a i : ℕ) : looked ctx (linkFrom ctx a i)=ctx.kpts.length := by
  unfold linkFrom
  split_ifs <;> rfl

theorem looked_spliceFrom (a i kpt : ℕ) (w : KptWord) : looked ctx (spliceFrom a i kpt w)=ctx.kpts.length := by
  unfold spliceFrom
  split_ifs <;> rfl

theorem looked_lookupFrom {i : ℕ} : looked ctx (lookupFrom size ctx (i%2^16)) ≤ i := by
  have hle := Nat.mod_le i (2^16)
  unfold lookupFrom
  split_ifs with hlt
  · exact hle
  · simp only [looked]
    omega

theorem goto_pc (s : State) (t : ℕ) (p : Pc) : (s.goto t p).pc t=p := Function.update_self ..

/-- A thread that moves on within an insertion has still found what it had. -/
theorem pcFound_goto {pc : InsertPc} {s₁ : State}
    (hf : ∀ j<ctx.kpts.length,
      InChain s₁.index.next ((ctx.hash j).idx size) (helpers j).atomicEntry ∧
        Holds s₁.index (helpers j).atomicEntry (ctx.hash j).tag)
    (hpc : looked ctx pc=ctx.kpts.length) :
    PcFound size (s₁.goto t (.insert ctx helpers pc)).index
      ((s₁.goto t (.insert ctx helpers pc)).pc t) := by
  rw [goto_pc]
  intro j hj
  exact hf j (by rw [←hpc]; exact hj)

section

variable (h : NoGcInv size s)

include h

theorem NoGcInv.lookup_found {i : ℕ} {pc : LookupPc} (hp : s.pc t=.insert ctx helpers (.lookup i pc)) :
    PcFound size (insertStep size t ro s ctx helpers (.lookup i pc)).index
      ((insertStep size t ro s ctx helpers (.lookup i pc)).pc t) := by
  have hf := h.found t
  rw [hp] at hf
  have hL : looks size s.pc t=some ⟨(ctx.hash i).idx size,(ctx.hash i).tag,pc⟩ := by
    unfold looks
    rw [hp]
    rfl
  have hframe := h.inv.index.lookupFrame hL
  have hold : ∀ j < i, InChain (lookupStep ((ctx.hash i).idx size) (ctx.hash i).tag t s.index pc).1.next
        ((ctx.hash j).idx size) (helpers j).atomicEntry ∧
      Holds (lookupStep ((ctx.hash i).idx size) (ctx.hash i).tag t s.index pc).1
        (helpers j).atomicEntry (ctx.hash j).tag := by
    intro j hj
    obtain ⟨hin,hh⟩ := hf j hj
    refine ⟨InChain.mono hframe.next_mono hin,?_⟩
    unfold Holds
    rw [hframe.final_kept _ hh.1]
    exact hh
  cases hr : (lookupStep ((ctx.hash i).idx size) (ctx.hash i).tag t s.index pc).2 with
  | more pc' =>
    simp only [insertStep,hr]
    rw [goto_pc]
    exact hold
  | done x e =>
    simp only [insertStep,hr]
    rw [goto_pc]
    obtain ⟨hin,hholds,_⟩ := h.inv.index.lookup_done hL hr
    intro j hj
    have hji : j < i+1 := lt_of_lt_of_le hj looked_lookupFrom
    by_cases hj' : j=i
    · subst hj'
      rw [Function.update_self]
      exact ⟨InChain.mono hframe.next_mono hin,hholds⟩
    · rw [Function.update_of_ne hj']
      exact hold j (by omega)

theorem NoGcInv.insert_found {pc : InsertPc} (hp : s.pc t=.insert ctx helpers pc)
    (hmono : ∀ x tag, Holds s.index x tag → Holds (insertStep size t ro s ctx helpers pc).index x tag) :
    PcFound size (insertStep size t ro s ctx helpers pc).index ((insertStep size t ro s ctx helpers pc).pc t) := by
  have hf := h.found t
  rw [hp] at hf
  cases pc with
  | lookup i pc => exact h.lookup_found hp
  | reserve =>
    simp only [insertStep]
    split <;> exact pcFound_goto hf rfl
  | reserved a =>
    simp only [insertStep]
    split_ifs
    · exact pcFound_goto hf rfl
    · exact pcFound_goto hf (looked_linkFrom a 0)
  | casEntry a i e =>
    simp only [insertStep] at hmono ⊢
    split_ifs at hmono ⊢
    · exact pcFound_goto (fun j hj => ⟨(hf j hj).1,hmono _ _ (hf j hj).2⟩) (looked_linkFrom a (i+1))
    · exact pcFound_goto hf rfl
    · exact pcFound_goto hf rfl
  | loadKpt a i kpt => exact pcFound_goto hf (looked_spliceFrom a i kpt _)
  | alter a i kpt w =>
    simp only [insertStep]
    split_ifs
    · exact pcFound_goto hf (looked_linkFrom a (i+1))
    · exact pcFound_goto hf (looked_spliceFrom a i kpt _)
  | finish a =>
    simp only [insertStep]
    rw [goto_pc]
    trivial
  | _ => exact pcFound_goto hf rfl

theorem NoGcInv.create_found {hash : KeyHash} {pc : LookupPc}
    (hp : s.pc t=.create hash pc) (hs : callStep size t ro s (.create hash pc)=some s') :
    PcFound size s'.index (s'.pc t) := by
  have hL : looks size s.pc t=some ⟨hash.idx size,hash.tag,pc⟩ := by
    unfold looks
    rw [hp]
    rfl
  cases hr : (lookupStep (hash.idx size) hash.tag t s.index pc).2 with
  | more pc' =>
    simp only [callStep,hr] at hs
    cases hs
    rw [goto_pc]
    trivial
  | done x e =>
    simp only [callStep,hr] at hs
    cases hs
    rw [goto_pc]
    obtain ⟨hin,hholds,he⟩ := h.inv.index.lookup_done hL hr
    have hframe := h.inv.index.lookupFrame hL
    refine ⟨InChain.mono hframe.next_mono hin,hholds,?_⟩
    rw [←he]
    exact hholds

theorem NoGcInv.call_found (hs : callStep size t ro s (s.pc t)=some s')
    (hmono : ∀ x tag, Holds s.index x tag → Holds s'.index x tag) : PcFound size s'.index (s'.pc t) := by
  have hf := h.found t
  cases hp : s.pc t with
  | create hash pc => exact h.create_found hp (by rw [←hs,hp])
  | insert ctx helpers pc =>
    rw [hp] at hs
    cases hs
    exact h.insert_found hp hmono
  | find hash b i =>
    simp only [hp,callStep] at hs
    split at hs <;> cases hs <;> rw [goto_pc] <;> trivial
  | clean n last idx b i | cleanCas n last idx b i e =>
    rw [hp] at hf
    exact hf.elim
  | _ => rw [hp] at hs; cases hs

/-- Every step without garbage collection keeps the invariant. -/
theorem NoGcInv.step (hg : noGc s label) (hs : InternalInsert.step size s label=some s') : NoGcInv size s' := by
  have hmono := h.holds_mono hs
  cases label with
  | shiftBegin address => exact Bool.noConfusion hg
  | thread t act =>
    have hframe := thread_frame hs
    refine ⟨h.inv.step (h.casGuard hg) hs,hframe.begin_eq.trans h.begin_eq,fun u => ?_⟩
    by_cases hu : u=t
    · subst hu
      cases act with
      | step ro => exact h.call_found hs hmono
      | cprShift =>
        simp only [InternalInsert.step] at hs
        split at hs
        · cases hs
          rw [goto_pc]
          trivial
        · cases hs
      | cleanHashTableBuckets first last => exact Bool.noConfusion hg
      | internalInsert ctx =>
        simp only [InternalInsert.step] at hs
        split_ifs at hs
        cases hs
        rw [goto_pc]
        intro j hj
        have hzero : looked ctx (lookupFrom size ctx 0)≤0 := looked_lookupFrom (i := 0)
        exact absurd (lt_of_lt_of_le hj hzero) (Nat.not_lt_zero j)
      | _ =>
        simp only [InternalInsert.step] at hs
        split_ifs at hs
        cases hs
        rw [goto_pc]
        trivial
    · rw [hframe.others u hu]
      exact (h.found u).mono hmono (next_mono h.inv hs)

end

theorem noGcInv_empty (size : ℕ) : NoGcInv size .empty := ⟨inv_empty size,rfl,fun _ => trivial⟩

theorem reachable_noGcInv (hs : Reachable (machine size) noGc s) : NoGcInv size s := by
  refine hs.invariant ?_ ?_
  · rintro s rfl
    exact noGcInv_empty size
  · intro s label s' h hg hstep
    exact h.step hg hstep

end

end FishStore.InsertRuns
