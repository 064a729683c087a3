import FishStore.InsertRuns

/-!
# Properties of hash entries and hash chains

The results for whole runs of lookups, insertions and cleaners: hash entries
are unique, chains of linked key pointers are descending and complete, and an
insertion that overlaps garbage collection is not lost as long as the swaps of
bucket entries meet their condition. The last part runs the code into a state
where that condition fails and a completed insertion is lost.
-/

namespace FishStore.HashChains

open Layout Chains HashIndex BucketInvariant EntryInvariant InternalInsert ChainInvariant
open InsertInvariant InsertRuns Runs

section

variable {size : ℕ} {s s' : State} {t : ℕ} {label : Label} {hash : KeyHash} {x : Slot}

/-- Steps without garbage collection in which the thread starts no call. -/
def sameCall (t : ℕ) : Guard State Label :=
  fun s label => noGc s label ∧ ∀ act, label = .thread t act → ∃ ro, act = .step ro

/-- The walk of `FindEntry` has the entry ahead, or has found one. -/
def Finding (s : State) (t : ℕ) (hash : KeyHash) (x : Slot) : Prop :=
  (∃ b i, s.pc t = .find hash b i ∧ i ≤ kNumEntries ∧ Ahead s.index.next b i x.bucket x.idx) ∨
    ∃ y, s.pc t = .found hash (some y)

/-- An access of `FindEntry` does not pass the entry of its tag. -/
theorem finding_step {ro : ℕ} (hx : InChain s.index.next (hash.idx size) x)
    (hh : Holds s.index x hash.tag) (hf : Finding s t hash x)
    (hs : callStep size t ro s (s.pc t)=some s') : Finding s' t hash x := by
  rcases hf with ⟨b,i,hp,hi,ha⟩ | ⟨y,hp⟩
  · rw [hp] at hs
    by_cases hlt : i<kNumEntries
    · by_cases hb : Holds s.index ⟨b,i⟩ hash.tag
      · simp only [callStep,findStep_hit hlt hb] at hs
        cases hs
        exact .inr ⟨_,goto_pc s t _⟩
      · simp only [callStep,findStep_pass hlt hb] at hs
        cases hs
        refine .inl ⟨b,i+1,goto_pc s t _,hlt,Ahead.advance ha ?_⟩
        rintro ⟨rfl,rfl⟩
        exact hb hh
    · have hend : i=kNumEntries := by omega
      subst hend
      cases hn : s.index.next b with
      | none => exact absurd ha (not_ahead_of_end hx.2 hn)
      | some c =>
        simp only [callStep,findStep_hop hn] at hs
        cases hs
        exact .inl ⟨c,0,goto_pc s t _,Nat.zero_le _,Ahead.hop ha hx.2 hn⟩
  · rw [hp] at hs
    cases hs

/-- A non-tentative entry stays in its chain. -/
theorem holds_run {idx tag : ℕ} (h : NoGcInv size s) (hr : Run (machine size) noGc s s')
    (hx : InChain s.index.next idx x) (hh : Holds s.index x tag) :
    NoGcInv size s' ∧ InChain s'.index.next idx x ∧ Holds s'.index x tag := by
  refine hr.invariant (P := fun s => NoGcInv size s ∧ InChain s.index.next idx x ∧ Holds s.index x tag) ?_ ⟨h,hx,hh⟩
  rintro s label s' ⟨h,hx,hh⟩ hg hs
  exact ⟨h.step hg hs,InChain.mono (next_mono h.inv hs) hx,h.holds_mono hs x tag hh⟩

/-- A call of `FindEntry` that begins while an entry of its tag exists finds
one. -/
theorem finding_run (h : NoGcInv size s) (hr : Run (machine size) (sameCall t) s s')
    (hx : InChain s.index.next (hash.idx size) x) (hh : Holds s.index x hash.tag)
    (hf : Finding s t hash x) : Finding s' t hash x := by
  have hall := hr.invariant (P := fun s => (NoGcInv size s ∧
    InChain s.index.next (hash.idx size) x ∧ Holds s.index x hash.tag) ∧ Finding s t hash x) ?_
    ⟨⟨h,hx,hh⟩,hf⟩
  · exact hall.2
  · rintro s label s' ⟨⟨h,hx,hh⟩,hf⟩ ⟨hg,hsame⟩ hs
    have hnext := next_mono h.inv hs
    refine ⟨⟨h.step hg hs,InChain.mono hnext hx,h.holds_mono hs x _ hh⟩,?_⟩
    cases label with
    | shiftBegin address => exact Bool.noConfusion hg
    | thread u act =>
      by_cases hu : t=u
      · subst hu
        obtain ⟨ro,rfl⟩ := hsame act rfl
        exact finding_step hx hh hf hs
      · -- Another thread moves: chains grow, and the walk stays where it is.
        have hpc := (thread_frame hs).others t hu
        rcases hf with ⟨b,i,hp,hi,ha⟩ | ⟨y,hp⟩
        · exact .inl ⟨b,i,by rw [hpc,hp],hi,ha.mono hnext⟩
        · exact .inr ⟨y,by rw [hpc,hp]⟩

/-- Hash entries without garbage collection: a chain holds at most one
non-tentative entry of a tag; a call of `FindOrCreateEntry` that returned has
yielded the non-tentative entry of its tag in the chain of its hash, and so has
every lookup of an insertion; non-tentative entries never disappear; and
`FindEntry` returns the null pointer only if there was no non-tentative entry
of its tag when its walk began. -/
theorem findOrCreateEntry_unique (hs : Reachable (machine size) noGc s) :
    (∀ idx x y tag, InChain s.index.next idx x → InChain s.index.next idx y →
      Holds s.index x tag → Holds s.index y tag → x = y) ∧
    (∀ t hash x e, s.pc t = .created hash x e → InChain s.index.next (hash.idx size) x ∧
      Holds s.index x hash.tag ∧ e.Final ∧ e.tag = hash.tag) ∧
    (∀ t ctx helpers pc, s.pc t = .insert ctx helpers pc → ∀ j < looked ctx pc,
      InChain s.index.next ((ctx.hash j).idx size) (helpers j).atomicEntry ∧
      Holds s.index (helpers j).atomicEntry (ctx.hash j).tag) ∧
    (∀ s' idx x tag, Run (machine size) noGc s s' → InChain s.index.next idx x →
      Holds s.index x tag → InChain s'.index.next idx x ∧ Holds s'.index x tag) ∧
    (∀ t hash s', s.pc t = .find hash (.base (hash.idx size)) 0 →
      Run (machine size) (sameCall t) s s' → s'.pc t = .found hash none →
      ¬ ∃ x, InChain s.index.next (hash.idx size) x ∧ Holds s.index x hash.tag) := by
  have h := reachable_noGcInv hs
  refine ⟨h.inv.index.entries.final_unique,?_,?_,?_,?_⟩
  · intro t hash x e hp
    have hf := h.found t
    rw [hp] at hf
    exact hf
  · intro t ctx helpers pc hp
    have hf := h.found t
    rw [hp] at hf
    exact hf
  · intro s' idx x tag hr hx hh
    exact (holds_run h hr hx hh).2
  · rintro t hash s' hp hr hp' ⟨x,hx,hh⟩
    have hf : Finding s t hash x :=
      .inl ⟨_,0,hp,Nat.zero_le _,ahead_of_reaches hx.1 x.idx⟩
    rcases finding_run h hr hx hh hf with ⟨b,i,hq,_⟩ | ⟨y,hq⟩
    · rw [hp'] at hq
      cases hq
    · rw [hp'] at hq
      cases hq

/-- A key pointer for a hash of tag 5 and of tag 6 on a table of one bucket. -/
def hashOf (tag : ℕ) : KeyHash := ⟨tag * 2 ^ 48⟩

/-- A record with one field-based key pointer of the tag. -/
def recordOf (tag : ℕ) : InsertContext :=
  ⟨[hashOf tag], 1, 8, 0, le_rfl, (by decide : padAlignment (8 + 16 * 1 + 8 + 0) 8 < 2 ^ 32)⟩

/-- The next `n` steps of a thread. -/
def steps (t n : ℕ) : List Label := List.replicate n (.thread t (.step 0))

/-- One call of `FindOrCreateEntry` on the empty table: a scan of the bucket, the
tentative entry, a scan for conflicts, the final store. -/
def createTrace : List Label := .thread 0 (.findOrCreateEntry (hashOf 5)) :: steps 0 19

/-- The guard of steps without garbage collection, evaluated. -/
def noGcCheck : State → Label → Bool := fun _ label => !collects label

theorem noGc_of_check (s : State) (label : Label) (h : noGcCheck s label=true) : noGc s label := by
  unfold noGcCheck at h
  rw [Bool.not_eq_true'] at h
  exact h

theorem findOrCreateEntry_unique_created : ∃ s, Reachable (machine 1) noGc s ∧
    ∃ x e, s.pc 0 = .created (hashOf 5) x e ∧ InChain s.index.next 0 x ∧ Holds s.index x 5 := by
  have hrun : (execGuarded (machine 1) noGcCheck .empty createTrace).any (fun s =>
      match s.pc 0 with
      | .created hash _ _ => decide (hash=hashOf 5)
      | _ => false)=true := by decide +kernel
  obtain ⟨s,hr,hp⟩ := exists_run_of_execGuarded noGc_of_check hrun
  have hs : Reachable (machine 1) noGc s := ⟨_,rfl,hr⟩
  refine ⟨s,hs,?_⟩
  split at hp
  · rename_i hash x e hpc
    rw [decide_eq_true_iff] at hp
    subst hp
    obtain ⟨hin,hh,_⟩ := (findOrCreateEntry_unique hs).2.1 0 _ x e hpc
    exact ⟨x,e,hpc,hin,hh⟩
  · cases hp

/-- Chains without garbage collection: from every bucket entry the previous
addresses are strictly decreasing and end at an invalid address; a key pointer
whose linking swap succeeded is, from then on, visited exactly once from its
own entry, the non-tentative entry of its tag in the chain of its hash; and its
mode and index bits never change. -/
theorem internalInsert_chains (hs : Reachable (machine size) noGc s) :
    (∀ x, ∃ w, Walk kInvalidAddress (prevOf s.kpts) (s.index.entries x).address w ∧
      w.Pairwise (· > ·)) ∧
    (∀ l ∈ s.linked, ∀ s', Run (machine size) noGc s s' →
      InChain s'.index.next (l.hash.idx size) l.slot ∧ Holds s'.index l.slot l.hash.tag ∧
      (∃ w, Walk kInvalidAddress (prevOf s'.kpts) (s'.index.entries l.slot).address w ∧
        w.Pairwise (· > ·) ∧ w.count l.address = 1) ∧
      (s'.kpts l.address).mode = (s.kpts l.address).mode ∧
      (s'.kpts l.address).ptrOffset = (s.kpts l.address).ptrOffset) := by
  have h := reachable_noGcInv hs
  have hwalk : ∀ {s : State}, NoGcInv size s → ∀ x, ∃ w,
      Walk kInvalidAddress (prevOf s.kpts) (s.index.entries x).address w ∧ w.Pairwise (· > ·) := by
    intro s h x
    obtain ⟨w,hw,hdec,_⟩ := exists_walk h.inv.chains.descends (h.inv.chains.entry_onLog x)
    exact ⟨w,hw,hdec⟩
  refine ⟨hwalk h,?_⟩
  intro l hl s' hr
  obtain ⟨h',hl'⟩ := hr.invariant (P := fun s => NoGcInv size s ∧ l ∈ s.linked)
    (fun s label s' h hg hst => ⟨h.1.step hg hst,linked_mono hst l h.2⟩) ⟨h,hl⟩
  have hrange := (h'.inv.chains.link_range l hl').1
  obtain ⟨hh,hv⟩ := h'.inv.chains.live l hl' (by rw [h'.begin_eq]; exact hrange)
  obtain ⟨w,hw,hdec⟩ := hwalk h' l.slot
  have hlast : kInvalidAddress<l.address := by
    unfold firstAddress at hrange
    unfold kInvalidAddress
    omega
  obtain ⟨hmode,hoff⟩ := h.inv.chains.link_bits l hl
  obtain ⟨hmode',hoff'⟩ := h'.inv.chains.link_bits l hl'
  exact ⟨h'.inv.chains.link_slot l hl',hh,⟨w,hw,hdec,hw.count_eq_one hdec hv hlast⟩,
    hmode'.trans hmode.symm,hoff'.trans hoff.symm⟩

/-- One insertion of a record with one key pointer into the empty table. -/
def insertTrace (t tag : ℕ) : List Label :=
  .thread t (.internalInsert (recordOf tag)) :: steps t 24

theorem internalInsert_chains_one : ∃ s, Reachable (machine 1) noGc s ∧ ∃ l ∈ s.linked,
    ∃ w, Walk kInvalidAddress (prevOf s.kpts) (s.index.entries l.slot).address w ∧
      w.count l.address = 1 := by
  have hrun : (execGuarded (machine 1) noGcCheck .empty (insertTrace 0 5)).any (fun s =>
      s.linked.any fun _ => true)=true := by decide +kernel
  obtain ⟨s,hr,hp⟩ := exists_run_of_execGuarded noGc_of_check hrun
  have hs : Reachable (machine 1) noGc s := ⟨_,rfl,hr⟩
  obtain ⟨l,hl,_⟩ := List.any_eq_true.mp hp
  obtain ⟨_,_,⟨w,hw,_,hcount⟩,_⟩ := (internalInsert_chains hs).2 l hl s (.refl s)
  exact ⟨s,hs,l,hl,w,hw,hcount⟩

/-- Insertion that overlaps garbage collection, in runs whose steps satisfy the
guard: each key pointer of a completed insertion that is not below the begin
address is visited from the entry that `FindEntry` of its hash returns; a chain
of buckets holds at most one non-tentative entry of a tag; and no step changes
the tag of an entry in use. -/
theorem internalInsert_survives_gc (hs : Reachable (machine size) (casGuard size) s) :
    (∀ r ∈ s.completed, ∀ i < r.2.kpts.length, s.beginAddress ≤ kptAddress r.1 i →
      ∃ fuel x, findEntry size s.index (r.2.hash i) fuel = some (some x) ∧
        Visits kInvalidAddress (prevOf s.kpts) (s.index.entries x).address (kptAddress r.1 i)) ∧
    (∀ idx x y tag, InChain s.index.next idx x → InChain s.index.next idx y →
      Holds s.index x tag → Holds s.index y tag → x = y) ∧
    (∀ label s', casGuard size s label → step size s label = some s' → ∀ x,
      s.index.entries x ≠ kInvalidEntry → s'.index.entries x ≠ kInvalidEntry →
      (s'.index.entries x).tag = (s.index.entries x).tag) := by
  have h := reachable_inv hs
  refine ⟨?_,h.index.entries.final_unique,fun label s' hg hst x hx hx' => tag_kept h hg hst hx hx'⟩
  intro r hr i hi hb
  obtain ⟨l,hl,haddr,hhash⟩ := h.completed r hr i hi
  rw [←haddr] at hb ⊢
  obtain ⟨hh,hv⟩ := h.chains.live l hl hb
  have hin := h.chains.link_slot l hl
  rw [hhash] at hh hin
  have hfind : ∃ fuel, findLoop (r.2.hash i).tag s.index fuel (.base ((r.2.hash i).idx size)) 0 =
      some (some l.slot) := by
    refine findLoop_found hin.1 hin.2 hh fun y hy hyi hhy => ?_
    exact h.index.entries.final_unique _ _ _ _ ⟨hy,hyi⟩ hin hhy hh
  obtain ⟨fuel,hf⟩ := hfind
  exact ⟨fuel,l.slot,hf,hv⟩

/-- A check that is sufficient for the guard: swaps see their own tag. -/
def casCheck (s : State) : Label → Bool
  | .shiftBegin address => decide (s.beginAddress ≤ address)
  | .thread t (.step _) =>
    match s.pc t with
    | .insert ctx helpers (.casEntry _ i _) =>
      decide ((s.index.entries (helpers i).atomicEntry).Final ∧
        (s.index.entries (helpers i).atomicEntry).tag = (ctx.hash i).tag)
    | _ => true
  | _ => true

theorem casGuard_of_check (size : ℕ) (s : State) (label : Label) (h : casCheck s label=true) : casGuard size s label := by
  cases label with
  | shiftBegin address =>
    simp only [casCheck,decide_eq_true_eq] at h
    exact h
  | thread t act =>
    cases act with
    | step ro =>
      simp only [casCheck] at h
      simp only [casGuard]
      split
      · rename_i ctx helpers a i e hp
        simp only [hp,decide_eq_true_eq] at h
        have hh : Holds s.index (helpers i).atomicEntry (ctx.hash i).tag := h
        exact ⟨fun _ => .inl hh,fun _ _ => hh.2⟩
      · trivial
    | _ => trivial

/-- A record is inserted, the log is truncated up to it, its entry is cleaned,
and a record of the same tag is inserted again. -/
def gcTrace : List Label :=
  insertTrace 0 5 ++ [.shiftBegin 104, .thread 1 (.cleanHashTableBuckets 0 1)] ++ steps 1 2 ++
    insertTrace 0 5

theorem internalInsert_survives_gc_twice : ∃ s, Reachable (machine 1) (casGuard 1) s ∧
    ∃ r ∈ s.completed, s.beginAddress ≤ kptAddress r.1 0 ∧
      ∃ fuel x, findEntry 1 s.index (r.2.hash 0) fuel = some (some x) ∧
        Visits kInvalidAddress (prevOf s.kpts) (s.index.entries x).address (kptAddress r.1 0) := by
  have hrun : (execGuarded (machine 1) casCheck .empty gcTrace).any (fun s =>
      s.completed.any fun r => decide (s.beginAddress≤kptAddress r.1 0) &&
        decide (0<r.2.kpts.length))=true := by decide +kernel
  obtain ⟨s,hr,hp⟩ := exists_run_of_execGuarded (casGuard_of_check 1) hrun
  have hs : Reachable (machine 1) (casGuard 1) s := ⟨_,rfl,hr⟩
  obtain ⟨r,hr,hd⟩ := List.any_eq_true.mp hp
  rw [Bool.and_eq_true,decide_eq_true_iff,decide_eq_true_iff] at hd
  exact ⟨s,hs,r,hr,hd.1,(internalInsert_survives_gc hs).1 r hr 0 hd.2 hd.1⟩

/-- Two records of tag 5 and one of tag 6. The second insertion of tag 5 has
looked up the entry of the first record when that entry is cleaned; the slot is
then used for tag 6, and the retry of the second insertion overwrites it. -/
def lostTrace : List Label :=
  insertTrace 0 5 ++ [.thread 1 (.internalInsert (recordOf 5))] ++ steps 1 1 ++
    [.shiftBegin 104, .thread 2 (.cleanHashTableBuckets 0 1)] ++ steps 2 2 ++
    insertTrace 3 6 ++ steps 1 6

/-- A completed insertion of a record that is not truncated is lost: `FindEntry`
of its hash returns the null pointer. -/
theorem internalInsert_lost : ∃ s, Reachable (machine 1) anyStep s ∧ ∃ r ∈ s.completed,
    0 < r.2.kpts.length ∧ s.beginAddress ≤ kptAddress r.1 0 ∧
      findEntry 1 s.index (r.2.hash 0) 8 = some none := by
  have hrun : (exec (machine 1) .empty lostTrace).any (fun s => s.completed.any fun r =>
      decide (0<r.2.kpts.length ∧ s.beginAddress≤kptAddress r.1 0 ∧
        findEntry 1 s.index (r.2.hash 0) 8=some none))=true := by decide +kernel
  obtain ⟨s,hr,hp⟩ := exists_run_of_exec hrun
  obtain ⟨r,hm,hd⟩ := List.any_eq_true.mp hp
  exact ⟨s,⟨_,rfl,hr⟩,r,hm,decide_eq_true_iff.mp hd⟩

end

end FishStore.HashChains
