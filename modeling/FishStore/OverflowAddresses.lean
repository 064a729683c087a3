import FishStore.HashIndex
import FishStore.Runs

/-!
# Addresses of overflow buckets

`MallocFixedPageSize` gives out addresses from a counter. A freed address goes to the free
list of the thread that frees it, and comes back to that thread once its removal
epoch is safe. `Initialize` sets the counter to zero and takes the null address with
an ordinary call of `Allocate`; the free lists stay.
-/

namespace FishStore.OverflowAddresses

open Runs HashIndex List
open Function (update update_self update_of_ne)

/-- `FreeAddress`. -/
structure FreeAddress where
  removedAddr : ℕ
  removalEpoch : ℕ
  deriving DecidableEq

/-- The allocator, and what was given out. -/
structure State where
  /-- `page_array_` is not null. -/
  pages : Bool
  /-- `count_`. -/
  count : ℕ
  /-- `free_list_`, by thread. -/
  freeList : ℕ → List FreeAddress
  /-- `safe_to_reclaim_epoch`. -/
  safeToReclaimEpoch : ℕ
  /-- The thread is in `Initialize`, about to allocate the null address. -/
  initializing : ℕ → Bool
  /-- History: the addresses given out since the last `Initialize` and not freed. -/
  inUse : Finset ℕ

/-- The allocator as it is constructed. -/
def State.new (safeToReclaimEpoch : ℕ) : State := ⟨false, 0, fun _ => [], safeToReclaimEpoch, fun _ => false, ∅⟩

/-- `Initialize` has returned, in every thread that called it. -/
def State.Ready (s : State) : Prop := s.pages = true ∧ ∀ t, s.initializing t = false

/-- `count_++`. -/
def State.fresh (s : State) : ℕ × State := (s.count, { s with count := (s.count + 1) % 2 ^ 64 })

/-- `Allocate` by a thread: the address, and the allocator. -/
def State.allocate (s : State) (t : ℕ) : ℕ × State :=
  match s.freeList t with
  | f :: rest =>
    if f.removalEpoch ≤ s.safeToReclaimEpoch then
      (f.removedAddr, { s with freeList := update s.freeList t rest })
    else s.fresh
  | [] => s.fresh

inductive Label
  /-- `Initialize` resets the allocator. -/
  | reset (t : ℕ)
  /-- It allocates the null address and returns. -/
  | reserve (t : ℕ)
  | allocate (t : ℕ)
  /-- A thread frees an address that is in use. -/
  | freeAtEpoch (t addr removedEpoch : ℕ)
  /-- The epochs move on. -/
  | reclaim (epoch : ℕ)

def step (s : State) : Label → Option State
  | .reset t =>
    if s.initializing t then none
    else some { s with pages := true, count := 0, initializing := update s.initializing t true, inUse := ∅ }
  | .reserve t =>
    if s.initializing t then some { (s.allocate t).2 with initializing := update s.initializing t false } else none
  | .allocate t =>
    if s.pages ∧ ¬s.initializing t then some { (s.allocate t).2 with inUse := insert (s.allocate t).1 s.inUse }
    else none
  | .freeAtEpoch t addr removedEpoch =>
    if addr ∈ s.inUse ∧ ¬s.initializing t then
      some { s with
        freeList := update s.freeList t (s.freeList t ++ [⟨addr, removedEpoch⟩])
        inUse := s.inUse.erase addr }
    else none
  | .reclaim epoch => some { s with safeToReclaimEpoch := epoch }

def machine : Machine State Label := ⟨fun s => ∃ epoch, s = .new epoch, step⟩

/-- The allocator is initialized while it has no freed address and is not in use, and the counter
does not wrap. -/
def quiet : Guard State Label
  | s, .reset _ => (∀ t, s.freeList t = []) ∧ ∀ t, s.initializing t = false
  | s, .allocate _ => (∀ t, s.initializing t = false) ∧ s.count + 1 < 2 ^ 64
  | _, _ => True

/-- The addresses that a thread has freed. -/
def State.freed (s : State) (t : ℕ) : List ℕ := (s.freeList t).map FreeAddress.removedAddr

/-- Every address is at one place at most. -/
structure Inv (s : State) : Prop where
  used : ∀ a ∈ s.inUse, 0 < a ∧ a < s.count
  listed : ∀ t, ∀ a ∈ s.freed t, (0 < a ∧ a < s.count) ∧ a ∉ s.inUse
  nodup : ∀ t, (s.freed t).Nodup
  one : ∀ t u a, a ∈ s.freed t → a ∈ s.freed u → t = u
  /-- Between the reset and the allocation of the null address nothing is given out. -/
  clear : ∀ t, s.initializing t = true → s.count = 0 ∧ (∀ u, s.freeList u = []) ∧
    ∀ u, s.initializing u = true → u = t
  /-- The null address has been given out. -/
  null : s.Ready → 0 < s.count

variable {s s' : State} {t : ℕ}

/-- What `Allocate` can do. -/
theorem allocate_cases (s : State) (t : ℕ) : (∃ f rest, s.freeList t=f::rest ∧
      s.allocate t=(f.removedAddr, { s with freeList := update s.freeList t rest })) ∨ s.allocate t=s.fresh := by
  unfold State.allocate
  cases s.freeList t with
  | nil => exact .inr rfl
  | cons f rest =>
    dsimp only
    split_ifs
    · exact .inl ⟨f,rest,rfl,rfl⟩
    · exact .inr rfl

/-- The allocator of the hash index is this one, with all removal epochs zero. -/
theorem allocate_index {m : Index} (hcount : s.count=m.count)
    (hfree : s.freeList t=(m.freeList t).map fun n => ⟨n,0⟩) : (s.allocate t).1=(m.allocate t).1 := by
  unfold State.allocate Index.allocate
  rw [hfree]
  cases m.freeList t with
  | nil => exact hcount
  | cons n rest => exact congrArg Prod.fst (if_pos (Nat.zero_le _))

/-- The address of `Allocate` is not in use. -/
theorem Inv.fresh (h : Inv s) (hready : s.Ready) (t : ℕ) : 0<(s.allocate t).1 ∧ (s.allocate t).1 ∉ s.inUse := by
  rcases allocate_cases s t with ⟨f,rest,hf,heq⟩ | heq
  · have hmem : f.removedAddr ∈ s.freed t := by
      unfold State.freed
      rw [hf]
      exact mem_cons_self
    rw [heq]
    exact ⟨(h.listed t _ hmem).1.1,(h.listed t _ hmem).2⟩
  · rw [heq]
    exact ⟨h.null hready,fun hin => absurd (h.used _ hin).2 (lt_irrefl _)⟩

theorem freed_update (l : List FreeAddress) (u : ℕ) :
    State.freed { s with freeList := update s.freeList t l } u =
      if u=t then l.map FreeAddress.removedAddr else s.freed u := by
  split_ifs with hut
  · rw [hut]
    exact congrArg (map _) (update_self t l s.freeList)
  · exact congrArg (map _) (update_of_ne hut l s.freeList)

/-- `Allocate` takes an address from its place. -/
theorem Inv.allocate (h : Inv s) (hready : s.Ready) (hcount : s.count+1<2^64) (t : ℕ) :
    Inv { (s.allocate t).2 with inUse := insert (s.allocate t).1 s.inUse } := by
  have hnew := h.fresh hready t
  rcases allocate_cases s t with ⟨f,rest,hf,heq⟩ | heq <;> rw [heq] at hnew ⊢
  · have hfreed : s.freed t=f.removedAddr::rest.map FreeAddress.removedAddr := congrArg (map _) hf
    have hnodup := h.nodup t
    rw [hfreed] at hnodup
    have hown : f.removedAddr ∈ s.freed t := hfreed ▸ mem_cons_self
    -- What is still listed was listed before, and is another address.
    have hold : ∀ u a, a ∈ State.freed { s with freeList := update s.freeList t rest } u →
        a ∈ s.freed u ∧ a ≠ f.removedAddr := by
      intro u a ha
      rw [freed_update] at ha
      split_ifs at ha with hut
      · rw [hut,hfreed]
        exact ⟨mem_cons_of_mem _ ha,fun he => (nodup_cons.mp hnodup).1 (he ▸ ha)⟩
      · exact ⟨ha,fun he => hut (h.one u t a ha (he ▸ hown))⟩
    refine ⟨?_,fun u a ha => ?_,fun u => ?_,fun u v a hu hv => ?_,fun u hu => ?_,fun _ => h.null hready⟩
    · exact Finset.forall_mem_insert _ _ _ |>.mpr ⟨(h.listed t _ hown).1,h.used⟩
    · obtain ⟨hin,hne⟩ := hold u a ha
      refine ⟨(h.listed u a hin).1,?_⟩
      rw [Finset.mem_insert,not_or]
      exact ⟨hne,(h.listed u a hin).2⟩
    · change (State.freed { s with freeList := update s.freeList t rest } u).Nodup
      rw [freed_update]
      split_ifs
      · exact (nodup_cons.mp hnodup).2
      · exact h.nodup u
    · exact h.one u v a (hold u a hu).1 (hold v a hv).1
    · exact absurd hu (by rw [hready.2 u]; decide)
  · have hmod : (s.count+1)%2^64=s.count+1 := Nat.mod_eq_of_lt hcount
    unfold State.fresh
    rw [hmod]
    refine ⟨?_,fun u a ha => ?_,h.nodup,h.one,fun u hu => ?_,fun _ => Nat.succ_pos _⟩
    · refine (Finset.forall_mem_insert _ _ _).mpr ⟨⟨h.null hready,Nat.lt_succ_self _⟩,fun a ha => ?_⟩
      exact ⟨(h.used a ha).1,(h.used a ha).2.trans (Nat.lt_succ_self _)⟩
    · obtain ⟨⟨hpos,hlt⟩,hin⟩ := h.listed u a ha
      refine ⟨⟨hpos,hlt.trans (Nat.lt_succ_self _)⟩,?_⟩
      rw [Finset.mem_insert,not_or]
      exact ⟨hlt.ne,hin⟩
    · exact absurd hu (by rw [hready.2 u]; decide)

/-- `FreeAtEpoch` moves an address to the list of the thread. -/
theorem Inv.free (h : Inv s) {addr epoch : ℕ} (hin : addr ∈ s.inUse)
    (hready : ∀ t, s.initializing t=false) (t : ℕ) : Inv { s with
      freeList := update s.freeList t (s.freeList t ++ [⟨addr,epoch⟩])
      inUse := s.inUse.erase addr } := by
  have hnew : ∀ u, addr ∉ s.freed u := fun u hu => (h.listed u addr hu).2 hin
  have hmem : ∀ u a, a ∈ State.freed { s with freeList := update s.freeList t (s.freeList t ++ [⟨addr,epoch⟩]) } u →
      a ∈ s.freed u ∨ (u=t ∧ a=addr) := by
    intro u a ha
    rw [freed_update] at ha
    split_ifs at ha with hut
    · rw [map_append] at ha
      exact (mem_append.mp ha).imp (hut ▸ id) fun ha => ⟨hut,mem_singleton.mp ha⟩
    · exact .inl ha
  refine ⟨fun a ha => h.used a (Finset.mem_of_mem_erase ha),fun u a ha => ?_,fun u => ?_,fun u v a hu hv => ?_,
    fun u hu => ?_,h.null⟩
  · rcases hmem u a ha with ha | ⟨-,rfl⟩
    · exact ⟨(h.listed u a ha).1,fun he => (h.listed u a ha).2 (Finset.mem_of_mem_erase he)⟩
    · exact ⟨h.used a hin,Finset.notMem_erase a _⟩
  · change (State.freed { s with freeList := update s.freeList t (s.freeList t ++ [⟨addr,epoch⟩]) } u).Nodup
    rw [freed_update]
    split_ifs
    · rw [map_append]
      exact (h.nodup t).append (nodup_singleton _) (disjoint_singleton.mpr (hnew t))
    · exact h.nodup u
  · rcases hmem u a hu with hu | ⟨hut,rfl⟩ <;> rcases hmem v a hv with hv | ⟨hvt,heq⟩
    · exact h.one u v a hu hv
    · exact absurd hu (heq ▸ hnew u)
    · exact absurd hv (hnew v)
    · rw [hut,hvt]
  · exact absurd hu (by rw [hready u]; decide)

theorem Inv.step (h : Inv s) {label : Label} (hok : quiet s label) (hs : step s label=some s') : Inv s' := by
  cases label with
  | reset t =>
    obtain ⟨-,hs⟩ := Option.ite_none_left_eq_some.mp hs
    cases hs
    have hnone : ∀ u, State.freed s u=[] := fun u => congrArg (map _) (hok.1 u)
    have hself : update s.initializing t true t=true := update_self _ _ _
    have hsole : ∀ u, update s.initializing t true u=true → u=t := by
      intro u hu
      by_contra hut
      rw [update_of_ne hut,hok.2 u] at hu
      cases hu
    refine ⟨fun a ha => absurd ha (Finset.notMem_empty a),fun u a ha => ?_,h.nodup,h.one,fun u hu => ?_, fun hready => ?_⟩
    · exact absurd (hnone u ▸ ha) not_mem_nil
    · exact ⟨rfl,hok.1,fun v hv => (hsole v hv).trans (hsole u hu).symm⟩
    · exact absurd (hself.symm.trans (hready.2 t)) (by decide)
  | reserve t =>
    obtain ⟨hinit,rfl⟩ := of_guard hs
    obtain ⟨hzero,hnone,hsole⟩ := h.clear t hinit
    have hfresh : s.allocate t=s.fresh := by
      unfold State.allocate
      rw [hnone t]
    have hfreed : ∀ u, State.freed s u=[] := fun u => congrArg (map _) (hnone u)
    rw [hfresh]
    unfold State.fresh
    rw [hzero]
    refine ⟨fun a ha => ?_,fun u a ha => ?_,h.nodup,h.one,fun u hu => ?_,fun _ => Nat.zero_lt_one⟩
    · exact absurd (hzero ▸ (h.used a ha).2) (Nat.not_lt_zero a)
    · exact absurd (hfreed u ▸ ha) not_mem_nil
    · by_cases hut : u=t
      · rw [hut] at hu
        exact absurd (hu.symm.trans (update_self _ _ _)) (by decide)
      · exact absurd (hsole u ((update_of_ne hut false s.initializing).symm.trans hu)) hut
  | allocate t =>
    obtain ⟨⟨hpages,-⟩,rfl⟩ := of_guard hs
    exact h.allocate ⟨hpages,hok.1⟩ hok.2 t
  | freeAtEpoch t addr epoch =>
    obtain ⟨⟨hin,-⟩,rfl⟩ := of_guard hs
    refine h.free hin (fun u => ?_) t
    by_contra hu
    obtain ⟨hzero,-⟩ := h.clear u (Bool.of_not_eq_false hu)
    exact absurd (hzero ▸ (h.used addr hin).2) (Nat.not_lt_zero addr)
  | reclaim epoch =>
    cases hs
    exact ⟨h.used,h.listed,h.nodup,h.one,h.clear,h.null⟩

theorem initialized_again {f : ℕ → Bool} (hf : ∀ u, f u=false) (t : ℕ) : ∀ u, update (update f t true) t false u=false := by
  intro u
  by_cases hut : u=t
  · rw [hut,update_self]
  · rw [update_of_ne hut,update_of_ne hut,hf u]

end FishStore.OverflowAddresses
