import FishStore.HashIndex

/-!
# Buckets under concurrent lookups

The invariant of the overflow buckets with the lookups in progress: overflow
pointers lead to distinct allocated buckets, buckets that wait in a free list
or in a thread are not linked, and every lookup stands in the chain of its
own hash. It is preserved by every access to the overflow pointers and to the
allocator.
-/

namespace FishStore.BucketInvariant

open Layout Chains HashIndex
open Function (update update_apply update_of_ne update_self)

/-- A call of `FindOrCreateEntry` in progress. -/
structure Lookup where
  /-- Index of the bucket of the call's hash. -/
  idx : ℕ
  /-- Tag of the call's hash. -/
  tag : ℕ
  /-- Where the call stands. -/
  pc : LookupPc

/-- The slot whose tentative entry the call has installed. -/
def owns : LookupPc → Option Slot
  | .ownTag x => some x
  | .conflict x _ _ _ => some x
  | .backOff x => some x
  | .commit x => some x
  | _ => none

/-- The overflow bucket that the call has allocated and not yet linked. -/
def held : LookupPc → Option ℕ
  | .install _ n => some n
  | .release n _ => some n
  | _ => none

/-- Everything the call points at lies in the chain of its hash. -/
def Placed (next : BucketRef → Option BucketRef) (idx tag : ℕ) : LookupPc → Prop
  | .scan b i free => Reaches next (.base idx) b ∧ i ≤ kNumEntries ∧
      ∀ x, free = some x → InChain next idx x
  | .allocate b => Reaches next (.base idx) b
  | .install b _ => Reaches next (.base idx) b
  | .release _ c => Reaches next (.base idx) c
  | .claim x => InChain next idx x
  | .ownTag x => InChain next idx x
  | .conflict x own b i => InChain next idx x ∧ own = tag ∧ Reaches next (.base idx) b ∧
      i ≤ kNumEntries
  | .backOff x => InChain next idx x
  | .commit x => InChain next idx x

/-- The owner is still going to read the slot before it decides to commit, or
has decided to back off. -/
def Sees (next : BucketRef → Option BucketRef) (y : Slot) : LookupPc → Prop
  | .conflict _ _ b i => Ahead next b i y.bucket y.idx
  | .commit _ => False
  | _ => True

section

variable {m m' : Index} {looks : ℕ → Option Lookup} {t u n idx tag : ℕ} {L K : Lookup}
  {o : Option Lookup} {x y : Slot} {b c : BucketRef} {e : HashBucketEntry}
  {next next' : BucketRef → Option BucketRef}

section

variable (h : ∀ c d, next c=some d → next' c=some d)

include h

theorem InChain.mono (hx : InChain next idx x) : InChain next' idx x := ⟨hx.1.mono h,hx.2⟩

theorem Placed.mono {pc : LookupPc} (hp : Placed next idx tag pc) : Placed next' idx tag pc := by
  cases pc with
  | scan b i free =>
    obtain ⟨hb,hi,hfree⟩ := hp
    exact ⟨hb.mono h,hi,fun x hx => InChain.mono h (hfree x hx)⟩
  | conflict x own b i =>
    obtain ⟨hx,hown,hb,hi⟩ := hp
    exact ⟨InChain.mono h hx,hown,hb.mono h,hi⟩
  | allocate b | install b n | release n c => exact Reaches.mono h hp
  | claim x | ownTag x | backOff x | commit x => exact InChain.mono h hp

theorem Sees.mono {pc : LookupPc} (hs : Sees next y pc) : Sees next' y pc := by
  cases pc with
  | conflict x own b i => exact Ahead.mono h hs
  | commit x => exact hs
  | _ => trivial

end

/-- A call that owns a slot has that slot in its chain. -/
theorem Placed.owns_inChain {pc : LookupPc} (hp : Placed next idx tag pc) (hx : owns pc=some x) : InChain next idx x := by
  cases pc with
  | ownTag y | backOff y | commit y => cases hx; exact hp
  | conflict y own b i => cases hx; exact hp.1
  | _ => cases hx

/-- The calls after thread `t` moved on. -/
theorem update_eq_some (h : update looks t o u=some K) : (u=t ∧ o=some K) ∨ (u ≠ t ∧ looks u=some K) := by
  by_cases hu : u=t
  · subst hu
    rw [update_self] at h
    exact .inl ⟨rfl,h⟩
  · rw [update_of_ne hu] at h
    exact .inr ⟨hu,h⟩

/-- The overflow bucket is neither linked nor lost: a thread holds it or has
it in its free list. -/
def Spare (m : Index) (looks : ℕ → Option Lookup) (n : ℕ) : Prop :=
  (∃ t, n ∈ m.freeList t) ∨ ∃ t L, looks t = some L ∧ held L.pc = some n

/-- Overflow buckets and the places of lookups. -/
structure BucketInv (m : Index) (looks : ℕ → Option Lookup) : Prop where
  /-- Address zero is taken. -/
  count_pos : 0 < m.count
  /-- Linked buckets were allocated. -/
  pointed_lt : ∀ b, m.overflowEntry b ≠ 0 → m.overflowEntry b < m.count
  /-- A bucket is linked in one place. -/
  pointed_inj : ∀ b c, m.overflowEntry b ≠ 0 → m.overflowEntry b = m.overflowEntry c → b = c
  /-- Only buckets of a chain of the table have overflow pointers. -/
  pointed_attached : ∀ b, m.overflowEntry b ≠ 0 → ∃ j, Reaches m.next (.base j) b
  /-- Spare buckets were allocated and are not linked. -/
  spare : ∀ n, Spare m looks n → 0 < n ∧ n < m.count ∧ ∀ b, m.overflowEntry b ≠ n
  /-- A free list has no bucket twice. -/
  free_nodup : ∀ t, (m.freeList t).Nodup
  /-- No bucket is in two free lists. -/
  free_disjoint : ∀ t u n, n ∈ m.freeList t → n ∈ m.freeList u → t = u
  /-- A bucket in a free list is held by no thread. -/
  held_not_free : ∀ t u L n, looks t = some L → held L.pc = some n → n ∉ m.freeList u
  /-- No bucket is held by two threads. -/
  held_unique : ∀ t u L K n, looks t = some L → looks u = some K →
    held L.pc = some n → held K.pc = some n → t = u
  /-- Lookups stand in their own chains. -/
  placed : ∀ t L, looks t = some L → Placed m.next L.idx L.tag L.pc

theorem next_eq_some (h : m.next b=some c) : m.overflowEntry b ≠ 0 ∧ c=.overflow (m.overflowEntry b) := by
  unfold Index.next at h
  split_ifs at h with h0
  cases h
  exact ⟨h0,rfl⟩

theorem next_eq_none (h : m.next b=none) : m.overflowEntry b=0 := by
  unfold Index.next at h
  split_ifs at h with h0
  exact h0

/-- A bucket lies in the chain of one index only. -/
theorem BucketInv.chain_unique (h : BucketInv m looks) {i j : ℕ}
    (hi : Reaches m.next (.base i) b) (hj : Reaches m.next (.base j) b) : i=j := by
  -- Along the first chain: a bucket of the table is led to from nowhere, an
  -- overflow bucket from one bucket only.
  induction hi with
  | refl =>
    have hn : ∀ c, m.next c ≠ some (.base i) := by
      intro c hc
      have := (next_eq_some hc).2
      cases this
    have := Reaches.eq_of_unlinked hn hj
    injection this with h'
    exact h'.symm
  | tail _ hb ih =>
    obtain ⟨hne,rfl⟩ := next_eq_some hb
    cases hj with
    | tail hj' hb' =>
      obtain ⟨hne',he⟩ := next_eq_some hb'
      injection he with he
      have hbc := h.pointed_inj _ _ hne he
      subst hbc
      exact ih hj'

/-- A lookup that keeps the buckets it holds keeps the bucket invariant. -/
theorem BucketInv.move (h : BucketInv m looks) (hheld : ∀ K n, o=some K → held K.pc=some n →
      ∃ L, looks t=some L ∧ held L.pc=some n)
    (hplaced : ∀ K, o=some K → Placed m.next K.idx K.tag K.pc) : BucketInv m (update looks t o) := by
  have hold : ∀ u K n, update looks t o u=some K → held K.pc=some n → ∃ L, looks u=some L ∧ held L.pc=some n := by
    intro u K n hu hn
    rcases update_eq_some hu with ⟨rfl,ho⟩ | ⟨_,hu⟩
    · exact hheld K n ho hn
    · exact ⟨K,hu,hn⟩
  refine ⟨h.count_pos,h.pointed_lt,h.pointed_inj,h.pointed_attached,?_,h.free_nodup, h.free_disjoint,?_,?_,?_⟩
  · rintro n (hfree | ⟨u,K,hu,hn⟩)
    · exact h.spare n (.inl hfree)
    · obtain ⟨L,hL,hn'⟩ := hold u K n hu hn
      exact h.spare n (.inr ⟨u,L,hL,hn'⟩)
  · intro u v K n hu hn
    obtain ⟨L,hL,hn'⟩ := hold u K n hu hn
    exact h.held_not_free u v L n hL hn'
  · intro u v K K' n hu hv hn hn'
    obtain ⟨L,hL,hLn⟩ := hold u K n hu hn
    obtain ⟨L',hL',hLn'⟩ := hold v K' n hv hn'
    exact h.held_unique u v L L' n hL hL' hLn hLn'
  · intro u K hu
    rcases update_eq_some hu with ⟨rfl,ho⟩ | ⟨_,hu⟩
    · exact hplaced K ho
    · exact h.placed u K hu

/-- The bucket invariant does not read the entries. -/
theorem BucketInv.setEntry (h : BucketInv m looks) (x : Slot) (e : HashBucketEntry) : BucketInv (m.setEntry x e) looks :=
  ⟨h.count_pos,h.pointed_lt,h.pointed_inj,h.pointed_attached,h.spare,h.free_nodup,
    h.free_disjoint,h.held_not_free,h.held_unique,h.placed⟩

/-- What `Allocate` does: the bucket it returns is allocated, linked nowhere,
held by no thread and in no free list any more. -/
structure Allocated (m : Index) (looks : ℕ → Option Lookup) (a : ℕ) (m' : Index) : Prop where
  entries_eq : m'.entries = m.entries
  overflow_eq : m'.overflowEntry = m.overflowEntry
  count_le : m.count ≤ m'.count
  free_sub : ∀ u n, n ∈ m'.freeList u → n ∈ m.freeList u ∧ n ≠ a
  free_nodup : ∀ u, (m'.freeList u).Nodup
  spare : 0 < a ∧ a < m'.count ∧ ∀ b, m.overflowEntry b ≠ a
  not_held : ∀ u K, looks u = some K → held K.pc ≠ some a

theorem BucketInv.allocated (h : BucketInv m looks) (t : ℕ) : Allocated m looks (m.allocate t).1 (m.allocate t).2 := by
  cases hf : m.freeList t with
  | nil =>
    have hm : m.allocate t=(m.count, { m with count := m.count+1 }) := by
      unfold Index.allocate
      rw [hf]
    rw [hm]
    refine ⟨rfl,rfl,Nat.le_succ _,?_,h.free_nodup,⟨h.count_pos,Nat.lt_succ_self _,?_⟩,?_⟩
    · intro u n hn
      exact ⟨hn,(h.spare n (.inl ⟨u,hn⟩)).2.1.ne⟩
    · intro c (hc : m.overflowEntry c=m.count)
      have hpos := h.count_pos
      have := h.pointed_lt c (by omega)
      omega
    · intro u K hu hk
      exact absurd (h.spare _ (.inr ⟨u,K,hu,hk⟩)).2.1 (lt_irrefl _)
  | cons a rest =>
    have hat : a ∈ m.freeList t := by
      rw [hf]
      exact List.mem_cons_self
    have hnd : a ∉ rest ∧ rest.Nodup := by
      have := h.free_nodup t
      rw [hf] at this
      exact List.nodup_cons.mp this
    have hm : m.allocate t=(a, { m with freeList := update m.freeList t rest }) := by
      unfold Index.allocate
      rw [hf]
    rw [hm]
    refine ⟨rfl,rfl,le_rfl,?_,?_,h.spare a (.inl ⟨t,hat⟩),?_⟩
    · intro u n hn
      by_cases hu : u=t
      · subst hu
        simp only [update_self] at hn
        rw [hf]
        refine ⟨List.mem_cons_of_mem _ hn,?_⟩
        rintro rfl
        exact hnd.1 hn
      · simp only [update_of_ne hu] at hn
        refine ⟨hn,?_⟩
        rintro rfl
        exact hu (h.free_disjoint u t _ hn hat)
    · intro u
      by_cases hu : u=t
      · subst hu
        simp only [update_self]
        exact hnd.2
      · simp only [update_of_ne hu]
        exact h.free_nodup u
    · intro u K hu hk
      exact h.held_not_free u t K a hu hk hat

/-- The thread that allocated a bucket holds it. -/
theorem BucketInv.hold {a : ℕ} (h : BucketInv m looks) (ha : Allocated m looks a m')
    (hb : Reaches m.next (.base L.idx) b) :
    BucketInv m' (update looks t (some { L with pc := .install b a })) := by
  have hnext : m'.next=m.next := by
    funext c
    unfold Index.next
    rw [ha.overflow_eq]
  have hheld : ∀ u K n, update looks t (some { L with pc := .install b a }) u=some K →
      held K.pc=some n → (u=t ∧ n=a) ∨ (u ≠ t ∧ n ≠ a ∧ looks u=some K) := by
    intro u K n hu hn
    rcases update_eq_some hu with ⟨rfl,ho⟩ | ⟨hne,hu'⟩
    · cases ho
      cases hn
      exact .inl ⟨rfl,rfl⟩
    · exact .inr ⟨hne,fun hna => ha.not_held u K hu' (hna ▸ hn),hu'⟩
  refine ⟨h.count_pos.trans_le ha.count_le,?_,?_,?_,?_,ha.free_nodup,?_,?_,?_,?_⟩
  · rw [ha.overflow_eq]
    intro c hc
    exact (h.pointed_lt c hc).trans_le ha.count_le
  · rw [ha.overflow_eq]
    exact h.pointed_inj
  · rw [ha.overflow_eq,hnext]
    exact h.pointed_attached
  · rw [ha.overflow_eq]
    intro n hn
    have hsp : n=a ∨ Spare m looks n := by
      rcases hn with ⟨u,hu⟩ | ⟨u,K,hu,hk⟩
      · exact .inr (.inl ⟨u,(ha.free_sub u n hu).1⟩)
      · rcases hheld u K n hu hk with ⟨_,rfl⟩ | ⟨_,_,hu⟩
        · exact .inl rfl
        · exact .inr (.inr ⟨u,K,hu,hk⟩)
    rcases hsp with rfl | hsp
    · exact ha.spare
    · obtain ⟨hpos,hlt,hun⟩ := h.spare n hsp
      exact ⟨hpos,hlt.trans_le ha.count_le,hun⟩
  · intro u v n hu hv
    exact h.free_disjoint u v n (ha.free_sub u n hu).1 (ha.free_sub v n hv).1
  · intro u v K n hu hn hmem
    rcases hheld u K n hu hn with ⟨_,rfl⟩ | ⟨_,_,hu⟩
    · exact (ha.free_sub v _ hmem).2 rfl
    · exact h.held_not_free u v K n hu hn (ha.free_sub v n hmem).1
  · intro u v K K' n hu hv hn hn'
    rcases hheld u K n hu hn with ⟨rfl,rfl⟩ | ⟨_,hna,hu⟩ <;>
      rcases hheld v K' n hv hn' with ⟨rfl,hva⟩ | ⟨_,hva,hv⟩
    · rfl
    · exact absurd rfl hva
    · exact absurd hva hna
    · exact h.held_unique u v K K' n hu hv hn hn'
  · intro u K hu
    rw [hnext]
    rcases update_eq_some hu with ⟨rfl,ho⟩ | ⟨_,hu⟩
    · cases ho
      exact hb
    · exact h.placed u K hu

/-- Returning a bucket that the thread holds keeps it spare. -/
theorem BucketInv.freeAtEpoch (h : BucketInv m looks) (hL : looks t=some L) (hpc : held L.pc=some n)
    (hb : Reaches m.next (.base L.idx) b) : BucketInv (m.freeAtEpoch t n)
      (update looks t (some { L with pc := .scan b 0 none })) := by
  have hmem : ∀ u k, k ∈ update m.freeList t (m.freeList t ++ [n]) u → k ∈ m.freeList u ∨ (u=t ∧ k=n) := by
    intro u k hk
    by_cases hu : u=t
    · subst hu
      rw [update_self] at hk
      rcases List.mem_append.mp hk with hk | hk
      · exact .inl hk
      · exact .inr ⟨rfl,List.mem_singleton.mp hk⟩
    · rw [update_of_ne hu] at hk
      exact .inl hk
  have hold : ∀ u K k, update looks t (some { L with pc := .scan b 0 none }) u=some K →
      held K.pc=some k → u ≠ t ∧ looks u=some K := by
    intro u K k hu hk
    rcases update_eq_some hu with ⟨rfl,ho⟩ | ⟨hne,hu⟩
    · cases ho
      cases hk
    · exact ⟨hne,hu⟩
  refine ⟨h.count_pos,h.pointed_lt,h.pointed_inj,h.pointed_attached,?_,?_,?_,?_,?_,?_⟩
  · rintro k (⟨u,hk⟩ | ⟨u,K,hu,hk⟩)
    · rcases hmem u k hk with hk | ⟨_,rfl⟩
      · exact h.spare k (.inl ⟨u,hk⟩)
      · exact h.spare _ (.inr ⟨t,L,hL,hpc⟩)
    · exact h.spare k (.inr ⟨u,K,(hold u K k hu hk).2,hk⟩)
  · intro u
    by_cases hu : u=t
    · subst hu
      simp only [Index.freeAtEpoch,update_self]
      have hn := h.held_not_free u u L n hL hpc
      exact List.Nodup.append (h.free_nodup u) (List.nodup_singleton n) (by simpa using hn)
    · simp only [Index.freeAtEpoch,update_of_ne hu]
      exact h.free_nodup u
  · intro u v k hu hv
    rcases hmem u k hu with hu' | ⟨rfl,hk⟩ <;> rcases hmem v k hv with hv' | ⟨rfl,hk'⟩
    · exact h.free_disjoint u v k hu' hv'
    · rw [hk'] at hu'
      exact absurd hu' (h.held_not_free _ u L _ hL hpc)
    · rw [hk] at hv'
      exact absurd hv' (h.held_not_free _ v L _ hL hpc)
    · rfl
  · intro u v K k hu hk hmemv
    obtain ⟨hne,hu'⟩ := hold u K k hu hk
    rcases hmem v k hmemv with hv | ⟨_,rfl⟩
    · exact h.held_not_free u v K k hu' hk hv
    · exact hne (h.held_unique u t K L _ hu' hL hk hpc)
  · intro u v K K' k hu hv hk hk'
    exact h.held_unique u v K K' k (hold u K k hu hk).2 (hold v K' k hv hk').2 hk hk'
  · intro u K hu
    rcases update_eq_some hu with ⟨rfl,ho⟩ | ⟨_,hu⟩
    · cases ho
      exact ⟨hb,Nat.zero_le _,fun x hx => by cases hx⟩
    · exact h.placed u K hu

/-- Setting an unused overflow pointer only adds to the chains. -/
theorem next_setOverflow (h0 : m.overflowEntry b=0) : ∀ c d, m.next c=some d → (m.setOverflow b n).next c=some d := by
  intro c d hc
  obtain ⟨hne,_⟩ := next_eq_some hc
  have hcb : c ≠ b := by
    rintro rfl
    exact hne h0
  unfold Index.next Index.setOverflow
  simp only [update_of_ne hcb]
  exact hc

/-- Linking a held bucket behind the last bucket of a chain. -/
theorem BucketInv.link (h : BucketInv m looks) (hL : looks t=some L) (hpc : L.pc=.install b n)
    (h0 : m.overflowEntry b=0) : BucketInv (m.setOverflow b n)
      (update looks t (some { L with pc := .claim ⟨.overflow n,0⟩ })) := by
  have hn : held L.pc=some n := by rw [hpc]; rfl
  obtain ⟨hpos,hlt,hun⟩ := h.spare n (.inr ⟨t,L,hL,hn⟩)
  have hmono := next_setOverflow (n := n) h0
  have hb : Reaches m.next (.base L.idx) b := by
    have := h.placed t L hL
    rw [hpc] at this
    exact this
  have hover : ∀ c, (m.setOverflow b n).overflowEntry c = if c=b then n else m.overflowEntry c := by
    intro c
    simp only [Index.setOverflow,update_apply]
  have hlink : (m.setOverflow b n).next b=some (.overflow n) := by
    unfold Index.next
    rw [hover,if_pos rfl,if_neg hpos.ne']
  have hold : ∀ u K k, update looks t (some { L with pc := .claim ⟨.overflow n,0⟩ }) u=some K →
      held K.pc=some k → u ≠ t ∧ looks u=some K := by
    intro u K k hu hk
    rcases update_eq_some hu with ⟨rfl,ho⟩ | ⟨hne,hu⟩
    · cases ho
      cases hk
    · exact ⟨hne,hu⟩
  refine ⟨h.count_pos,?_,?_,?_,?_,h.free_nodup,h.free_disjoint,?_,?_,?_⟩
  · intro c hc
    rw [hover] at hc ⊢
    split_ifs at hc ⊢ with hcb
    · exact hlt
    · exact h.pointed_lt c hc
  · intro c d hc hcd
    rw [hover] at hc
    rw [hover,hover] at hcd
    split_ifs at hc hcd with hcb hdb hdb
    · rw [hcb,hdb]
    · exact absurd hcd.symm (hun d)
    · exact absurd hcd (hun c)
    · exact h.pointed_inj c d hc hcd
  · intro c hc
    rw [hover] at hc
    split_ifs at hc with hcb
    · subst hcb
      exact ⟨L.idx,hb.mono hmono⟩
    · obtain ⟨j,hj⟩ := h.pointed_attached c hc
      exact ⟨j,hj.mono hmono⟩
  · intro k hk
    have hk' : Spare m looks k ∧ k ≠ n := by
      rcases hk with ⟨u,hu⟩ | ⟨u,K,hu,hk⟩
      · refine ⟨.inl ⟨u,hu⟩,?_⟩
        rintro rfl
        exact h.held_not_free t u L _ hL hn hu
      · obtain ⟨hne,hu'⟩ := hold u K k hu hk
        refine ⟨.inr ⟨u,K,hu',hk⟩,?_⟩
        rintro rfl
        exact hne (h.held_unique u t K L _ hu' hL hk hn)
    obtain ⟨hkpos,hklt,hkun⟩ := h.spare k hk'.1
    refine ⟨hkpos,hklt,fun c => ?_⟩
    rw [hover]
    split_ifs
    · exact hk'.2.symm
    · exact hkun c
  · intro u v K k hu hk
    exact h.held_not_free u v K k (hold u K k hu hk).2 hk
  · intro u v K K' k hu hv hk hk'
    exact h.held_unique u v K K' k (hold u K k hu hk).2 (hold v K' k hv hk').2 hk hk'
  · intro u K hu
    rcases update_eq_some hu with ⟨rfl,ho⟩ | ⟨_,hu⟩
    · cases ho
      exact ⟨(hb.mono hmono).tail hlink,Nat.succ_pos _⟩
    · exact (h.placed u K hu).mono hmono

end

end FishStore.BucketInvariant
