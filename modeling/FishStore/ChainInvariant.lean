import FishStore.InternalInsert

/-!
# Invariant of the hash chains

What holds of the bucket entries and of the linked key pointers at any time:
a linked key pointer leads to a lower address, which is invalid or linked at
the same slot under the same tag; so does a bucket entry; and a key pointer
that is not below the begin address is visited from its own slot, which holds
its tag. One lemma for each kind of write: a lookup, a store to a key pointer
that is not linked yet, a swap of a bucket entry, a splice behind a linked key
pointer, the cleaner's swap, and the allocator.
-/

namespace FishStore.ChainInvariant

open Layout Chains HashIndex BucketInvariant EntryInvariant InternalInsert List
open Function (update update_of_ne update_self)

/-- The key pointer at the address was linked at the slot under the tag. -/
def LinkedAt (linked : List Link) (x : Slot) (tag k : ℕ) : Prop :=
  ∃ l ∈ linked, l.address = k ∧ l.slot = x ∧ l.hash.tag = tag

/-- The address ends a chain, or was linked at the slot under the tag. -/
def Below (linked : List Link) (x : Slot) (tag k : ℕ) : Prop :=
  k ≤ kInvalidAddress ∨ LinkedAt linked x tag k

/-- Addresses that chains consist of. -/
def OnLog (linked : List Link) (k : ℕ) : Prop := k ≤ kInvalidAddress ∨ ∃ l ∈ linked, l.address = k

/-- Previous address of the key pointer at an address. -/
def prevOf (kpts : ℕ → KptWord) (k : ℕ) : ℕ := (kpts k).prevAddress

/-- The chains of linked key pointers. -/
structure ChainInv (size : ℕ) (m : Index) (kpts : ℕ → KptWord) (tail : PageOffset) (begin : ℕ)
    (linked : List Link) : Prop where
  /-- The allocator starts after the first cache line. -/
  first_le : firstAddress ≤ tail.limit
  /-- Linked key pointers are in the allocated part of the log. -/
  link_range : ∀ l ∈ linked, firstAddress ≤ l.address ∧ l.address < tail.limit
  /-- A key pointer is linked once. -/
  link_inj : ∀ l ∈ linked, ∀ l' ∈ linked, l.address = l'.address → l = l'
  /-- Linked key pointers lead down, within their slot and tag. -/
  link_prev : ∀ l ∈ linked, prevOf kpts l.address < l.address ∧
    Below linked l.slot l.hash.tag (prevOf kpts l.address)
  /-- Linked key pointers keep their mode and index. -/
  link_bits : ∀ l ∈ linked, (kpts l.address).mode = l.mode ∧ (kpts l.address).ptrOffset = l.ptrOffset
  /-- Slots are in the chains of their hashes. -/
  link_slot : ∀ l ∈ linked, InChain m.next (l.hash.idx size) l.slot
  /-- Entries lead to key pointers of their slot and tag. -/
  entry_below : ∀ x, Below linked x (m.entries x).tag (m.entries x).address
  /-- Key pointers that are not truncated are visited from their own slot. -/
  live : ∀ l ∈ linked, begin ≤ l.address → Holds m l.slot l.hash.tag ∧
    Visits kInvalidAddress (prevOf kpts) (m.entries l.slot).address l.address

section

variable {size : ℕ} {m m' : Index} {kpts kpts' : ℕ → KptWord} {tail tail' : PageOffset}
  {begin begin' : ℕ} {linked linked' : List Link} {x y : Slot} {tag k at' : ℕ} {l : Link}
  {e : HashBucketEntry} {w : KptWord}

theorem LinkedAt.mono (h : ∀ l ∈ linked, l ∈ linked') (hk : LinkedAt linked x tag k) : LinkedAt linked' x tag k := by
  obtain ⟨l,hl,hrest⟩ := hk
  exact ⟨l,h l hl,hrest⟩

theorem Below.mono (h : ∀ l ∈ linked, l ∈ linked') (hk : Below linked x tag k) : Below linked' x tag k := by
  rcases hk with hk | hk
  · exact .inl hk
  · exact .inr (hk.mono h)

theorem Below.onLog (hk : Below linked x tag k) : OnLog linked k := by
  rcases hk with hk | ⟨l,hl,hlk,_⟩
  · exact .inl hk
  · exact .inr ⟨l,hl,hlk⟩

theorem below_nil : Below linked x tag 0 := .inl (Nat.zero_le _)

section

variable (h : ChainInv size m kpts tail begin linked)

include h

/-- Chains go down. -/
theorem ChainInv.descends :
    Descends kInvalidAddress (prevOf kpts) (OnLog linked) := by
  rintro k (hk | ⟨l,hl,rfl⟩) hf
  · omega
  · obtain ⟨hlt,hb⟩ := h.link_prev l hl
    exact ⟨hlt,hb.onLog⟩

theorem ChainInv.entry_onLog (x : Slot) :
    OnLog linked (m.entries x).address := (h.entry_below x).onLog

/-- What an address on the log is bounded by. -/
theorem ChainInv.below_lt
    (hk : Below linked x tag k) : k<tail.limit := by
  rcases hk with hk | ⟨l,hl,rfl,_⟩
  · have := h.first_le
    unfold kInvalidAddress at hk
    unfold firstAddress at this
    omega
  · exact (h.link_range l hl).2

/-- A lookup keeps the chains. -/
theorem ChainInv.lookup (hf : LookupFrame m m') : ChainInv size m' kpts tail begin linked := by
  refine ⟨h.first_le,h.link_range,h.link_inj,h.link_prev,h.link_bits,?_,?_,?_⟩
  · intro l hl
    exact InChain.mono hf.next_mono (h.link_slot l hl)
  · intro x
    by_cases hx : m'.entries x=m.entries x
    · rw [hx]
      exact h.entry_below x
    · exact .inl (hf.changed x hx)
  · intro l hl hb
    obtain ⟨hh,hv⟩ := h.live l hl hb
    have hkeep := hf.final_kept l.slot hh.1
    unfold Holds
    rw [hkeep]
    exact ⟨hh,hv⟩

/-- A longer log keeps the chains. -/
theorem ChainInv.extend (ht : tail.limit≤tail'.limit) : ChainInv size m kpts tail' begin linked := by
  refine ⟨h.first_le.trans ht,?_,h.link_inj,h.link_prev,h.link_bits,h.link_slot, h.entry_below,h.live⟩
  intro l hl
  obtain ⟨hge,hlt⟩ := h.link_range l hl
  exact ⟨hge,hlt.trans_le ht⟩

/-- A higher begin address keeps the chains. -/
theorem ChainInv.shift (hb : begin≤begin') : ChainInv size m kpts tail begin' linked :=
  ⟨h.first_le,h.link_range,h.link_inj,h.link_prev,h.link_bits,h.link_slot,h.entry_below,
    fun l hl hle => h.live l hl (hb.trans hle)⟩

/-- A write to a key pointer that is not linked keeps the chains. -/
theorem ChainInv.setKpt (hk : ∀ l ∈ linked, l.address ≠ k) (w : KptWord) :
    ChainInv size m (update kpts k w) tail begin linked := by
  have hsame : ∀ l ∈ linked, update kpts k w l.address=kpts l.address := fun l hl => update_of_ne (hk l hl) ..
  have hprev : ∀ l ∈ linked, prevOf (update kpts k w) l.address=prevOf kpts l.address := by
    intro l hl
    unfold prevOf
    rw [hsame l hl]
  refine ⟨h.first_le,h.link_range,h.link_inj,?_,?_,h.link_slot,h.entry_below,?_⟩
  · intro l hl
    rw [hprev l hl]
    exact h.link_prev l hl
  · intro l hl
    rw [hsame l hl]
    exact h.link_bits l hl
  · intro l hl hb
    obtain ⟨hh,hv⟩ := h.live l hl hb
    refine ⟨hh,hv.reroute h.descends ?_ (h.entry_onLog _)⟩
    rintro c (hc | ⟨l',hl',rfl⟩) hf
    · omega
    · rw [←hprev l' hl']
      exact (Visits.refl _).tail hf

theorem ChainInv.link_inj_cons (hnew : ∀ l' ∈ linked, l'.address ≠ l.address) :
    ∀ l₁ ∈ l::linked, ∀ l₂ ∈ l::linked, l₁.address=l₂.address → l₁=l₂ := by
  intro l₁ h₁ l₂ h₂ heq
  rcases mem_cons.mp h₁ with h₁' | h₁' <;> rcases mem_cons.mp h₂ with h₂' | h₂'
  · rw [h₁',h₂']
  · rw [h₁'] at heq
    exact absurd heq.symm (hnew _ h₂')
  · rw [h₂'] at heq
    exact absurd heq (hnew _ h₁')
  · exact h.link_inj _ h₁' _ h₂' heq

section

variable (hnew : ∀ l' ∈ linked, l'.address ≠ l.address) (hrange : firstAddress≤l.address ∧ l.address<tail.limit) (hslot : InChain m.next (l.hash.idx size) l.slot)

include hnew hrange hslot

/-- A linking swap of a bucket entry: the slot held the tag, or was unused. -/
theorem ChainInv.linkEntry (hw : kpts l.address=⟨l.mode,l.ptrOffset,(m.entries l.slot).address⟩)
    (hlt : (m.entries l.slot).address<l.address) (hentry : Holds m l.slot l.hash.tag ∨ m.entries l.slot=kInvalidEntry) :
    ChainInv size (m.setEntry l.slot ⟨l.address,l.hash.tag,false⟩) kpts tail begin (l::linked) := by
  have hmem : ∀ l' ∈ linked, l' ∈ l::linked := fun l' hl' => mem_cons_of_mem _ hl'
  have hp : prevOf kpts l.address=(m.entries l.slot).address := by
    unfold prevOf
    rw [hw]
  have hlast : kInvalidAddress<l.address := by
    have := hrange.1
    unfold firstAddress at this
    unfold kInvalidAddress
    omega
  have hfinal : (⟨l.address,l.hash.tag,false⟩ : HashBucketEntry).Final := by
    refine ⟨?_,rfl⟩
    intro h0
    have : l.address=0 := congrArg HashBucketEntry.address h0
    omega
  refine ⟨h.first_le,?_,h.link_inj_cons hnew,?_,?_,?_,?_,?_⟩
  · intro l' hl'
    rcases mem_cons.mp hl' with rfl | hl'
    · exact hrange
    · exact h.link_range l' hl'
  · intro l' hl'
    rcases mem_cons.mp hl' with rfl | hl'
    · rw [hp]
      refine ⟨hlt,?_⟩
      rcases hentry with hh | h0
      · have := h.entry_below l'.slot
        rw [hh.2] at this
        exact this.mono hmem
      · rw [h0]
        exact below_nil
    · obtain ⟨hd,hb⟩ := h.link_prev l' hl'
      exact ⟨hd,hb.mono hmem⟩
  · intro l' hl'
    rcases mem_cons.mp hl' with rfl | hl'
    · rw [hw]
      exact ⟨rfl,rfl⟩
    · exact h.link_bits l' hl'
  · intro l' hl'
    rcases mem_cons.mp hl' with rfl | hl'
    · exact hslot
    · exact h.link_slot l' hl'
  · intro y
    by_cases hy : y=l.slot
    · subst hy
      rw [setEntry_self]
      exact .inr ⟨l,mem_cons_self,rfl,rfl,rfl⟩
    · rw [setEntry_of_ne hy]
      exact (h.entry_below y).mono hmem
  · intro l' hl' hb
    by_cases hy : l'.slot=l.slot
    · rw [hy,setEntry_self,holds_setEntry_self]
      rcases mem_cons.mp hl' with rfl | hl'
      · exact ⟨⟨hfinal,rfl⟩,.refl _⟩
      · obtain ⟨hh,hv⟩ := h.live l' hl' hb
        rw [hy] at hh hv
        -- The slot was in use, so it held the tag of the new key pointer.
        have htag : l.hash.tag=l'.hash.tag := by
          rcases hentry with hh' | h0
          · rw [←hh.2,hh'.2]
          · exact absurd h0 hh.1.1
        refine ⟨⟨hfinal,htag⟩,Visits.head hlast ?_⟩
        rw [hp]
        exact hv
    · rw [setEntry_of_ne hy,holds_setEntry_of_ne hy]
      rcases mem_cons.mp hl' with rfl | hl'
      · exact absurd rfl hy
      · exact h.live l' hl' hb

/-- A linking swap behind the linked key pointer `at'` of the same slot and
tag, whose previous address the new key pointer has taken over. -/
theorem ChainInv.linkKpt (hat : LinkedAt linked l.slot l.hash.tag at') (hlt : l.address<at')
    (hw : kpts l.address=⟨l.mode,l.ptrOffset,prevOf kpts at'⟩) (hle : prevOf kpts at'<l.address) :
    ChainInv size m (update kpts at' { kpts at' with prevAddress := l.address }) tail begin (l::linked)
    := by
  have hmem : ∀ l' ∈ linked, l' ∈ l::linked := fun l' hl' => mem_cons_of_mem _ hl'
  have hp : prevOf kpts l.address=prevOf kpts at' := by
    unfold prevOf
    rw [hw]
    rfl
  have hlast : kInvalidAddress<l.address := by
    have := hrange.1
    unfold firstAddress at this
    unfold kInvalidAddress
    omega
  obtain ⟨la,hla,rfl,hlas,hlat⟩ := hat
  have hlow := h.link_prev la hla
  rw [hlas,hlat] at hlow
  -- The control words afterwards: one previous address changed.
  have hself : prevOf (update kpts la.address { kpts la.address with prevAddress := l.address }) la.address=l.address := by
    unfold prevOf
    rw [update_self]
  have hother : ∀ c, c ≠ la.address → prevOf (update kpts la.address
      { kpts la.address with prevAddress := l.address }) c=prevOf kpts c := by
    intro c hc
    unfold prevOf
    rw [update_of_ne hc]
  have hnewp := hother l.address (by omega)
  -- Every linked key pointer still leads to its former previous address.
  have hroute : ∀ c, OnLog linked c → kInvalidAddress<c → Visits kInvalidAddress (prevOf (update kpts la.address
        { kpts la.address with prevAddress := l.address })) c (prevOf kpts c) := by
    intro c _ hc
    by_cases hcl : c=la.address
    · subst hcl
      refine Visits.head hc ?_
      rw [hself]
      refine Visits.head hlast ?_
      rw [hnewp,hp]
      exact .refl _
    · rw [←hother c hcl]
      exact (Visits.refl c).tail hc
  refine ⟨h.first_le,?_,h.link_inj_cons hnew,?_,?_,?_,fun y => (h.entry_below y).mono hmem,?_⟩
  · intro l' hl'
    rcases mem_cons.mp hl' with rfl | hl'
    · exact hrange
    · exact h.link_range l' hl'
  · intro l' hl'
    rcases mem_cons.mp hl' with rfl | hl'
    · rw [hnewp,hp]
      exact ⟨hle,hlow.2.mono hmem⟩
    · by_cases hl : l'.address=la.address
      · have := h.link_inj l' hl' la hla hl
        subst this
        rw [hself]
        exact ⟨hlt,.inr ⟨l,mem_cons_self,rfl,hlas.symm,hlat.symm⟩⟩
      · rw [hother _ hl]
        obtain ⟨hd,hb⟩ := h.link_prev l' hl'
        exact ⟨hd,hb.mono hmem⟩
  · intro l' hl'
    rcases mem_cons.mp hl' with rfl | hl'
    · rw [update_of_ne (by omega),hw]
      exact ⟨rfl,rfl⟩
    · have hb := h.link_bits l' hl'
      by_cases hl : l'.address=la.address
      · rw [hl] at hb ⊢
        rw [update_self]
        exact hb
      · rw [update_of_ne hl]
        exact hb
  · intro l' hl'
    rcases mem_cons.mp hl' with rfl | hl'
    · exact hslot
    · exact h.link_slot l' hl'
  · intro l' hl' hb
    rcases mem_cons.mp hl' with rfl | hl'
    · obtain ⟨hh,hv⟩ := h.live la hla (hb.trans hlt.le)
      rw [hlas] at hv hh
      rw [hlat] at hh
      refine ⟨hh,(hv.reroute h.descends hroute (h.entry_onLog _)).trans ?_⟩
      refine Visits.head (hlast.trans hlt) ?_
      rw [hself]
      exact .refl _
    · obtain ⟨hh,hv⟩ := h.live l' hl' hb
      exact ⟨hh,hv.reroute h.descends hroute (h.entry_onLog _)⟩

end

/-- The cleaner's swap: all key pointers of the slot are truncated. -/
theorem ChainInv.clean (hlt : (m.entries x).address<begin) :
    ChainInv size (m.setEntry x kInvalidEntry) kpts tail begin linked := by
  refine ⟨h.first_le,h.link_range,h.link_inj,h.link_prev,h.link_bits,h.link_slot,?_,?_⟩
  · intro y
    by_cases hy : y=x
    · subst hy
      rw [setEntry_self]
      exact below_nil
    · rw [setEntry_of_ne hy]
      exact h.entry_below y
  · intro l hl hb
    obtain ⟨hh,hv⟩ := h.live l hl hb
    have hle := (hv.closed h.descends (h.entry_onLog _)).2
    have hy : l.slot ≠ x := by
      intro hy
      rw [hy] at hle
      omega
    rw [setEntry_of_ne hy,holds_setEntry_of_ne hy]
    exact ⟨hh,hv⟩

end

end

end FishStore.ChainInvariant
