import FishStore.BucketInvariant

/-!
# Entries under concurrent lookups

The invariant of the entries with the lookups in progress: a tentative entry
has exactly one owner, of two owners of one tag in one chain at least one is
going to see the other's entry, an owner is going to see every non-tentative
entry of its tag, and non-tentative entries of a tag are unique in their
chain. It is preserved by every kind of write to an entry, so that each step
of a lookup keeps it, and `FindEntry` finds the one entry of its tag.
-/

namespace FishStore.EntryInvariant

open Layout Chains HashIndex BucketInvariant
open Function (update update_of_ne update_self)

section

variable {m m' : Index} {looks : ℕ → Option Lookup} {t u n idx tag : ℕ} {L K : Lookup}
  {o : Option Lookup} {x y : Slot} {b c : BucketRef} {e : HashBucketEntry}
  {next next' : BucketRef → Option BucketRef}

/-- Entries and their owners. -/
structure EntryInv (m : Index) (looks : ℕ → Option Lookup) : Prop where
  /-- Entries in use are entries of a chain of the table. -/
  used : ∀ x, m.entries x ≠ kInvalidEntry → ∃ j, InChain m.next j x
  /-- The entry that a call installed is still its tentative entry. -/
  owned : ∀ t L x, looks t = some L → owns L.pc = some x → m.entries x = tentativeEntry L.tag
  /-- Tentative entries have an owner. -/
  owner : ∀ x, (m.entries x).tentative = true → ∃ t L, looks t = some L ∧ owns L.pc = some x
  /-- No entry has two owners. -/
  owner_unique : ∀ t u L K x, looks t = some L → looks u = some K →
    owns L.pc = some x → owns K.pc = some x → t = u
  /-- Of two owners of one tag, one is going to see the other's entry. -/
  rivals : ∀ t u L K x y, t ≠ u → looks t = some L → looks u = some K → L.idx = K.idx →
    L.tag = K.tag → owns L.pc = some x → owns K.pc = some y →
    Sees m.next y L.pc ∨ Sees m.next x K.pc
  /-- An owner is going to see the non-tentative entry of its tag. -/
  sees_final : ∀ t L x y, looks t = some L → owns L.pc = some x → InChain m.next L.idx y →
    Holds m y L.tag → Sees m.next y L.pc
  /-- Non-tentative entries of a tag are unique in their chain. -/
  final_unique : ∀ j x y tag, InChain m.next j x → InChain m.next j y → Holds m x tag →
    Holds m y tag → x = y

theorem setEntry_self : (m.setEntry x e).entries x=e := update_self ..

theorem setEntry_of_ne (h : y ≠ x) : (m.setEntry x e).entries y=m.entries y := update_of_ne h ..

theorem holds_setEntry_of_ne (h : y ≠ x) : Holds (m.setEntry x e) y tag ↔ Holds m y tag := by
  unfold Holds
  rw [setEntry_of_ne h]

theorem holds_setEntry_self : Holds (m.setEntry x e) x tag ↔ e.Final ∧ e.tag=tag := by
  unfold Holds
  rw [setEntry_self]

theorem not_holds_tentative (h : (m.entries x).tentative=true) : ¬ Holds m x tag := by
  intro hx
  rw [hx.1.2] at h
  cases h

section

variable (h : EntryInv m looks)

include h

/-- A lookup that reads, but writes no entry, keeps the entry invariant: its
owned slot stays the same and it passes no entry of its own tag. -/
theorem EntryInv.move (hb : BucketInv m looks) (howns : ∀ K x, o=some K → owns K.pc=some x → ∃ L, looks t=some L ∧
      owns L.pc=some x ∧ L.idx=K.idx ∧ L.tag=K.tag ∧ ∀ y, InChain m.next L.idx y → y ≠ x → m.entries y ≠ kInvalidEntry →
        (m.entries y).tag=L.tag → Sees m.next y L.pc → Sees m.next y K.pc)
    (hkeep : ∀ L x, looks t=some L → owns L.pc=some x → ∃ K, o=some K ∧ owns K.pc=some x) :
    EntryInv m (update looks t o) := by
  -- Every owner afterwards was an owner before, and still sees what it saw.
  have hold : ∀ u K x, update looks t o u=some K → owns K.pc=some x →
      ∃ L, looks u=some L ∧ owns L.pc=some x ∧ L.idx=K.idx ∧ L.tag=K.tag ∧
        ∀ y, InChain m.next L.idx y → y ≠ x → m.entries y ≠ kInvalidEntry →
          (m.entries y).tag=L.tag → Sees m.next y L.pc → Sees m.next y K.pc := by
    intro u K x hu hx
    rcases update_eq_some hu with ⟨rfl,ho⟩ | ⟨_,hu⟩
    · exact howns K x ho hx
    · exact ⟨K,hu,hx,rfl,rfl,fun _ _ _ _ _ hs => hs⟩
  -- An owned entry is in use, with the owner's tag.
  have hentry : ∀ u L x, looks u=some L → owns L.pc=some x →
      InChain m.next L.idx x ∧ m.entries x ≠ kInvalidEntry ∧ (m.entries x).tag=L.tag := by
    intro u L x hu hx
    have he := h.owned u L x hu hx
    have hne : m.entries x ≠ kInvalidEntry := by
      rw [he]
      exact tentativeEntry_ne _
    exact ⟨(hb.placed u L hu).owns_inChain hx,hne,by rw [he]; rfl⟩
  refine ⟨h.used,?_,?_,?_,?_,?_,h.final_unique⟩
  · intro u K x hu hx
    obtain ⟨L,hL,hLx,_,htag,_⟩ := hold u K x hu hx
    rw [←htag]
    exact h.owned u L x hL hLx
  · intro x hx
    obtain ⟨u,L,hL,hLx⟩ := h.owner x hx
    by_cases hut : u=t
    · subst hut
      obtain ⟨K,ho,hK⟩ := hkeep L x hL hLx
      exact ⟨u,K,by rw [update_self,ho],hK⟩
    · exact ⟨u,L,by rw [update_of_ne hut,hL],hLx⟩
  · intro u v K K' x hu hv hx hx'
    obtain ⟨L,hL,hLx,_⟩ := hold u K x hu hx
    obtain ⟨L',hL',hLx',_⟩ := hold v K' x hv hx'
    exact h.owner_unique u v L L' x hL hL' hLx hLx'
  · intro u v K K' x y huv hu hv hidx htag hx hy
    obtain ⟨L,hL,hLx,hLi,hLt,hsees⟩ := hold u K x hu hx
    obtain ⟨L',hL',hLy,hLi',hLt',hsees'⟩ := hold v K' y hv hy
    have hxy : x ≠ y := by
      rintro rfl
      exact huv (h.owner_unique u v L L' _ hL hL' hLx hLy)
    obtain ⟨hxi,hxne,hxt⟩ := hentry u L x hL hLx
    obtain ⟨hyi,hyne,hyt⟩ := hentry v L' y hL' hLy
    have hidx' : L.idx=L'.idx := by rw [hLi,hLi',hidx]
    rcases h.rivals u v L L' x y huv hL hL' hidx' (by rw [hLt,hLt',htag]) hLx hLy with hs | hs
    · exact .inl (hsees y (by rw [hidx']; exact hyi) hxy.symm hyne (by rw [hyt,hLt,hLt',htag]) hs)
    · exact .inr (hsees' x (by rw [←hidx']; exact hxi) hxy hxne (by rw [hxt,hLt,hLt',htag]) hs)
  · intro u K x y hu hx hy hh
    obtain ⟨L,hL,hLx,hLi,hLt,hsees⟩ := hold u K x hu hx
    have hs : Sees m.next y L.pc := h.sees_final u L x y hL hLx (by rw [hLi]; exact hy) (by rw [hLt]; exact hh)
    refine hsees y (by rw [hLi]; exact hy) ?_ hh.1.1 (by rw [hLt]; exact hh.2) hs
    rintro rfl
    refine not_holds_tentative ?_ hh
    rw [h.owned u L _ hL hLx]
    rfl

/-- The swap of a tentative entry into an unused slot. -/
theorem EntryInv.claim (hL : looks t=some L) (hpc : owns L.pc=none) (hx : InChain m.next L.idx x)
    (h0 : m.entries x=kInvalidEntry) :
    EntryInv (m.setEntry x (tentativeEntry L.tag)) (update looks t (some { L with pc := .ownTag x }))
    := by
  have hother : ∀ u K y, looks u=some K → owns K.pc=some y → y ≠ x := by
    rintro u K y hu hy rfl
    have := h.owned u K y hu hy
    rw [h0] at this
    exact tentativeEntry_ne _ this.symm
  have hfinal : ∀ y tag, Holds (m.setEntry x (tentativeEntry L.tag)) y tag → y ≠ x ∧ Holds m y tag := by
    intro y tag hy
    have hyx : y ≠ x := by
      rintro rfl
      exact not_holds_tentative (by rw [setEntry_self]; rfl) hy
    exact ⟨hyx,(holds_setEntry_of_ne hyx).mp hy⟩
  refine ⟨?_,?_,?_,?_,?_,?_,?_⟩
  · intro y hy
    by_cases hyx : y=x
    · subst hyx
      exact ⟨L.idx,hx⟩
    · rw [setEntry_of_ne hyx] at hy
      exact h.used y hy
  · intro u K y hu hy
    rcases update_eq_some hu with ⟨rfl,ho⟩ | ⟨_,hu⟩
    · cases ho
      cases hy
      exact setEntry_self
    · rw [setEntry_of_ne (hother u K y hu hy)]
      exact h.owned u K y hu hy
  · intro y hy
    by_cases hyx : y=x
    · subst hyx
      exact ⟨t,_,update_self ..,rfl⟩
    · rw [setEntry_of_ne hyx] at hy
      obtain ⟨u,K,hu,hK⟩ := h.owner y hy
      have hut : u ≠ t := by
        rintro rfl
        rw [hL] at hu
        cases hu
        rw [hpc] at hK
        cases hK
      exact ⟨u,K,by rw [update_of_ne hut,hu],hK⟩
  · intro u v K K' y hu hv hy hy'
    rcases update_eq_some hu with ⟨rfl,ho⟩ | ⟨_,hu'⟩ <;>
      rcases update_eq_some hv with ⟨rfl,ho'⟩ | ⟨_,hv'⟩
    · rfl
    · cases ho
      cases hy
      exact absurd rfl (hother v K' _ hv' hy')
    · cases ho'
      cases hy'
      exact absurd rfl (hother u K _ hu' hy)
    · exact h.owner_unique u v K K' y hu' hv' hy hy'
  · intro u v K K' y z huv hu hv hidx htag hy hz
    rcases update_eq_some hu with ⟨rfl,ho⟩ | ⟨_,hu⟩ <;>
      rcases update_eq_some hv with ⟨rfl,ho'⟩ | ⟨_,hv⟩
    · exact absurd rfl huv
    · cases ho
      exact .inl trivial
    · cases ho'
      exact .inr trivial
    · exact h.rivals u v K K' y z huv hu hv hidx htag hy hz
  · intro u K y z hu hy hz hh
    rcases update_eq_some hu with ⟨rfl,ho⟩ | ⟨_,hu⟩
    · cases ho
      trivial
    · exact h.sees_final u K y z hu hy hz (hfinal z _ hh).2
  · intro j y z tag hy hz hhy hhz
    exact h.final_unique j y z tag hy hz (hfinal y tag hhy).2 (hfinal z tag hhz).2

/-- The owner's store that ends its ownership: back to unused, or committed
after the conflict scan found nothing. -/
theorem EntryInv.settle (hb : BucketInv m looks) (hL : looks t=some L) (hx : owns L.pc=some x)
    (ho : ∀ K, o=some K → owns K.pc=none) (he : e.tentative=false)
    (hcommit : e ≠ kInvalidEntry → L.pc=.commit x ∧ e.tag=L.tag) : EntryInv (m.setEntry x e) (update looks t o) := by
  have hxe := h.owned t L x hL hx
  have hin : InChain m.next L.idx x := (hb.placed t L hL).owns_inChain hx
  have hold : ∀ u K y, update looks t o u=some K → owns K.pc=some y → u ≠ t ∧ looks u=some K ∧ y ≠ x := by
    intro u K y hu hy
    rcases update_eq_some hu with ⟨rfl,ho'⟩ | ⟨hne,hu'⟩
    · rw [ho K ho'] at hy
      cases hy
    · refine ⟨hne,hu',?_⟩
      rintro rfl
      exact hne (h.owner_unique u t K L _ hu' hL hy hx)
  refine ⟨?_,?_,?_,?_,?_,?_,?_⟩
  · intro y hy
    by_cases hyx : y=x
    · subst hyx
      exact ⟨L.idx,hin⟩
    · rw [setEntry_of_ne hyx] at hy
      exact h.used y hy
  · intro u K y hu hy
    obtain ⟨_,hu',hyx⟩ := hold u K y hu hy
    rw [setEntry_of_ne hyx]
    exact h.owned u K y hu' hy
  · intro y hy
    have hyx : y ≠ x := by
      rintro rfl
      rw [setEntry_self,he] at hy
      cases hy
    rw [setEntry_of_ne hyx] at hy
    obtain ⟨u,K,hu,hK⟩ := h.owner y hy
    have hut : u ≠ t := by
      rintro rfl
      rw [hL] at hu
      cases hu
      rw [hx] at hK
      exact hyx (Option.some.inj hK).symm
    exact ⟨u,K,by rw [update_of_ne hut,hu],hK⟩
  · intro u v K K' y hu hv hy hy'
    exact h.owner_unique u v K K' y (hold u K y hu hy).2.1 (hold v K' y hv hy').2.1 hy hy'
  · intro u v K K' y z huv hu hv hidx htag hy hz
    exact h.rivals u v K K' y z huv (hold u K y hu hy).2.1 (hold v K' z hv hz).2.1 hidx htag hy hz
  · intro u K y z hu hy hz hh
    obtain ⟨hut,hu',hyx⟩ := hold u K y hu hy
    by_cases hzx : z=x
    · subst hzx
      obtain ⟨hef,het⟩ := holds_setEntry_self.mp hh
      obtain ⟨hpc,htag⟩ := hcommit hef.1
      have hidx : L.idx=K.idx := hb.chain_unique hin.1 hz.1
      rcases h.rivals t u L K z y hut.symm hL hu' hidx (by rw [←htag,het]) hx hy with hs | hs
      · rw [hpc] at hs
        exact hs.elim
      · exact hs
    · exact h.sees_final u K y z hu' hy hz ((holds_setEntry_of_ne hzx).mp hh)
  · -- A committed owner saw no other entry of its tag.
    have hnone : ∀ j z tag, z ≠ x → InChain m.next j x → InChain m.next j z →
        Holds (m.setEntry x e) x tag → Holds (m.setEntry x e) z tag → False := by
      intro j z tag hzx hjx hjz hhx hhz
      obtain ⟨hef,het⟩ := holds_setEntry_self.mp hhx
      obtain ⟨hpc,htag⟩ := hcommit hef.1
      have hidx : j=L.idx := hb.chain_unique hjx.1 hin.1
      subst hidx
      have hs := h.sees_final t L x z hL hx hjz (by
        rw [←htag,het]
        exact (holds_setEntry_of_ne hzx).mp hhz)
      rw [hpc] at hs
      exact hs
    intro j y z tag hy hz hhy hhz
    by_cases hyx : y=x <;> by_cases hzx : z=x
    · rw [hyx,hzx]
    · subst hyx
      exact (hnone j z tag hzx hy hz hhy hhz).elim
    · subst hzx
      exact (hnone j y tag hyx hz hy hhz hhy).elim
    · exact h.final_unique j y z tag hy hz ((holds_setEntry_of_ne hyx).mp hhy) ((holds_setEntry_of_ne hzx).mp hhz)

/-- A write to a slot without owner, of a non-tentative entry: the slot is
cleared, or holds the tag already, or no entry of its chain has the tag. -/
theorem EntryInv.write (hb : BucketInv m looks) (hx : (m.entries x).tentative=false) (he : e.tentative=false)
    (hin : e ≠ kInvalidEntry → ∃ j, InChain m.next j x)
    (htag : e ≠ kInvalidEntry → Holds m x e.tag ∨ ∀ j y, InChain m.next j x →
      InChain m.next j y → m.entries y ≠ kInvalidEntry → (m.entries y).tag ≠ e.tag) : EntryInv (m.setEntry x e) looks := by
  have hother : ∀ u K y, looks u=some K → owns K.pc=some y → y ≠ x := by
    rintro u K y hu hy rfl
    rw [h.owned u K y hu hy] at hx
    cases hx
  -- Afterwards another entry of the same tag in the chain existed before, so
  -- that the written slot held the tag already.
  have hheld : ∀ j y tag, InChain m.next j x → InChain m.next j y → m.entries y ≠ kInvalidEntry → (m.entries y).tag=tag →
      Holds (m.setEntry x e) x tag → Holds m x tag := by
    intro j y tag hjx hjy hy hyt hh
    obtain ⟨hef,rfl⟩ := holds_setEntry_self.mp hh
    rcases htag hef.1 with hm | hfresh
    · exact hm
    · exact absurd hyt (hfresh j y hjx hjy hy)
  refine ⟨?_,?_,?_,h.owner_unique,h.rivals,?_,?_⟩
  · intro y hy
    by_cases hyx : y=x
    · subst hyx
      rw [setEntry_self] at hy
      exact hin hy
    · rw [setEntry_of_ne hyx] at hy
      exact h.used y hy
  · intro u K y hu hy
    rw [setEntry_of_ne (hother u K y hu hy)]
    exact h.owned u K y hu hy
  · intro y hy
    have hyx : y ≠ x := by
      rintro rfl
      rw [setEntry_self,he] at hy
      cases hy
    rw [setEntry_of_ne hyx] at hy
    exact h.owner y hy
  · intro u K y z hu hy hz hh
    by_cases hzx : z=x
    · subst hzx
      have hye := h.owned u K y hu hy
      have hyin := (hb.placed u K hu).owns_inChain hy
      refine h.sees_final u K y z hu hy hz (hheld K.idx y K.tag hz hyin ?_ ?_ hh)
      · rw [hye]
        exact tentativeEntry_ne _
      · rw [hye]
        rfl
    · exact h.sees_final u K y z hu hy hz ((holds_setEntry_of_ne hzx).mp hh)
  · intro j y z tag hy hz hhy hhz
    by_cases hyx : y=x <;> by_cases hzx : z=x
    · rw [hyx,hzx]
    · subst hyx
      have hhz' := (holds_setEntry_of_ne hzx).mp hhz
      have hhy' := hheld j z tag hy hz hhz'.1.1 hhz'.2 hhy
      exact h.final_unique j y z tag hy hz hhy' hhz'
    · subst hzx
      have hhy' := (holds_setEntry_of_ne hyx).mp hhy
      have hhz' := hheld j y tag hz hy hhy'.1.1 hhy'.2 hhz
      exact h.final_unique j y z tag hy hz hhy' hhz'
    · exact h.final_unique j y z tag hy hz ((holds_setEntry_of_ne hyx).mp hhy) ((holds_setEntry_of_ne hzx).mp hhz)

/-- Chains that grow by unused entries keep the entry invariant. -/
theorem EntryInv.grow {looks' : ℕ → Option Lookup} (hb : BucketInv m' looks') (hent : m'.entries=m.entries)
    (hnext : ∀ c d, m.next c=some d → m'.next c=some d) : EntryInv m' looks := by
  have hholds : ∀ y tag, Holds m' y tag ↔ Holds m y tag := by
    intro y tag
    unfold Holds
    rw [hent]
  -- An entry in use is in the chain it was in before.
  have hback : ∀ j y, m.entries y ≠ kInvalidEntry → InChain m'.next j y → InChain m.next j y := by
    intro j y hy hj
    obtain ⟨i,hi⟩ := h.used y hy
    have hij := hb.chain_unique (hi.1.mono hnext) hj.1
    subst hij
    exact hi
  refine ⟨?_,?_,?_,h.owner_unique,?_,?_,?_⟩
  · intro y hy
    rw [hent] at hy
    obtain ⟨j,hj⟩ := h.used y hy
    exact ⟨j,InChain.mono hnext hj⟩
  · rw [hent]
    exact h.owned
  · rw [hent]
    exact h.owner
  · intro u v K K' y z huv hu hv hidx htag hy hz
    rcases h.rivals u v K K' y z huv hu hv hidx htag hy hz with hs | hs
    · exact .inl (hs.mono hnext)
    · exact .inr (hs.mono hnext)
  · intro u K y z hu hy hz hh
    have hh' := (hholds z K.tag).mp hh
    exact (h.sees_final u K y z hu hy (hback K.idx z hh'.1.1 hz) hh').mono hnext
  · intro j y z tag hy hz hhy hhz
    have hhy' := (hholds y tag).mp hhy
    have hhz' := (hholds z tag).mp hhz
    exact h.final_unique j y z tag (hback j y hhy'.1.1 hy) (hback j z hhz'.1.1 hz) hhy' hhz'

end

/-- Both invariants. -/
structure IndexInv (m : Index) (looks : ℕ → Option Lookup) : Prop where
  buckets : BucketInv m looks
  entries : EntryInv m looks

/-- A call that has just begun, or no call. -/
def Starting (o : Option Lookup) : Prop := ∀ K, o = some K → K.pc = .scan (.base K.idx) 0 none

/-- The call of a thread after a step with the given result. -/
def After (L : Lookup) (o : Option Lookup) : LookupResult → Prop
  | .more pc => o = some { L with pc := pc }
  | .done _ _ => Starting o

theorem starting_none : Starting none := fun _ hK => by cases hK

theorem Starting.placed (ho : Starting o) (hK : o=some K) :
    Placed next K.idx K.tag K.pc := by
  rw [ho K hK]
  exact ⟨.refl _,Nat.zero_le _,fun x hx => by cases hx⟩

theorem Starting.owns (ho : Starting o) (hK : o=some K) : owns K.pc=none := by
  rw [ho K hK]
  rfl

theorem Starting.held (ho : Starting o) (hK : o=some K) : held K.pc=none := by
  rw [ho K hK]
  rfl

section

variable (h : IndexInv m looks)

include h

/-- A thread without a call, or whose call neither owns nor holds anything,
begins a call or none. -/
theorem IndexInv.start (hL : ∀ L, looks t=some L → owns L.pc=none) (ho : Starting o) : IndexInv m (update looks t o) := by
  refine ⟨h.buckets.move ?_ fun K hK => ho.placed hK,h.entries.move h.buckets ?_ ?_⟩
  · intro K n hK hn
    rw [ho.held hK] at hn
    cases hn
  · intro K x hK hx
    rw [ho.owns hK] at hx
    cases hx
  · intro L x hL' hx
    rw [hL L hL'] at hx
    cases hx

/-- A call that owns nothing moves on to a place in its chain. -/
theorem IndexInv.walk {pc : LookupPc} (hL : looks t=some L) (hown : owns L.pc=none)
    (hown' : owns pc=none) (hheld : ∀ n, held pc=some n → held L.pc=some n)
    (hplaced : Placed m.next L.idx L.tag pc) :
    IndexInv m (update looks t (some { L with pc := pc })) := by
  refine ⟨h.buckets.move ?_ ?_,h.entries.move h.buckets ?_ ?_⟩
  · rintro K n hK hn
    cases hK
    exact ⟨L,hL,hheld n hn⟩
  · rintro K hK
    cases hK
    exact hplaced
  · rintro K x hK hx
    cases hK
    rw [hown'] at hx
    cases hx
  · intro L' x hL' hx
    rw [hL] at hL'
    cases hL'
    rw [hown] at hx
    cases hx

/-- An owner moves on without passing an entry of its tag. -/
theorem IndexInv.check {pc : LookupPc} (hL : looks t=some L) (hown : owns L.pc=some x)
    (hown' : owns pc=some x) (hheld : held pc=none) (hplaced : Placed m.next L.idx L.tag pc)
    (hsees : ∀ y, InChain m.next L.idx y → y ≠ x → m.entries y ≠ kInvalidEntry →
      (m.entries y).tag=L.tag → Sees m.next y L.pc → Sees m.next y pc) :
    IndexInv m (update looks t (some { L with pc := pc })) := by
  refine ⟨h.buckets.move ?_ ?_,h.entries.move h.buckets ?_ ?_⟩
  · rintro K n hK hn
    cases hK
    rw [hheld] at hn
    cases hn
  · rintro K hK
    cases hK
    exact hplaced
  · rintro K z hK hz
    cases hK
    rw [hown'] at hz
    cases hz
    exact ⟨L,hL,hown,rfl,rfl,hsees⟩
  · intro L' z hL' hz
    rw [hL] at hL'
    cases hL'
    rw [hown] at hz
    cases hz
    exact ⟨_,rfl,hown'⟩

omit h in
theorem unused_iff : e.unused=true ↔ e=kInvalidEntry := by
  unfold HashBucketEntry.unused
  exact decide_eq_true_iff

/-- The scan of `FindTentativeEntry` keeps the invariants. -/
theorem IndexInv.scan {i : ℕ} {free : Option Slot} (hL : looks t=some L) (hpc : L.pc=.scan b i free)
    (ho : After L o (lookupStep L.idx L.tag t m (.scan b i free)).2) :
    IndexInv (lookupStep L.idx L.tag t m (.scan b i free)).1 (update looks t o) := by
  have hown : owns L.pc=none := by rw [hpc]; rfl
  have hp := h.buckets.placed t L hL
  rw [hpc] at hp
  obtain ⟨hb,hi,hfree⟩ := hp
  simp only [lookupStep] at ho ⊢
  split_ifs at ho ⊢ with hlt hun hmatch
  · cases ho
    refine h.walk hL hown rfl (fun n hn => by cases hn) ⟨hb,hlt,?_⟩
    intro x hx
    cases hf : free with
    | none =>
      rw [hf] at hx
      cases hx
      exact ⟨hb,hlt⟩
    | some y =>
      rw [hf] at hx
      cases hx
      exact hfree _ hf
  · exact h.start (fun L' hL' => by rw [hL] at hL'; cases hL'; exact hown) ho
  · cases ho
    exact h.walk hL hown rfl (fun n hn => by cases hn) ⟨hb,hlt,hfree⟩
  · cases hn : m.next b with
    | some c =>
      simp only [hn] at ho ⊢
      cases ho
      exact h.walk hL hown rfl (fun n hn => by cases hn) ⟨hb.tail hn,Nat.zero_le _,hfree⟩
    | none =>
      cases hf : free with
      | some x =>
        simp only [hn,hf] at ho ⊢
        cases ho
        exact h.walk hL hown rfl (fun n hn => by cases hn) (hfree x hf)
      | none =>
        simp only [hn,hf] at ho ⊢
        cases ho
        exact h.walk hL hown rfl (fun n hn => by cases hn) hb

/-- The scan of `HasConflictingEntry` keeps the invariants. -/
theorem IndexInv.conflict {i own : ℕ} (hL : looks t=some L) (hpc : L.pc=.conflict x own b i)
    (ho : After L o (lookupStep L.idx L.tag t m (.conflict x own b i)).2) :
    IndexInv (lookupStep L.idx L.tag t m (.conflict x own b i)).1 (update looks t o) := by
  have hown : owns L.pc=some x := by rw [hpc]; rfl
  have hp := h.buckets.placed t L hL
  rw [hpc] at hp
  obtain ⟨hx,rfl,hb,hi⟩ := hp
  simp only [lookupStep] at ho ⊢
  split_ifs at ho ⊢ with hlt hhit
  · cases ho
    exact h.check hL hown rfl rfl hx fun y _ _ _ _ _ => trivial
  · cases ho
    refine h.check hL hown rfl rfl ⟨hx,rfl,hb,hlt⟩ ?_
    intro y _ hyx hy hyt hs
    rw [hpc] at hs
    refine Ahead.advance hs ?_
    rintro ⟨rfl,rfl⟩
    exact hhit ⟨hy,hyt,hyx.symm⟩
  · have hi7 : i=kNumEntries := by omega
    cases hn : m.next b with
    | none =>
      simp only [hn] at ho ⊢
      cases ho
      refine h.check hL hown rfl rfl hx ?_
      intro y hy _ _ _ hs
      rw [hpc] at hs
      exact not_ahead_of_end (by rw [hi7]; exact hy.2) hn hs
    | some c =>
      simp only [hn] at ho ⊢
      cases ho
      refine h.check hL hown rfl rfl ⟨hx,rfl,hb.tail hn,Nat.zero_le _⟩ ?_
      intro y hy _ _ _ hs
      rw [hpc] at hs
      exact Ahead.hop hs (by rw [hi7]; exact hy.2) hn

/-- Every step of `FindOrCreateEntry` keeps the invariants. -/
theorem IndexInv.lookupStep (hL : looks t=some L) (ho : After L o (lookupStep L.idx L.tag t m L.pc).2) :
    IndexInv (HashIndex.lookupStep L.idx L.tag t m L.pc).1 (update looks t o) := by
  have hp := h.buckets.placed t L hL
  cases hpc : L.pc with
  | scan b i free =>
    rw [hpc] at ho
    exact h.scan hL hpc ho
  | conflict x own b i =>
    rw [hpc] at ho
    exact h.conflict hL hpc ho
  | allocate b =>
    rw [hpc] at ho hp
    cases ho
    have ha := h.buckets.allocated t
    have hbk := h.buckets.hold (t := t) ha hp
    have hnext : (m.allocate t).2.next=m.next := by
      funext c
      unfold Index.next
      rw [ha.overflow_eq]
    have hentry := h.entries.move h.buckets (t := t) (o := some { L with pc := .install b (m.allocate t).1 })
      (fun K x hK hx => by cases hK; cases hx)
      (fun L' x hL' hx => by rw [hL] at hL'; cases hL'; rw [hpc] at hx; cases hx)
    have hmono : ∀ c d, m.next c=some d → (m.allocate t).2.next c=some d := by
      intro c d hc
      rw [hnext]
      exact hc
    exact ⟨hbk,hentry.grow hbk ha.entries_eq hmono⟩
  | install b new =>
    rw [hpc] at ho hp
    cases hn : m.next b with
    | none =>
      simp only [HashIndex.lookupStep,hn] at ho ⊢
      cases ho
      have h0 := next_eq_none hn
      have hbk := h.buckets.link hL hpc h0
      have hentry := h.entries.move h.buckets (t := t) (o := some { L with pc := .claim ⟨.overflow new,0⟩ })
        (fun K x hK hx => by cases hK; cases hx)
        (fun L' x hL' hx => by rw [hL] at hL'; cases hL'; rw [hpc] at hx; cases hx)
      exact ⟨hbk,hentry.grow hbk rfl (next_setOverflow h0)⟩
    | some c =>
      simp only [HashIndex.lookupStep,hn] at ho ⊢
      cases ho
      exact h.walk hL (by rw [hpc]; rfl) rfl (fun n hn => by rw [hpc]; exact hn) (Reaches.tail hp hn)
  | release new c =>
    rw [hpc] at ho hp
    cases ho
    have hbk := h.buckets.freeAtEpoch hL (by rw [hpc]; rfl) hp
    have hentry := h.entries.move h.buckets (t := t) (o := some { L with pc := .scan c 0 none })
      (fun K x hK hx => by cases hK; cases hx)
      (fun L' x hL' hx => by rw [hL] at hL'; cases hL'; rw [hpc] at hx; cases hx)
    exact ⟨hbk,hentry.grow hbk rfl fun _ _ hc => hc⟩
  | claim x =>
    rw [hpc] at ho hp
    simp only [HashIndex.lookupStep] at ho ⊢
    split_ifs at ho ⊢ with h0
    · cases ho
      refine ⟨(h.buckets.setEntry x _).move ?_ ?_,h.entries.claim hL (by rw [hpc]; rfl) hp h0⟩
      · intro K n hK hn
        cases hK
        cases hn
      · intro K hK
        cases hK
        exact hp
    · cases ho
      exact h.start (fun L' hL' => by rw [hL] at hL'; cases hL'; rw [hpc]; rfl) (fun K hK => by cases hK; rfl)
  | ownTag x =>
    rw [hpc] at ho hp
    cases ho
    have htag : (m.entries x).tag=L.tag := by
      rw [h.entries.owned t L x hL (by rw [hpc]; rfl)]
      rfl
    refine h.check hL (by rw [hpc]; rfl) rfl rfl ⟨hp,htag,.refl _,Nat.zero_le _⟩ ?_
    intro y hy _ _ _ _
    exact ahead_of_reaches hy.1 y.idx
  | backOff x =>
    rw [hpc] at ho
    cases ho
    have hx : owns L.pc=some x := by rw [hpc]; rfl
    have hstart : Starting (some { L with pc := .scan (.base L.idx) 0 none }) := by
      intro K hK
      cases hK
      rfl
    refine ⟨(h.buckets.setEntry x _).move ?_ fun K hK => hstart.placed hK,
      h.entries.settle h.buckets hL hx (fun K hK => hstart.owns hK) rfl fun hne => absurd rfl hne⟩
    intro K n hK hn
    rw [hstart.held hK] at hn
    cases hn
  | commit x =>
    rw [hpc] at ho
    have hx : owns L.pc=some x := by rw [hpc]; rfl
    refine ⟨(h.buckets.setEntry x _).move ?_ fun K hK => Starting.placed ho hK,
      h.entries.settle h.buckets hL hx (fun K hK => Starting.owns ho hK) rfl fun _ => ⟨hpc,rfl⟩⟩
    intro K n hK hn
    rw [Starting.held ho hK] at hn
    cases hn

end

/-- What a lookup leaves alone: chains only grow, non-tentative entries stay
as they are, and what it writes leads to no key pointer. -/
structure LookupFrame (m m' : Index) : Prop where
  next_mono : ∀ c d, m.next c = some d → m'.next c = some d
  final_kept : ∀ x, (m.entries x).Final → m'.entries x = m.entries x
  changed : ∀ x, m'.entries x ≠ m.entries x → (m'.entries x).address ≤ kInvalidAddress

theorem LookupFrame.refl (m : Index) : LookupFrame m m := ⟨fun _ _ hc => hc,fun _ _ => rfl,fun _ hne => absurd rfl hne⟩

/-- A store to a slot without non-tentative entry. -/
theorem LookupFrame.setEntry (hx : ¬ (m.entries x).Final) (he : e.address≤kInvalidAddress) :
    LookupFrame m (m.setEntry x e) := by
  refine ⟨fun _ _ hc => hc,?_,?_⟩
  · intro y hy
    refine setEntry_of_ne ?_
    rintro rfl
    exact hx hy
  · intro y hne
    by_cases hyx : y=x
    · subst hyx
      rw [setEntry_self]
      exact he
    · exact absurd (setEntry_of_ne hyx) hne

section

variable (h : IndexInv m looks) (hL : looks t=some L)

include h hL

theorem IndexInv.not_final_of_owns (hx : owns L.pc=some x) : ¬ (m.entries x).Final := by
  rw [h.entries.owned t L x hL hx]
  exact fun hf => absurd hf.2 Bool.noConfusion

theorem IndexInv.lookupFrame : LookupFrame m (HashIndex.lookupStep L.idx L.tag t m L.pc).1 := by
  cases hpc : L.pc with
  | scan b i free =>
    simp only [HashIndex.lookupStep]
    split_ifs
    · exact .refl m
    · exact .refl m
    · exact .refl m
    · split <;> exact .refl m
  | allocate b =>
    have ha := h.buckets.allocated t
    refine ⟨?_,fun x _ => ?_,fun x hne => absurd ?_ hne⟩
    · intro c d hc
      unfold Index.next at hc ⊢
      simp only [HashIndex.lookupStep,ha.overflow_eq]
      exact hc
    · simp only [HashIndex.lookupStep,ha.entries_eq]
    · simp only [HashIndex.lookupStep,ha.entries_eq]
  | install b new =>
    simp only [HashIndex.lookupStep]
    split
    · rename_i hn
      exact ⟨next_setOverflow (next_eq_none hn),fun _ _ => rfl,fun _ hne => absurd rfl hne⟩
    · exact .refl m
  | release new c => exact ⟨fun _ _ hc => hc,fun _ _ => rfl,fun _ hne => absurd rfl hne⟩
  | claim x =>
    simp only [HashIndex.lookupStep]
    split_ifs with h0
    · exact .setEntry (fun hf => hf.1 h0) le_rfl
    · exact .refl m
  | ownTag x => exact .refl m
  | conflict x own b i =>
    simp only [HashIndex.lookupStep]
    split_ifs
    · exact .refl m
    · exact .refl m
    · split <;> exact .refl m
  | backOff x => exact .setEntry (h.not_final_of_owns hL (by rw [hpc]; rfl)) (Nat.zero_le _)
  | commit x => exact .setEntry (h.not_final_of_owns hL (by rw [hpc]; rfl)) le_rfl

/-- A lookup changes no tag of an entry in use. -/
theorem IndexInv.lookup_tag (hx : m.entries x ≠ kInvalidEntry)
    (hx' : (HashIndex.lookupStep L.idx L.tag t m L.pc).1.entries x ≠ kInvalidEntry) :
    ((HashIndex.lookupStep L.idx L.tag t m L.pc).1.entries x).tag=(m.entries x).tag := by
  cases hpc : L.pc with
  | scan b i free =>
    simp only [HashIndex.lookupStep]
    split_ifs
    · rfl
    · rfl
    · rfl
    · split <;> rfl
  | allocate b => simp only [HashIndex.lookupStep,(h.buckets.allocated t).entries_eq]
  | install b new =>
    simp only [HashIndex.lookupStep]
    split <;> rfl
  | release new c => rfl
  | claim y =>
    simp only [HashIndex.lookupStep]
    split_ifs with h0
    · have hxy : x ≠ y := by
        rintro rfl
        exact hx h0
      simp only [setEntry_of_ne hxy]
    · rfl
  | ownTag y => rfl
  | conflict y own b i =>
    simp only [HashIndex.lookupStep]
    split_ifs
    · rfl
    · rfl
    · split <;> rfl
  | backOff y =>
    rw [hpc] at hx'
    simp only [HashIndex.lookupStep] at hx' ⊢
    by_cases hxy : x=y
    · subst hxy
      rw [setEntry_self] at hx'
      exact absurd rfl hx'
    · rw [setEntry_of_ne hxy]
  | commit y =>
    simp only [HashIndex.lookupStep]
    by_cases hxy : x=y
    · subst hxy
      rw [setEntry_self,h.entries.owned t L x hL (by rw [hpc]; rfl)]
      rfl
    · rw [setEntry_of_ne hxy]

/-- A call that returns yields the non-tentative entry of its tag in the chain
of its hash, and the value of that entry. -/
theorem IndexInv.lookup_done (hr : (HashIndex.lookupStep L.idx L.tag t m L.pc).2=.done x e) :
    InChain m.next L.idx x ∧ Holds (HashIndex.lookupStep L.idx L.tag t m L.pc).1 x L.tag ∧
      (HashIndex.lookupStep L.idx L.tag t m L.pc).1.entries x=e := by
  have hp := h.buckets.placed t L hL
  cases hpc : L.pc with
  | scan b i free =>
    rw [hpc] at hr hp
    simp only [HashIndex.lookupStep] at hr ⊢
    split_ifs at hr ⊢ with hlt hun hmatch
    · cases hr
      refine ⟨⟨hp.1,hlt⟩,⟨⟨fun h0 => hun (unused_iff.mpr h0),hmatch.2⟩,hmatch.1.symm⟩,rfl⟩
    · split at hr <;> cases hr
  | commit x =>
    rw [hpc] at hr hp
    cases hr
    refine ⟨hp,?_,setEntry_self⟩
    exact holds_setEntry_self.mpr ⟨createdEntry_final _,rfl⟩
  | allocate b | release new c | ownTag x | backOff x => rw [hpc] at hr; cases hr
  | install b new =>
    rw [hpc] at hr
    simp only [HashIndex.lookupStep] at hr
    split at hr <;> cases hr
  | claim x =>
    rw [hpc] at hr
    simp only [HashIndex.lookupStep] at hr
    split_ifs at hr
  | conflict x own b i =>
    rw [hpc] at hr
    simp only [HashIndex.lookupStep] at hr
    split_ifs at hr
    split at hr <;> cases hr

end

end

section Find

variable {m : Index} {tag i : ℕ} {x : Slot} {b c : BucketRef}

/-- `FindEntry` passes an entry that is not the non-tentative one of the tag. -/
theorem findStep_pass (hi : i<kNumEntries) (hx : ¬ Holds m ⟨b,i⟩ tag) : findStep tag m b i=.more b (i+1) := by
  unfold findStep
  simp only [if_pos hi]
  split_ifs with hun hm
  · rfl
  · exact absurd ⟨⟨fun h0 => hun (unused_iff.mpr h0),hm.2⟩,hm.1.symm⟩ hx
  · rfl

/-- `FindEntry` returns at the non-tentative entry of the tag. -/
theorem findStep_hit (hi : i<kNumEntries) (hx : Holds m ⟨b,i⟩ tag) : findStep tag m b i=.done (some ⟨b,i⟩) := by
  unfold findStep
  have hun : ¬ (m.entries ⟨b,i⟩).unused=true := fun h => hx.1.1 (unused_iff.mp h)
  simp only [if_pos hi,if_neg hun,if_pos (show _ ∧ _ from ⟨hx.2.symm,hx.1.2⟩)]

/-- `FindEntry` goes on from the end of a bucket. -/
theorem findStep_hop (h : m.next b=some c) : findStep tag m b kNumEntries=.more c 0 := by
  unfold findStep
  rw [if_neg (lt_irrefl _),h]

/-- Within a bucket `FindEntry` gets to any entry before which there is none
of the tag. -/
theorem findLoop_advance (fuel d : ℕ) (hi : i+d≤kNumEntries) (hx : ∀ j, i≤j → j < i+d → ¬ Holds m ⟨b,j⟩ tag) :
    findLoop tag m (fuel+d) b i=findLoop tag m fuel b (i+d) := by
  induction d generalizing i with
  | zero => rfl
  | succ d ih =>
    have hstep : findLoop tag m (fuel+(d+1)) b i=findLoop tag m (fuel+d) b (i+1) := by
      have hpass : findStep tag m b i=.more b (i+1) := findStep_pass (by omega) (hx i le_rfl (by omega))
      rw [←Nat.add_assoc]
      simp only [findLoop,hpass]
    rw [hstep,ih (by omega) (fun j hj hj' => hx j (by omega) (by omega))]
    congr 1
    omega

/-- `FindEntry` finds the only entry of its tag in the bucket. -/
theorem findLoop_here (hi : x.idx<kNumEntries) (hx : Holds m x tag)
    (huniq : ∀ j, j<kNumEntries → Holds m ⟨x.bucket,j⟩ tag → j=x.idx) :
    findLoop tag m (1+x.idx) x.bucket 0=some (some x) := by
  rw [findLoop_advance 1 x.idx (by omega),Nat.zero_add]
  · have hhit : findStep tag m x.bucket x.idx=.done (some x) := findStep_hit hi hx
    simp only [findLoop,hhit]
  · intro j _ hj hh
    have := huniq j (by omega) hh
    omega

/-- `FindEntry` finds the non-tentative entry of its tag when the chain has
only one. -/
theorem findLoop_found (hb : Reaches m.next b x.bucket) (hi : x.idx<kNumEntries) (hx : Holds m x tag)
    (huniq : ∀ y, Reaches m.next b y.bucket → y.idx<kNumEntries → Holds m y tag → y=x) :
    ∃ fuel, findLoop tag m fuel b 0=some (some x) := by
  -- Along the chain: the buckets before that of the entry have nothing of
  -- the tag.
  induction hb using Relation.ReflTransGen.head_induction_on with
  | refl =>
    refine ⟨_,findLoop_here hi hx fun j hj hh => ?_⟩
    rw [←huniq ⟨x.bucket,j⟩ (.refl _) hj hh]
  | @head b c hbc hc ih =>
    obtain ⟨fuel,hf⟩ := ih fun y hy hyi hh => huniq y (Reaches.head hbc hy) hyi hh
    by_cases hbx : b=x.bucket
    · subst hbx
      refine ⟨_,findLoop_here hi hx fun j hj hh => ?_⟩
      rw [←huniq ⟨x.bucket,j⟩ (.refl _) hj hh]
    · refine ⟨fuel+1+kNumEntries,?_⟩
      rw [findLoop_advance (fuel+1) kNumEntries (by omega),Nat.zero_add]
      · simp only [findLoop,findStep_hop hbc]
        exact hf
      · intro j _ hj hh
        have := huniq ⟨b,j⟩ (.refl _) (by simp only; omega) hh
        exact hbx (by rw [←this])

end Find

end FishStore.EntryInvariant
