import FishStore.Grow
import FishStore.LiveChains

/-!
# Splitting the entries of a bucket

`AddHashEntry` appends an entry to a chain of the new table. It keeps the
invariants of the index and everything that was there, as long as the chain has
no entry of the tag yet. `SplitHashTableBuckets` adds for each entry of an old
chain at most one entry to each of the two new chains, and whatever key pointer
of the bucket was visited from the old entry is visited from one of them: the
entry itself, or the first key pointer below it that belongs to the other side.
-/

namespace FishStore.SplitTable

open Layout Chains HashIndex BucketInvariant EntryInvariant InternalInsert ChainInvariant Grow
open Function LiveChains InsertInvariant

/-- `AddHashEntry` goes on at `cur`, the end of the chain with index `q`. -/
structure EndsAt (m : Index) (q : ℕ) (cur : Cursor) : Prop where
  reach : Reaches m.next (.base q) cur.bucket
  last : m.next cur.bucket = none
  le : cur.nextIdx ≤ kNumEntries
  unused : ∀ i, cur.nextIdx ≤ i → i < kNumEntries → m.entries ⟨cur.bucket, i⟩ = kInvalidEntry

/-- No entry of the chain has the tag. -/
def NoTag (m : Index) (q tag : ℕ) : Prop :=
  ∀ x, InChain m.next q x → m.entries x ≠ kInvalidEntry → (m.entries x).tag ≠ tag

/-- What adding entries of a tag to the chains of `own` leaves. -/
structure Extends (own : ℕ → Prop) (tag : ℕ) (m m' : Index) : Prop where
  index : IndexInv m' fun _ => none
  next_mono : ∀ c d, m.next c = some d → m'.next c = some d
  /-- Entries in use stay. -/
  kept : ∀ x, m.entries x ≠ kInvalidEntry → m'.entries x = m.entries x
  /-- Other chains end where they did. -/
  ends : ∀ q c, ¬own q → EndsAt m q c → EndsAt m' q c
  /-- No other tag appears, and the tag only in these chains. -/
  noTag : ∀ q tag', NoTag m q tag' → (own q → tag' ≠ tag) → NoTag m' q tag'

section

variable {own own' : ℕ → Prop} {m m' m'' : Index} {q tag t : ℕ} {cur : Cursor} {e : HashBucketEntry}
  {x : Slot}

theorem Extends.trans (h : Extends own tag m m') (h' : Extends own tag m' m'') : Extends own tag m m'' := by
  refine ⟨h'.index,fun c d hc => h'.next_mono c d (h.next_mono c d hc),?_,?_,?_⟩
  · intro x hx
    have hkept := h.kept x hx
    rw [h'.kept x (by rw [hkept]; exact hx),hkept]
  · exact fun q c hq hc => h'.ends q c hq (h.ends q c hq hc)
  · exact fun q tag' hq hne => h'.noTag q tag' (h.noTag q tag' hq hne) hne

theorem Extends.weaken (h : Extends own tag m m') (hown : ∀ q, own q → own' q) : Extends own' tag m m' :=
  ⟨h.index,h.next_mono,h.kept,fun q c hq hc => h.ends q c (fun ho => hq (hown q ho)) hc,
    fun q tag' hq hne => h.noTag q tag' hq fun ho => hne (hown q ho)⟩

theorem Extends.refl (h : IndexInv m fun _ => none) : Extends own tag m m :=
  ⟨h,fun _ _ hc => hc,fun _ _ => rfl,fun _ _ _ hc => hc,fun _ _ hq _ => hq⟩

/-- Non-tentative entries stay. -/
theorem Extends.holds (h : Extends own tag m m') {tag' : ℕ} (hx : Holds m x tag') : Holds m' x tag' := by
  unfold Holds
  rw [h.kept x hx.1.1]
  exact hx

/-- Key pointers that are visited stay so. -/
theorem Extends.live {size : ℕ} {kpts : ℕ → KptWord} {l : Link} (h : Extends own tag m m')
    (hl : Live size m kpts l) : Live size m' kpts l := by
  obtain ⟨x,hin,hx,hv⟩ := hl
  refine ⟨x,InChain.mono h.next_mono hin,h.holds hx,?_⟩
  rw [h.kept x hx.1.1]
  exact hv

/-- A chain that has no entry has none of any tag. -/
theorem EndsAt.noTag (h : EndsAt m q ⟨.base q,0⟩) : NoTag m q tag := by
  intro x hx hne
  have hb : x.bucket=.base q := by
    rcases Relation.ReflTransGen.cases_head hx.1 with he | ⟨d,hd,_⟩
    · exact he.symm
    · rw [h.last] at hd
      cases hd
  refine absurd ?_ hne
  have hunused := h.unused x.idx (Nat.zero_le _) hx.2
  rw [←hb] at hunused
  exact hunused

/-- What is written to one chain is in no other. -/
theorem noTag_of_write (h : IndexInv m fun _ => none) (h' : IndexInv m' fun _ => none)
    (hmono : ∀ c d, m.next c=some d → m'.next c=some d) (hx : InChain m'.next q x)
    (hself : m'.entries x=e) (hother : ∀ y, y ≠ x → m'.entries y=m.entries y) {q' tag' : ℕ}
    (hn : NoTag m q' tag') (hne : q'=q → tag' ≠ e.tag) : NoTag m' q' tag' := by
  intro y hy hused
  by_cases hyx : y=x
  · subst hyx
    have hq := h'.buckets.chain_unique hy.1 hx.1
    rw [hself]
    exact (hne hq).symm
  · rw [hother y hyx] at hused ⊢
    obtain ⟨j,hj⟩ := h.entries.used y hused
    have hjq := h'.buckets.chain_unique (hj.1.mono hmono) hy.1
    subst hjq
    exact hn y hj hused

section

variable (h : IndexInv m fun _ => none) (hc : EndsAt m q cur)

include h hc

/-- A store to the first unused entry of the last bucket. -/
theorem addHashEntry_here (he : e.Final) (hn : NoTag m q e.tag) (hlt : cur.nextIdx<kNumEntries) :
    Extends (·=q) e.tag m (m.setEntry ⟨cur.bucket,cur.nextIdx⟩ e) ∧
      EndsAt (m.setEntry ⟨cur.bucket,cur.nextIdx⟩ e) q ⟨cur.bucket,cur.nextIdx+1⟩ ∧
      InChain (m.setEntry ⟨cur.bucket,cur.nextIdx⟩ e).next q ⟨cur.bucket,cur.nextIdx⟩ := by
  have hfree := hc.unused cur.nextIdx le_rfl hlt
  have hin : InChain m.next q ⟨cur.bucket,cur.nextIdx⟩ := ⟨hc.reach,hlt⟩
  have hindex : IndexInv (m.setEntry ⟨cur.bucket,cur.nextIdx⟩ e) fun _ => none := by
    refine ⟨h.buckets.setEntry _ _,h.entries.write h.buckets ?_ he.2 (fun _ => ⟨q,hin⟩) fun _ => ?_⟩
    · rw [hfree]
      rfl
    · refine .inr fun j y hj hy hused => ?_
      have hjq := h.buckets.chain_unique hj.1 hin.1
      subst hjq
      exact hn y hy hused
  refine ⟨⟨hindex,fun _ _ hd => hd,?_,?_,?_⟩,⟨hc.reach,hc.last,hlt,?_⟩,hin⟩
  · intro y hy
    refine setEntry_of_ne ?_
    rintro rfl
    exact hy hfree
  · intro q' c hq hc'
    refine ⟨hc'.reach,hc'.last,hc'.le,fun i hi hi7 => ?_⟩
    rw [setEntry_of_ne]
    · exact hc'.unused i hi hi7
    · rintro heq
      have hb : c.bucket=cur.bucket := congrArg Slot.bucket heq
      have hreach := hc'.reach
      rw [hb] at hreach
      exact hq (h.buckets.chain_unique hreach hc.reach)
  · exact fun q' tag' hq hne => noTag_of_write h hindex (fun _ _ hd => hd) hin setEntry_self
      (fun y hy => setEntry_of_ne hy) hq hne
  · intro i hi hi7
    have hi' : cur.nextIdx+1 ≤ i := hi
    rw [setEntry_of_ne]
    · exact hc.unused i (by omega) hi7
    · rintro heq
      have hidx : i=cur.nextIdx := congrArg Slot.idx heq
      omega

omit h hc in
/-- A bucket that no pointer leads to is in no chain. -/
theorem not_reached {n j : ℕ} (h : ∀ b, m.overflowEntry b ≠ n) : ¬Reaches m.next (.base j) (.overflow n) := by
  intro hr
  have hbase : BucketRef.base j=.overflow n := by
    refine Reaches.eq_of_unlinked (fun c hc => ?_) hr
    obtain ⟨_,heq⟩ := next_eq_some hc
    cases heq
    exact h c rfl
  cases hbase

/-- Allocating a bucket and linking it behind the last one of a chain. -/
theorem indexInv_append (t : ℕ) : IndexInv ((m.allocate t).2.setOverflow cur.bucket (m.allocate t).1) fun _ => none := by
  have ha := h.buckets.allocated t
  have hnext : (m.allocate t).2.next=m.next := by
    funext c
    unfold Index.next
    rw [ha.overflow_eq]
  have h0 : (m.allocate t).2.overflowEntry cur.bucket=0 := by
    rw [ha.overflow_eq]
    exact next_eq_none hc.last
  -- The steps that a lookup takes to append a bucket.
  have hhold := h.buckets.hold (t := t) (L := ⟨q,0,.allocate cur.bucket⟩) ha hc.reach
  have hlink := hhold.link (update_self _ _ _) rfl h0
  have hbuckets := hlink.move (t := t) (o := none) nofun nofun
  rw [update_idem,update_idem, update_eq_self (f := fun _ : ℕ => (none : Option Lookup)) t] at hbuckets
  refine ⟨hbuckets,h.entries.grow hbuckets ha.entries_eq ?_⟩
  intro c d hcd
  refine next_setOverflow h0 c d ?_
  rw [hnext]
  exact hcd

/-- A store to the first entry of a bucket that was appended. -/
theorem addHashEntry_next (he : e.Final) (hn : NoTag m q e.tag) (t : ℕ) :
    Extends (·=q) e.tag m (((m.allocate t).2.setOverflow cur.bucket (m.allocate t).1).setEntry
        ⟨.overflow (m.allocate t).1,0⟩ e) ∧ EndsAt (((m.allocate t).2.setOverflow cur.bucket (m.allocate t).1).setEntry
        ⟨.overflow (m.allocate t).1,0⟩ e) q ⟨.overflow (m.allocate t).1,1⟩ ∧
      InChain (((m.allocate t).2.setOverflow cur.bucket (m.allocate t).1).setEntry
        ⟨.overflow (m.allocate t).1,0⟩ e).next q ⟨.overflow (m.allocate t).1,0⟩ := by
  have ha := h.buckets.allocated t
  have happ := indexInv_append h hc t
  set n := (m.allocate t).1 with hndef
  set m₁ := (m.allocate t).2.setOverflow cur.bucket n with hm₁
  have hentries : m₁.entries=m.entries := ha.entries_eq
  have hover : ∀ c, m₁.overflowEntry c=if c=cur.bucket then n else m.overflowEntry c := by
    intro c
    change update (m.allocate t).2.overflowEntry cur.bucket n c=_
    rw [ha.overflow_eq,update_apply]
  have hmono : ∀ c d, m.next c=some d → m₁.next c=some d := by
    intro c d hcd
    have hne : c ≠ cur.bucket := by
      rintro rfl
      rw [hc.last] at hcd
      cases hcd
    unfold Index.next at hcd ⊢
    rw [hover,if_neg hne]
    exact hcd
  have hunreached : ∀ j, ¬Reaches m.next (.base j) (.overflow n) := fun j => not_reached ha.spare.2.2
  have hlink : m₁.next cur.bucket=some (.overflow n) := by
    unfold Index.next
    rw [hover,if_pos rfl,if_neg ha.spare.1.ne']
  have hlast : m₁.next (.overflow n)=none := by
    have hne : BucketRef.overflow n ≠ cur.bucket := by
      intro heq
      refine hunreached q ?_
      rw [heq]
      exact hc.reach
    unfold Index.next
    rw [hover,if_neg hne]
    refine if_pos ?_
    by_contra h0
    obtain ⟨j,hj⟩ := h.buckets.pointed_attached _ h0
    exact hunreached j hj
  have hfree : ∀ i, m₁.entries ⟨.overflow n,i⟩=kInvalidEntry := by
    intro i
    rw [hentries]
    by_contra hused
    obtain ⟨j,hj⟩ := h.entries.used _ hused
    exact hunreached j hj.1
  have hreach : Reaches m₁.next (.base q) (.overflow n) := (hc.reach.mono hmono).tail hlink
  -- The appended bucket ends the chain, and the rest is as for any last bucket.
  have hends : EndsAt m₁ q ⟨.overflow n,0⟩ := ⟨hreach,hlast,Nat.zero_le _,fun i _ _ => hfree i⟩
  have hnotag : ∀ {q' tag'}, NoTag m q' tag' → NoTag m₁ q' tag' := by
    intro q' tag' hq y hy hused
    rw [hentries] at hused ⊢
    obtain ⟨j,hj⟩ := h.entries.used y hused
    have hjq := happ.buckets.chain_unique (hj.1.mono hmono) hy.1
    subst hjq
    exact hq y hj hused
  obtain ⟨hext,hends',hin⟩ := addHashEntry_here happ hends he (hnotag hn) (Nat.succ_pos _)
  refine ⟨⟨hext.index,fun c d hcd => hext.next_mono c d (hmono c d hcd),?_,?_,?_⟩,hends',hin⟩
  · intro y hy
    rw [←hentries] at hy ⊢
    exact hext.kept y hy
  · intro q' c hq hc'
    refine hext.ends q' c hq ⟨hc'.reach.mono hmono,?_,hc'.le,?_⟩
    · have hne : c.bucket ≠ cur.bucket := by
        intro heq
        have hr := hc'.reach
        rw [heq] at hr
        exact hq (h.buckets.chain_unique hr hc.reach)
      have hlast' := hc'.last
      unfold Index.next at hlast' ⊢
      rw [hover,if_neg hne]
      exact hlast'
    · rw [hentries]
      exact hc'.unused
  · exact fun q' tag' hq hne => hext.noTag q' tag' (hnotag hq) hne

/-- `AddHashEntry` appends an entry to the chain, and leaves everything else. -/
theorem addHashEntry_spec (he : e.Final) (hn : NoTag m q e.tag) (t : ℕ) : Extends (·=q) e.tag m (addHashEntry t e m cur).1 ∧
      EndsAt (addHashEntry t e m cur).1 q (addHashEntry t e m cur).2 ∧
      (∃ x, InChain (addHashEntry t e m cur).1.next q x ∧ (addHashEntry t e m cur).1.entries x=e) ∧
      ∀ x, (addHashEntry t e m cur).1.entries x=m.entries x ∨ (addHashEntry t e m cur).1.entries x=e := by
  unfold addHashEntry
  split_ifs with hfull
  · obtain ⟨hext,hends,hin⟩ := addHashEntry_next h hc he hn t
    refine ⟨hext,hends,⟨_,hin,setEntry_self⟩,fun x => ?_⟩
    by_cases hx : x=⟨.overflow (m.allocate t).1,0⟩
    · rw [hx]
      exact .inr setEntry_self
    · refine .inl ?_
      change (((m.allocate t).2.setOverflow cur.bucket (m.allocate t).1).setEntry _ e).entries x=_
      rw [setEntry_of_ne hx]
      exact congrFun (h.buckets.allocated t).entries_eq x
  · have hlt : cur.nextIdx<kNumEntries := lt_of_le_of_ne hc.le hfull
    obtain ⟨hext,hends,hin⟩ := addHashEntry_here h hc he hn hlt
    refine ⟨hext,hends,⟨_,hin,setEntry_self⟩,fun x => ?_⟩
    by_cases hx : x=⟨cur.bucket,cur.nextIdx⟩
    · rw [hx]
      exact .inr setEntry_self
    · exact .inl (setEntry_of_ne hx)

end

/-- The two new chains of an old one while it is split. -/
structure Growing (chains : Bool → ℕ) (r : Index × (Bool → Cursor)) : Prop where
  index : IndexInv r.1 fun _ => none
  ends : ∀ side, EndsAt r.1 (chains side) (r.2 side)

variable {chains : Bool → ℕ} {r : Index × (Bool → Cursor)}

/-- Adding an entry to the new chain of one side. -/
theorem Growing.addTo (h : Growing chains r) (hchains : chains false ≠ chains true) (he : e.Final)
    {side : Bool} (hn : NoTag r.1 (chains side) e.tag) (t : ℕ) : Growing chains (addTo t side e r) ∧
      Extends (·=chains side) e.tag r.1 (Grow.addTo t side e r).1 ∧
      (∃ x, InChain (Grow.addTo t side e r).1.next (chains side) x ∧
        (Grow.addTo t side e r).1.entries x=e) ∧ ∀ x, (Grow.addTo t side e r).1.entries x=r.1.entries x ∨
        (Grow.addTo t side e r).1.entries x=e := by
  obtain ⟨hext,hends,hin,hentries⟩ := addHashEntry_spec h.index (h.ends side) he hn t
  refine ⟨⟨hext.index,fun other => ?_⟩,hext,hin,hentries⟩
  by_cases ho : other=side
  · subst ho
    change EndsAt _ _ (update r.2 other _ other)
    rw [update_self]
    exact hends
  · change EndsAt _ _ (update r.2 side _ other)
    rw [update_of_ne ho]
    refine hext.ends _ _ ?_ (h.ends other)
    intro heq
    cases other <;> cases side <;> first | exact ho rfl | exact hchains heq | exact hchains heq.symm

/-- Where the buckets of a table of a power of two go in one of twice the size. -/
theorem idx_double (hash : KeyHash) (k : ℕ) :
    hash.idx (2*2^k)=(if sideOf (2^k) (2*2^k) hash then 2^k else 0)+hash.idx (2^k) := by
  unfold sideOf KeyHash.idx
  set c := hash.control%2^48
  have hpos : 0<2^k := Nat.two_pow_pos k
  have hdouble : c &&& (2*2^k - 1)=c%(2*2^k) := by rw [←Nat.pow_succ',Nat.and_two_pow_sub_one_eq_mod]
  rw [hdouble,Nat.and_two_pow_sub_one_eq_mod,mul_comm 2,Nat.mod_mul]
  have hlt : c%2^k<2^k := Nat.mod_lt _ hpos
  rcases Nat.mod_two_eq_zero_or_one (c/2^k) with h | h
  · rw [h]
    simp [not_le.mpr hlt]
  · rw [h]
    simp [add_comm]

theorem idx_lt (hash : KeyHash) (k : ℕ) : hash.idx (2^k)<2^k := by
  unfold KeyHash.idx
  rw [Nat.and_two_pow_sub_one_eq_mod]
  exact Nat.mod_lt _ (Nat.two_pow_pos k)

/-- `TraceBackForOtherChainStart` skips key pointers of one side only, and ends
before the fuel does. -/
theorem traceBack_spec (hashes : ℕ → KeyHash) (oldSize newSize : ℕ) (side : Bool) {prev : ℕ → ℕ} {P : ℕ → Prop}
    {minAddress start fuel : ℕ} (hd : Descends kInvalidAddress prev P) (hmin : kInvalidAddress < minAddress) (hp : P start)
    (hfuel : start<fuel) :
    P (traceBackForOtherChainStart hashes prev oldSize newSize minAddress side fuel start) ∧
      ∀ k, Visits kInvalidAddress prev start k → sideOf oldSize newSize (hashes k) ≠ side → Visits kInvalidAddress prev
          (traceBackForOtherChainStart hashes prev oldSize newSize minAddress side fuel start) k := by
  induction fuel generalizing start with
  | zero => omega
  | succ fuel ih =>
    unfold traceBackForOtherChainStart
    split_ifs with hge hside
    · exact ⟨hp,fun _ hv _ => hv⟩
    · obtain ⟨hlt,hp'⟩ := hd start hp (hmin.trans_le hge)
      obtain ⟨hr,hvisits⟩ := ih hp' (by omega)
      refine ⟨hr,fun k hv hk => hvisits k ?_ hk⟩
      rcases Relation.ReflTransGen.cases_head hv with rfl | ⟨d,⟨_,rfl⟩,hv'⟩
      · exact absurd hk hside
      · exact hv'
    · exact ⟨hp,fun _ hv _ => hv⟩

/-- The chains of the new table that the chain with index `j` is split into. -/
def newChains (oldSize j : ℕ) (side : Bool) : ℕ := (if side then oldSize else 0) + j

theorem newChains_ne (k j : ℕ) : newChains (2^k) j false ≠ newChains (2^k) j true := by
  have hpos : 0<2^k := Nat.two_pow_pos k
  simp only [newChains,Bool.false_eq_true,if_false,if_true]
  omega

/-- A key pointer that is visited from an entry of the new chain of its side. -/
theorem live_of_chain {k : ℕ} {kpts : ℕ → KptWord} {l : Link} (he : e.Final)
    (hx : InChain m.next (newChains (2^k) (l.hash.idx (2^k)) (sideOf (2^k) (2*2^k) l.hash)) x)
    (hxe : m.entries x=e) (htag : l.hash.tag=e.tag)
    (hv : Visits kInvalidAddress (prevOf kpts) e.address l.address) : Live (2*2^k) m kpts l := by
  refine ⟨x,?_,?_,?_⟩
  · rw [idx_double]
    exact hx
  · unfold Holds
    rw [hxe]
    exact ⟨he,htag.symm⟩
  · rw [hxe]
    exact hv

/-- An entry that goes to its own side. -/
theorem addOwn_spec (kpts : ℕ → KptWord) {j k : ℕ} {side : Bool} (h : Growing (newChains (2^k) j) r) (he : e.Final)
    (hn : NoTag r.1 (newChains (2^k) j side) e.tag) (t : ℕ) :
    Growing (newChains (2^k) j) (addTo t side e r) ∧ Extends (·=newChains (2^k) j side) e.tag r.1 (addTo t side e r).1 ∧
      (∀ x, (addTo t side e r).1.entries x=r.1.entries x ∨ (addTo t side e r).1.entries x=e) ∧
      ∀ l : Link, l.hash.idx (2^k)=j → sideOf (2^k) (2*2^k) l.hash=side →
        l.hash.tag=e.tag → Visits kInvalidAddress (prevOf kpts) e.address l.address →
        Live (2*2^k) (addTo t side e r).1 kpts l := by
  obtain ⟨h₁,hext₁,⟨x,hx,hxe⟩,hentries⟩ := h.addTo (newChains_ne k j) he hn t
  refine ⟨h₁,hext₁,hentries,fun l hidx hside htag hv => ?_⟩
  subst hidx hside
  exact live_of_chain he hx hxe htag hv

/-- An entry of the one side, and one of the same tag of the other. -/
theorem addBoth_spec (kpts : ℕ → KptWord) (side : Bool) {j k : ℕ} {e' : HashBucketEntry} (h : Growing (newChains (2^k) j) r)
    (he : e.Final) (he' : e'.Final) (htag' : e'.tag=e.tag) (hn : ∀ side, NoTag r.1 (newChains (2^k) j side) e.tag) (t : ℕ) :
    Growing (newChains (2^k) j) (addTo t (!side) e' (addTo t side e r)) ∧
      Extends (fun q => ∃ side, q=newChains (2^k) j side) e.tag r.1 (addTo t (!side) e' (addTo t side e r)).1 ∧
      (∀ x, (addTo t (!side) e' (addTo t side e r)).1.entries x=r.1.entries x ∨
        (addTo t (!side) e' (addTo t side e r)).1.entries x=e ∨ (addTo t (!side) e' (addTo t side e r)).1.entries x=e') ∧
      ∀ l : Link, l.hash.idx (2^k)=j → l.hash.tag=e.tag → Visits kInvalidAddress (prevOf kpts)
          (if sideOf (2^k) (2*2^k) l.hash=side then e.address else e'.address) l.address →
        Live (2*2^k) (addTo t (!side) e' (addTo t side e r)).1 kpts l := by
  obtain ⟨h₁,hext₁,hentries₁,hlive₁⟩ := addOwn_spec kpts h he (hn side) t
  have hn₁ : NoTag (addTo t side e r).1 (newChains (2^k) j !side) e'.tag := by
    rw [htag']
    refine hext₁.noTag _ _ (hn _) fun heq => ?_
    have hne := newChains_ne k j
    cases side
    · exact absurd heq.symm hne
    · exact absurd heq hne
  obtain ⟨h₂,hext₂,hentries₂,hlive₂⟩ := addOwn_spec kpts h₁ he' hn₁ t
  rw [htag'] at hext₂ hlive₂
  refine ⟨h₂,(hext₁.weaken fun q hq => ⟨side,hq⟩).trans (hext₂.weaken fun q hq => ⟨!side,hq⟩),?_,?_⟩
  · intro x
    rcases hentries₂ x with hx | hx
    · rw [hx]
      rcases hentries₁ x with hx' | hx'
      · exact .inl hx'
      · exact .inr (.inl hx')
    · exact .inr (.inr hx)
  · intro l hidx htag hv
    split_ifs at hv with hside
    · exact hext₂.live (hlive₁ l hidx hside htag hv)
    · exact hlive₂ l hidx (Bool.eq_not_of_ne hside) htag hv

/-- `SplitHashTableBuckets` adds entries of the tag of the entry that it splits. Where the
chains of the log lead down, every key pointer at or above the begin address that was
visited from the entry is visited from one of those. -/
theorem splitEntry_growing {s : Grow.State} {j k : ℕ} {P : ℕ → Prop} (hold : s.old.size=2^k)
    (hnew : s.new.size=2*2^k) (hdesc : Descends kInvalidAddress (prevOf s.store.kpts) P)
    (hhead : kInvalidAddress<(s.bounds t).1) (hbegin : 0<(s.bounds t).2) (h : Growing (newChains (2^k) j) r)
    (he : e.Final) (heP : P e.address) (hn : ∀ side, NoTag r.1 (newChains (2^k) j side) e.tag) :
    Growing (newChains (2^k) j) (splitEntry s t e r) ∧
      Extends (fun q => ∃ side, q=newChains (2^k) j side) e.tag r.1 (splitEntry s t e r).1 ∧
      (∀ x, (splitEntry s t e r).1.entries x=r.1.entries x ∨ P ((splitEntry s t e r).1.entries x).address) ∧
      ∀ l : Link, s.hashes l.address=l.hash → (s.bounds t).2≤l.address → l.hash.idx (2^k)=j → l.hash.tag=e.tag →
        Visits kInvalidAddress (prevOf s.store.kpts) e.address l.address →
        Live (2*2^k) (splitEntry s t e r).1 s.store.kpts l := by
  have hused : e.unused=false := decide_eq_false he.1
  have hP : ∀ {e'}, e'=e → P e'.address := by
    rintro _ rfl
    exact heP
  unfold splitEntry
  rw [hused,if_neg Bool.false_ne_true,hold,hnew]
  split_ifs with hlow
  · -- The entry's key pointer may be on disk: it goes to both sides.
    obtain ⟨h',hext,hentries,hlive⟩ := addBoth_spec s.store.kpts false h he he rfl hn t
    refine ⟨h',hext,fun x => (hentries x).imp_right fun hx => ?_,fun l _ _ hidx htag hv => ?_⟩
    · exact hP (hx.elim id id)
    · refine hlive l hidx htag ?_
      rw [ite_self]
      exact hv
  · -- The entry's key pointer is in memory, and so is its hash.
    set side := sideOf (2^k) (2*2^k) (s.hashes e.address) with hsideDef
    have hge : kInvalidAddress<e.address := hhead.trans_le (not_lt.mp hlow)
    obtain ⟨hlt,hprevP⟩ := hdesc e.address heP hge
    obtain ⟨hotherP,htrace⟩ := traceBack_spec s.hashes (2^k) (2*2^k) side hdesc hhead hprevP (Nat.lt_succ_self _)
    set other := traceBackForOtherChainStart s.hashes (prevOf s.store.kpts) (2^k) (2*2^k)
      (s.bounds t).1 side (prevOf s.store.kpts e.address+1) (prevOf s.store.kpts e.address)
    -- A key pointer of the other side is visited from what the search returns.
    have hrest : ∀ l : Link, s.hashes l.address=l.hash → sideOf (2^k) (2*2^k) l.hash ≠ side →
        Visits kInvalidAddress (prevOf s.store.kpts) e.address l.address →
        Visits kInvalidAddress (prevOf s.store.kpts) other l.address := by
      intro l hhash hside hv
      rw [←hhash] at hside
      refine htrace l.address ?_ hside
      rcases Relation.ReflTransGen.cases_head hv with heq | ⟨d,⟨_,rfl⟩,hv'⟩
      · rw [←heq] at hside
        exact absurd rfl hside
      · exact hv'
    change Growing _ (if (s.bounds t).2≤other then _ else _) ∧
      Extends _ _ _ (if (s.bounds t).2≤other then _ else _ : Index × (Bool → Cursor)).1 ∧
      (∀ x, (if (s.bounds t).2≤other then _ else _ : Index × (Bool → Cursor)).1.entries x=_ ∨
        P ((if (s.bounds t).2≤other then _ else _ : Index × (Bool → Cursor)).1.entries x).address) ∧
      ∀ l : Link, _ → _ → _ → _ → _ → Live _ (if (s.bounds t).2≤other then _ else _ : Index × (Bool → Cursor)).1 _ l
    split_ifs with hother
    · have hne : (⟨other,e.tag,false⟩ : HashBucketEntry).Final := by
        refine ⟨fun heq => ?_,rfl⟩
        have hzero : other=0 := congrArg HashBucketEntry.address heq
        rw [hzero] at hother
        exact absurd hbegin (not_lt.mpr hother)
      obtain ⟨h',hext,hentries,hlive⟩ := addBoth_spec s.store.kpts side h he hne rfl hn t
      refine ⟨h',hext,fun x => (hentries x).imp_right fun hx => ?_,fun l hhash _ hidx htag hv => ?_⟩
      · rcases hx with hx | hx
        · exact hP hx
        · have haddr := congrArg HashBucketEntry.address hx
          exact (congrArg P haddr).mpr hotherP
      · refine hlive l hidx htag ?_
        split_ifs with hside
        · exact hv
        · exact hrest l hhash hside hv
    · obtain ⟨h',hext,hentries,hlive⟩ := addOwn_spec s.store.kpts h he (hn side) t
      refine ⟨h',hext.weaken fun q hq => ⟨side,hq⟩,fun x => (hentries x).imp_right fun hx => ?_,
        fun l hhash hle hidx htag hv => ?_⟩
      · exact hP hx
      · by_cases hside : sideOf (2^k) (2*2^k) l.hash=side
        · exact hlive l hidx hside htag hv
        · have hle' := (Visits.closed hdesc (hrest l hhash hside hv) hotherP).2
          exact absurd (hle.trans hle') hother

end

end FishStore.SplitTable
