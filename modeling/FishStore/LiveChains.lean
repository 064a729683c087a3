import FishStore.InsertInvariant

/-!
# Key pointers stay reachable

A weaker invariant of insertions, for a hash table whose chains may be shared:
after the index has grown, a chain leads through key pointers of other buckets.
What counts is that every linked key pointer is visited from the non-tentative
entry of its tag in the bucket of its hash. A step of an insertion adds to the
chains that others rely on and takes nothing away: entries keep their tag, and
whatever was visited from an entry still is.
-/

namespace FishStore.LiveChains

open Layout Chains HashIndex BucketInvariant EntryInvariant InternalInsert ChainInvariant List
open InsertInvariant
open Function (update update_of_ne update_self)

/-- The linked key pointers of the log. -/
structure LogInv (kpts : ℕ → KptWord) (tail : PageOffset) (linked : List Link) : Prop where
  /-- The allocator starts after the first cache line. -/
  first_le : firstAddress ≤ tail.limit
  /-- Linked key pointers are in the allocated part of the log. -/
  range : ∀ l ∈ linked, firstAddress ≤ l.address ∧ l.address < tail.limit
  /-- A key pointer is linked once. -/
  inj : ∀ l ∈ linked, ∀ l' ∈ linked, l.address = l'.address → l = l'
  /-- Linked key pointers lead down. -/
  prev : ∀ l ∈ linked, prevOf kpts l.address < l.address ∧ OnLog linked (prevOf kpts l.address)

/-- The key pointer is visited from the entry that `FindEntry` returns for it. -/
def Live (size : ℕ) (m : Index) (kpts : ℕ → KptWord) (l : Link) : Prop :=
  ∃ x, InChain m.next (l.hash.idx size) x ∧ Holds m x l.hash.tag ∧
    Visits kInvalidAddress (prevOf kpts) (m.entries x).address l.address

/-- The entries of a table and what is reached from them. -/
structure TableInv (size : ℕ) (m : Index) (kpts : ℕ → KptWord) (linked : List Link) : Prop where
  entry : ∀ x, OnLog linked (m.entries x).address
  live : ∀ l ∈ linked, Live size m kpts l

/-- The slots found for the first `n` key pointers, and the entries seen there. -/
def Found (size : ℕ) (m : Index) (linked : List Link) (ctx : InsertContext)
    (helpers : ℕ → HashBucketCASHelper) (n : ℕ) : Prop :=
  ∀ j < n, InChain m.next ((ctx.hash j).idx size) (helpers j).atomicEntry ∧
    Holds m (helpers j).atomicEntry (ctx.hash j).tag ∧
    OnLog linked (helpers j).expectedEntry.address

/-- The thread is linking key pointer `i` of the record at `a`. -/
structure Linking (size : ℕ) (m : Index) (linked : List Link) (ctx : InsertContext)
    (helpers : ℕ → HashBucketCASHelper) (a i : ℕ) : Prop where
  found : Found size m linked ctx helpers ctx.kpts.length
  low : ∀ j < ctx.kpts.length, (helpers j).expectedEntry.address < kptAddress a j
  before : LinkedUpTo linked ctx a i
  lt : i < ctx.kpts.length

/-- The key pointer at `at'` is a linked one above key pointer `i`, visited from
its slot. -/
def Above (m : Index) (kpts : ℕ → KptWord) (linked : List Link) (helpers : ℕ → HashBucketCASHelper)
    (a i at' : ℕ) : Prop :=
  kptAddress a i < at' ∧ (∃ l ∈ linked, l.address = at') ∧
    Visits kInvalidAddress (prevOf kpts) (m.entries (helpers i).atomicEntry).address at'

/-- What a call of `InternalInsert` has established. -/
def InsertOk (size : ℕ) (m : Index) (kpts : ℕ → KptWord) (linked : List Link)
    (ctx : InsertContext) (helpers : ℕ → HashBucketCASHelper) : InsertPc → Prop
  | .lookup i _ => i < ctx.kpts.length ∧ Found size m linked ctx helpers i
  | .reserve => Found size m linked ctx helpers ctx.kpts.length
  | .newPage _ => Found size m linked ctx helpers ctx.kpts.length
  | .reserved a => Found size m linked ctx helpers ctx.kpts.length ∧
      ∀ j < ctx.kpts.length, (helpers j).expectedEntry.address < kptAddress a j
  | .construct a i => Linking size m linked ctx helpers a i
  | .casEntry a i e => Linking size m linked ctx helpers a i ∧
      prevOf kpts (kptAddress a i) = e.address ∧ e.address < kptAddress a i ∧ OnLog linked e.address
  | .setPrev a i e => Linking size m linked ctx helpers a i ∧ e.address < kptAddress a i ∧
      OnLog linked e.address
  | .loadKpt a i at' => Linking size m linked ctx helpers a i ∧ Above m kpts linked helpers a i at'
  | .setKptPrev a i at' w => Linking size m linked ctx helpers a i ∧
      Above m kpts linked helpers a i at' ∧ w.prevAddress < kptAddress a i
  | .alter a i at' w => Linking size m linked ctx helpers a i ∧
      prevOf kpts (kptAddress a i) = w.prevAddress ∧ Above m kpts linked helpers a i at' ∧
      w.prevAddress < kptAddress a i
  | .finish a => LinkedUpTo linked ctx a ctx.kpts.length

/-- What a thread has established. Threads insert and find only. -/
def PcOk (size : ℕ) (m : Index) (kpts : ℕ → KptWord) (linked : List Link) : Pc → Prop
  | .insert ctx helpers pc => InsertOk size m kpts linked ctx helpers pc
  | .find _ _ _ => True
  | .found _ _ => True
  | .idle => True
  | _ => False

/-- The invariant of a table of the given size with the insertions on it. -/
structure Inv (size : ℕ) (s : State) : Prop where
  index : IndexInv s.index (looks size s.pc)
  log : LogInv s.kpts s.tail s.linked
  table : TableInv size s.index s.kpts s.linked
  /-- Key pointers still to be linked are allocated and not linked. -/
  fresh : ∀ t k, Pending (s.pc t) k → firstAddress ≤ k ∧ k < s.tail.limit ∧
    ∀ l ∈ s.linked, l.address ≠ k
  /-- They belong to one thread. -/
  unique : ∀ t u k, Pending (s.pc t) k → Pending (s.pc u) k → t = u
  /-- Each call has established what its place says. -/
  ok : ∀ t, PcOk size s.index s.kpts s.linked (s.pc t)
  /-- All key pointers of completed insertions are linked. -/
  completed : ∀ r ∈ s.completed, LinkedUpTo s.linked r.2 r.1 r.2.kpts.length

/-- What a step leaves of a table and a log: chains and the tags of entries stay,
and what was visited from an entry still is. -/
structure Keeps (m : Index) (kpts : ℕ → KptWord) (linked : List Link) (m' : Index)
    (kpts' : ℕ → KptWord) (linked' : List Link) : Prop where
  next_mono : ∀ c d, m.next c = some d → m'.next c = some d
  holds : ∀ x tag, Holds m x tag → Holds m' x tag
  visits : ∀ x tag k, Holds m x tag →
    Visits kInvalidAddress (prevOf kpts) (m.entries x).address k →
    Visits kInvalidAddress (prevOf kpts') (m'.entries x).address k
  linked_sub : ∀ l ∈ linked, l ∈ linked'

section

variable {size : ℕ} {s s' : State} {t u : ℕ} {p : Pc} {m m' : Index} {kpts kpts' : ℕ → KptWord}
  {linked linked' : List Link} {tail tail' : PageOffset} {ctx : InsertContext}
  {helpers : ℕ → HashBucketCASHelper} {a i n at' k : ℕ} {l : Link}

/-- Chains go down. -/
theorem LogInv.descends (h : LogInv kpts tail linked) : Descends kInvalidAddress (prevOf kpts) (OnLog linked) := by
  rintro k (hk | ⟨l,hl,rfl⟩) hf
  · omega
  · exact h.prev l hl

/-- An address on the log is below the tail. -/
theorem LogInv.lt_limit (h : LogInv kpts tail linked) (hk : OnLog linked k) : k<tail.limit := by
  rcases hk with hk | ⟨l,hl,rfl⟩
  · have hfirst := h.first_le
    unfold kInvalidAddress at hk
    unfold firstAddress at hfirst
    omega
  · exact (h.range l hl).2

theorem onLog_mono (h : OnLog linked k) (hl : ∀ l ∈ linked, l ∈ linked') : OnLog linked' k := by
  rcases h with hk | ⟨l,hm,hk⟩
  · exact .inl hk
  · exact .inr ⟨l,hl l hm,hk⟩

theorem Live.keeps (h : Live size m kpts l) (hk : Keeps m kpts linked m' kpts' linked') : Live size m' kpts' l := by
  obtain ⟨x,hin,hx,hv⟩ := h
  exact ⟨x,InChain.mono hk.next_mono hin,hk.holds x _ hx,hk.visits x _ _ hx hv⟩

theorem Found.keeps (h : Found size m linked ctx helpers n) (hk : Keeps m kpts linked m' kpts' linked') :
    Found size m' linked' ctx helpers n := by
  intro j hj
  obtain ⟨hin,hx,hlog⟩ := h j hj
  exact ⟨InChain.mono hk.next_mono hin,hk.holds _ _ hx,onLog_mono hlog hk.linked_sub⟩

theorem Linking.keeps (h : Linking size m linked ctx helpers a i)
    (hk : Keeps m kpts linked m' kpts' linked') : Linking size m' linked' ctx helpers a i :=
  ⟨h.found.keeps hk,h.low,h.before.mono hk.linked_sub,h.lt⟩

theorem Above.keeps (h : Above m kpts linked helpers a i at')
    (hl : Linking size m linked ctx helpers a i) (hk : Keeps m kpts linked m' kpts' linked') :
    Above m' kpts' linked' helpers a i at' := by
  obtain ⟨hlt,⟨l,hm,heq⟩,hv⟩ := h
  exact ⟨hlt,⟨l,hk.linked_sub l hm,heq⟩,hk.visits _ _ _ (hl.found i hl.lt).2.1 hv⟩

/-- The key pointer that a thread is linking is one that it has to link. -/
theorem Linking.pending (h : Linking size m linked ctx helpers a i) {pc : InsertPc}
    (hp : progress pc=some (a, i)) : Pending (.insert ctx helpers pc) (kptAddress a i) :=
  ⟨a,i,i,hp,le_rfl,h.lt,rfl⟩

/-- What a thread has established stays as long as its own words do. -/
theorem PcOk.keeps (h : PcOk size m kpts linked p) (hk : Keeps m kpts linked m' kpts' linked')
    (hw : ∀ k, Pending p k → kpts' k=kpts k) : PcOk size m' kpts' linked' p := by
  cases p with
  | insert ctx helpers pc =>
    cases pc with
    | lookup i pc => exact ⟨h.1,h.2.keeps hk⟩
    | reserve | newPage page => exact Found.keeps h hk
    | reserved a => exact ⟨h.1.keeps hk,h.2⟩
    | construct a i => exact Linking.keeps h hk
    | casEntry a i e =>
      obtain ⟨hlink,hprev,hlt,hlog⟩ := h
      refine ⟨hlink.keeps hk,?_,hlt,onLog_mono hlog hk.linked_sub⟩
      unfold prevOf
      rw [hw _ (hlink.pending rfl)]
      exact hprev
    | setPrev a i e => exact ⟨h.1.keeps hk,h.2.1,onLog_mono h.2.2 hk.linked_sub⟩
    | loadKpt a i kpt => exact ⟨h.1.keeps hk,h.2.keeps h.1 hk⟩
    | setKptPrev a i kpt w => exact ⟨h.1.keeps hk,h.2.1.keeps h.1 hk,h.2.2⟩
    | alter a i kpt w =>
      obtain ⟨hlink,hprev,hab,hlt⟩ := h
      refine ⟨hlink.keeps hk,?_,hab.keeps hlink hk,hlt⟩
      unfold prevOf
      rw [hw _ (hlink.pending rfl)]
      exact hprev
    | finish a => exact LinkedUpTo.mono h hk.linked_sub
  | find hash b i => trivial
  | found hash x => trivial
  | idle => trivial
  | _ => exact h

theorem Inv.owned (h : Inv size s) : Owned size s := ⟨h.index,h.fresh,h.unique,h.completed⟩

/-- The step of one thread, with what it has established itself. -/
theorem Inv.advance (h : Inv size s) (ht : Turn size s s' t p) (hlog : LogInv s'.kpts s'.tail s'.linked)
    (htable : TableInv size s'.index s'.kpts s'.linked)
    (hkeeps : Keeps s.index s.kpts s.linked s'.index s'.kpts s'.linked)
    (hok : PcOk size s'.index s'.kpts s'.linked p) : Inv size s' := by
  obtain ⟨hindex,hfresh,hunique,hcomp⟩ := h.owned.advance ht
  refine ⟨hindex,hlog,htable,hfresh,hunique,ht.forall_pc hok fun u hu => ?_,hcomp⟩
  exact (h.ok u).keeps hkeeps (ht.kpts_eq h.owned hu)

/-- A step that writes the place of a thread only leaves everything. -/
theorem Keeps.refl (m : Index) (kpts : ℕ → KptWord) (linked : List Link) : Keeps m kpts linked m kpts linked :=
  ⟨fun _ _ hc => hc,fun _ _ hx => hx,fun _ _ _ _ hv => hv,fun _ hl => hl⟩

/-- A lookup leaves the entries that are not tentative. -/
theorem Keeps.lookup (hf : LookupFrame m m') : Keeps m kpts linked m' kpts linked := by
  refine ⟨hf.next_mono,?_,?_,fun _ hl => hl⟩
  · intro x tag hx
    unfold Holds
    rw [hf.final_kept x hx.1]
    exact hx
  · intro x tag k hx hv
    rw [hf.final_kept x hx.1]
    exact hv

theorem TableInv.lookup (h : TableInv size m kpts linked) (hf : LookupFrame m m') : TableInv size m' kpts linked := by
  have hkeeps : Keeps m kpts linked m' kpts linked := .lookup hf
  refine ⟨?_,fun l hl => (h.live l hl).keeps hkeeps⟩
  intro x
  by_cases hx : m'.entries x=m.entries x
  · rw [hx]
    exact h.entry x
  · exact .inl (hf.changed x hx)

section

variable (h : LogInv kpts tail linked)

include h

/-- Following previous addresses from the log never leads to a key pointer that is
not linked, so that a write there changes no chain. -/
theorem visits_setKpt (hk : ∀ l ∈ linked, l.address ≠ k) {w : KptWord}
    {c d : ℕ} (hc : OnLog linked c) (hv : Visits kInvalidAddress (prevOf kpts) c d) :
    Visits kInvalidAddress (prevOf (update kpts k w)) c d := by
  refine hv.reroute h.descends ?_ hc
  rintro x (hx | ⟨l,hl,rfl⟩) hlt
  · omega
  · have hne : l.address ≠ k := hk l hl
    have hsame : prevOf (update kpts k w) l.address=prevOf kpts l.address := by
      unfold prevOf
      rw [update_of_ne hne]
    rw [←hsame]
    exact (Visits.refl l.address).tail hlt

theorem Keeps.setKpt (ht : TableInv size m kpts linked) (hk : ∀ l ∈ linked, l.address ≠ k)
    {w : KptWord} : Keeps m kpts linked m (update kpts k w) linked :=
  ⟨fun _ _ hc => hc,fun _ _ hx => hx,fun x _ _ _ hv => visits_setKpt h hk (ht.entry x) hv, fun _ hl => hl⟩

theorem LogInv.setKpt (hk : ∀ l ∈ linked, l.address ≠ k) {w : KptWord} : LogInv (update kpts k w) tail linked := by
  refine ⟨h.first_le,h.range,h.inj,fun l hl => ?_⟩
  have hsame : prevOf (update kpts k w) l.address=prevOf kpts l.address := by
    unfold prevOf
    rw [update_of_ne (hk l hl)]
  rw [hsame]
  exact h.prev l hl

theorem LogInv.extend (ht : tail.limit≤tail'.limit) : LogInv kpts tail' linked := by
  refine ⟨h.first_le.trans ht,fun l hl => ?_,h.inj,h.prev⟩
  exact ⟨(h.range l hl).1,(h.range l hl).2.trans_le ht⟩

/-- One more linked key pointer. -/
theorem LogInv.cons (hnew : ∀ l' ∈ linked, l'.address ≠ l.address) (hrange : firstAddress≤l.address ∧ l.address<tail.limit)
    (hprev : prevOf kpts l.address<l.address ∧ OnLog linked (prevOf kpts l.address)) : LogInv kpts tail (l::linked) := by
  have hmem : ∀ l' ∈ linked, l' ∈ l::linked := fun l' hl' => mem_cons_of_mem _ hl'
  refine ⟨h.first_le,?_,?_,?_⟩
  · intro l' hl'
    rcases mem_cons.mp hl' with rfl | hl'
    · exact hrange
    · exact h.range l' hl'
  · intro l₁ h₁ l₂ h₂ heq
    rcases mem_cons.mp h₁ with rfl | hm₁ <;> rcases mem_cons.mp h₂ with rfl | hm₂
    · rfl
    · exact absurd heq.symm (hnew l₂ hm₂)
    · exact absurd heq (hnew l₁ hm₁)
    · exact h.inj l₁ hm₁ l₂ hm₂ heq
  · intro l' hl'
    rcases mem_cons.mp hl' with rfl | hl'
    · exact ⟨hprev.1,onLog_mono hprev.2 hmem⟩
    · exact ⟨(h.prev l' hl').1,onLog_mono (h.prev l' hl').2 hmem⟩

omit h in
/-- The swap of the entry that holds the tag: the new key pointer leads to what the
entry led to. -/
theorem Keeps.linkEntry {x : Slot} {tag : ℕ} (hx : Holds m x tag) (hlast : kInvalidAddress<l.address)
    (hprev : prevOf kpts l.address=(m.entries x).address) :
    Keeps m kpts linked (m.setEntry x ⟨l.address,tag,false⟩) kpts (l::linked) := by
  have hnew : HashBucketEntry.Final ⟨l.address,tag,false⟩ := by
    refine ⟨fun h0 => ?_,rfl⟩
    have hzero : l.address=0 := congrArg HashBucketEntry.address h0
    omega
  refine ⟨fun _ _ hc => hc,?_,?_,fun l' hl' => mem_cons_of_mem _ hl'⟩
  · intro y tag' hy
    by_cases hyx : y=x
    · subst hyx
      exact holds_setEntry_self.mpr ⟨hnew,hx.2.symm.trans hy.2⟩
    · exact (holds_setEntry_of_ne hyx).mpr hy
  · intro y tag' k _ hv
    by_cases hyx : y=x
    · subst hyx
      rw [setEntry_self]
      refine Visits.head hlast ?_
      rw [hprev]
      exact hv
    · rw [setEntry_of_ne hyx]
      exact hv

omit h in
theorem TableInv.linkEntry {x : Slot} (h : TableInv size m kpts linked) (hin : InChain m.next (l.hash.idx size) x)
    (hx : Holds m x l.hash.tag) (hlast : kInvalidAddress<l.address) (hprev : prevOf kpts l.address=(m.entries x).address) :
    TableInv size (m.setEntry x ⟨l.address,l.hash.tag,false⟩) kpts (l::linked) := by
  have hkeeps : Keeps m kpts linked _ kpts (l::linked) := .linkEntry hx hlast hprev
  refine ⟨?_,?_⟩
  · intro y
    by_cases hyx : y=x
    · subst hyx
      rw [setEntry_self]
      exact .inr ⟨l,mem_cons_self,rfl⟩
    · rw [setEntry_of_ne hyx]
      exact onLog_mono (h.entry y) hkeeps.linked_sub
  · intro l' hl'
    rcases mem_cons.mp hl' with rfl | hl'
    · refine ⟨x,hin,hkeeps.holds x _ hx,?_⟩
      rw [setEntry_self]
      exact .refl _
    · exact (h.live l' hl').keeps hkeeps

omit h in
/-- The previous addresses after the key pointer at `at'` was pointed to `k`. -/
theorem prevOf_splice (kpts : ℕ → KptWord) (at' k c : ℕ) :
    prevOf (update kpts at' { kpts at' with prevAddress := k }) c =
      if c=at' then k else prevOf kpts c := by
  unfold prevOf
  by_cases hc : c=at'
  · rw [if_pos hc,hc,update_self]
  · rw [if_neg hc,update_of_ne hc]

/-- A splice behind `at'` of a key pointer that has taken over its previous address. -/
theorem Keeps.linkKpt (ht : TableInv size m kpts linked) (hlast : kInvalidAddress<l.address)
    (hlt : l.address<at') (hprev : prevOf kpts l.address=prevOf kpts at') :
    Keeps m kpts linked m (update kpts at' { kpts at' with prevAddress := l.address }) (l::linked)
    := by
  refine ⟨fun _ _ hc => hc,fun _ _ hx => hx,?_,fun l' hl' => mem_cons_of_mem _ hl'⟩
  intro x tag k _ hv
  refine hv.reroute h.descends ?_ (ht.entry x)
  intro c _ hc
  by_cases hcl : c=at'
  · refine Visits.head hc ?_
    rw [prevOf_splice,if_pos hcl]
    refine Visits.head hlast ?_
    rw [prevOf_splice,if_neg (by omega),hprev,hcl]
    exact .refl _
  · have hsame : prevOf (update kpts at' { kpts at' with prevAddress := l.address }) c = prevOf kpts c := by
      rw [prevOf_splice,if_neg hcl]
    rw [←hsame]
    exact (Visits.refl c).tail hc

theorem LogInv.linkKpt (hnew : ∀ l' ∈ linked, l'.address ≠ l.address)
    (hrange : firstAddress≤l.address ∧ l.address<tail.limit) (hat : ∃ l' ∈ linked, l'.address=at')
    (hlt : l.address<at') (hprev : prevOf kpts l.address=prevOf kpts at')
    (hle : prevOf kpts at'<l.address) :
    LogInv (update kpts at' { kpts at' with prevAddress := l.address }) tail (l::linked) := by
  obtain ⟨la,hla,rfl⟩ := hat
  have hlow := (h.prev la hla).2
  rw [←hprev] at hlow hle
  have hcons := h.cons hnew hrange ⟨hle,hlow⟩
  refine ⟨hcons.first_le,hcons.range,hcons.inj,fun l' hl' => ?_⟩
  rw [prevOf_splice]
  by_cases hl : l'.address=la.address
  · rw [if_pos hl,hl]
    exact ⟨hlt,.inr ⟨l,mem_cons_self,rfl⟩⟩
  · rw [if_neg hl]
    exact hcons.prev l' hl'

end

theorem TableInv.linkKpt {x : Slot} (h : TableInv size m kpts linked) (hlog : LogInv kpts tail linked)
    (hin : InChain m.next (l.hash.idx size) x) (hx : Holds m x l.hash.tag)
    (hat : Visits kInvalidAddress (prevOf kpts) (m.entries x).address at')
    (hlast : kInvalidAddress<l.address) (hlt : l.address<at')
    (hprev : prevOf kpts l.address=prevOf kpts at') :
    TableInv size m (update kpts at' { kpts at' with prevAddress := l.address }) (l::linked) := by
  have hkeeps := Keeps.linkKpt hlog h hlast hlt hprev
  refine ⟨fun y => onLog_mono (h.entry y) hkeeps.linked_sub,?_⟩
  intro l' hl'
  rcases mem_cons.mp hl' with rfl | hl'
  · refine ⟨x,hin,hx,(hkeeps.visits x _ _ hx hat).trans ?_⟩
    refine Visits.head (hlast.trans hlt) ?_
    rw [prevOf_splice,if_pos rfl]
    exact .refl _
  · exact (h.live l' hl').keeps hkeeps

section

variable (h : Inv size s)

include h

/-- A thread outside lookups that only moves on. -/
theorem Inv.quiet (hlook : lookOf size (s.pc t)=none)
    (hstart : Starting (lookOf size p)) (hpend : ∀ k, Pending p k → Pending (s.pc t) k)
    (hok : PcOk size s.index s.kpts s.linked p) : Inv size (s.goto t p) :=
  h.advance (.goto h.owned hlook hstart hpend) h.log h.table (.refl _ _ _) hok

theorem Inv.insertOk {pc : InsertPc} (hp : s.pc t=.insert ctx helpers pc) :
    InsertOk size s.index s.kpts s.linked ctx helpers pc := by
  have hok := h.ok t
  rw [hp] at hok
  exact hok

omit h in
/-- The loop of lookups goes on, or ends with all entries found. -/
theorem insertOk_lookupFrom (h : Found size m linked ctx helpers i) (hi : i≤ctx.kpts.length) :
    InsertOk size m kpts linked ctx helpers (lookupFrom size ctx (i%2^16)) := by
  have hle := Nat.mod_le i (2^16)
  unfold lookupFrom
  split_ifs with hlt
  · exact ⟨hlt,fun j hj => h j (hj.trans_le hle)⟩
  · exact fun j hj => h j (by omega)

/-- A step of a lookup of an insertion. -/
theorem Inv.lookup {L : Lookup} (hL : lookOf size (s.pc t)=some L)
    (hafter : After L (lookOf size p) (lookupStep L.idx L.tag t s.index L.pc).2) (hpend : ∀ k, ¬Pending p k)
    (hok : PcOk size (lookupStep L.idx L.tag t s.index L.pc).1 s.kpts s.linked p) :
    Inv size ({ s with index := (lookupStep L.idx L.tag t s.index L.pc).1 }.goto t p) := by
  have hf := h.index.lookupFrame hL
  exact h.advance (.lookup h.owned hL hafter hpend) h.log (h.table.lookup hf) (.lookup hf) hok

theorem Inv.insert_lookup {pc : LookupPc} (ro : ℕ) (hp : s.pc t=.insert ctx helpers (.lookup i pc)) :
    Inv size (insertStep size t ro s ctx helpers (.lookup i pc)) := by
  obtain ⟨hi,hh⟩ := h.insertOk hp
  have hL : lookOf size (s.pc t)=some ⟨(ctx.hash i).idx size,(ctx.hash i).tag,pc⟩ := by
    rw [hp]
    rfl
  have hf := h.index.lookupFrame hL
  have hkeeps : Keeps s.index s.kpts s.linked _ s.kpts s.linked := .lookup hf
  unfold insertStep
  cases hr : (lookupStep ((ctx.hash i).idx size) (ctx.hash i).tag t s.index pc).2 with
  | more pc' =>
    simp only [hr]
    refine h.lookup (p := .insert ctx helpers (.lookup i pc')) hL ?_ ?_ ⟨hi,hh.keeps hkeeps⟩
    · rw [hr]
      rfl
    · exact fun _ => not_pending rfl
  | done x e =>
    simp only [hr]
    obtain ⟨hin,hholds,he⟩ := h.index.lookup_done hL hr
    refine h.lookup hL ?_ (not_pending_lookupFrom _ _) (insertOk_lookupFrom ?_ hi)
    · rw [hr]
      exact starting_lookupFrom _ _
    · -- The entry that the lookup returns joins those found before.
      intro j hj
      by_cases hji : j=i
      · subst hji
        rw [update_self]
        refine ⟨InChain.mono hf.next_mono hin,hholds,?_⟩
        rw [←he]
        exact (h.table.lookup hf).entry x
      · rw [update_of_ne hji]
        exact hh.keeps hkeeps j (by omega)

omit h in
/-- The loops that link go on, or end with all key pointers linked. -/
theorem insertOk_linkFrom (hh : Found size m linked ctx helpers ctx.kpts.length)
    (hlow : ∀ j<ctx.kpts.length, (helpers j).expectedEntry.address<kptAddress a j)
    (hbefore : LinkedUpTo linked ctx a i) (hi : i≤ctx.kpts.length) :
    InsertOk size m kpts linked ctx helpers (linkFrom ctx a i) := by
  unfold linkFrom
  split_ifs with hlt
  · exact ⟨hh,hlow,hbefore,hlt⟩
  · exact fun j hj => hbefore j (by omega)

/-- A write of a thread to the key pointer that it is linking. -/
theorem Inv.writeKpt {pc pc' : InsertPc} (hp : s.pc t=.insert ctx helpers pc)
    (hl : Linking size s.index s.linked ctx helpers a i) (hpr : progress pc=some (a, i)) (hpr' : progress pc'=some (a, i))
    (w : KptWord) (hok : InsertOk size s.index (update s.kpts (kptAddress a i) w) s.linked ctx helpers pc') :
    Inv size ((s.setKpt (kptAddress a i) w).goto t (.insert ctx helpers pc')) := by
  have hfresh := (h.fresh t (kptAddress a i) (by rw [hp]; exact hl.pending hpr)).2.2
  have hkeeps := Keeps.setKpt h.log h.table hfresh (w := w)
  exact h.advance (.writeKpt h.owned hp (hl.pending hpr) hpr hpr' w) (h.log.setKpt hfresh)
    ⟨h.table.entry,fun l hl => (h.table.live l hl).keeps hkeeps⟩ hkeeps hok

omit h in
theorem prevOf_update_self (kpts : ℕ → KptWord) (k : ℕ) (w : KptWord) : prevOf (update kpts k w) k=w.prevAddress := by
  unfold prevOf
  rw [update_self]

/-- What is visited above a key pointer does not depend on its own word. -/
theorem Inv.above_setKpt {w : KptWord} (hpend : Pending (s.pc t) (kptAddress a i))
    (hl : Linking size s.index s.linked ctx helpers a i) (hab : Above s.index s.kpts s.linked helpers a i at') :
    Above s.index (update s.kpts (kptAddress a i) w) s.linked helpers a i at' :=
  hab.keeps hl (.setKpt h.log h.table (h.fresh t _ hpend).2.2)

/-- The search for the place to splice at goes on, or has found one. -/
theorem Inv.insertOk_spliceFrom {pc : InsertPc} {kpt : ℕ} (hp : s.pc t=.insert ctx helpers pc)
    (hpr : progress pc=some (a, i)) (hl : Linking size s.index s.linked ctx helpers a i)
    (hab : Above s.index s.kpts s.linked helpers a i kpt) :
    InsertOk size s.index s.kpts s.linked ctx helpers (spliceFrom a i kpt (s.kpts kpt)) := by
  have hpend : Pending (s.pc t) (kptAddress a i) := by
    rw [hp]
    exact hl.pending hpr
  obtain ⟨hge,_,hne⟩ := h.fresh t _ hpend
  obtain ⟨l,hlm,rfl⟩ := hab.2.1
  have hlast := first_lt hge
  have honlog := (h.log.prev l hlm).2
  unfold spliceFrom
  split_ifs with hgt
  · refine ⟨hl,hgt,?_,hab.2.2.tail (hlast.trans hab.1)⟩
    rcases honlog with hle | hlinked
    · unfold prevOf at hle
      omega
    · exact hlinked
  · refine ⟨hl,hab,?_⟩
    -- The previous address is not that of the key pointer, which is not linked.
    have hneq : (s.kpts l.address).prevAddress ≠ kptAddress a i := by
      rcases honlog with hle | ⟨l',hl',heq⟩
      · unfold prevOf at hle
        omega
      · unfold prevOf at heq
        rw [←heq]
        exact hne l' hl'
    omega

/-- A thread that moves on with the same key pointer. -/
theorem Inv.retry {pc pc' : InsertPc} (hp : s.pc t=.insert ctx helpers pc) (hpr : progress pc=some (a, i))
    (hpr' : progress pc'=some (a, i)) (hok : InsertOk size s.index s.kpts s.linked ctx helpers pc') :
    Inv size (s.goto t (.insert ctx helpers pc')) :=
  h.advance (.retry h.owned hp hpr hpr') h.log h.table (.refl _ _ _) hok

/-- A successful linking swap: the thread goes on with the next key pointer. -/
theorem Inv.linkNext (ht : Turn size s s' t (.insert ctx helpers (linkFrom ctx a (i+1))))
    (hl : Linking size s.index s.linked ctx helpers a i) (hlog : LogInv s'.kpts s'.tail s'.linked)
    (htable : TableInv size s'.index s'.kpts s'.linked) (hkeeps : Keeps s.index s.kpts s.linked s'.index s'.kpts s'.linked)
    (hlinked : s'.linked=linkOf ctx helpers a i::s.linked) : Inv size s' := by
  refine h.advance ht hlog htable hkeeps (insertOk_linkFrom (hl.found.keeps hkeeps) hl.low ?_ hl.lt)
  rw [hlinked]
  exact hl.before.next

theorem Inv.insert_alter (ro : ℕ) {kpt : ℕ} {w : KptWord} (hp : s.pc t=.insert ctx helpers (.alter a i kpt w)) :
    Inv size (insertStep size t ro s ctx helpers (.alter a i kpt w)) := by
  obtain ⟨hl,hw,hab,hlt⟩ := h.insertOk hp
  obtain ⟨hge,hlim,hne⟩ := h.fresh t (kptAddress a i) (by rw [hp]; exact hl.pending rfl)
  unfold insertStep
  simp only
  split_ifs with hcas
  · have hprev : prevOf s.kpts kpt=w.prevAddress := by
      unfold prevOf
      rw [hcas]
    have hsame : prevOf s.kpts (linkOf ctx helpers a i).address=prevOf s.kpts kpt := hw.trans hprev.symm
    obtain ⟨hin,hx,_⟩ := hl.found i hl.lt
    rw [←hcas]
    refine h.linkNext (.link h.owned hp rfl hl.lt rfl h.index rfl rfl rfl rfl rfl ?_) hl
      (h.log.linkKpt hne ⟨hge,hlim⟩ hab.2.1 hab.1 hsame (by rw [hprev]; exact hlt))
      (h.table.linkKpt h.log hin hx hab.2.2 (first_lt hge) hab.1 hsame)
      (.linkKpt h.log h.table (first_lt hge) hab.1 hsame) rfl
    intro k hk
    refine update_of_ne ?_ ..
    rintro rfl
    obtain ⟨l,hm,heq⟩ := hab.2.1
    exact hk l hm heq
  · exact h.retry hp rfl (progress_spliceFrom a i kpt _) (h.insertOk_spliceFrom hp rfl hl hab)

theorem Inv.insert_casEntry (ro : ℕ) {e : HashBucketEntry} (hp : s.pc t=.insert ctx helpers (.casEntry a i e)) :
    Inv size (insertStep size t ro s ctx helpers (.casEntry a i e)) := by
  obtain ⟨hl,hw,hlt,hbelow⟩ := h.insertOk hp
  obtain ⟨hge,hlim,hne⟩ := h.fresh t (kptAddress a i) (by rw [hp]; exact hl.pending rfl)
  obtain ⟨hin,hx,_⟩ := hl.found i hl.lt
  have hlast := first_lt hge
  unfold insertStep
  simp only
  split_ifs with hcas hretry
  · have hprev : prevOf s.kpts (linkOf ctx helpers a i).address = (s.index.entries (helpers i).atomicEntry).address := by
      rw [hcas]
      exact hw
    have hindex : IndexInv (s.index.setEntry (helpers i).atomicEntry
        ⟨kptAddress a i,(ctx.hash i).tag,false⟩) (looks size s.pc) :=
      ⟨h.index.buckets.setEntry _ _,h.index.entries.write h.index.buckets hx.1.2 rfl (fun _ => ⟨_,hin⟩) fun _ => .inl hx⟩
    refine h.linkNext (.link h.owned hp rfl hl.lt rfl hindex rfl rfl rfl rfl rfl fun _ _ => rfl) hl
      (h.log.cons hne ⟨hge,hlim⟩ ?_) (h.table.linkEntry hin hx hlast hprev) (.linkEntry hx hlast hprev) rfl
    change prevOf s.kpts (kptAddress a i)<kptAddress a i ∧ OnLog s.linked (prevOf s.kpts (kptAddress a i))
    rw [hw]
    exact ⟨hlt,hbelow⟩
  · exact h.retry hp rfl rfl ⟨hl,hretry,h.table.entry _⟩
  · -- The bucket is lost to a higher key pointer.
    refine h.retry hp rfl rfl ⟨hl,?_⟩
    rcases h.table.entry (helpers i).atomicEntry with hle | ⟨l,hm,heq⟩
    · omega
    · refine ⟨?_,⟨l,hm,heq⟩,.refl _⟩
      have hneq := hne l hm
      omega

/-- Every step of `InternalInsert` keeps the invariant. -/
theorem Inv.insertStep {pc : InsertPc} {ro : ℕ}
    (hp : s.pc t=.insert ctx helpers pc) : Inv size (insertStep size t ro s ctx helpers pc) := by
  cases pc with
  | lookup i pc => exact h.insert_lookup ro hp
  | reserve =>
    have hh : Found size s.index s.linked ctx helpers ctx.kpts.length := h.insertOk hp
    have hlimit := s.tail.limit_le_reserve ctx.size
    have hlook : lookOf size (s.pc t)=none := by
      rw [hp]
      rfl
    unfold InternalInsert.insertStep
    cases ha : s.tail.allocated ctx.size with
    | none =>
      exact h.advance (.extend h.owned hlook rfl hlimit fun _ hk => absurd hk (not_pending rfl))
        (h.log.extend hlimit) h.table (.refl _ _ _) hh
    | some a =>
      refine h.advance (.extend h.owned hlook rfl hlimit (InsertInvariant.own_reserved h.log.first_le ?_ ha))
        (h.log.extend hlimit) h.table (.refl _ _ _) ⟨hh,fun j hj => ?_⟩
      · exact fun l hl => (h.log.range l hl).2
      · exact (h.log.lt_limit (hh j hj).2.2).trans_le
          ((PageOffset.allocated_spec ha).1.trans (InsertInvariant.le_kptAddress a j))
  | newPage page =>
    have hlimit := s.tail.limit_le_newPage page
    exact h.advance (.extend h.owned (by rw [hp]; rfl) rfl hlimit fun _ hk => absurd hk (not_pending rfl))
      (h.log.extend hlimit) h.table (.refl _ _ _) (h.insertOk hp :)
  | reserved a =>
    obtain ⟨hh,hlow⟩ := h.insertOk hp
    unfold InternalInsert.insertStep
    simp only
    split_ifs
    · exact h.quiet (by rw [hp]; rfl) starting_none (fun _ hk => absurd hk (not_pending rfl)) hh
    · exact h.advance (.linkFirst h.owned hp) h.log h.table (.refl _ _ _)
        (insertOk_linkFrom hh hlow (fun j hj => absurd hj (Nat.not_lt_zero j)) (Nat.zero_le _))
  | construct a i =>
    have hl : Linking size s.index s.linked ctx helpers a i := h.insertOk hp
    exact h.writeKpt hp hl rfl rfl _ ⟨hl,prevOf_update_self ..,hl.low i hl.lt,(hl.found i hl.lt).2.2⟩
  | casEntry a i e => exact h.insert_casEntry ro hp
  | setPrev a i e =>
    obtain ⟨hl,hlt,hb⟩ := h.insertOk hp
    exact h.writeKpt hp hl rfl rfl _ ⟨hl,prevOf_update_self ..,hlt,hb⟩
  | loadKpt a i kpt =>
    obtain ⟨hl,hab⟩ := h.insertOk hp
    exact h.retry hp rfl (progress_spliceFrom a i kpt _) (h.insertOk_spliceFrom hp rfl hl hab)
  | setKptPrev a i kpt w =>
    obtain ⟨hl,hab,hlt⟩ := h.insertOk hp
    exact h.writeKpt hp hl rfl rfl _
      ⟨hl,prevOf_update_self ..,h.above_setKpt (t := t) (by rw [hp]; exact hl.pending rfl) hl hab,hlt⟩
  | alter a i kpt w => exact h.insert_alter ro hp
  | finish a => exact h.advance (.finish h.owned hp (h.insertOk hp)) h.log h.table (.refl _ _ _) trivial

/-- Every step of an insertion or of `FindEntry` keeps the invariant. -/
theorem Inv.callStep {ro : ℕ} (hs : callStep size t ro s (s.pc t)=some s') : Inv size s' := by
  have hok := h.ok t
  cases hp : s.pc t with
  | insert ctx helpers pc =>
    rw [hp] at hs
    cases hs
    exact h.insertStep hp
  | find hash b i =>
    rw [hp] at hs
    have hlook : lookOf size (s.pc t)=none := by
      rw [hp]
      rfl
    simp only [InternalInsert.callStep] at hs
    split at hs <;> cases hs <;> exact h.quiet hlook starting_none (fun _ hk => hk.elim) trivial
  | idle | found hash x => rw [hp] at hs; cases hs
  | _ =>
    rw [hp] at hok
    exact hok.elim

/-- A call of `InternalInsert` begins. -/
theorem Inv.internalInsert (hidle : s.pc t=.idle) (helpers : ℕ → HashBucketCASHelper) :
    Inv size (s.goto t (.insert ctx helpers (lookupFrom size ctx 0))) := by
  refine h.quiet (by rw [hidle]; rfl) (starting_lookupFrom _ _) ?_
    (insertOk_lookupFrom (i := 0) (fun j hj => absurd hj (Nat.not_lt_zero j)) (Nat.zero_le _))
  exact fun k hk => absurd hk (not_pending_lookupFrom _ _ k)

/-- While no operation is running, the table may be exchanged for another one that
leads to every linked key pointer. -/
theorem Inv.exchange {size' : ℕ} (hidle : ∀ u, s.pc u=.idle)
    (hindex : IndexInv m fun _ => none) (htable : TableInv size' m s.kpts s.linked) :
    Inv size' { s with index := m } := by
  have hlooks : looks size' s.pc=fun _ => none := by
    funext u
    unfold looks
    rw [hidle u]
    rfl
  refine ⟨?_,h.log,htable,h.fresh,h.unique,?_,h.completed⟩
  · change IndexInv m (looks size' s.pc)
    rw [hlooks]
    exact hindex
  · intro u
    change PcOk size' m s.kpts s.linked (s.pc u)
    rw [hidle u]
    trivial

/-- Every key pointer of a completed insertion is visited from the entry that
`FindEntry` returns for its hash. -/
theorem Inv.findEntry_visits {r : ℕ × InsertContext} (hr : r ∈ s.completed) {j : ℕ}
    (hj : j<r.2.kpts.length) : ∃ fuel x, findEntry size s.index (r.2.hash j) fuel=some (some x) ∧
      Visits kInvalidAddress (prevOf s.kpts) (s.index.entries x).address (kptAddress r.1 j) := by
  obtain ⟨l,hl,haddr,hhash⟩ := h.completed r hr j hj
  obtain ⟨x,hin,hx,hv⟩ := h.table.live l hl
  rw [hhash] at hin hx
  obtain ⟨fuel,hf⟩ := findLoop_found hin.1 hin.2 hx fun y hy hyi hh =>
    h.index.entries.final_unique _ y x _ ⟨hy,hyi⟩ hin hh hx
  rw [haddr] at hv
  exact ⟨fuel,x,hf,hv⟩

end

/-- An empty store. -/
theorem inv_empty (size : ℕ) : Inv size .empty := by
  obtain ⟨hindex,hchains,-,-⟩ := InsertInvariant.inv_empty size
  refine ⟨hindex,⟨hchains.first_le,nofun,nofun,nofun⟩,⟨hchains.entry_onLog,nofun⟩,
    fun t k hk => hk.elim,fun t u k hk => hk.elim,fun _ => trivial,nofun⟩

end

end FishStore.LiveChains
