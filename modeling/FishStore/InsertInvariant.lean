import FishStore.ChainInvariant

/-!
# Invariant of interleaved insertions

The invariant of the whole system: the invariants of the hash index and of the
chains, and for every thread what its call has established so far. The key
pointers that a thread has still to link belong to it alone; their words are
the ones it wrote; the address it took from a bucket entry lies below its own;
and the key pointer behind which it is about to splice was linked at its slot,
under its tag, at a higher address.

Steps satisfy the guard `casGuard`. It concerns the swap of a bucket entry: an
entry that the swap replaces holds the tag of the key pointer, or is unused
while no entry of the chain has the tag; and an entry that makes the thread
give up the bucket has its tag. `InternalInsert` itself compares addresses only.
-/

namespace FishStore.InsertInvariant

open Layout Chains HashIndex BucketInvariant EntryInvariant InternalInsert ChainInvariant Runs
open Function (update update_of_ne update_self)

/-- The lookup that a thread is in. -/
def lookOf (size : ℕ) : Pc → Option Lookup
  | .create hash pc => some ⟨hash.idx size, hash.tag, pc⟩
  | .insert ctx _ (.lookup i pc) => some ⟨(ctx.hash i).idx size, (ctx.hash i).tag, pc⟩
  | _ => none

/-- The lookups in progress. -/
def looks (size : ℕ) (pc : ℕ → Pc) (t : ℕ) : Option Lookup := lookOf size (pc t)

theorem looks_update (size : ℕ) (pc : ℕ → Pc) (t : ℕ) (p : Pc) :
    looks size (update pc t p)=update (looks size pc) t (lookOf size p) := by
  funext u
  unfold looks
  by_cases hu : u=t
  · rw [hu,update_self,update_self]
  · rw [update_of_ne hu,update_of_ne hu]

/-- Address of the record and index of the first key pointer not linked yet. -/
def progress : InsertPc → Option (ℕ × ℕ)
  | .reserved a => some (a, 0)
  | .construct a i => some (a, i)
  | .casEntry a i _ => some (a, i)
  | .setPrev a i _ => some (a, i)
  | .loadKpt a i _ => some (a, i)
  | .setKptPrev a i _ _ => some (a, i)
  | .alter a i _ _ => some (a, i)
  | _ => none

/-- The key pointer is one that the thread has still to link. -/
def Pending : Pc → ℕ → Prop
  | .insert ctx _ pc, k => ∃ a i j, progress pc = some (a, i) ∧ i ≤ j ∧ j < ctx.kpts.length ∧
      k = kptAddress a j
  | _, _ => False

/-- The slots and entries found for the first `n` key pointers. -/
def HelpersOk (size : ℕ) (m : Index) (linked : List Link) (ctx : InsertContext)
    (helpers : ℕ → HashBucketCASHelper) (n : ℕ) : Prop :=
  ∀ j < n, InChain m.next ((ctx.hash j).idx size) (helpers j).atomicEntry ∧
    Below linked (helpers j).atomicEntry (helpers j).expectedEntry.tag
      (helpers j).expectedEntry.address

/-- The first `n` key pointers of the record at `a` are linked. -/
def LinkedUpTo (linked : List Link) (ctx : InsertContext) (a n : ℕ) : Prop :=
  ∀ j < n, ∃ l ∈ linked, l.address = kptAddress a j ∧ l.hash = ctx.hash j

/-- The thread is linking key pointer `i` of the record at `a`. -/
structure Linking (size : ℕ) (m : Index) (linked : List Link) (ctx : InsertContext)
    (helpers : ℕ → HashBucketCASHelper) (a i : ℕ) : Prop where
  looked : HelpersOk size m linked ctx helpers ctx.kpts.length
  low : ∀ j < ctx.kpts.length, (helpers j).expectedEntry.address < kptAddress a j
  before : LinkedUpTo linked ctx a i
  lt : i < ctx.kpts.length

/-- The key pointer that `at'` names was linked at the slot and under the tag
of key pointer `i`, at a higher address. -/
def Above (linked : List Link) (ctx : InsertContext) (helpers : ℕ → HashBucketCASHelper)
    (a i at' : ℕ) : Prop :=
  kptAddress a i < at' ∧ LinkedAt linked (helpers i).atomicEntry (ctx.hash i).tag at'

/-- What a call of `InternalInsert` has established. -/
def InsertOk (size : ℕ) (m : Index) (kpts : ℕ → KptWord) (linked : List Link)
    (ctx : InsertContext) (helpers : ℕ → HashBucketCASHelper) : InsertPc → Prop
  | .lookup i _ => i < ctx.kpts.length ∧ HelpersOk size m linked ctx helpers i
  | .reserve => HelpersOk size m linked ctx helpers ctx.kpts.length
  | .newPage _ => HelpersOk size m linked ctx helpers ctx.kpts.length
  | .reserved a => HelpersOk size m linked ctx helpers ctx.kpts.length ∧
      ∀ j < ctx.kpts.length, (helpers j).expectedEntry.address < kptAddress a j
  | .construct a i => Linking size m linked ctx helpers a i
  | .casEntry a i e => Linking size m linked ctx helpers a i ∧
      kpts (kptAddress a i) = ctx.word i e.address ∧ e.address < kptAddress a i ∧
      Below linked (helpers i).atomicEntry e.tag e.address
  | .setPrev a i e => Linking size m linked ctx helpers a i ∧
      (∃ p, kpts (kptAddress a i) = ctx.word i p) ∧ e.address < kptAddress a i ∧
      Below linked (helpers i).atomicEntry e.tag e.address
  | .loadKpt a i at' => Linking size m linked ctx helpers a i ∧
      (∃ p, kpts (kptAddress a i) = ctx.word i p) ∧ Above linked ctx helpers a i at'
  | .setKptPrev a i at' w => Linking size m linked ctx helpers a i ∧
      (∃ p, kpts (kptAddress a i) = ctx.word i p) ∧ Above linked ctx helpers a i at' ∧
      w.prevAddress < kptAddress a i
  | .alter a i at' w => Linking size m linked ctx helpers a i ∧
      kpts (kptAddress a i) = ctx.word i w.prevAddress ∧ Above linked ctx helpers a i at' ∧
      w.prevAddress < kptAddress a i
  | .finish a => LinkedUpTo linked ctx a ctx.kpts.length

/-- What a thread has established. -/
def PcOk (size : ℕ) (m : Index) (kpts : ℕ → KptWord) (begin : ℕ) (linked : List Link) : Pc → Prop
  | .insert ctx helpers pc => InsertOk size m kpts linked ctx helpers pc
  | .clean b _ _ _ _ => b ≤ begin
  | .cleanCas b _ _ _ _ e => b ≤ begin ∧ e.address ≠ kInvalidAddress ∧ e.address < b
  | _ => True

/-- The threads. -/
structure ThreadsInv (size : ℕ) (s : State) : Prop where
  /-- Key pointers still to be linked are allocated and not linked. -/
  fresh : ∀ t k, Pending (s.pc t) k → firstAddress ≤ k ∧ k < s.tail.limit ∧
    ∀ l ∈ s.linked, l.address ≠ k
  /-- They belong to one thread. -/
  unique : ∀ t u k, Pending (s.pc t) k → Pending (s.pc u) k → t = u
  /-- Each call has established what its place says. -/
  ok : ∀ t, PcOk size s.index s.kpts s.beginAddress s.linked (s.pc t)

/-- The whole invariant. -/
structure Inv (size : ℕ) (s : State) : Prop where
  index : IndexInv s.index (looks size s.pc)
  chains : ChainInv size s.index s.kpts s.tail s.beginAddress s.linked
  threads : ThreadsInv size s
  /-- All key pointers of completed insertions are linked. -/
  completed : ∀ r ∈ s.completed, LinkedUpTo s.linked r.2 r.1 r.2.kpts.length

/-- What a step of thread `t` leaves to the others: it writes key pointers
that are its own or linked, and links its own. -/
structure Leaves (s s' : State) (t : ℕ) : Prop where
  limit_le : s.tail.limit ≤ s'.tail.limit
  linked_sub : ∀ l ∈ s.linked, l ∈ s'.linked
  linked_new : ∀ l ∈ s'.linked, l ∈ s.linked ∨ Pending (s.pc t) l.address
  next_mono : ∀ c d, s.index.next c = some d → s'.index.next c = some d
  kpts_eq : ∀ k, ¬ Pending (s.pc t) k → (∀ l ∈ s.linked, l.address ≠ k) → s'.kpts k = s.kpts k
  begin_le : s.beginAddress ≤ s'.beginAddress

/-- The lookups of the calls, and the key pointers that they have still to link. -/
structure Owned (size : ℕ) (s : State) : Prop where
  index : IndexInv s.index (looks size s.pc)
  fresh : ∀ t k, Pending (s.pc t) k → firstAddress ≤ k ∧ k < s.tail.limit ∧ ∀ l ∈ s.linked, l.address ≠ k
  unique : ∀ t u k, Pending (s.pc t) k → Pending (s.pc u) k → t = u
  completed : ∀ r ∈ s.completed, LinkedUpTo s.linked r.2 r.1 r.2.kpts.length

/-- A thread goes on to `p`: what it leaves to the others, and what it owns then. -/
structure Turn (size : ℕ) (s s' : State) (t : ℕ) (p : Pc) : Prop where
  pc : s'.pc = update s.pc t p
  index : IndexInv s'.index (update (looks size s.pc) t (lookOf size p))
  leaves : Leaves s s' t
  own : ∀ k, Pending p k → (Pending (s.pc t) k ∨ s.tail.limit ≤ k) ∧ firstAddress ≤ k ∧
    k < s'.tail.limit ∧ ∀ l ∈ s'.linked, l.address ≠ k
  completed : ∀ r ∈ s'.completed, r ∈ s.completed ∨ LinkedUpTo s'.linked r.2 r.1 r.2.kpts.length

/-- The condition on the swap of a bucket entry by an insertion: the entry that
it replaces has the key pointer's tag, or is unused while no entry of the chain
has the tag; an entry that makes it give up has the tag. -/
def SwapOk (size : ℕ) (m : Index) (ctx : InsertContext) (helpers : ℕ → HashBucketCASHelper)
    (a i : ℕ) (expected : HashBucketEntry) : Prop :=
  (m.entries (helpers i).atomicEntry = expected →
    Holds m (helpers i).atomicEntry (ctx.hash i).tag ∨
      (expected = kInvalidEntry ∧ ∀ y, InChain m.next ((ctx.hash i).idx size) y →
        m.entries y ≠ kInvalidEntry → (m.entries y).tag ≠ (ctx.hash i).tag)) ∧
  (m.entries (helpers i).atomicEntry ≠ expected →
    kptAddress a i ≤ (m.entries (helpers i).atomicEntry).address →
    (m.entries (helpers i).atomicEntry).tag = (ctx.hash i).tag)

/-- The guard on steps: the begin address is not lowered, and each swap of a
bucket entry meets its condition. -/
def casGuard (size : ℕ) : Guard State Label
  | s, .shiftBegin address => s.beginAddress ≤ address
  | s, .thread t (.step _) =>
    match s.pc t with
    | .insert ctx helpers (.casEntry a i expected) => SwapOk size s.index ctx helpers a i expected
    | _ => True
  | _, _ => True

section

variable {size : ℕ} {s s' : State} {t u : ℕ} {p : Pc} {m m' : Index} {kpts kpts' : ℕ → KptWord}
  {linked linked' : List Link} {ctx : InsertContext} {helpers : ℕ → HashBucketCASHelper}
  {a i n k begin begin' : ℕ}

theorem casGuard_swap {ro : ℕ} {e : HashBucketEntry} (hguard : casGuard size s (.thread t (.step ro)))
    (hp : s.pc t=.insert ctx helpers (.casEntry a i e)) : SwapOk size s.index ctx helpers a i e := by
  unfold casGuard at hguard
  simp only [hp] at hguard
  exact hguard

theorem HelpersOk.mono (h : HelpersOk size m linked ctx helpers n)
    (hl : ∀ l ∈ linked, l ∈ linked') (hn : ∀ c d, m.next c=some d → m'.next c=some d) :
    HelpersOk size m' linked' ctx helpers n := by
  intro j hj
  obtain ⟨hin,hb⟩ := h j hj
  exact ⟨InChain.mono hn hin,hb.mono hl⟩

theorem LinkedUpTo.mono (h : LinkedUpTo linked ctx a n) (hl : ∀ l ∈ linked, l ∈ linked') : LinkedUpTo linked' ctx a n := by
  intro j hj
  obtain ⟨l,hm,hrest⟩ := h j hj
  exact ⟨l,hl l hm,hrest⟩

theorem Linking.mono (h : Linking size m linked ctx helpers a i)
    (hl : ∀ l ∈ linked, l ∈ linked') (hn : ∀ c d, m.next c=some d → m'.next c=some d) :
    Linking size m' linked' ctx helpers a i :=
  ⟨h.looked.mono hl hn,h.low,h.before.mono hl,h.lt⟩

theorem Above.mono {at' : ℕ} (h : Above linked ctx helpers a i at')
    (hl : ∀ l ∈ linked, l ∈ linked') : Above linked' ctx helpers a i at' :=
  ⟨h.1,h.2.mono hl⟩

/-- The key pointer that a thread is linking is one that it has to link. -/
theorem Linking.pending (h : Linking size m linked ctx helpers a i) {pc : InsertPc}
    (hp : progress pc=some (a, i)) : Pending (.insert ctx helpers pc) (kptAddress a i) :=
  ⟨a,i,i,hp,le_rfl,h.lt,rfl⟩

/-- What a thread has established stays as long as its own words do. -/
theorem PcOk.mono (h : PcOk size m kpts begin linked p) (hl : ∀ l ∈ linked, l ∈ linked')
    (hn : ∀ c d, m.next c=some d → m'.next c=some d) (hk : ∀ k, Pending p k → kpts' k=kpts k)
    (hb : begin≤begin') : PcOk size m' kpts' begin' linked' p := by
  cases p with
  | insert ctx helpers pc =>
    cases pc with
    | lookup i pc => exact ⟨h.1,h.2.mono hl hn⟩
    | reserve | newPage page => exact HelpersOk.mono h hl hn
    | reserved a => exact ⟨h.1.mono hl hn,h.2⟩
    | construct a i => exact Linking.mono h hl hn
    | casEntry a i e =>
      obtain ⟨hlink,hw,hlt,hbe⟩ := h
      refine ⟨hlink.mono hl hn,?_,hlt,hbe.mono hl⟩
      rw [hk _ (hlink.pending rfl),hw]
    | setPrev a i e =>
      obtain ⟨hlink,hw,hlt,hbe⟩ := h
      refine ⟨hlink.mono hl hn,?_,hlt,hbe.mono hl⟩
      rw [hk _ (hlink.pending rfl)]
      exact hw
    | loadKpt a i kpt =>
      obtain ⟨hlink,hw,hab⟩ := h
      refine ⟨hlink.mono hl hn,?_,hab.mono hl⟩
      rw [hk _ (hlink.pending rfl)]
      exact hw
    | setKptPrev a i kpt w =>
      obtain ⟨hlink,hw,hab,hlt⟩ := h
      refine ⟨hlink.mono hl hn,?_,hab.mono hl,hlt⟩
      rw [hk _ (hlink.pending rfl)]
      exact hw
    | alter a i kpt w =>
      obtain ⟨hlink,hw,hab,hlt⟩ := h
      refine ⟨hlink.mono hl hn,?_,hab.mono hl,hlt⟩
      rw [hk _ (hlink.pending rfl),hw]
    | finish a => exact LinkedUpTo.mono h hl
  | clean b last idx c i => exact le_trans h hb
  | cleanCas b last idx c i e => exact ⟨le_trans h.1 hb,h.2⟩
  | _ => trivial

theorem Leaves.goto (s : State) (t : ℕ) (p : Pc) : Leaves s (s.goto t p) t :=
  ⟨le_rfl,fun _ hl => hl,fun _ hl => .inl hl,fun _ _ hc => hc,fun _ _ _ => rfl,le_rfl⟩

/-- A key pointer of another thread is not one of this thread's. -/
theorem Owned.not_pending (h : Owned size s) (hu : u ≠ t) (hk : Pending (s.pc u) k) : ¬Pending (s.pc t) k :=
  fun hk' => hu (h.unique u t k hk hk')

theorem Owned.advance (h : Owned size s) (ht : Turn size s s' t p) : Owned size s' := by
  obtain ⟨hpc,hindex,hleaves,hown,hcomp⟩ := ht
  have hother : ∀ u, u ≠ t → s'.pc u=s.pc u := by
    intro u hu
    rw [hpc,update_of_ne hu]
  have hself : s'.pc t=p := by rw [hpc,update_self]
  have hclash : ∀ u k, u ≠ t → Pending (s.pc u) k → ¬Pending p k := by
    intro u k hu hk hk'
    rcases (hown k hk').1 with hk' | hge
    · exact h.not_pending hu hk hk'
    · exact absurd (h.fresh u k hk).2.1 (not_lt.mpr hge)
  refine ⟨?_,?_,?_,?_⟩
  · rw [hpc,looks_update]
    exact hindex
  · intro u k hk
    by_cases hu : u=t
    · rw [hu,hself] at hk
      exact (hown k hk).2
    · rw [hother u hu] at hk
      obtain ⟨hge,hlt,hne⟩ := h.fresh u k hk
      refine ⟨hge,hlt.trans_le hleaves.limit_le,fun l hl => ?_⟩
      rcases hleaves.linked_new l hl with hl | hl
      · exact hne l hl
      · intro heq
        rw [heq] at hl
        exact h.not_pending hu hk hl
  · intro u v k hu hv
    by_cases hut : u=t <;> by_cases hvt : v=t
    · rw [hut,hvt]
    · rw [hut,hself] at hu
      rw [hother v hvt] at hv
      exact absurd hu (hclash v k hvt hv)
    · rw [hvt,hself] at hv
      rw [hother u hut] at hu
      exact absurd hv (hclash u k hut hu)
    · rw [hother u hut] at hu
      rw [hother v hvt] at hv
      exact h.unique u v k hu hv
  · intro r hr
    rcases hcomp r hr with hr | hr
    · exact (h.completed r hr).mono hleaves.linked_sub
    · exact hr

/-- The words of the key pointers of other threads stay. -/
theorem Turn.kpts_eq (ht : Turn size s s' t p) (h : Owned size s) (hu : u ≠ t) (k : ℕ)
    (hk : Pending (s.pc u) k) : s'.kpts k=s.kpts k :=
  ht.leaves.kpts_eq k (h.not_pending hu hk) (h.fresh u k hk).2.2

/-- What holds of every place after the step. -/
theorem Turn.forall_pc (ht : Turn size s s' t p) {P : Pc → Prop} (hself : P p)
    (hother : ∀ u, u ≠ t → P (s.pc u)) (u : ℕ) : P (s'.pc u) := by
  rw [ht.pc]
  by_cases hu : u=t
  · rw [hu,update_self]
    exact hself
  · rw [update_of_ne hu]
    exact hother u hu

/-- A thread outside lookups is in none afterwards. -/
theorem start_index (h : IndexInv m (looks size s.pc)) (hlook : lookOf size (s.pc t)=none)
    (hstart : Starting (lookOf size p)) : IndexInv m (update (looks size s.pc) t (lookOf size p)) := by
  refine h.start (fun L hL => ?_) hstart
  unfold looks at hL
  rw [hlook] at hL
  cases hL

/-- A thread outside lookups only moves on. -/
theorem Turn.goto (h : Owned size s) (hlook : lookOf size (s.pc t)=none) (hstart : Starting (lookOf size p))
    (hpend : ∀ k, Pending p k → Pending (s.pc t) k) : Turn size s (s.goto t p) t p :=
  ⟨rfl,start_index h.index hlook hstart,.goto s t p, fun k hk => ⟨.inl (hpend k hk),h.fresh t k (hpend k hk)⟩,fun _ => .inl⟩

/-- A thread that links key pointers is in no lookup. -/
theorem lookOf_of_progress {pc : InsertPc} {x : ℕ × ℕ} (h : progress pc=some x) :
    lookOf size (.insert ctx helpers pc)=none := by
  cases pc <;> first | rfl | cases h

theorem pending_of_progress {pc pc' : InsertPc} (hpr : progress pc=progress pc')
    (hk : Pending (.insert ctx helpers pc') k) : Pending (.insert ctx helpers pc) k := by
  obtain ⟨a,i,j,hpr',hrest⟩ := hk
  exact ⟨a,i,j,hpr.trans hpr',hrest⟩

/-- A thread that does not link has nothing to link. -/
theorem not_pending {pc : InsertPc} (hpr : progress pc=none) : ¬Pending (.insert ctx helpers pc) k := by
  rintro ⟨a,i,j,hpr',_⟩
  rw [hpr] at hpr'
  cases hpr'

/-- A thread goes on with the same key pointer. -/
theorem Turn.retry (h : Owned size s) {pc pc' : InsertPc} (hp : s.pc t=.insert ctx helpers pc)
    (hpr : progress pc=some (a, i)) (hpr' : progress pc'=some (a, i)) :
    Turn size s (s.goto t (.insert ctx helpers pc')) t (.insert ctx helpers pc') := by
  refine .goto h (by rw [hp,lookOf_of_progress hpr]) (by rw [lookOf_of_progress hpr']; exact starting_none) ?_
  intro k hk
  rw [hp]
  exact pending_of_progress (hpr.trans hpr'.symm) hk

/-- A step of a lookup. -/
theorem Turn.lookup (h : Owned size s) {L : Lookup} (hL : lookOf size (s.pc t)=some L)
    (hafter : After L (lookOf size p) (lookupStep L.idx L.tag t s.index L.pc).2) (hpend : ∀ k, ¬Pending p k) :
    Turn size s ({ s with index := (lookupStep L.idx L.tag t s.index L.pc).1 }.goto t p) t p :=
  ⟨rfl,h.index.lookupStep hL hafter,⟨le_rfl,fun _ hl => hl,fun _ hl => .inl hl,(h.index.lookupFrame hL).next_mono,
    fun _ _ _ => rfl,le_rfl⟩,fun k hk => absurd hk (hpend k),fun _ => .inl⟩

/-- The tail moves on. -/
theorem Turn.extend (h : Owned size s) {tail : PageOffset} (hlook : lookOf size (s.pc t)=none)
    (hlook' : lookOf size p=none) (hlimit : s.tail.limit≤tail.limit)
    (hown : ∀ k, Pending p k → s.tail.limit≤k ∧ firstAddress≤k ∧ k<tail.limit ∧
      ∀ l ∈ s.linked, l.address ≠ k) : Turn size s ({ s with tail }.goto t p) t p :=
  ⟨rfl,start_index h.index hlook (by rw [hlook']; exact starting_none),
    ⟨hlimit,fun _ hl => hl,fun _ hl => .inl hl,fun _ _ hc => hc,fun _ _ _ => rfl,le_rfl⟩,
    fun k hk => ⟨.inr (hown k hk).1,(hown k hk).2⟩,fun _ => .inl⟩

/-- A write of a thread to the key pointer that it is linking. -/
theorem Turn.writeKpt (h : Owned size s) {pc pc' : InsertPc} (hp : s.pc t=.insert ctx helpers pc)
    (hpend : Pending (.insert ctx helpers pc) (kptAddress a i)) (hpr : progress pc=some (a, i))
    (hpr' : progress pc'=some (a, i)) (w : KptWord) :
    Turn size s ((s.setKpt (kptAddress a i) w).goto t (.insert ctx helpers pc')) t (.insert ctx helpers pc') := by
  have hturn := Turn.retry h hp hpr hpr'
  refine ⟨rfl,hturn.index,⟨le_rfl,fun _ hl => hl,fun _ hl => .inl hl,fun _ _ hc => hc,?_,le_rfl⟩, hturn.own,fun _ => .inl⟩
  intro k hk _
  refine update_of_ne ?_ ..
  rintro rfl
  rw [hp] at hk
  exact hk hpend

section

variable (h : Inv size s)

include h

theorem Inv.owned : Owned size s := ⟨h.index,h.threads.fresh,h.threads.unique,h.completed⟩

/-- The step of one thread, with what it has established itself. -/
theorem Inv.advance (ht : Turn size s s' t p)
    (hchains : ChainInv size s'.index s'.kpts s'.tail s'.beginAddress s'.linked)
    (hok : PcOk size s'.index s'.kpts s'.beginAddress s'.linked p) : Inv size s' := by
  obtain ⟨hindex,hfresh,hunique,hcomp⟩ := h.owned.advance ht
  refine ⟨hindex,hchains,⟨hfresh,hunique,ht.forall_pc hok fun u hu => ?_⟩,hcomp⟩
  exact (h.threads.ok u).mono ht.leaves.linked_sub ht.leaves.next_mono (ht.kpts_eq h.owned hu) ht.leaves.begin_le

/-- A thread outside lookups that only moves on. -/
theorem Inv.quiet (hlook : lookOf size (s.pc t)=none)
    (hstart : Starting (lookOf size p)) (hpend : ∀ k, Pending p k → Pending (s.pc t) k)
    (hok : PcOk size s.index s.kpts s.beginAddress s.linked p) : Inv size (s.goto t p) :=
  h.advance (.goto h.owned hlook hstart hpend) h.chains hok

/-- The invariant of a thread in `InternalInsert`. -/
theorem Inv.insertOk {pc : InsertPc} (hp : s.pc t=.insert ctx helpers pc) :
    InsertOk size s.index s.kpts s.linked ctx helpers pc := by
  have hok := h.threads.ok t
  rw [hp] at hok
  exact hok

omit h in
theorem starting_lookupFrom (helpers : ℕ → HashBucketCASHelper) (i : ℕ) :
    Starting (lookOf size (.insert ctx helpers (lookupFrom size ctx i))) := by
  unfold lookupFrom
  split_ifs
  · intro K hK
    cases hK
    rfl
  · exact starting_none

omit h in
theorem not_pending_lookupFrom (helpers : ℕ → HashBucketCASHelper) (i k : ℕ) :
    ¬ Pending (.insert ctx helpers (lookupFrom size ctx i)) k := by
  unfold lookupFrom
  split_ifs <;> rintro ⟨a,j,n,hpr,_⟩ <;> cases hpr

omit h in
/-- The loop of lookups goes on, or ends with all entries found: a 16-bit
index that wraps starts again. -/
theorem insertOk_lookupFrom (h : HelpersOk size m linked ctx helpers i) (hi : i≤ctx.kpts.length) :
    InsertOk size m kpts linked ctx helpers (lookupFrom size ctx (i%2^16)) := by
  have hle := Nat.mod_le i (2^16)
  unfold lookupFrom
  split_ifs with hlt
  · exact ⟨hlt,fun j hj => h j (hj.trans_le hle)⟩
  · exact fun j hj => h j (by omega)

/-- A step of a lookup. -/
theorem Inv.lookup {L : Lookup} (hL : lookOf size (s.pc t)=some L)
    (hafter : After L (lookOf size p) (lookupStep L.idx L.tag t s.index L.pc).2)
    (hpend : ∀ k, ¬ Pending p k)
    (hok : PcOk size (lookupStep L.idx L.tag t s.index L.pc).1 s.kpts s.beginAddress s.linked p) :
    Inv size ({ s with index := (lookupStep L.idx L.tag t s.index L.pc).1 }.goto t p) :=
  h.advance (.lookup h.owned hL hafter hpend) (h.chains.lookup (h.index.lookupFrame hL)) hok

/-- The entry that a lookup of an insertion returns. -/
theorem Inv.helpersOk_done {L : Lookup} {x : Slot} {e : HashBucketEntry} (hL : lookOf size (s.pc t)=some L)
    (hidx : L.idx=(ctx.hash i).idx size) (hr : (lookupStep L.idx L.tag t s.index L.pc).2=.done x e)
    (hh : HelpersOk size s.index s.linked ctx helpers i) :
    HelpersOk size (lookupStep L.idx L.tag t s.index L.pc).1 s.linked ctx (update helpers i ⟨x,e⟩) (i+1) := by
  have hlook : looks size s.pc t=some L := hL
  have hf := h.index.lookupFrame hlook
  obtain ⟨hin,hholds,he⟩ := h.index.lookup_done hlook hr
  intro j hj
  by_cases hji : j=i
  · subst hji
    rw [update_self]
    refine ⟨InChain.mono hf.next_mono (by rw [←hidx]; exact hin),?_⟩
    have := (h.chains.lookup hf).entry_below x
    rw [he] at this
    exact this
  · rw [update_of_ne hji]
    exact hh.mono (fun _ hl => hl) hf.next_mono j (by omega)

theorem Inv.insert_lookup {pc : LookupPc} (ro : ℕ) (hp : s.pc t=.insert ctx helpers (.lookup i pc)) :
    Inv size (insertStep size t ro s ctx helpers (.lookup i pc)) := by
  obtain ⟨hi,hh⟩ := h.insertOk hp
  have hL : lookOf size (s.pc t)=some ⟨(ctx.hash i).idx size,(ctx.hash i).tag,pc⟩ := by
    rw [hp]
    rfl
  have hf := h.index.lookupFrame hL
  unfold insertStep
  cases hr : (lookupStep ((ctx.hash i).idx size) (ctx.hash i).tag t s.index pc).2 with
  | more pc' =>
    simp only [hr]
    refine h.lookup (p := .insert ctx helpers (.lookup i pc')) hL ?_ ?_ ⟨hi,hh.mono (fun _ hl => hl) hf.next_mono⟩
    · rw [hr]
      rfl
    · exact fun _ => not_pending rfl
  | done x e =>
    simp only [hr]
    refine h.lookup hL ?_ (not_pending_lookupFrom _ _) (insertOk_lookupFrom (h.helpersOk_done hL rfl hr hh) hi)
    rw [hr]
    exact starting_lookupFrom _ _

theorem Inv.create_lookup {hash : KeyHash} {pc : LookupPc} {ro : ℕ} (hp : s.pc t=.create hash pc)
    (hs : callStep size t ro s (.create hash pc)=some s') : Inv size s' := by
  have hL : lookOf size (s.pc t)=some ⟨hash.idx size,hash.tag,pc⟩ := by
    rw [hp]
    rfl
  unfold callStep at hs
  cases hr : (lookupStep (hash.idx size) hash.tag t s.index pc).2 with
  | more pc' =>
    simp only [hr] at hs
    cases hs
    refine h.lookup (p := .create hash pc') hL ?_ (fun _ hk => hk) trivial
    rw [hr]
    rfl
  | done x e =>
    simp only [hr] at hs
    cases hs
    refine h.lookup (p := .created hash x e) hL ?_ (fun _ hk => hk) trivial
    rw [hr]
    exact starting_none

end

theorem le_kptAddress (a j : ℕ) : a≤kptAddress a j := by
  unfold kptAddress
  omega

/-- The key pointers of a record lie within the space allocated for it. -/
theorem kptAddress_lt_size {j : ℕ} (hj : j<ctx.kpts.length) : kptAddress a j<a+ctx.size := by
  have hfit := ctx.size_lt
  have hpad := le_padAlignment (sizeofRecordInfo+sizeofKeyPointer*ctx.kpts.length + ctx.payloadSize+ctx.optionalSize)
  unfold InsertContext.size recordSize
  rw [Nat.mod_eq_of_lt hfit]
  unfold kptAddress sizeofKeyPointer at *
  omega

/-- The key pointers of a record that was allocated. -/
theorem own_reserved (hfirst : firstAddress ≤ s.tail.limit) (hrange : ∀ l ∈ s.linked, l.address<s.tail.limit)
    (ha : s.tail.allocated ctx.size=some a) (k : ℕ) (hk : Pending (.insert ctx helpers (.reserved a)) k) :
    s.tail.limit≤k ∧ firstAddress≤k ∧ k<(s.tail.reserve ctx.size).limit ∧ ∀ l ∈ s.linked, l.address ≠ k := by
  obtain ⟨hge,hle⟩ := PageOffset.allocated_spec ha
  obtain ⟨a',i,j,hpr,_,hj,rfl⟩ := hk
  cases hpr
  have hak : s.tail.limit≤kptAddress a j := hge.trans (le_kptAddress a j)
  refine ⟨hak,hfirst.trans hak,(kptAddress_lt_size hj).trans_le hle,fun l hl heq => ?_⟩
  have hlt := hrange l hl
  omega

theorem pending_linkFrom {k : ℕ} (hk : Pending (.insert ctx helpers (linkFrom ctx a i)) k) :
    ∃ j, i≤j ∧ j<ctx.kpts.length ∧ k=kptAddress a j := by
  obtain ⟨a',i',j,hpr,hij,hj,rfl⟩ := hk
  unfold linkFrom at hpr
  split_ifs at hpr
  · cases hpr
    exact ⟨j,hij,hj,rfl⟩
  · cases hpr

theorem lookOf_linkFrom : lookOf size (.insert ctx helpers (linkFrom ctx a i))=none := by
  unfold linkFrom
  split_ifs <;> rfl

/-- The thread goes on with the first key pointer. -/
theorem Turn.linkFirst (h : Owned size s) (hp : s.pc t=.insert ctx helpers (.reserved a)) :
    Turn size s (s.goto t (.insert ctx helpers (linkFrom ctx a 0))) t (.insert ctx helpers (linkFrom ctx a 0)) := by
  refine .goto h (by rw [hp]; rfl) (by rw [lookOf_linkFrom]; exact starting_none) fun k hk => ?_
  obtain ⟨j,hij,hj,rfl⟩ := pending_linkFrom hk
  rw [hp]
  exact ⟨a,0,j,rfl,hij,hj,rfl⟩

/-- The loops that link go on, or end with all key pointers linked. -/
theorem insertOk_linkFrom (hh : HelpersOk size m linked ctx helpers ctx.kpts.length)
    (hlow : ∀ j<ctx.kpts.length, (helpers j).expectedEntry.address<kptAddress a j)
    (hbefore : LinkedUpTo linked ctx a i) (hi : i≤ctx.kpts.length) :
    InsertOk size m kpts linked ctx helpers (linkFrom ctx a i) := by
  unfold linkFrom
  split_ifs with hlt
  · exact ⟨hh,hlow,hbefore,hlt⟩
  · exact fun j hj => hbefore j (by omega)

/-- A write of a thread to the key pointer that it is linking. -/
theorem Inv.writeKpt (h : Inv size s) {pc pc' : InsertPc} (hp : s.pc t=.insert ctx helpers pc)
    (hl : Linking size s.index s.linked ctx helpers a i) (hpr : progress pc=some (a, i)) (hpr' : progress pc'=some (a, i))
    (w : KptWord) (hok : InsertOk size s.index (update s.kpts (kptAddress a i) w) s.linked ctx helpers pc') :
    Inv size ((s.setKpt (kptAddress a i) w).goto t (.insert ctx helpers pc')) := by
  have hfresh := h.threads.fresh t (kptAddress a i) (by rw [hp]; exact hl.pending hpr)
  exact h.advance (.writeKpt h.owned hp (hl.pending hpr) hpr hpr' w) (h.chains.setKpt hfresh.2.2 w) hok

theorem first_lt {k : ℕ} (h : firstAddress≤k) : kInvalidAddress<k := by
  unfold firstAddress at h
  unfold kInvalidAddress
  omega

/-- The search for the place to splice at goes on, or has found one. -/
theorem Inv.insertOk_spliceFrom (h : Inv size s) {pc : InsertPc} {kpt : ℕ} (hp : s.pc t=.insert ctx helpers pc)
    (hpr : progress pc=some (a, i)) (hl : Linking size s.index s.linked ctx helpers a i)
    (hw : ∃ q, s.kpts (kptAddress a i)=ctx.word i q) (hab : Above s.linked ctx helpers a i kpt) :
    InsertOk size s.index s.kpts s.linked ctx helpers (spliceFrom a i kpt (s.kpts kpt)) := by
  have hpend : Pending (s.pc t) (kptAddress a i) := by
    rw [hp]
    exact hl.pending hpr
  obtain ⟨hge,_,hne⟩ := h.threads.fresh t _ hpend
  obtain ⟨l,hlm,rfl,hslot,htag⟩ := hab.2
  obtain ⟨_,hbelow⟩ := h.chains.link_prev l hlm
  rw [hslot,htag] at hbelow
  have hlast := first_lt hge
  unfold spliceFrom
  split_ifs with hgt
  · refine ⟨hl,hw,hgt,?_⟩
    rcases hbelow with hle | hlinked
    · unfold prevOf at hle
      omega
    · exact hlinked
  · refine ⟨hl,hw,hab,?_⟩
    -- The previous address is not that of the key pointer, which is not linked.
    have hneq : (s.kpts l.address).prevAddress ≠ kptAddress a i := by
      rcases hbelow with hle | ⟨l',hl',heq,_⟩
      · unfold prevOf at hle
        omega
      · unfold prevOf at heq
        rw [←heq]
        exact hne l' hl'
    omega

theorem progress_spliceFrom (a i kpt : ℕ) (w : KptWord) : progress (spliceFrom a i kpt w)=some (a, i) := by
  unfold spliceFrom
  split_ifs <;> rfl

/-- A thread that moves on with the same key pointer. -/
theorem Inv.retry (h : Inv size s) {pc pc' : InsertPc} (hp : s.pc t=.insert ctx helpers pc)
    (hpr : progress pc=some (a, i)) (hpr' : progress pc'=some (a, i))
    (hok : InsertOk size s.index s.kpts s.linked ctx helpers pc') : Inv size (s.goto t (.insert ctx helpers pc')) :=
  h.advance (.retry h.owned hp hpr hpr') h.chains hok

/-- The link that the history records for key pointer `i`. -/
def linkOf (ctx : InsertContext) (helpers : ℕ → HashBucketCASHelper) (a i : ℕ) : Link :=
  ⟨kptAddress a i, ctx.hash i, (helpers i).atomicEntry, ctx.mode i, i % 2 ^ 15⟩

theorem LinkedUpTo.next (h : LinkedUpTo linked ctx a i) : LinkedUpTo (linkOf ctx helpers a i::linked) ctx a (i+1) := by
  intro j hj
  by_cases hji : j=i
  · subst hji
    exact ⟨_,List.mem_cons_self,rfl,rfl⟩
  · exact h.mono (fun _ => List.mem_cons_of_mem _) j (by omega)

/-- A successful linking swap: the thread goes on with the next key pointer. -/
theorem Turn.link (h : Owned size s) {pc : InsertPc} (hp : s.pc t=.insert ctx helpers pc) (hpr : progress pc=some (a, i))
    (hi : i<ctx.kpts.length) (hpc : s'.pc=update s.pc t (.insert ctx helpers (linkFrom ctx a (i+1))))
    (hindex : IndexInv s'.index (looks size s.pc)) (hlinked : s'.linked=linkOf ctx helpers a i::s.linked)
    (htail : s'.tail=s.tail) (hnext : s'.index.next=s.index.next) (hbegin : s'.beginAddress=s.beginAddress)
    (hcomp : s'.completed=s.completed) (hkpts : ∀ k, (∀ l ∈ s.linked, l.address ≠ k) → s'.kpts k=s.kpts k) :
    Turn size s s' t (.insert ctx helpers (linkFrom ctx a (i+1))) := by
  have hpend : ∀ j, i≤j → j<ctx.kpts.length → Pending (s.pc t) (kptAddress a j) := by
    intro j hij hj
    rw [hp]
    exact ⟨a,i,j,hpr,hij,hj,rfl⟩
  refine ⟨hpc,start_index hindex (by rw [hp,lookOf_of_progress hpr]) (by rw [lookOf_linkFrom]; exact starting_none),
    ⟨by rw [htail],?_,?_,?_,fun k _ hk => hkpts k hk,by rw [hbegin]⟩,?_,?_⟩
  · intro l hm
    rw [hlinked]
    exact List.mem_cons_of_mem _ hm
  · intro l hm
    rw [hlinked] at hm
    rcases List.mem_cons.mp hm with rfl | hm
    · exact .inr (hpend i le_rfl hi)
    · exact .inl hm
  · intro c d hc
    rw [hnext]
    exact hc
  · intro k hk
    obtain ⟨j,hij,hj,rfl⟩ := pending_linkFrom hk
    have hpj := hpend j (by omega) hj
    obtain ⟨hge,hlt,hne⟩ := h.fresh t _ hpj
    refine ⟨.inl hpj,hge,by rw [htail]; exact hlt,fun l hm => ?_⟩
    rw [hlinked] at hm
    rcases List.mem_cons.mp hm with rfl | hm
    · intro heq
      have := kptAddress_injective heq
      omega
    · exact hne l hm
  · intro r hr
    rw [hcomp] at hr
    exact .inl hr

section

variable (h : Inv size s)

include h

theorem Inv.linkNext (ht : Turn size s s' t (.insert ctx helpers (linkFrom ctx a (i+1))))
    (hl : Linking size s.index s.linked ctx helpers a i)
    (hchains : ChainInv size s'.index s'.kpts s'.tail s'.beginAddress s'.linked)
    (hlinked : s'.linked=linkOf ctx helpers a i::s.linked) : Inv size s' := by
  refine h.advance ht hchains (insertOk_linkFrom (hl.looked.mono ht.leaves.linked_sub ht.leaves.next_mono) hl.low ?_ hl.lt)
  rw [hlinked]
  exact hl.before.next

theorem Inv.insert_alter (ro : ℕ) {kpt : ℕ} {w : KptWord} (hp : s.pc t=.insert ctx helpers (.alter a i kpt w)) :
    Inv size (insertStep size t ro s ctx helpers (.alter a i kpt w)) := by
  obtain ⟨hl,hw,hab,hlt⟩ := h.insertOk hp
  obtain ⟨hge,hlim,hne⟩ := h.threads.fresh t (kptAddress a i) (by rw [hp]; exact hl.pending rfl)
  unfold insertStep
  simp only
  split_ifs with hcas
  · have hprev : prevOf s.kpts kpt=w.prevAddress := by
      unfold prevOf
      rw [hcas]
    have hchains := h.chains.linkKpt (l := linkOf ctx helpers a i) hne ⟨hge,hlim⟩
      (hl.looked i hl.lt).1 hab.2 hab.1 (by rw [hprev]; exact hw) (by rw [hprev]; exact hlt)
    rw [hcas] at hchains
    refine h.linkNext (.link h.owned hp rfl hl.lt rfl h.index rfl rfl rfl rfl rfl ?_) hl hchains rfl
    intro k hk
    refine update_of_ne ?_ ..
    rintro rfl
    obtain ⟨l,hm,heq,_⟩ := hab.2
    exact hk l hm heq
  · exact h.retry hp rfl (progress_spliceFrom a i kpt _) (h.insertOk_spliceFrom hp rfl hl ⟨_,hw⟩ hab)

theorem Inv.insert_casEntry (ro : ℕ) {e : HashBucketEntry}
    (hp : s.pc t=.insert ctx helpers (.casEntry a i e)) (hguard : casGuard size s (.thread t (.step ro))) :
    Inv size (insertStep size t ro s ctx helpers (.casEntry a i e)) := by
  obtain ⟨hl,hw,hlt,hbelow⟩ := h.insertOk hp
  obtain ⟨hwin,hlose⟩ := casGuard_swap hguard hp
  obtain ⟨hge,hlim,hne⟩ := h.threads.fresh t (kptAddress a i) (by rw [hp]; exact hl.pending rfl)
  obtain ⟨hin,_⟩ := hl.looked i hl.lt
  have hlast := first_lt hge
  unfold insertStep
  simp only
  split_ifs with hcas hretry
  · have htag := hwin hcas
    have hentry : Holds s.index (helpers i).atomicEntry (ctx.hash i).tag ∨
        s.index.entries (helpers i).atomicEntry=kInvalidEntry := by
      rcases htag with hh | ⟨h0,_⟩
      · exact .inl hh
      · exact .inr (hcas.trans h0)
    have hchains := h.chains.linkEntry (l := linkOf ctx helpers a i) hne ⟨hge,hlim⟩ hin
      (by rw [show (linkOf ctx helpers a i).slot=(helpers i).atomicEntry from rfl,hcas]; exact hw)
      (by rw [show (linkOf ctx helpers a i).slot=(helpers i).atomicEntry from rfl,hcas]; exact hlt)
      hentry
    have hindex : IndexInv (s.index.setEntry (helpers i).atomicEntry
        ⟨kptAddress a i,(ctx.hash i).tag,false⟩) (looks size s.pc) := by
      refine ⟨h.index.buckets.setEntry _ _,h.index.entries.write h.index.buckets ?_ rfl (fun _ => ⟨_,hin⟩) fun _ => ?_⟩
      · rcases hentry with hh | h0
        · exact hh.1.2
        · rw [h0]
          rfl
      · rcases htag with hh | ⟨_,hnone⟩
        · exact .inl hh
        · refine .inr fun j y hjx hjy hy => hnone y ?_ hy
          have hidx := h.index.buckets.chain_unique hjx.1 hin.1
          rw [←hidx]
          exact hjy
    exact h.linkNext (.link h.owned hp rfl hl.lt rfl hindex rfl rfl rfl rfl rfl fun _ _ => rfl) hl hchains rfl
  · exact h.retry hp rfl rfl ⟨hl,⟨_,hw⟩,hretry,h.chains.entry_below _⟩
  · -- The bucket is lost to a higher key pointer of the same tag.
    have hge' : kptAddress a i≤(s.index.entries (helpers i).atomicEntry).address := by omega
    have hb := h.chains.entry_below (helpers i).atomicEntry
    rw [hlose hcas hge'] at hb
    refine h.retry hp rfl rfl ⟨hl,⟨_,hw⟩,?_⟩
    rcases hb with hle | hlinked
    · omega
    · refine ⟨?_,hlinked⟩
      obtain ⟨l,hm,heq,_⟩ := hlinked
      have := hne l hm
      omega

omit h in
/-- An insertion is complete. -/
theorem Turn.finish (h : Owned size s) (hp : s.pc t=.insert ctx helpers (.finish a))
    (hall : LinkedUpTo s.linked ctx a ctx.kpts.length) :
    Turn size s ({ s with completed := (a, ctx)::s.completed }.goto t .idle) t .idle := by
  refine ⟨rfl,start_index h.index (by rw [hp]; rfl) starting_none,
    ⟨le_rfl,fun _ hl => hl,fun _ hl => .inl hl,fun _ _ hc => hc,fun _ _ _ => rfl,le_rfl⟩,fun _ hk => hk.elim,?_⟩
  intro r hr
  rcases List.mem_cons.mp hr with rfl | hr
  · exact .inr hall
  · exact .inl hr

/-- Every step of `InternalInsert` keeps the invariant. -/
theorem Inv.insertStep {pc : InsertPc} {ro : ℕ}
    (hp : s.pc t=.insert ctx helpers pc) (hguard : casGuard size s (.thread t (.step ro))) :
    Inv size (insertStep size t ro s ctx helpers pc) := by
  cases pc with
  | lookup i pc => exact h.insert_lookup ro hp
  | reserve =>
    have hh : HelpersOk size s.index s.linked ctx helpers ctx.kpts.length := h.insertOk hp
    have hlimit := s.tail.limit_le_reserve ctx.size
    have hlook : lookOf size (s.pc t)=none := by
      rw [hp]
      rfl
    unfold InternalInsert.insertStep
    cases ha : s.tail.allocated ctx.size with
    | none =>
      exact h.advance (.extend h.owned hlook rfl hlimit fun _ hk => absurd hk (not_pending rfl)) (h.chains.extend hlimit) hh
    | some a =>
      refine h.advance (.extend h.owned hlook rfl hlimit (own_reserved h.chains.first_le ?_ ha))
        (h.chains.extend hlimit) ⟨hh,fun j hj => ?_⟩
      · exact fun l hl => (h.chains.link_range l hl).2
      · exact (h.chains.below_lt (hh j hj).2).trans_le ((PageOffset.allocated_spec ha).1.trans (le_kptAddress a j))
  | newPage page =>
    have hlimit := s.tail.limit_le_newPage page
    exact h.advance (.extend h.owned (by rw [hp]; rfl) rfl hlimit fun _ hk => absurd hk (not_pending rfl))
      (h.chains.extend hlimit) (h.insertOk hp :)
  | reserved a =>
    obtain ⟨hh,hlow⟩ := h.insertOk hp
    unfold InternalInsert.insertStep
    simp only
    split_ifs
    · exact h.quiet (by rw [hp]; rfl) starting_none (fun _ hk => absurd hk (not_pending rfl)) hh
    · exact h.advance (.linkFirst h.owned hp) h.chains
        (insertOk_linkFrom hh hlow (fun j hj => absurd hj (Nat.not_lt_zero j)) (Nat.zero_le _))
  | construct a i =>
    have hl : Linking size s.index s.linked ctx helpers a i := h.insertOk hp
    exact h.writeKpt hp hl rfl rfl _ ⟨hl,update_self ..,hl.low i hl.lt,(hl.looked i hl.lt).2⟩
  | casEntry a i e => exact h.insert_casEntry ro hp hguard
  | setPrev a i e =>
    obtain ⟨hl,⟨q,hq⟩,hlt,hb⟩ := h.insertOk hp
    refine h.writeKpt hp hl rfl rfl _ ⟨hl,?_,hlt,hb⟩
    rw [update_self,hq]
    rfl
  | loadKpt a i kpt =>
    obtain ⟨hl,hw,hab⟩ := h.insertOk hp
    exact h.retry hp rfl (progress_spliceFrom a i kpt _) (h.insertOk_spliceFrom hp rfl hl hw hab)
  | setKptPrev a i kpt w =>
    obtain ⟨hl,⟨q,hq⟩,hab,hlt⟩ := h.insertOk hp
    refine h.writeKpt hp hl rfl rfl _ ⟨hl,?_,hab,hlt⟩
    rw [update_self,hq]
    rfl
  | alter a i kpt w => exact h.insert_alter ro hp
  | finish a => exact h.advance (.finish h.owned hp (h.insertOk hp)) h.chains trivial

omit h in
/-- What a read of the cleaner leads to. -/
theorem cleanStep_cases (m : Index) (n last idx : ℕ) (b : BucketRef) (i : ℕ) :
    cleanStep m n last idx b i=.idle ∨ (∃ idx' c j, cleanStep m n last idx b i=.clean n last idx' c j) ∨
    ∃ e, cleanStep m n last idx b i=.cleanCas n last idx b i e ∧ e.address ≠ kInvalidAddress ∧ e.address<n := by
  unfold cleanStep
  by_cases hi : i<kNumEntries
  · simp only [if_pos hi]
    split_ifs with hclean
    · exact .inr (.inr ⟨_,rfl,hclean.2⟩)
    · exact .inr (.inl ⟨_,_,_,rfl⟩)
  · simp only [if_neg hi]
    cases m.next b with
    | some c => exact .inr (.inl ⟨_,_,_,rfl⟩)
    | none =>
      simp only
      split_ifs
      · exact .inr (.inl ⟨_,_,_,rfl⟩)
      · exact .inl rfl

theorem Inv.clean {last idx : ℕ} {b : BucketRef} (hp : s.pc t=.clean n last idx b i) :
    Inv size (s.goto t (cleanStep s.index n last idx b i)) := by
  have hok := h.threads.ok t
  rw [hp] at hok
  have hlook : lookOf size (s.pc t)=none := by
    rw [hp]
    rfl
  rcases cleanStep_cases s.index n last idx b i with hc | ⟨_,_,_,hc⟩ | ⟨e,hc,he⟩
  · rw [hc]
    exact h.quiet hlook starting_none (fun _ hk => hk.elim) trivial
  · rw [hc]
    exact h.quiet hlook starting_none (fun _ hk => hk.elim) hok
  · rw [hc]
    exact h.quiet hlook starting_none (fun _ hk => hk.elim) ⟨hok,he⟩

/-- The cleaner's swap keeps the invariant. -/
theorem Inv.cleanCas {last idx : ℕ} {b : BucketRef} {e : HashBucketEntry} {ro : ℕ} (hp : s.pc t=.cleanCas n last idx b i e)
    (hs : callStep size t ro s (.cleanCas n last idx b i e)=some s') : Inv size s' := by
  have hok := h.threads.ok t
  rw [hp] at hok
  obtain ⟨hn,hne,hlt⟩ := hok
  have hlook : lookOf size (s.pc t)=none := by
    rw [hp]
    rfl
  unfold callStep at hs
  cases hs
  split_ifs with hcas
  · have htent : (s.index.entries ⟨b,i⟩).tentative=false := by
      cases ht : (s.index.entries ⟨b,i⟩).tentative with
      | false => rfl
      | true =>
        -- A tentative entry still has the invalid address.
        obtain ⟨u,L,hL,hx⟩ := h.index.entries.owner _ ht
        have := h.index.entries.owned u L _ hL hx
        rw [hcas] at this
        rw [this] at hne
        exact absurd rfl hne
    have hentries : EntryInv (s.index.setEntry ⟨b,i⟩ kInvalidEntry) (looks size s.pc) :=
      h.index.entries.write h.index.buckets htent rfl (fun h0 => absurd rfl h0) fun h0 => absurd rfl h0
    have hindex : IndexInv (s.index.setEntry ⟨b,i⟩ kInvalidEntry) (looks size s.pc) :=
      ⟨h.index.buckets.setEntry _ _,hentries⟩
    have hchains := h.chains.clean (x := ⟨b,i⟩) (by rw [hcas]; omega)
    exact h.advance ⟨rfl,start_index hindex hlook starting_none,
      ⟨le_rfl,fun _ hl => hl,fun _ hl => .inl hl,fun _ _ hc => hc,fun _ _ _ => rfl,le_rfl⟩,fun _ hk => hk.elim,fun _ => .inl⟩
      hchains hn
  · exact h.quiet hlook starting_none (fun _ hk => hk.elim) hn

/-- The next step of a call keeps the invariant. -/
theorem Inv.callStep {ro : ℕ} (hguard : casGuard size s (.thread t (.step ro)))
    (hs : callStep size t ro s (s.pc t)=some s') : Inv size s' := by
  cases hp : s.pc t with
  | create hash pc => exact h.create_lookup hp (by rw [←hs,hp])
  | insert ctx helpers pc =>
    rw [hp] at hs
    cases hs
    exact h.insertStep hp hguard
  | cleanCas n last idx b i e => exact h.cleanCas hp (by rw [←hs,hp])
  | clean n last idx b i =>
    rw [hp] at hs
    cases hs
    exact h.clean hp
  | find hash b i =>
    simp only [hp,InternalInsert.callStep] at hs
    split at hs <;> cases hs <;> exact h.quiet (by rw [hp]; rfl) starting_none (fun _ hk => hk.elim) trivial
  | _ => rw [hp] at hs; cases hs

omit h in
theorem lookOf_resting (hp : p.resting=true) : lookOf size p=none := by cases p <;> first | rfl | cases hp

/-- The start of a call keeps the invariant. -/
theorem Inv.startCall {act : Act} (hrest : (s.pc t).resting=true)
    (hs : startCall size s act=some p) : Inv size (s.goto t p) := by
  have hlook : lookOf size (s.pc t)=none := lookOf_resting hrest
  cases act with
  | findOrCreateEntry hash =>
    cases hs
    exact h.quiet hlook (fun K hK => by cases hK; rfl) (fun _ hk => hk.elim) trivial
  | findEntry hash =>
    cases hs
    exact h.quiet hlook starting_none (fun _ hk => hk.elim) trivial
  | internalInsert ctx =>
    cases hs
    refine h.quiet hlook (starting_lookupFrom _ _) (fun k hk => absurd hk (not_pending_lookupFrom _ _ _)) ?_
    exact insertOk_lookupFrom (i := 0) (fun j hj => by omega) (Nat.zero_le _)
  | cleanHashTableBuckets first last =>
    cases hs
    split_ifs
    · exact h.quiet hlook starting_none (fun _ hk => hk.elim) (le_refl s.beginAddress)
    · exact h.quiet hlook starting_none (fun _ hk => hk.elim) trivial
  | cprShift => cases hs
  | step ro => cases hs

/-- Every step that satisfies the guard keeps the invariant. -/
theorem Inv.step {label : Label} (hguard : casGuard size s label)
    (hs : InternalInsert.step size s label=some s') : Inv size s' := by
  cases label with
  | shiftBegin address =>
    cases hs
    have hb : s.beginAddress≤address := hguard
    refine ⟨h.index,h.chains.shift hb,⟨h.threads.fresh,h.threads.unique,fun t => ?_⟩,h.completed⟩
    exact (h.threads.ok t).mono (fun _ hl => hl) (fun _ _ hc => hc) (fun _ _ => rfl) hb
  | thread t act =>
    cases act with
    | step ro => exact h.callStep hguard hs
    | cprShift =>
      unfold InternalInsert.step at hs
      simp only at hs
      split at hs
      · rename_i hp
        cases hs
        exact h.quiet (by rw [hp]; rfl) starting_none (fun _ hk => hk.elim) trivial
      · cases hs
    | _ =>
      unfold InternalInsert.step at hs
      simp only at hs
      split_ifs at hs with hrest
      obtain ⟨p,hp,rfl⟩ := Option.map_eq_some_iff.mp hs
      exact h.startCall hrest hp

end

theorem inv_empty (size : ℕ) : Inv size .empty := by
  refine ⟨⟨⟨Nat.one_pos,fun _ hb => absurd rfl hb,fun _ _ hb => absurd rfl hb,fun _ hb => absurd rfl hb,?_,
    fun _ => List.nodup_nil,nofun,nofun,nofun,nofun⟩,⟨fun _ hx => absurd rfl hx,nofun,nofun,nofun,?_,nofun,
      fun _ _ _ _ _ _ hx => absurd rfl hx.1.1⟩⟩,
    ⟨by decide,nofun,nofun,nofun,nofun,nofun,fun _ => below_nil,nofun⟩,
    ⟨fun _ _ hk => hk.elim,fun _ _ _ hk => hk.elim,fun _ => trivial⟩,nofun⟩
  · rintro n (⟨t,ht⟩ | ⟨t,L,hL,_⟩)
    · cases ht
    · cases hL
  · intro t u L K x y _ hL
    cases hL

/-- The invariant holds in every state that a guarded run reaches. -/
theorem reachable_inv (hs : Reachable (machine size) (casGuard size) s) : Inv size s := by
  refine hs.invariant ?_ ?_
  · rintro s rfl
    exact inv_empty size
  · intro s label s' h hguard hstep
    exact h.step hguard hstep

end

end FishStore.InsertInvariant
