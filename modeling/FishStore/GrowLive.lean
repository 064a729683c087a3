import FishStore.SplitInvariant
import FishStore.GrowSafety

/-!
# Insertions survive a growth of the index

While no split is in progress the current table leads to every linked key
pointer. A growth whose preparation no session acknowledges inside an insertion
starts from such a table: no insertion runs while it is split, and the new table
leads to every key pointer when the last chunk was split. A session that
acknowledges the preparation in `BlockAllocate`, after its lookups, goes on with
the old table and links key pointers there that the new table does not lead to.
-/

namespace FishStore.GrowLive

open Layout Runs Chains HashIndex EntryInvariant ChainInvariant Grow GrowInvariant SplitTable
open SplitInvariant GrowPhases GrowSafety PhaseInvariant
open InternalInsert (InsertContext firstAddress linkFrom spliceFrom insertStep lookupFrom)
open InsertInvariant (Pending lookOf)
open Phases (callStep startCall Pc SystemState)
open LightEpoch (kMaxNumThreads)
open Function (update update_of_ne update_self)

/-- The key pointer that an insertion has constructed and is linking, and its hash. -/
def building : InternalInsert.Pc → Option (ℕ × KeyHash)
  | .insert ctx _ (.casEntry a i _) => some (kptAddress a i, ctx.hash i)
  | .insert ctx _ (.setPrev a i _) => some (kptAddress a i, ctx.hash i)
  | .insert ctx _ (.loadKpt a i _) => some (kptAddress a i, ctx.hash i)
  | .insert ctx _ (.setKptPrev a i _ _) => some (kptAddress a i, ctx.hash i)
  | .insert ctx _ (.alter a i _ _) => some (kptAddress a i, ctx.hash i)
  | _ => none

/-- The hashes of constructed key pointers can be read from the log. -/
structure Hashes (hashes : ℕ → KeyHash) (st : InternalInsert.State) : Prop where
  linked : ∀ l ∈ st.linked, hashes l.address = l.hash
  built : ∀ t k hash, building (st.pc t) = some (k, hash) → hashes k = hash

section

variable {size t ro : ℕ} {st st' : InternalInsert.State} {hashes : ℕ → KeyHash}

/-- A key pointer that is being linked is one of the thread's own. -/
theorem pending_of_building (h : LiveChains.Inv size st) {k : ℕ} {hash : KeyHash}
    (hb : building (st.pc t)=some (k, hash)) : Pending (st.pc t) k := by
  have hok := h.ok t
  cases hp : st.pc t with
  | insert ctx helpers pc =>
    rw [hp] at hok hb
    cases pc with
    | casEntry a i e | setPrev a i e | loadKpt a i kpt | setKptPrev a i kpt w | alter a i kpt w =>
      cases hb
      exact hok.1.pending rfl
    | _ => cases hb
  | _ =>
    rw [hp] at hb
    cases hb

theorem building_linkFrom (ctx : InsertContext) (helpers : ℕ → InternalInsert.HashBucketCASHelper)
    (a i : ℕ) : building (.insert ctx helpers (linkFrom ctx a i))=none := by
  unfold linkFrom
  split_ifs <;> rfl

theorem building_spliceFrom (ctx : InsertContext) (helpers : ℕ → InternalInsert.HashBucketCASHelper)
    (a i kpt : ℕ) (cas : KptWord) : building (.insert ctx helpers (spliceFrom a i kpt cas)) =
      some (kptAddress a i, ctx.hash i) := by
  unfold spliceFrom
  split_ifs <;> rfl

/-- What a step links is what the thread has built, and what it builds afterwards
it has built before, or has just constructed. -/
theorem insertStep_building (size ro : ℕ) {ctx : InsertContext} {helpers : ℕ → InternalInsert.HashBucketCASHelper}
    {pc : InternalInsert.InsertPc} (hp : st.pc t=.insert ctx helpers pc) :
    (∀ l ∈ (insertStep size t ro st ctx helpers pc).linked, l ∈ st.linked ∨ building (st.pc t)=some (l.address, l.hash)) ∧
    (∀ k hash, building ((insertStep size t ro st ctx helpers pc).pc t)=some (k, hash) →
      building (st.pc t)=some (k, hash) ∨ ∃ a i, pc=.construct a i ∧ k=kptAddress a i ∧ hash=ctx.hash i) ∧
    (insertStep size t ro st ctx helpers pc).beginAddress=st.beginAddress := by
  have hgoto : ∀ (s : InternalInsert.State) p, (s.goto t p).pc t=p := fun s p => update_self _ _ _
  cases pc with
  | lookup i pc =>
    simp only [insertStep]
    split
    · refine ⟨fun l hl => .inl hl,fun k hash hb => ?_,rfl⟩
      rw [hgoto] at hb
      cases hb
    · refine ⟨fun l hl => .inl hl,fun k hash hb => ?_,rfl⟩
      rw [hgoto] at hb
      unfold lookupFrom at hb
      split_ifs at hb <;> cases hb
  | reserve =>
    simp only [insertStep]
    split <;> refine ⟨fun l hl => .inl hl,fun k hash hb => ?_,rfl⟩ <;> rw [hgoto] at hb <;> cases hb
  | newPage page | finish a =>
    refine ⟨fun l hl => .inl hl,fun k hash hb => ?_,rfl⟩
    simp only [insertStep,hgoto] at hb
    cases hb
  | reserved a =>
    simp only [insertStep]
    split_ifs
    · refine ⟨fun l hl => .inl hl,fun k hash hb => ?_,rfl⟩
      rw [hgoto] at hb
      cases hb
    · refine ⟨fun l hl => .inl hl,fun k hash hb => ?_,rfl⟩
      rw [hgoto,building_linkFrom] at hb
      cases hb
  | construct a i =>
    refine ⟨fun l hl => .inl hl,fun k hash hb => ?_,rfl⟩
    simp only [insertStep,hgoto] at hb
    cases hb
    exact .inr ⟨a,i,rfl,rfl,rfl⟩
  | casEntry a i e =>
    rw [hp]
    simp only [insertStep]
    split_ifs
    · refine ⟨fun l hl => ?_,fun k hash hb => ?_,rfl⟩
      · rcases List.mem_cons.mp hl with rfl | hl
        · exact .inr rfl
        · exact .inl hl
      · rw [hgoto,building_linkFrom] at hb
        cases hb
    · refine ⟨fun l hl => .inl hl,fun k hash hb => .inl ?_,rfl⟩
      rw [hgoto] at hb
      exact hb
    · refine ⟨fun l hl => .inl hl,fun k hash hb => .inl ?_,rfl⟩
      rw [hgoto] at hb
      exact hb
  | setPrev a i e | setKptPrev a i kpt w =>
    rw [hp]
    refine ⟨fun l hl => .inl hl,fun k hash hb => .inl ?_,rfl⟩
    simp only [insertStep,hgoto] at hb
    exact hb
  | loadKpt a i kpt =>
    rw [hp]
    refine ⟨fun l hl => .inl hl,fun k hash hb => .inl ?_,rfl⟩
    simp only [insertStep,hgoto] at hb
    rw [building_spliceFrom] at hb
    exact hb
  | alter a i kpt w =>
    rw [hp]
    simp only [insertStep]
    split_ifs
    · refine ⟨fun l hl => ?_,fun k hash hb => ?_,rfl⟩
      · rcases List.mem_cons.mp hl with rfl | hl
        · exact .inr rfl
        · exact .inl hl
      · rw [hgoto,building_linkFrom] at hb
        cases hb
    · refine ⟨fun l hl => .inl hl,fun k hash hb => .inl ?_,rfl⟩
      rw [hgoto,building_spliceFrom] at hb
      exact hb

/-- A step of an insertion or of `FindEntry` keeps the hashes. -/
theorem Hashes.callStep (h : Hashes hashes st) (hinv : LiveChains.Inv size st)
    (hs : InternalInsert.callStep size t ro st (st.pc t)=some st') :
    Hashes (constructed hashes (st.pc t)) st' ∧ st'.beginAddress=st.beginAddress := by
  have hok := hinv.ok t
  have hother := (InsertRuns.callStep_change hs).2.others
  cases hp : st.pc t with
  | insert ctx helpers pc =>
    rw [hp] at hs
    cases hs
    obtain ⟨hlinked,hbuilt,hbegin⟩ := insertStep_building size ro hp
    refine ⟨⟨?_,?_⟩,hbegin⟩
    · intro l hl
      have hold : hashes l.address=l.hash := by
        rcases hlinked l hl with hl | hb
        · exact h.linked l hl
        · exact h.built t _ _ hb
      cases pc with
      | construct a i =>
        -- The key pointer that is constructed is not linked.
        have hne : l.address ≠ kptAddress a i := by
          have hl' : l ∈ st.linked := hl
          rw [hp] at hok
          exact (hinv.fresh t _ (by rw [hp]; exact LiveChains.Linking.pending hok rfl)).2.2 l hl'
        exact (update_of_ne hne _ _).trans hold
      | _ => exact hold
    · intro u k hash hb
      by_cases hut : u=t
      · rw [hut] at hb
        rcases hbuilt k hash hb with hbt | ⟨a,i,rfl,rfl,rfl⟩
        · have hold := h.built t k hash hbt
          cases pc with
          | construct a i =>
            rw [hp] at hbt
            cases hbt
          | _ => exact hold
        · exact update_self _ _ _
      · rw [hother u hut] at hb
        have hold := h.built u k hash hb
        cases pc with
        | construct a i =>
          -- Nor is it one of another thread.
          have hne : k ≠ kptAddress a i := by
            rintro rfl
            rw [hp] at hok
            refine hut (hinv.unique u t _ (pending_of_building hinv hb) ?_)
            rw [hp]
            exact LiveChains.Linking.pending hok rfl
          exact (update_of_ne hne _ _).trans hold
        | _ => exact hold
  | find hash b i =>
    rw [hp] at hs
    simp only [InternalInsert.callStep] at hs
    split at hs <;> cases hs <;> refine ⟨⟨h.linked,fun u k hash hb => ?_⟩,rfl⟩
    all_goals
      by_cases hut : u=t
      · rw [hut] at hb
        change building (update st.pc t _ t)=_ at hb
        rw [update_self] at hb
        cases hb
      · rw [hother u hut] at hb
        exact h.built u k hash hb
  | idle | found hash x =>
    rw [hp] at hs
    cases hs
  | _ =>
    rw [hp] at hok
    exact hok.elim

/-- A thread that is in no step of linking. -/
theorem Hashes.goto {pc : InternalInsert.Pc} (h : Hashes hashes st) (hpc : building pc=none) :
    Hashes hashes (st.goto t pc) := by
  refine ⟨h.linked,fun u k hash hb => ?_⟩
  by_cases hut : u=t
  · rw [hut] at hb
    change building (update st.pc t pc t)=_ at hb
    rw [update_self,hpc] at hb
    cases hb
  · refine h.built u k hash ?_
    rw [←hb]
    exact congrArg building (update_of_ne hut _ _).symm

end

/-- The current table leads to every linked key pointer. -/
def Current (s : State) : Prop :=
  ∃ k, s.current.size = 2 ^ k ∧ LiveChains.Inv (2 ^ k) (s.view s.version)

/-- The next version is an empty table of twice the size, and no chunk was taken. -/
structure Prepared (s : State) : Prop where
  version : s.grow.oldVersion = s.version
  size : s.new.size = s.current.size * 2
  index : s.new.index = .empty
  num : s.grow.numChunks = max (s.current.size / kGrowHashTableChunkSize) 1
  next : s.grow.nextChunk = 0
  done : ∀ c, s.splitDone c = false

/-- The session is about to publish the growth. -/
def publishes : Pc → Bool
  | .publish _ _ => true
  | _ => false

/-- The session has loaded the bounds of its split. -/
def loaded : Option SplitPc → Bool
  | none => false
  | some .load => false
  | some _ => true

/-- What the tables hold in each part of a growth. -/
structure Data (v : UInt32) (s : State) : Prop where
  hashes : Hashes s.hashes s.store
  begin_eq : s.store.beginAddress = firstAddress
  head : firstAddress ≤ s.headAddress
  bounds : ∀ t, loaded (splitOf s t) = true → firstAddress ≤ (s.bounds t).1 ∧ (s.bounds t).2 = firstAddress
  current : s.phases.systemState ≠ progWord v → Current s
  prepared : s.phases.systemState = prepWord v ∨ (∃ t, publishes (s.phases.pc t) = true) → Prepared s
  progress : s.phases.systemState = progWord v → ∃ k, Progress k s

/-- What a step of the phase protocol does to the word. -/
def WordStep (v : UInt32) (p p' : Phases.State) (t : ℕ) : Prop :=
  p'.systemState = p.systemState ∨ (p.systemState.phase = .rest ∧ p'.systemState.phase = .rest) ∨
    (publishes (p.pc t) = true ∧ p'.systemState = prepWord v) ∨
    (p.systemState = prepWord v ∧ p'.systemState = progWord v) ∨
    (p.systemState = progWord v ∧ p'.systemState.phase = .rest ∧ kind (p'.pc t) = .prog)

section

variable {v : UInt32} {p p' : Phases.State} {sw : Prop} {s s' : State} {t u : ℕ}

theorem callStep_word (hc : Control v p sw) (hbase : PhaseInvariant.Inv p)
    (hs : callStep p t true (p.pc t)=some p') : WordStep v p p' t := by
  have hshape := hc.shape t
  generalize hp : p.pc t=pc at hs hshape
  cases Phases.moves_of_callStep hs with
  | move w seen r next hnext hw =>
    rcases hshape.1 with ⟨rfl,rfl⟩ | ⟨rfl,_⟩
    · cases hnext
      exact .inr (.inr (.inr (.inl ⟨hw,rfl⟩)))
    · cases hnext
      refine .inr (.inr (.inr (.inr ⟨hw,rfl,?_⟩)))
      rw [goto_self]
      rfl
  | close next r hrest =>
    rcases hshape with ⟨rfl,rfl⟩ | ⟨rfl,_⟩
    · cases hrest
    · refine .inr (.inl ⟨?_,rfl⟩)
      rw [(hbase.owner t (restWord v) (by rw [hp]; rfl)).1]
      rfl
  | start a version hw =>
    refine .inr (.inl ⟨?_,rfl⟩)
    rw [hw]
  | publish a version q hfirst =>
    obtain ⟨rfl,rfl⟩ := hshape
    cases hfirst
    refine .inr (.inr (.inl ⟨?_,rfl⟩))
    rw [hp]
    rfl
  | _ => exact .inl rfl

theorem word_of_publishes (hc : Control v p sw) (h : publishes (p.pc t)=true) : p.systemState=restWord v := by
  refine (hc.starting t ?_).1
  cases hp : p.pc t with
  | publish a version => rfl
  | _ =>
    rw [hp] at h
    cases h

theorem position_of_loaded {o : Option SplitPc} (h : loaded o=false) : position o=none := by
  rcases o with _ | ⟨_ | _ | _ | _ | _ | _⟩ <;> first | rfl | cases h

/-- The new chains of an empty table. -/
theorem endsAt_empty (q : ℕ) : EndsAt .empty q ⟨.base q,0⟩ := ⟨.refl _,rfl,Nat.zero_le _,fun _ _ _ => rfl⟩

theorem idle_of_inOperation {pc : InternalInsert.Pc} (h : inOperation pc=false) : pc=.idle := by
  cases pc <;> first | rfl | cases h

/-- The split begins: nothing was taken, and no operation runs. -/
theorem Prepared.progress (h : Prepared s) (hcur : Current s) (hstore : s'.store=s.store)
    (htable : s'.table=s.table) (hgrow : s'.grow=s.grow) (hdone : s'.splitDone=s.splitDone)
    (hidle : ∀ u, s.store.pc u=.idle) (hpos : ∀ u, position (splitOf s' u)=none) : ∃ k, Progress k s' := by
  obtain ⟨k,hsize,hinv⟩ := hcur
  have hnew : s'.new=s.new := new_eq htable (by rw [hgrow])
  have hold : s'.old=s.current := by
    unfold State.old State.current
    rw [htable,hgrow,h.version]
  have hview : s'.view s'.grow.oldVersion=s.view s.version := by
    unfold State.view
    rw [hstore,htable,hgrow,h.version]
  refine ⟨k,⟨?_,?_,?_,?_,?_,?_,?_⟩,?_,?_,?_⟩
  · rw [hview]
    exact hinv
  · rw [hstore]
    exact hidle
  · rw [hnew,h.size,hsize,mul_comm]
  · rw [hgrow,h.num,hsize]
  · intro c _ _
    rw [hold,hsize]
  · rw [hnew,h.index]
    exact (LiveChains.inv_empty (2^k)).index
  · intro x
    rw [hnew,h.index]
    exact .inl (Nat.zero_le _)
  · intro j _ _ side
    rw [hnew,h.index]
    exact endsAt_empty _
  · rintro j _ (hd | ⟨u,i,hp,_⟩)
    · rw [hdone,h.done] at hd
      cases hd
    · rw [hpos u] at hp
      cases hp
  · intro u c idx b i dst hu
    have hnone := hpos u
    rw [hu] at hnone
    cases hnone

/-- The growth ends: every chunk was split. -/
theorem all_done (hinv : Inv v s) (hk : kind (s.phases.pc t)=.prog) (hrest : s.phases.systemState.phase=.rest) :
    s.version=s.grow.newVersion ∧ ∀ c, c<s.grow.numChunks → s.splitDone c=true := by
  have hc := hinv.phases.control
  obtain ⟨hsw,hfin⟩ := hc.finished hk hrest
  have hacked : ∀ u, s.phases.pc u ≠ .idle → s.phases.acked u .growInProgress=true := by
    intro u hu
    have hprot := hc.inCall u hu
    have hlt := hc.tracked u hprot
    exact hfin u hlt.1 (by omega) hprot
  refine ⟨hsw,fun c hlt => ?_⟩
  have ht := hacked t fun hidle => by rw [hidle] at hk; cases hk
  have hleft := hinv.split.none_left t (.inr ht)
  refine (hinv.split.chunks.cover c hlt (hlt.trans_le hleft)).resolve_right ?_
  -- Who holds a chunk has not acknowledged its part.
  rintro ⟨u,hu⟩
  have hwork : working (splitOf s u)=true := by
    cases ho : splitOf s u with
    | none =>
      rw [ho] at hu
      cases hu
    | some pc =>
      rw [ho] at hu
      cases pc <;> first | rfl | cases hu
  have hne : s.phases.pc u ≠ .idle := by
    intro hidle
    have hnone : splitOf s u=none := by
      unfold splitOf
      rw [hidle]
    rw [hnone] at hu
    cases hu
  exact absurd ((hinv.split.working u hwork).symm.trans (hacked u hne)) nofun

section

variable (h : Data v s) (hinv : Inv v s)

include h hinv

/-- A step of the phase protocol, other than the initialisation of the new table. -/
theorem Data.phases (hinv' : Inv v s') (hstore : s'.store=s.store) (htable : s'.table=s.table) (hgrow : s'.grow=s.grow)
    (hdone : s'.splitDone=s.splitDone) (hhashes : s'.hashes=s.hashes) (hhead : s'.headAddress=s.headAddress)
    (hbounds : s'.bounds=s.bounds) (hversion : s'.version=s.version ∨ s.phases.systemState=progWord v)
    (hword : WordStep v s.phases s'.phases t) (hpub : ∀ u, publishes (s'.phases.pc u)=true → publishes (s.phases.pc u)=true)
    (hsplit : ∀ u, splitOf s' u=splitOf s u ∨
      loaded (splitOf s' u)=false ∧ position (splitOf s u)=none) : Data v s' := by
  have hc := hinv.phases.control
  have hrest : ∀ {w : SystemState}, w.phase=.rest → w ≠ prepWord v ∧ w ≠ progWord v := by
    intro w hw
    refine ⟨?_,?_⟩ <;> rintro rfl <;> cases hw
  -- As long as no split is in progress the version stays.
  have hcur : s.phases.systemState ≠ progWord v → Current s' := by
    intro hw
    obtain ⟨k,hsize,hk⟩ := h.current hw
    have hv := hversion.resolve_right hw
    refine ⟨k,?_,?_⟩
    · unfold State.current
      rw [htable,hv]
      exact hsize
    · have hview : s'.view s'.version=s.view s.version := by
        unfold State.view
        rw [hstore,htable,hv]
      rw [hview]
      exact hk
  have hprep : s.phases.systemState ≠ progWord v → Prepared s → Prepared s' := by
    intro hw hp
    have hv := hversion.resolve_right hw
    have hnew : s'.new=s.new := new_eq htable (by rw [hgrow])
    have hcurrent : s'.current=s.current := by
      unfold State.current
      rw [htable,hv]
    refine ⟨?_,?_,?_,?_,?_,?_⟩
    · rw [hgrow,hv]
      exact hp.version
    · rw [hnew,hcurrent]
      exact hp.size
    · rw [hnew]
      exact hp.index
    · rw [hgrow,hcurrent]
      exact hp.num
    · rw [hgrow]
      exact hp.next
    · rw [hdone]
      exact hp.done
  refine ⟨?_,?_,?_,?_,?_,?_,?_⟩
  · rw [hhashes,hstore]
    exact h.hashes
  · rw [hstore]
    exact h.begin_eq
  · rw [hhead]
    exact h.head
  · intro u hu
    rw [hbounds]
    rcases hsplit u with heq | ⟨hload,-⟩
    · rw [heq] at hu
      exact h.bounds u hu
    · rw [hload] at hu
      cases hu
  · intro hw'
    rcases hword with heq | ⟨hr,-⟩ | ⟨hp,-⟩ | ⟨-,heq⟩ | ⟨hw,hr,hk⟩
    · exact hcur (by rw [←heq]; exact hw')
    · exact hcur (hrest hr).2
    · exact hcur (by rw [word_of_publishes hc hp]; exact restWord_ne_progWord)
    · exact absurd heq hw'
    · obtain ⟨k,hk'⟩ := h.progress hw
      obtain ⟨hsw,hall⟩ := all_done hinv' hk hr
      rw [hgrow,hdone] at hall
      have hlive := hk'.all_live hall
      refine ⟨k+1,?_,?_⟩
      · have hsize := hk'.newSize
        unfold State.current
        rw [hsw,htable,hgrow,pow_succ']
        exact hsize
      · have hview : s'.view s'.version=s.view s.grow.newVersion := by
          unfold State.view
          rw [hstore,htable,hsw,hgrow]
        rw [hview,pow_succ']
        exact hlive
  · rintro (hw' | ⟨u,hu⟩)
    · rcases hword with heq | ⟨-,hr⟩ | ⟨hp,-⟩ | ⟨-,heq⟩ | ⟨-,hr,-⟩
      · rw [heq] at hw'
        refine hprep ?_ (h.prepared (.inl hw'))
        rw [hw']
        exact progWord_ne_prepWord.symm
      · exact absurd hw' (hrest hr).1
      · refine hprep ?_ (h.prepared (.inr ⟨t,hp⟩))
        rw [word_of_publishes hc hp]
        exact restWord_ne_progWord
      · exact absurd (heq.symm.trans hw') progWord_ne_prepWord
      · exact absurd hw' (hrest hr).1
    · have hu' := hpub u hu
      refine hprep ?_ (h.prepared (.inr ⟨u,hu'⟩))
      rw [word_of_publishes hc hu']
      exact restWord_ne_progWord
  · intro hw'
    rcases hword with heq | ⟨-,hr⟩ | ⟨-,heq⟩ | ⟨hw,-⟩ | ⟨-,hr,-⟩
    · obtain ⟨k,hk⟩ := h.progress (by rw [←heq]; exact hw')
      refine ⟨k,hk.keep hstore htable (by rw [hgrow]) (by rw [hgrow]) hdone (by rw [hgrow]) ?_⟩
      intro u
      rcases hsplit u with heq | ⟨hload,hnone⟩
      · exact .inl heq
      · exact .inr ⟨position_of_loaded hload,hnone⟩
    · exact absurd hw' (hrest hr).2
    · exact absurd (hw'.symm.trans heq) progWord_ne_prepWord
    · have hne : s.phases.systemState ≠ progWord v := by
        rw [hw]
        exact progWord_ne_prepWord.symm
      refine (h.prepared (.inl hw)).progress (h.current hne) hstore htable hgrow hdone ?_ ?_
      · intro u
        have hno := hinv'.no_operation (t := u) hw'
        rw [hstore] at hno
        exact idle_of_inOperation hno
      · -- During the preparation nobody splits.
        intro u
        have hnone : splitOf s u=none := splitOf_eq_none (hc.early hw u).1
        rcases hsplit u with heq | ⟨hload,-⟩
        · rw [heq,hnone]
          rfl
        · exact position_of_loaded hload
    · exact absurd hw' (hrest hr).2

/-- `GrowIndex` initialises the next version. -/
theorem Data.initializeGrow {a : Phases.Action} {version : UInt32} {idx : ℕ} (hp : s.phases.pc t=.reset a version idx)
    (hs : callStep s.phases t true (s.phases.pc t)=some p') :
    Data v { s with phases := p' }.initializeGrow := by
  have hk : kind (s.phases.pc t)=.starting := by
    rw [hp]
    rfl
  obtain ⟨hw,hothers,-,-⟩ := hinv.phases.control.starting t hk
  have hw' : p'.systemState=restWord v := by
    rw [hp] at hs
    cases hs
    exact hw
  have hsplit : ∀ u, splitOf { s with phases := p' }.initializeGrow u=none := by
    intro u
    by_cases hut : u=t
    · rw [hp] at hs
      cases hs
      refine splitOf_eq_none ?_
      rw [hut]
      change kind (((_ : Phases.State).goto t _).pc t) ≠ .prog
      rw [goto_self]
      split_ifs <;> rintro ⟨⟩
    · refine splitOf_eq_none ?_
      change kind (p'.pc u) ≠ .prog
      rw [PhaseInvariant.callStep_other hs hut,hothers u hut]
      rintro ⟨⟩
  have hne : s.version ≠ !s.version := by cases s.version <;> rintro ⟨⟩
  have hcurrent : ({ s with phases := p' }.initializeGrow).current=s.current := update_of_ne hne _ _
  have hnew : ({ s with phases := p' }.initializeGrow).new =
      ⟨s.current.size*2,.empty,true,(s.table (!s.version)).generation+1⟩ := update_self _ _ _
  refine ⟨h.hashes,h.begin_eq,h.head,?_,?_,?_,?_⟩
  · intro u hu
    rw [hsplit u] at hu
    cases hu
  · intro _
    obtain ⟨k,hsize,hlive⟩ := h.current (by rw [hw]; exact restWord_ne_progWord)
    refine ⟨k,by rw [hcurrent]; exact hsize,?_⟩
    have hview : ({ s with phases := p' }.initializeGrow).view s.version=s.view s.version := by
      change ({ s.store with index := ({ s with phases := p' }.initializeGrow).current.index } : InternalInsert.State)=_
      rw [hcurrent]
      rfl
    exact hview ▸ hlive
  · intro _
    refine ⟨rfl,?_,?_,?_,rfl,fun _ => rfl⟩
    · rw [hnew,hcurrent]
    · rw [hnew]
    · rw [hcurrent]
      rfl
  · intro hprog
    exact absurd (hw'.symm.trans hprog) restWord_ne_progWord

omit h hinv in
/-- A step that writes the store and the buckets of the current table. -/
theorem Data.store (h : Data v s) (hw : s.phases.systemState ≠ progWord v) (hphases : s'.phases=s.phases)
    (hversion : s'.version=s.version) (hgrow : s'.grow=s.grow) (hsplit : s'.split=s.split)
    (hdone : s'.splitDone=s.splitDone) (hhead : s'.headAddress=s.headAddress) (hbounds : s'.bounds=s.bounds)
    (hsize : ∀ x, (s'.table x).size=(s.table x).size) (htable : ∀ x, x ≠ s.version → s'.table x=s.table x)
    (hstep : ∀ k, LiveChains.Inv (2^k) (s.view s.version) → s.current.size=2^k →
      LiveChains.Inv (2^k) (s'.view s.version) ∧ Hashes s'.hashes s'.store ∧
        s'.store.beginAddress=s.store.beginAddress) : Data v s' := by
  obtain ⟨k,hk,hinv⟩ := h.current hw
  obtain ⟨hlive,hhash,hbegin⟩ := hstep k hinv hk
  have hcurrent : s'.current.size=s.current.size := by
    unfold State.current
    rw [hversion,hsize]
  have hsplitOf : ∀ u, splitOf s' u=splitOf s u := by
    intro u
    unfold splitOf
    rw [hphases,hsplit]
  refine ⟨hhash,?_,?_,?_,?_,?_,?_⟩
  · rw [hbegin]
    exact h.begin_eq
  · rw [hhead]
    exact h.head
  · intro u
    rw [hsplitOf,hbounds]
    exact h.bounds u
  · intro _
    refine ⟨k,by rw [hcurrent]; exact hk,?_⟩
    rw [hversion]
    exact hlive
  · rw [hphases]
    intro hp
    obtain ⟨hpv,hpsize,hpindex,hpnum,hpnext,hpdone⟩ := h.prepared hp
    have hne : s.grow.newVersion ≠ s.version := by
      unfold GrowState.newVersion
      rw [hpv]
      cases s.version <;> nofun
    have hnew : s'.new=s.new := by
      unfold State.new
      rw [hgrow]
      exact htable _ hne
    refine ⟨?_,?_,?_,?_,?_,?_⟩
    · rw [hgrow,hversion]
      exact hpv
    · rw [hnew,hcurrent]
      exact hpsize
    · rw [hnew]
      exact hpindex
    · rw [hgrow,hcurrent]
      exact hpnum
    · rw [hgrow]
      exact hpnext
    · rw [hdone]
      exact hpdone
  · rw [hphases]
    exact fun hprog => absurd hprog hw

omit h hinv in
theorem word_of_operation (hinv : Inv v s) (hop : inOperation (s.store.pc t)=true) : s.phases.systemState ≠ progWord v := by
  intro hw
  exact absurd ((hinv.no_operation hw).symm.trans hop) nofun

/-- A step of an operation. -/
theorem Data.opStep {ro : ℕ} (hs : opStep s t ro=some s') : Data v s' := by
  obtain ⟨hop,hcase⟩ := opStep_cases hs
  have hw := word_of_operation hinv hop
  have hheld : (s.held t).1=s.version := congrArg Prod.fst (hinv.op.held t hop)
  rcases hcase with ⟨hash,x,hp,rfl⟩ | ⟨st,hst,rfl⟩
  · refine h.store hw rfl rfl rfl rfl rfl rfl rfl (fun _ => rfl) (fun _ _ => rfl) ?_
    intro k hlive _
    refine ⟨hlive.quiet ?_ starting_none (fun _ hk => hk.elim) trivial,h.hashes.goto rfl,rfl⟩
    change lookOf _ (s.store.pc t)=none
    rw [hp]
    rfl
  · rw [hheld] at hst ⊢
    refine h.store hw rfl rfl rfl rfl rfl rfl rfl (fun x => (setIndex_table _ _ _ x).1) (fun x hx => update_of_ne hx _ _) ?_
    intro k hlive hsize
    change InternalInsert.callStep s.current.size t ro (s.view s.version) ((s.view s.version).pc t) = some st at hst
    rw [hsize] at hst
    have hview : Hashes s.hashes (s.view s.version) := ⟨h.hashes.linked,h.hashes.built⟩
    obtain ⟨hhash,hbegin⟩ := hview.callStep hlive hst
    have heq : ({ s with store := st, hashes := constructed s.hashes (s.store.pc t) }.setIndex
        s.version st.index).view s.version=st := by
      change ({ st with index := (update s.table s.version _ s.version).index } : InternalInsert.State)=st
      rw [update_self]
    rw [heq]
    exact ⟨hlive.callStep hst,hhash,hbegin⟩

omit h hinv in
/-- An insertion or a lookup begins. -/
theorem Data.begin {act : InternalInsert.Act} (h : Data v s) (hinv' : Inv v s')
    (hact : (∃ ctx, act=.internalInsert ctx) ∨ ∃ hash, act=.findEntry hash) (hs : begin s t act=some s') : Data v s' := by
  unfold Grow.begin at hs
  obtain ⟨⟨-,-,hno,-⟩,hs⟩ := Option.ite_none_right_eq_some.mp hs
  obtain ⟨pc,hpc,rfl⟩ := Option.map_eq_some_iff.mp hs
  have hidle := idle_of_inOperation hno
  have hop : inOperation pc=true := by rcases hact with ⟨ctx,rfl⟩ | ⟨hash,rfl⟩ <;> cases hpc <;> rfl
  have hop' : inOperation (update s.store.pc t pc t)=true := by
    rw [update_self]
    exact hop
  have hw := word_of_operation (t := t) hinv' hop'
  refine h.store hw rfl rfl rfl rfl rfl rfl rfl (fun _ => rfl) (fun _ _ => rfl) ?_
  intro k hlive hsize
  rcases hact with ⟨ctx,rfl⟩ | ⟨hash,rfl⟩
  · cases hpc
    refine ⟨?_,h.hashes.goto ?_,rfl⟩
    · rw [hsize]
      exact hlive.internalInsert hidle _
    · unfold lookupFrom
      split_ifs <;> rfl
  · cases hpc
    refine ⟨hlive.quiet ?_ starting_none (fun _ hk => hk.elim) trivial,h.hashes.goto rfl,rfl⟩
    change lookOf _ (s.store.pc t)=none
    rw [hidle]
    rfl

/-- A session that splits leaves everything but the tables. -/
theorem Data.split {l : Option Phases.Loop} {pc : SplitPc} (hl : s.phases.pc t=.split l) (hphases : s'.phases=s.phases)
    (hsplit : s'.split=update s.split t pc) (hstore : s'.store=s.store) (hhashes : s'.hashes=s.hashes)
    (hhead : s'.headAddress=s.headAddress) (hbounds : ∀ u, u ≠ t → s'.bounds u=s.bounds u)
    (hself : loaded (some pc)=true → firstAddress≤(s'.bounds t).1 ∧ (s'.bounds t).2=firstAddress)
    (hcur : s.phases.systemState ≠ progWord v → s'.version=s.version ∧ s'.table=s.table)
    (hprog : s.phases.systemState=progWord v → ∃ k, Progress k s') : Data v s' := by
  have hk : kind (s.phases.pc t)=.prog := by
    rw [hl]
    rfl
  have hc := hinv.phases.control
  refine ⟨?_,?_,?_,?_,?_,?_,?_⟩
  · rw [hhashes,hstore]
    exact h.hashes
  · rw [hstore]
    exact h.begin_eq
  · rw [hhead]
    exact h.head
  · intro u hu
    by_cases hut : u=t
    · rw [hut] at hu ⊢
      rw [splitOf_self hl hphases hsplit] at hu
      exact hself hu
    · rw [splitOf_of_ne hphases hsplit hut] at hu
      rw [hbounds u hut]
      exact h.bounds u hu
  · rw [hphases]
    intro hw
    obtain ⟨hv,ht⟩ := hcur hw
    obtain ⟨k,hsize,hlive⟩ := h.current hw
    refine ⟨k,?_,?_⟩
    · unfold State.current
      rw [hv,ht]
      exact hsize
    · unfold State.view
      rw [hv,ht,hstore]
      exact hlive
  · -- Before the word is in progress nobody splits.
    rw [hphases]
    rintro (hw | ⟨u,hu⟩)
    · exact absurd hk (hc.early hw t).1
    · have hw := word_of_publishes hc hu
      have hstart : kind (s.phases.pc u)=.starting := by
        cases hp : s.phases.pc u with
        | publish a version => rfl
        | _ =>
          rw [hp] at hu
          cases hu
      have htu : t ≠ u := by
        rintro rfl
        exact absurd (hk.symm.trans hstart) nofun
      exact absurd (((hc.starting u hstart).2.1 t htu).symm.trans hk) nofun
  · rw [hphases]
    exact hprog

/-- A step of `SplitHashTableBuckets`. -/
theorem Data.splitStep {l : Option Phases.Loop} (hl : s.phases.pc t=.split l) : Data v (splitStep s t (s.split t)) := by
  have hof := splitOf_of_split hl
  have hkeep : loaded (some (s.split t))=true → firstAddress≤(s.bounds t).1 ∧ (s.bounds t).2=firstAddress := by
    intro hload
    rw [←hof] at hload
    exact h.bounds t hload
  have hworking : working (some (s.split t))=true → s.phases.systemState=progWord v := by
    intro hwork
    rw [←hof] at hwork
    exact hinv.word_of_working hwork
  cases hpc : s.split t with
  | load =>
    refine h.split hinv hl rfl rfl rfl rfl rfl ?_ ?_ (fun _ => ⟨rfl,rfl⟩) ?_
    · exact fun u hu => update_of_ne hu _ _
    · intro _
      change firstAddress≤(update s.bounds t _ t).1 ∧ (update s.bounds t _ t).2=_
      rw [update_self]
      exact ⟨h.head,h.begin_eq⟩
    · intro hw
      obtain ⟨k,hk⟩ := h.progress hw
      refine ⟨k,hk.goto hl rfl rfl rfl rfl rfl rfl rfl le_rfl ?_ rfl⟩
      rw [hpc]
      rfl
  | fetch =>
    have hload := hkeep (by rw [hpc]; rfl)
    refine h.split hinv hl rfl rfl rfl rfl rfl (fun _ _ => rfl) (fun _ => hload) (fun _ => ⟨rfl,rfl⟩) ?_
    intro hw
    obtain ⟨k,hk⟩ := h.progress hw
    refine ⟨k,?_⟩
    simp only [Grow.splitStep]
    split_ifs with hlt
    · exact hk.take hl hinv.split hlt
    · refine hk.goto hl rfl rfl rfl rfl rfl rfl rfl (Nat.le_succ _) ?_ rfl
      rw [hpc]
      rfl
  | entry chunk idx b i dst =>
    have hload := hkeep (by rw [hpc]; rfl)
    have hw := hworking (by rw [hpc]; rfl)
    obtain ⟨k,hk⟩ := h.progress hw
    simp only [Grow.splitStep]
    split_ifs with hi
    · exact h.split hinv hl rfl rfl rfl rfl rfl (fun _ _ => rfl) (fun _ => hload) (fun hne => absurd hw hne)
        fun _ => ⟨k,hk.splitEntry hl hinv.split hpc hi h.hashes.linked hload.1 hload.2⟩
    · cases hnext : s.old.index.next b with
      | some c =>
        exact h.split hinv hl rfl rfl rfl rfl rfl (fun _ _ => rfl) (fun _ => hload)
          (fun _ => ⟨rfl,rfl⟩) fun _ => ⟨k,hk.hop hl hpc hi hnext⟩
      | none =>
        exact h.split hinv hl rfl rfl rfl rfl rfl (fun _ _ => rfl) (fun _ => hload)
          (fun _ => ⟨rfl,rfl⟩) fun _ => ⟨k,hk.next hl hinv.split hpc hi hnext⟩
  | finish chunk =>
    have hload := hkeep (by rw [hpc]; rfl)
    have hw := hworking (by rw [hpc]; rfl)
    obtain ⟨k,hk⟩ := h.progress hw
    refine h.split hinv hl rfl rfl rfl rfl rfl (fun _ _ => rfl) (fun _ => hload) (fun _ => ⟨rfl,rfl⟩)
      fun _ => ⟨k,hk.finish hl hpc ?_ _⟩
    split_ifs <;> rfl
  | free =>
    have hload := hkeep (by rw [hpc]; rfl)
    have hw := hworking (by rw [hpc]; rfl)
    obtain ⟨k,hk⟩ := h.progress hw
    exact h.split hinv hl rfl rfl rfl rfl rfl (fun _ _ => rfl) (fun _ => hload)
      (fun hne => absurd hw hne) fun _ => ⟨k,hk.free hl hinv.split hpc⟩
  | done => exact h

omit h hinv in
theorem publishes_afterSplit (l : Option Phases.Loop) : publishes (Phases.afterSplit l)=false := by cases l <;> rfl

omit h hinv in
theorem publishes_afterMove (r : Phases.Return) : publishes (Phases.afterMove r)=false := by
  rcases r with _ | l
  · rfl
  · exact publishes_afterSplit l

omit h hinv in
/-- A session comes to publish when it has initialised the next version. -/
theorem callStep_publishes (hs : callStep p t true (p.pc t)=some p') (hp : publishes (p'.pc t)=true) :
    (∃ a version idx, p.pc t=.reset a version idx ∧ ¬idx<kMaxNumThreads) := by
  generalize hpc : p.pc t=pc at hs ⊢
  cases Phases.moves_of_callStep hs with
  | reset a version idx =>
    rw [goto_self] at hp
    split_ifs at hp with hlt
    · cases hp
    · exact ⟨a,version,idx,rfl,hlt⟩
  | iterate final prev cur =>
    rw [goto_self] at hp
    generalize (Phases.phaseWork cur prev _ true (p.ctx t)).1=work at hp
    cases work <;> cases hp
  | publish a =>
    rw [goto_self] at hp
    cases a <;> cases hp
  | refuse w idx e r =>
    rw [goto_self] at hp
    cases r <;> cases hp
  | spin =>
    rw [hpc] at hp
    cases hp
  | leaveSpin =>
    rw [goto_self,publishes_afterSplit] at hp
    cases hp
  | _ =>
    rw [goto_self] at hp
    first
    | cases hp
    | rw [publishes_afterMove] at hp
      cases hp
    | unfold Phases.scanFrom at hp
      split_ifs at hp <;> cases hp
    | split_ifs at hp <;> cases hp

/-- A step of the phase protocol. -/
theorem Data.phaseStep (hinv' : Inv v s') (hend : ∀ l, s.phases.pc t=.split l → s.split t=.done)
    (hs : phaseStep s t=some s') : Data v s' := by
  by_cases hinit : ∃ a version idx, s.phases.pc t=.reset a version idx ∧ ¬idx<kMaxNumThreads
  · obtain ⟨a,version,idx,hp,hlt⟩ := hinit
    obtain ⟨p',hp',rfl⟩ := Option.map_eq_some_iff.mp hs
    have hdata := h.initializeGrow hinv hp hp'
    simp only [hp,if_neg hlt]
    exact hdata
  obtain ⟨p',hp',hcase⟩ := phaseStep_cases hs
  have hc := hinv.phases.control
  have hword := callStep_word hc hinv.phases.base hp'
  have hold : position (splitOf s t)=none := by rcases splitOf_of_ended hend with ho | ho <;> rw [ho] <;> rfl
  have hother : ∀ {u}, u ≠ t → p'.pc u=s.phases.pc u := PhaseInvariant.callStep_other hp'
  have hload : ∀ {o : Option SplitPc}, o=none ∨ o=some .load → loaded o=false := by rintro o (rfl | rfl) <;> rfl
  have hpub : ∀ u, publishes (p'.pc u)=true → publishes (s.phases.pc u)=true := by
    intro u hu
    by_cases hut : u=t
    · rw [hut] at hu
      exact absurd (callStep_publishes hp' hu) hinit
    · rw [hother hut] at hu
      exact hu
  rcases hcase with ⟨a,version,idx,hp,hlt,-⟩ | ⟨hk,hit,rfl⟩ | ⟨-,⟨-,rfl⟩ | ⟨hit,rfl⟩⟩
  · exact absurd ⟨a,version,idx,hp,hlt⟩ hinit
  · refine h.phases hinv hinv' rfl rfl rfl rfl rfl rfl rfl (.inr (hc.switching t hk).1) hword hpub fun u => ?_
    by_cases hut : u=t
    · rw [hut]
      exact .inr ⟨hload (splitOf_phases hp' rfl (by rw [hit]; nofun)).1,hold⟩
    · exact .inl (splitOf_other (hother hut) rfl)
  · refine h.phases hinv hinv' rfl rfl rfl rfl rfl rfl rfl (.inl rfl) hword hpub fun u => ?_
    by_cases hut : u=t
    · rw [hut]
      exact .inr ⟨hload (splitOf_phases hp' rfl fun _ => update_self _ _ _).1,hold⟩
    · exact .inl (splitOf_other (hother hut) (update_of_ne hut _ _))
  · refine h.phases hinv hinv' rfl rfl rfl rfl rfl rfl rfl (.inl rfl) hword hpub fun u => ?_
    by_cases hut : u=t
    · rw [hut]
      exact .inr ⟨hload (splitOf_phases hp' rfl (by rw [hit]; nofun)).1,hold⟩
    · exact .inl (splitOf_other (hother hut) rfl)

/-- A session calls a function of the phase protocol. -/
theorem Data.startCall {act : Phases.Act} {split : ℕ → SplitPc} (hinv' : Inv v { s with phases := p', split := split })
    (hidle : s.phases.pc t=.idle) (hsession : act ≠ .startSession)
    (hsplit : ∀ u, u ≠ t → split u=s.split u) (hload : act=.heavyEnter → split t=.load)
    (hs : startCall s.phases t act=some p') : Data v { s with phases := p', split := split } := by
  obtain ⟨hword,-,-,-,-⟩ := startCall_cases hidle hsession hs
  have hother : ∀ {u}, u ≠ t → p'.pc u=s.phases.pc u := PhaseInvariant.startCall_other hs
  refine h.phases (t := t) hinv hinv' rfl rfl rfl rfl rfl rfl rfl (.inl rfl) (.inl hword) ?_ ?_
  · intro u hu
    by_cases hut : u=t
    · -- No call begins by publishing.
      rw [hut] at hu
      change publishes (p'.pc t)=true at hu
      cases act with
      | startSession => exact absurd rfl hsession
      | step => cases hs
      | stopSession =>
        simp only [Phases.startCall] at hs
        split_ifs at hs
        cases hs
        rw [hut]
        exact hu
      | heavyEnter =>
        simp only [Phases.startCall] at hs
        split_ifs at hs
        cases hs
        rw [goto_self] at hu
        cases hphase : (s.phases.ctx t).phase <;> rw [hphase] at hu <;> cases hu
      | _ =>
        simp only [Phases.startCall] at hs
        split_ifs at hs
        cases hs
        rw [goto_self] at hu
        cases hu
    · rw [←hother hut]
      exact hu
  · intro u
    by_cases hut : u=t
    · rw [hut]
      refine .inr ⟨?_,?_⟩
      · rcases splitOf_startCall hidle hsession hload hs with ho | ho <;> rw [ho] <;> rfl
      · unfold splitOf
        rw [hidle]
        rfl
    · exact .inl (splitOf_other (hother hut) (hsplit u hut))

/-- A step of a session. -/
theorem Data.threadStep {act : Act} (hinv' : Inv v s') (hs : threadStep s t act=some s') : Data v s' := by
  cases threadStep_cases hs with
  | call a p' idle session heavy start stop hcall =>
    exact h.startCall hinv hinv' idle session (fun _ _ => rfl) (fun hact => absurd hact heavy) hcall
  | heavyEnter p' idle op hcall =>
    refine h.startCall hinv hinv' idle ?_ ?_ (fun _ => update_self _ _ _) hcall
    · nofun
    · exact fun u hu => update_of_ne hu _ _
  | begin a op hcall => exact h.begin hinv' op hcall
  | op ro idle hcall => exact h.opStep hinv hcall
  | split ro l hl => exact h.splitStep hinv hl
  | phase ro hend hcall => exact h.phaseStep hinv hinv' hend hcall

theorem Data.step {label : Label} (hinv' : Inv v s') (hs : step s label=some s') : Data v s' := by
  cases label with
  | thread t act =>
    obtain ⟨-,hs⟩ := Option.ite_none_right_eq_some.mp hs
    exact h.threadStep hinv hinv' hs
  | shiftHead address =>
    obtain ⟨hle,rfl⟩ := of_guard hs
    refine ⟨h.hashes,h.begin_eq,h.head.trans hle,h.bounds,h.current,?_,?_⟩
    · intro hp
      obtain ⟨hpv,hpsize,hpindex,hpnum,hpnext,hpdone⟩ := h.prepared hp
      exact ⟨hpv,hpsize,hpindex,hpnum,hpnext,hpdone⟩
    · intro hw
      obtain ⟨k,hk⟩ := h.progress hw
      exact ⟨k,hk.keep (s := s) rfl rfl rfl rfl rfl le_rfl fun _ => .inl rfl⟩

end

theorem Data.of_initial (v : UInt32) (h : Initial s) : Data v s := by
  obtain ⟨⟨w,hword,hctx⟩,hidle,hstarted,hacked,htracked,hgrow,hdone,⟨k,g,htable⟩,hstore, hhead⟩ := h
  have hsplit : ∀ u, splitOf s u=none := by
    intro u
    unfold splitOf
    rw [hidle u]
  refine ⟨?_,?_,?_,?_,?_,?_,?_⟩
  · rw [hstore]
    exact ⟨nofun,nofun⟩
  · rw [hstore]
    rfl
  · rw [hhead]
  · intro u hu
    rw [hsplit u] at hu
    cases hu
  · intro _
    refine ⟨k,by rw [htable],?_⟩
    have hview : s.view s.version=.empty := by
      change ({ s.store with index := s.current.index } : InternalInsert.State)=_
      rw [hstore,htable]
      rfl
    rw [hview]
    exact LiveChains.inv_empty _
  · rintro (hw | ⟨u,hu⟩)
    · rw [hword] at hw
      cases hw
    · rw [hidle u] at hu
      cases hu
  · intro hw
    rw [hword] at hw
    cases hw

/-- The index grows once: when a growth starts, none has started before. -/
def growsOnce : Guard State Label := fun s label => ∀ t ro a version,
  label = .thread t (.step ro) → s.phases.pc t = .startSwap a version →
    s.phases.systemState = ⟨.none, .rest, version⟩ → s.phases.started = 0

/-- The index grows once, and no session acknowledges the preparation inside an
operation. -/
def growsOutside : Guard State Label := fun s label => growsOnce s label ∧ preparesOutside s label

theorem startsQuietly_of_growsOnce {label : Label} (hinv : Inv v s) (h : growsOnce s label) : startsQuietly s label := by
  intro t ro a version hlabel hp hw u
  obtain ⟨hk,hctx⟩ := (hinv.phases.control.fresh (h t ro a version hlabel hp hw)).2 u
  refine ⟨GrowPhases.kind_eq_out.mp hk,?_⟩
  rw [hctx]

theorem reachable_data (hs : Reachable machine growsOutside s) : ∃ v, Inv v s ∧ Data v s := by
  refine hs.invariant (P := fun s => ∃ v, Inv v s ∧ Data v s) ?_ ?_
  · intro s hi
    obtain ⟨v,hinv⟩ := Inv.of_initial hi
    exact ⟨v,hinv,.of_initial v hi⟩
  · rintro s label s' ⟨v,hinv,hdata⟩ ⟨honce,hprep⟩ hstep
    have hinv' := hinv.step (startsQuietly_of_growsOnce hinv honce) hprep hstep
    exact ⟨v,hinv',hdata.step hinv hinv' hstep⟩

/-- Every key pointer of an insertion that has returned is reachable, when no growth
is in progress, from the entry that `FindEntry` returns in the current table; and
while an operation runs, nobody splits buckets or frees a table, and the operation
works on the current table. -/
theorem internalInsert_survives_grow (hs : Reachable machine growsOutside s) :
    (s.phases.systemState.phase = .rest → ∀ r ∈ s.store.completed, ∀ i, i < r.2.kpts.length →
      ∃ fuel x, findEntry s.current.size s.current.index (r.2.hash i) fuel = some (some x) ∧
        Visits kInvalidAddress (prevOf s.store.kpts) (s.current.index.entries x).address
          (kptAddress r.1 i)) ∧
    ∀ t, inOperation (s.store.pc t) = true → s.held t = (s.version, s.current.generation) ∧
      ∀ u, working (splitOf s u) = false := by
  obtain ⟨v,hinv,hdata⟩ := reachable_data hs
  refine ⟨fun hrest r hr i hi => ?_,fun t hop => ⟨hinv.op.held t hop,fun u => ?_⟩⟩
  · have hw : s.phases.systemState ≠ progWord v := by
      intro hw
      rw [hw] at hrest
      cases hrest
    obtain ⟨k,hsize,hlive⟩ := hdata.current hw
    obtain ⟨fuel,x,hf,hv⟩ := hlive.findEntry_visits hr hi
    rw [←hsize] at hf
    exact ⟨fuel,x,hf,hv⟩
  · by_contra hwork
    exact word_of_operation hinv hop (hinv.word_of_working (t := u) (by simpa using hwork))

/-- A check of the guard for one growth. -/
def onceCheck (s : State) : Label → Bool
  | .thread t (.step _) =>
    match s.phases.pc t with
    | .startSwap _ _ => decide (s.phases.started = 0)
    | .ack _ _ => !inOperation (s.store.pc t)
    | _ => true
  | _ => true

theorem growsOutside_of_check (s : State) (label : Label) (h : onceCheck s label=true) : growsOutside s label := by
  refine ⟨?_,?_⟩
  · rintro t ro a version rfl hp _
    simpa [onceCheck,hp] using h
  · rintro t ro w r rfl hp _
    simpa [onceCheck,hp] using h

/-- The record of one key pointer with tag 5, and one that fills the first page. -/
def small : InsertContext := ⟨[⟨5 * 2 ^ 48⟩], 1, 1000, 0, by decide, by decide⟩

def large : InsertContext := ⟨[⟨0⟩], 1, 33554000, 0, by decide, by decide⟩

/-- Thread 1 inserts a record; then the index grows, and both threads split. -/
def insertAndGrow : List Label :=
  call 1 (.internalInsert small) 24 ++ prepared ++ call 1 .refresh 22 ++ call 2 .refresh 203

/-- The record is found in the new table. -/
theorem internalInsert_survives_grow_one : ∃ s, Reachable machine growsOutside s ∧
    s.phases.started = 1 ∧ s.phases.systemState.phase = .rest ∧ s.current.size = 2 ∧
    ∃ r ∈ s.store.completed, 0 < r.2.kpts.length ∧
      ∃ fuel x, findEntry s.current.size s.current.index (r.2.hash 0) fuel = some (some x) ∧
        Visits kInvalidAddress (prevOf s.store.kpts) (s.current.index.entries x).address
          (kptAddress r.1 0) := by
  have hrun : (execGuarded machine onceCheck (store [1,2]) insertAndGrow).any (fun s =>
      decide (s.phases.started=1) && decide (s.phases.systemState.phase=.rest) &&
        decide (s.current.size=2) && s.store.completed.any fun r => decide (0<r.2.kpts.length)) =
        true := by
    decide +kernel
  obtain ⟨s,hr,hp⟩ := exists_run_of_execGuarded growsOutside_of_check hrun
  simp only [Bool.and_eq_true,decide_eq_true_eq,List.any_eq_true] at hp
  obtain ⟨⟨⟨hstarted,hrest⟩,hsize⟩,r,hr',hlen⟩ := hp
  have hs : Reachable machine growsOutside s := ⟨_,store_initial (by decide),hr⟩
  exact ⟨s,hs,hstarted,hrest,hsize,r,hr',hlen,
    (internalInsert_survives_grow hs).1 hrest r hr' 0 hlen⟩

/-- Thread 2 looks up its entry and finds the page full. Thread 1 calls `GrowIndex`,
thread 2 refreshes in `BlockAllocate` and acknowledges the preparation as the last
one, and thread 1 splits the bucket. Thread 2 links its key pointer in the old table
and returns, splits and ends the growth. -/
def insertInGrow : List Label :=
  call 1 (.internalInsert large) 24 ++ call 2 (.internalInsert small) 20 ++ prepared ++
  call 1 .refresh 22 ++ List.replicate 6 (.thread 2 (.step 0)) ++ call 2 .refresh 203

/-- `FindEntry` returns an entry of the first key pointer's hash whose chain is empty. -/
def chainEmpty (s : State) (r : ℕ × InsertContext) : Bool :=
  match findEntry s.current.size s.current.index (r.2.hash 0) 16 with
  | some (some x) => decide ((s.current.index.entries x).address = kInvalidAddress ∧
      kptAddress r.1 0 ≠ kInvalidAddress)
  | _ => false

/-- The entry that `FindEntry` returns in the new table does not lead to the key
pointer. -/
theorem internalInsert_lost_in_grow : ∃ s, Reachable machine anyStep s ∧ s.phases.started = 1 ∧
    s.phases.systemState = ⟨.none, .rest, 1⟩ ∧ ∃ r ∈ s.store.completed, 0 < r.2.kpts.length ∧
      ∃ x, findEntry s.current.size s.current.index (r.2.hash 0) 16 = some (some x) ∧
        ¬Visits kInvalidAddress (prevOf s.store.kpts) (s.current.index.entries x).address
          (kptAddress r.1 0) := by
  have hrun : (exec machine (store [1,2]) insertInGrow).any (fun s =>
      decide (s.phases.started=1) && decide (s.phases.systemState=⟨.none,.rest,1⟩) &&
        s.store.completed.any fun r => decide (0<r.2.kpts.length) && chainEmpty s r)=true := by
    decide +kernel
  obtain ⟨s,hr,hp⟩ := exists_run_of_exec hrun
  simp only [Bool.and_eq_true,decide_eq_true_eq,List.any_eq_true] at hp
  obtain ⟨⟨hstarted,hword⟩,r,hr',hlen,hfind⟩ := hp
  unfold chainEmpty at hfind
  split at hfind
  · next x hx =>
    obtain ⟨haddr,hne⟩ := of_decide_eq_true hfind
    refine ⟨s,⟨_,store_initial (by decide),hr⟩,hstarted,hword,r,hr',hlen,x,hx,?_⟩
    rw [haddr]
    exact fun hv => hne (hv.eq_of_le le_rfl)
  · cases hfind

end

end FishStore.GrowLive
