import FishStore.Segments

/-!
# Blocks in empty space

Blocks that do not overlap lie in empty space, and a walk goes from the start of a block to
its end and passes empty space in small steps. Then the walk comes to every position that
is not inside of a block, and to no other one.
-/

namespace FishStore.Tilings

open Segments

/-- A position lies strictly inside of a block. -/
def Inside (block : ℕ → ℕ → Prop) (x : ℕ) : Prop := ∃ s n, block s n ∧ s < x ∧ x < s + n

/-- Blocks of a region, between which a walk makes steps of `d`. -/
structure Tiled (d limit : ℕ) (next : ℕ → ℕ) (block : ℕ → ℕ → Prop) : Prop where
  pos : 0 < d
  /-- A walk goes on. -/
  lt_next : ∀ x, x < next x
  aligned : ∀ s n, block s n → d ∣ s ∧ d ∣ n ∧ 0 < n
  disjoint : ∀ s n s' n', block s n → block s' n' → s < s' → s + n ≤ s'
  /-- From the start of a block the walk goes to its end. -/
  over_block : ∀ s n, block s n → next s = s + n
  /-- Outside of the blocks it makes a small step. -/
  free : ∀ x, x < limit → d ∣ x → (∀ s n, block s n → ¬(s ≤ x ∧ x < s + n)) → next x = x + d

section

variable {d limit x : ℕ} {next : ℕ → ℕ} {block : ℕ → ℕ → Prop}

theorem add_le_of_lt {a b : ℕ} (ha : d ∣ a) (hb : d ∣ b) (h : a<b) : a+d≤b := by
  obtain ⟨i,rfl⟩ := ha
  obtain ⟨j,rfl⟩ := hb
  have hij : i<j := Nat.lt_of_mul_lt_mul_left h
  calc d*i+d=d*(i+1) := (Nat.mul_succ d i).symm
    _≤d*j := Nat.mul_le_mul_left d hij

section

variable (h : Tiled d limit next block)

include h

/-- The next position of a position that is not inside of a block is not inside either. -/
theorem Tiled.next_outside (hx : x<limit) (hd : d ∣ x)
    (hout : ¬ Inside block x) : d ∣ next x ∧ ¬ Inside block (next x) := by
  by_cases hin : ∃ s n, block s n ∧ s≤x ∧ x<s+n
  · obtain ⟨s,n,hb,hle,hlt⟩ := hin
    have hxs : s=x := by
      by_contra hne
      exact hout ⟨s,n,hb,by omega,hlt⟩
    subst hxs
    obtain ⟨hds,hdn,hn⟩ := h.aligned s n hb
    rw [h.over_block s n hb]
    refine ⟨dvd_add hds hdn,?_⟩
    rintro ⟨s',n',hb',hlt',hgt'⟩
    -- The other block begins at, before or behind this one.
    rcases Nat.lt_trichotomy s s' with hs | hs | hs
    · have := h.disjoint s n s' n' hb hb' hs
      omega
    · subst hs
      have heq := (h.over_block s n hb).symm.trans (h.over_block s n' hb')
      omega
    · have := h.disjoint s' n' s n hb' hb hs
      omega
  · have hfree := h.free x hx hd fun s n hb hsx => hin ⟨s,n,hb,hsx⟩
    rw [hfree]
    refine ⟨dvd_add hd (dvd_refl d),?_⟩
    rintro ⟨s,n,hb,hlt,hgt⟩
    obtain ⟨hds,-,-⟩ := h.aligned s n hb
    have hsx : s≤x := by
      by_contra hne
      have := add_le_of_lt hd hds (by omega)
      omega
    exact hin ⟨s,n,hb,hsx,by omega⟩

/-- The walk comes to every position that is not inside of a block. -/
theorem Tiled.leads_of_outside (hx : x≤limit) (hd : d ∣ x) (hout : ¬ Inside block x) : Leads next 0 x := by
  induction x using Nat.strong_induction_on with
  | _ x ih =>
    by_cases hzero : x=0
    · rw [hzero]
      exact .refl 0
    have hdx : d≤x := Nat.le_of_dvd (Nat.pos_of_ne_zero hzero) hd
    have hpos := h.pos
    have hdp : d ∣ x - d := Nat.dvd_sub hd (dvd_refl d)
    by_cases hin : ∃ s n, block s n ∧ s≤x - d ∧ x - d<s+n
    · -- The position before lies in a block, which ends here.
      obtain ⟨s,n,hb,hle,hlt⟩ := hin
      obtain ⟨hds,hdn,hn⟩ := h.aligned s n hb
      have hend : s+n=x := by
        have := add_le_of_lt hdp (dvd_add hds hdn) hlt
        by_contra hne
        exact hout ⟨s,n,hb,by omega,by omega⟩
      have hstart : ¬ Inside block s := by
        rintro ⟨s',n',hb',hlt',hgt'⟩
        have := h.disjoint s' n' s n hb' hb hlt'
        omega
      have hlead := (ih s (by omega) (by omega) hds hstart).tail
      rwa [h.over_block s n hb,hend] at hlead
    · have hbefore : ¬ Inside block (x - d) := by
        rintro ⟨s,n,hb,hlt,hgt⟩
        exact hin ⟨s,n,hb,hlt.le,hgt⟩
      have hfree := h.free (x - d) (by omega) hdp fun s n hb hsx => hin ⟨s,n,hb,hsx⟩
      have hlead := (ih (x - d) (by omega) (by omega) hdp hbefore).tail
      rwa [hfree,Nat.sub_add_cancel hdx] at hlead

/-- What the walk comes to in the region. -/
theorem Tiled.leads_iff (hx : x≤limit) : Leads next 0 x ↔ d ∣ x ∧ ¬ Inside block x := by
  constructor
  · intro hlead
    have hinherit : x≤limit → d ∣ x ∧ ¬ Inside block x := by
      refine hlead.inherit (P := fun y => y≤limit → d ∣ y ∧ ¬ Inside block y) ?_ ?_
      · intro _
        refine ⟨dvd_zero d,?_⟩
        rintro ⟨s,n,-,hlt,-⟩
        omega
      · intro y hy hle
        have hlt : y<limit := (h.lt_next y).trans_le hle
        obtain ⟨hd,hout⟩ := hy hlt.le
        exact h.next_outside hlt hd hout
    exact hinherit hx
  · rintro ⟨hd,hout⟩
    exact h.leads_of_outside hx hd hout

/-- The start of a block is not inside of another one. -/
theorem Tiled.start_outside {s n : ℕ} (hb : block s n) : ¬ Inside block s := by
  rintro ⟨s',n',hb',hlt,hgt⟩
  have := h.disjoint s' n' s n hb' hb hlt
  omega

end

/-- The loop of a walk, which returns when it has come to `stop`. -/
def walk (next : ℕ → ℕ) (stop : ℕ) : ℕ → ℕ → Option (List ℕ)
  | 0, _ => none
  | fuel + 1, a => if a < stop then (walk next stop fuel (next a)).map (a :: ·) else some []

/-- The loop returns what a walk visits, after at most as many rounds as there are
positions below `stop`. -/
theorem walk_eq (hnext : ∀ x, x<next x) {stop fuel more a : ℕ} (h : stop≤a+fuel) :
    walk next stop (fuel+more+1) a=some (visited next stop fuel a) := by
  induction fuel generalizing a with
  | zero =>
    rw [walk,if_neg (by omega)]
    rfl
  | succ fuel ih =>
    have hlt := hnext a
    have hrest := ih (a := next a) (by omega)
    rw [walk,visited,Nat.succ_add,hrest]
    split_ifs <;> rfl

end

/-- The blocks do not overlap. -/
def Apart (b c : ℕ × ℕ) : Prop := b.1 + b.2 ≤ c.1 ∨ c.1 + c.2 ≤ b.1

instance : Std.Symm Apart := ⟨fun _ _ => Or.symm⟩

/-- Blocks below a limit, each held by a thread or taken. -/
structure Reserved (P : ℕ × ℕ → Prop) (limit : ℕ) (held : ℕ → Option (ℕ × ℕ))
    (taken : List (ℕ × ℕ)) : Prop where
  held_ok : ∀ t b, held t = some b → P b ∧ b.1 + b.2 ≤ limit
  taken_ok : ∀ b ∈ taken, P b ∧ b.1 + b.2 ≤ limit
  held_held : ∀ t u b c, t ≠ u → held t = some b → held u = some c → Apart b c
  held_taken : ∀ t b, held t = some b → ∀ c ∈ taken, Apart b c
  taken_taken : taken.Pairwise Apart

section

variable {P : ℕ × ℕ → Prop} {limit limit' t : ℕ} {held held' : ℕ → Option (ℕ × ℕ)}
  {taken : List (ℕ × ℕ)} {b : ℕ × ℕ}

section

variable (h : Reserved P limit held taken)

include h

/-- Threads may give their blocks up, and the limit may go up. -/
theorem Reserved.mono (hlimit : limit≤limit')
    (hheld : ∀ u c, held' u=some c → held u=some c) : Reserved P limit' held' taken where
  held_ok u c hc := ⟨(h.held_ok u c (hheld u c hc)).1,(h.held_ok u c (hheld u c hc)).2.trans hlimit⟩
  taken_ok c hc := ⟨(h.taken_ok c hc).1,(h.taken_ok c hc).2.trans hlimit⟩
  held_held u v c e huv hc he := h.held_held u v c e huv (hheld u c hc) (hheld v e he)
  held_taken u c hc := h.held_taken u c (hheld u c hc)
  taken_taken := h.taken_taken

/-- A thread comes to hold a block that begins at the limit. -/
theorem Reserved.reserve (hb : P b) (hstart : limit≤b.1)
    (hend : b.1+b.2≤limit') (ht : held' t=some b)
    (hother : ∀ u c, u ≠ t → held' u=some c → held u=some c) : Reserved P limit' held' taken where
  held_ok u c hc := by
    by_cases hu : u=t
    · rw [hu,ht] at hc
      cases hc
      exact ⟨hb,hend⟩
    · obtain ⟨hp,hle⟩ := h.held_ok u c (hother u c hu hc)
      exact ⟨hp,by omega⟩
  taken_ok c hc := by
    obtain ⟨hp,hle⟩ := h.taken_ok c hc
    exact ⟨hp,by omega⟩
  held_held u v c e huv hc he := by
    by_cases hu : u=t
    · subst hu
      rw [ht] at hc
      cases hc
      exact .inr ((h.held_ok v e (hother v e huv.symm he)).2.trans hstart)
    · have hc' := hother u c hu hc
      by_cases hv : v=t
      · subst hv
        rw [ht] at he
        cases he
        exact .inl ((h.held_ok u c hc').2.trans hstart)
      · exact h.held_held u v c e huv hc' (hother v e hv he)
  held_taken u c hc e he := by
    by_cases hu : u=t
    · rw [hu,ht] at hc
      cases hc
      exact .inr ((h.taken_ok e he).2.trans hstart)
    · exact h.held_taken u c (hother u c hu hc) e he
  taken_taken := h.taken_taken

/-- The block that a thread holds is taken. -/
theorem Reserved.take (hb : held t=some b) (ht : held' t=none)
    (hother : ∀ u c, u ≠ t → held' u=some c → held u=some c) : Reserved P limit held' (b::taken) := by
  have hne : ∀ u c, held' u=some c → u ≠ t := by
    rintro u c hc rfl
    rw [ht] at hc
    cases hc
  have hheld : ∀ u c, held' u=some c → held u=some c := fun u c hc => hother u c (hne u c hc) hc
  refine ⟨fun u c hc => h.held_ok u c (hheld u c hc),fun c hc => ?_,
    fun u v c e huv hc he => h.held_held u v c e huv (hheld u c hc) (hheld v e he),
    fun u c hc e he => ?_,List.pairwise_cons.mpr ⟨h.held_taken t b hb,h.taken_taken⟩⟩
  · rcases List.mem_cons.mp hc with rfl | hc
    · exact h.held_ok t c hb
    · exact h.taken_ok c hc
  · rcases List.mem_cons.mp he with rfl | he
    · exact h.held_held u t c e (hne u c hc) (hheld u c hc) hb
    · exact h.held_taken u c (hheld u c hc) e he

/-- Of two blocks that are taken, the one that begins first ends before the other. -/
theorem Reserved.add_le {c : ℕ × ℕ} (hb : b ∈ taken) (hc : c ∈ taken) (hlt : b.1<c.1) : b.1+b.2≤c.1 := by
  have hne : b ≠ c := by
    rintro rfl
    exact lt_irrefl _ hlt
  have hapart := h.taken_taken.forall hb hc hne
  rcases hapart with hle | hle <;> omega

end

end

end FishStore.Tilings
