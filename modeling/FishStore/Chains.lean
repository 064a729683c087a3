import Mathlib

/-!
# Linked chains

Two kinds of chain. In the first, nodes of any type carry an optional next
pointer and a chain only grows at its end; a scan that walks it has a current
position, and the part of the chain ahead of the scan only grows. In the
second, nodes are numbered and each number above a floor has a previous
number; nodes are put in front of a chain or spliced into its middle, and
descending chains end.
-/

namespace FishStore.Chains

section Pointers

variable {β : Type*} {next next' : β → Option β} {a b c n x y : β}

/-- Following next pointers from one node leads to the other. -/
def Reaches (next : β → Option β) : β → β → Prop :=
  Relation.ReflTransGen fun a b => next a = some b

theorem Reaches.refl (a : β) : Reaches next a a := Relation.ReflTransGen.refl

theorem Reaches.tail (h : Reaches next a b) (hb : next b=some c) : Reaches next a c := Relation.ReflTransGen.tail h hb

theorem Reaches.head (ha : next a=some b) (h : Reaches next b c) : Reaches next a c := Relation.ReflTransGen.head ha h

/-- Setting pointers that were unset keeps what was reached. -/
theorem Reaches.mono (h : ∀ c d, next c=some d → next' c=some d) (hr : Reaches next a b) : Reaches next' a b := by
  induction hr with
  | refl => exact .refl _
  | tail _ hb ih => exact ih.tail (h _ _ hb)

/-- A node that no pointer leads to is reached from itself only. -/
theorem Reaches.eq_of_unlinked (hn : ∀ c, next c ≠ some n) (h : Reaches next x n) : x=n := by
  cases h with
  | refl => rfl
  | tail _ hb => exact absurd hb (hn _)

/-- Where no two pointers lead to one node and none to the root, a chain from the
root does not return. -/
theorem Reaches.not_returns (hinj : ∀ a b c, next a=some c → next b=some c → a=b)
    (hroot : ∀ c, next c ≠ some a) (h : Reaches next a b) (hb : next b=some c) : ¬ Reaches next c b := by
  induction h generalizing c with
  | refl =>
    intro hr
    cases hr with
    | refl => exact hroot _ hb
    | tail _ hy => exact hroot _ hy
  | tail _ hy ih =>
    intro hr
    cases hr with
    | refl =>
      have heq := hinj _ _ _ hb hy
      subst heq
      exact ih hy (.refl _)
    | tail hr' hz =>
      have heq := hinj _ _ _ hz hy
      subst heq
      exact ih hy (.head hb hr')

/-- The cell `i` of node `c` lies ahead of a scan that is about to read cell
`j` of node `b`. -/
def Ahead (next : β → Option β) (b : β) (j : ℕ) (c : β) (i : ℕ) : Prop :=
  (b = c ∧ j ≤ i) ∨ ∃ d, next b = some d ∧ Reaches next d c

theorem ahead_of_reaches (h : Reaches next b c) (i : ℕ) : Ahead next b 0 c i := by
  rcases Relation.ReflTransGen.cases_head h with rfl | ⟨d,hd,hr⟩
  · exact .inl ⟨rfl,Nat.zero_le i⟩
  · exact .inr ⟨d,hd,hr⟩

theorem Ahead.mono (h : ∀ c d, next c=some d → next' c=some d) {j i : ℕ}
    (ha : Ahead next b j c i) : Ahead next' b j c i := by
  rcases ha with ha | ⟨d,hd,hr⟩
  · exact .inl ha
  · exact .inr ⟨d,h _ _ hd,hr.mono h⟩

/-- Reading one cell leaves every other cell ahead. -/
theorem Ahead.advance {j i : ℕ} (ha : Ahead next b j c i) (hne : ¬ (b=c ∧ j=i)) : Ahead next b (j+1) c i := by
  rcases ha with ⟨rfl,hle⟩ | hr
  · exact .inl ⟨rfl,Nat.lt_of_le_of_ne hle fun h => hne ⟨rfl,h⟩⟩
  · exact .inr hr

/-- Moving on to the next node keeps everything that was still ahead. -/
theorem Ahead.hop {j i : ℕ} (ha : Ahead next b j c i) (hi : i<j) (hd : next b=some n) : Ahead next n 0 c i := by
  rcases ha with ⟨rfl,hle⟩ | ⟨d,hd',hr⟩
  · omega
  · rw [hd] at hd'
    cases hd'
    exact ahead_of_reaches hr i

/-- Nothing is ahead of a scan at the end of the last node. -/
theorem not_ahead_of_end {j i : ℕ} (hi : i<j) (hd : next b=none) : ¬ Ahead next b j c i := by
  rintro (⟨rfl,hle⟩ | ⟨d,hd',_⟩)
  · omega
  · rw [hd] at hd'
    cases hd'

/-- Following next pointers from a node comes to an end after less than `fuel` of them. -/
def EndsWithin (next : β → Option β) : ℕ → β → Prop
  | 0, _ => False
  | fuel + 1, b => ∀ c, next b = some c → EndsWithin next fuel c

/-- Where no two pointers lead to one node and none to the root, and the nodes that
pointers lead to are in a finite set, the chain of the root ends. -/
theorem endsWithin_of_finite {S : Finset β} (hS : ∀ b c, next b=some c → c ∈ S)
    (hinj : ∀ a b c, next a=some c → next b=some c → a=b) (hroot : ∀ c, next c ≠ some a)
    {fuel : ℕ} (hb : Reaches next a b) (T : Finset β) (hT : T ⊆ S) (hreach : ∀ c ∈ T, Reaches next c b)
    (hcard : S.card<T.card+fuel) : EndsWithin next fuel b := by
  classical
  -- `T` are the nodes that were passed; there are no more than those of `S`.
  induction fuel generalizing b T with
  | zero => exact absurd (Finset.card_le_card hT) (not_le.mpr hcard)
  | succ fuel ih =>
    intro c hc
    have hnew : c ∉ T := fun hmem => hb.not_returns hinj hroot hc (hreach c hmem)
    refine ih (hb.tail hc) (insert c T) (Finset.insert_subset (hS b c hc) hT) ?_ ?_
    · intro d hd
      rcases Finset.mem_insert.mp hd with rfl | hd
      · exact .refl d
      · exact (hreach d hd).tail hc
    · rw [Finset.card_insert_of_notMem hnew]
      omega

end Pointers

section Numbered

variable {floor : ℕ} {prev prev' : ℕ → ℕ} {a b k x y : ℕ} {P : ℕ → Prop}

/-- Following previous numbers, as long as they are above the floor, leads
from one number to the other. -/
def Visits (floor : ℕ) (prev : ℕ → ℕ) : ℕ → ℕ → Prop :=
  Relation.ReflTransGen fun a b => floor < a ∧ prev a = b

theorem Visits.refl (a : ℕ) : Visits floor prev a a := Relation.ReflTransGen.refl

theorem Visits.tail (h : Visits floor prev a b) (hb : floor<b) :
    Visits floor prev a (prev b) := Relation.ReflTransGen.tail h ⟨hb,rfl⟩

theorem Visits.head (ha : floor<a) (h : Visits floor prev (prev a) b) :
    Visits floor prev a b := Relation.ReflTransGen.head ⟨ha,rfl⟩ h

theorem Visits.trans (h : Visits floor prev a b) (h' : Visits floor prev b x) :
    Visits floor prev a x := Relation.ReflTransGen.trans h h'

theorem Visits.eq_of_le (h : Visits floor prev a b) (ha : a≤floor) : b=a := by
  rcases Relation.ReflTransGen.cases_head h with rfl | ⟨d,⟨hd,_⟩,_⟩
  · rfl
  · omega

/-- Numbers of `P` lead to smaller numbers of `P`, down to the floor. -/
def Descends (floor : ℕ) (prev : ℕ → ℕ) (P : ℕ → Prop) : Prop :=
  ∀ a, P a → floor < a → prev a < a ∧ P (prev a)

theorem Visits.closed (hd : Descends floor prev P) (h : Visits floor prev a b) (ha : P a) : P b ∧ b≤a := by
  induction h with
  | refl => exact ⟨ha,le_rfl⟩
  | tail _ hb ih =>
    obtain ⟨hlt,hp⟩ := hd _ ih.1 hb.1
    rw [hb.2] at hlt hp
    exact ⟨hp,hlt.le.trans ih.2⟩

/-- A change of the previous numbers that still leads each number of `P` to
its former previous number keeps everything a chain visits. -/
theorem Visits.reroute (hd : Descends floor prev P) (h : ∀ c, P c → floor<c → Visits floor prev' c (prev c))
    (hv : Visits floor prev a b) (ha : P a) : Visits floor prev' a b := by
  induction hv with
  | refl => exact .refl _
  | tail hv' hb ih =>
    have hp := (Visits.closed hd hv' ha).1
    have hr := h _ hp hb.1
    rw [hb.2] at hr
    exact ih.trans hr

/-- The complete walk from a number: the visited numbers above the floor, in
order; a derivation is finite, so the walk ends at or below the floor. -/
inductive Walk (floor : ℕ) (prev : ℕ → ℕ) : ℕ → List ℕ → Prop
  | stop {a : ℕ} : a ≤ floor → Walk floor prev a []
  | visit {a : ℕ} {l : List ℕ} : floor < a → Walk floor prev (prev a) l →
      Walk floor prev a (a :: l)

/-- Descending chains end, and visit strictly decreasing numbers. -/
theorem exists_walk (hd : Descends floor prev P) (ha : P a) :
    ∃ l, Walk floor prev a l ∧ l.Pairwise (· > ·) ∧ ∀ b ∈ l, b≤a ∧ P b := by
  induction a using Nat.strong_induction_on with
  | _ a ih =>
    by_cases hf : floor<a
    · obtain ⟨hlt,hp⟩ := hd a ha hf
      obtain ⟨l,hw,hl,hall⟩ := ih _ hlt hp
      refine ⟨a::l,.visit hf hw,List.pairwise_cons.mpr ⟨?_,hl⟩,?_⟩
      · intro b hb
        exact (hall b hb).1.trans_lt hlt
      · intro b hb
        rcases List.mem_cons.mp hb with rfl | hb
        · exact ⟨le_rfl,ha⟩
        · exact ⟨(hall b hb).1.trans hlt.le,(hall b hb).2⟩
    · exact ⟨[],.stop (by omega),List.Pairwise.nil,by simp⟩

/-- A walk contains everything above the floor that its chain visits. -/
theorem Walk.mem_of_visits {l : List ℕ} (hw : Walk floor prev a l) (hv : Visits floor prev a b) (hb : floor<b) : b ∈ l := by
  induction hw with
  | stop ha =>
    have := hv.eq_of_le ha
    omega
  | visit _ _ ih =>
    rcases Relation.ReflTransGen.cases_head hv with rfl | ⟨d,⟨_,rfl⟩,hr⟩
    · exact List.mem_cons_self
    · exact List.mem_cons_of_mem _ (ih hr)

/-- What a descending walk visits, it visits exactly once. -/
theorem Walk.count_eq_one {l : List ℕ} (hw : Walk floor prev a l) (hl : l.Pairwise (· > ·))
    (hv : Visits floor prev a b) (hb : floor<b) : l.count b=1 := by
  have hnodup : l.Nodup := hl.imp fun h => h.ne'
  exact List.count_eq_one_of_mem hnodup (hw.mem_of_visits hv hb)

end Numbered

end FishStore.Chains
