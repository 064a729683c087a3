import FishStore.Chains

/-!
# Searches down a chain

A search goes down a numbered chain from a start. It stops at the first number with a
property, or at the first number below its floor. What it passes over has not the
property, so that on a descending chain nothing above its end has it. A scan goes on
behind what it finds, and collects it.
-/

namespace FishStore.ChainSearch

open Chains Relation.ReflTransGen

/-- The search from the first number stops at the second one. -/
inductive Search (floor : ℕ) (prev : ℕ → ℕ) (p : ℕ → Prop) : ℕ → ℕ → Prop
  | ended {a : ℕ} : a < floor → Search floor prev p a a
  | found {a : ℕ} : floor ≤ a → p a → Search floor prev p a a
  | pass {a b : ℕ} : floor ≤ a → ¬ p a → Search floor prev p (prev a) b → Search floor prev p a b

section

variable {floor bottom : ℕ} {prev : ℕ → ℕ} {p : ℕ → Prop} {a b k : ℕ} {P : ℕ → Prop}

/-- On a descending chain every search ends. -/
theorem exists_search [DecidablePred p] (hbottom : bottom<floor) (hd : Descends bottom prev P)
    (ha : P a) : ∃ b, Search floor prev p a b := by
  induction a using Nat.strong_induction_on with
  | _ a ih =>
    by_cases hfloor : floor≤a
    · by_cases hp : p a
      · exact ⟨a,.found hfloor hp⟩
      · obtain ⟨hlt,hP⟩ := hd a ha (by omega)
        obtain ⟨b,hb⟩ := ih _ hlt hP
        exact ⟨b,.pass hfloor hp hb⟩
    · exact ⟨a,.ended (by omega)⟩

section

variable (h : Search floor prev p a b)

include h

/-- A search from below its floor does not move. -/
theorem Search.eq_of_lt (ha : a<floor) : b=a := by
  cases h with
  | ended _ => rfl
  | found _ _ => rfl
  | pass hle _ _ => omega

/-- A search that stops above its floor has found what it looks for. -/
theorem Search.holds (hb : floor≤b) : p b := by
  induction h with
  | ended ha => omega
  | found _ hp => exact hp
  | pass _ _ _ ih => exact ih hb

/-- A search follows the chain. -/
theorem Search.visits (hbottom : bottom<floor) : Visits bottom prev a b := by
  induction h with
  | ended _ => exact .refl _
  | found _ _ => exact .refl _
  | pass ha _ _ ih => exact .head (hbottom.trans_le ha) ih

/-- What lies on the chain was passed over, or lies behind the end of the search. -/
theorem Search.split (hk : Visits bottom prev a k) : (floor≤k ∧ ¬ p k) ∨ Visits bottom prev b k := by
  induction h with
  | ended _ => exact .inr hk
  | found _ _ => exact .inr hk
  | pass ha hp _ ih =>
    rcases cases_head hk with rfl | ⟨d,⟨_,rfl⟩,hr⟩
    · exact .inl ⟨ha,hp⟩
    · exact ih hr

/-- On a descending chain a search passes over whatever lies above its end. -/
theorem Search.le_of_holds (hbottom : bottom<floor)
    (hd : Descends bottom prev P) (ha : P a) (hk : Visits bottom prev a k) (hp : p k) : k≤b := by
  rcases h.split hk with hpass | hrest
  · exact absurd hp hpass.2
  · exact (hrest.closed hd ((h.visits hbottom).closed hd ha).1).2

end

/-- Going down a chain from the first number to the second one passes over the numbers of a
list and over others without the property. -/
inductive Passes (bottom : ℕ) (prev : ℕ → ℕ) (p : ℕ → Prop) : ℕ → List ℕ → ℕ → Prop
  | stop (a : ℕ) : Passes bottom prev p a [] a
  | take {a b : ℕ} {l : List ℕ} : bottom < a → p a → Passes bottom prev p (prev a) l b →
      Passes bottom prev p a (a :: l) b
  | skip {a b : ℕ} {l : List ℕ} : bottom < a → ¬ p a → Passes bottom prev p (prev a) l b →
      Passes bottom prev p a l b

variable {l l' : List ℕ} {q : ℕ → Prop}

theorem Passes.trans (h : Passes bottom prev p a l b) (h' : Passes bottom prev p b l' k) :
    Passes bottom prev p a (l ++ l') k := by
  induction h with
  | stop _ => exact h'
  | take ha hp _ ih => exact .take ha hp (ih h')
  | skip ha hp _ ih => exact .skip ha hp (ih h')

theorem Passes.mono {bottom' : ℕ} (h : Passes bottom' prev p a l b) (hle : bottom≤bottom') :
    Passes bottom prev p a l b := by
  induction h with
  | stop a => exact .stop a
  | take ha hp _ ih => exact .take (hle.trans_lt ha) hp ih
  | skip ha hp _ ih => exact .skip (hle.trans_lt ha) hp ih

/-- What lies on the chain is above the bottom of what was passed, or lies behind its end. -/
theorem Passes.split {bottom' : ℕ} (h : Passes bottom' prev p a l b) (hk : Visits bottom prev a k) :
    bottom'<k ∨ Visits bottom prev b k := by
  induction h with
  | stop _ => exact .inr hk
  | take ha _ _ ih =>
    rcases cases_head hk with rfl | ⟨d,⟨_,rfl⟩,hr⟩
    · exact .inl ha
    · exact ih hr
  | skip ha _ _ ih =>
    rcases cases_head hk with rfl | ⟨d,⟨_,rfl⟩,hr⟩
    · exact .inl ha
    · exact ih hr

theorem Passes.visits (h : Passes bottom prev p a l b) : Visits bottom prev a b := by
  induction h with
  | stop a => exact .refl a
  | take ha _ _ ih => exact .head ha ih
  | skip ha _ _ ih => exact .head ha ih

/-- A search passes over nothing that has the property. -/
theorem Search.passes (h : Search floor prev p a b) (hbottom : bottom<floor)
    (hq : ∀ k, q k → p k) : Passes bottom prev q a [] b := by
  induction h with
  | ended _ => exact .stop _
  | found _ _ => exact .stop _
  | pass ha hp _ ih => exact .skip (hbottom.trans_le ha) (fun h => hp (hq _ h)) ih

/-- The list has what the chain visits before the end and what has the property. -/
theorem Passes.mem_iff (h : Passes bottom prev p a l b) (hd : Descends bottom prev P) (ha : P a) :
    k ∈ l ↔ Visits bottom prev a k ∧ b<k ∧ p k := by
  induction h with
  | stop a =>
    refine iff_of_false List.not_mem_nil ?_
    rintro ⟨hv,hlt,_⟩
    have := (hv.closed hd ha).2
    omega
  | @take a b l hlt hp hrest ih =>
    obtain ⟨hdown,hP⟩ := hd a ha hlt
    have hle := (hrest.visits.closed hd hP).2
    rw [List.mem_cons,ih hP]
    constructor
    · rintro (rfl | ⟨hv,hb,hk⟩)
      · exact ⟨.refl _,by omega,hp⟩
      · exact ⟨.head hlt hv,hb,hk⟩
    · rintro ⟨hv,hb,hk⟩
      rcases cases_head hv with rfl | ⟨d,⟨_,rfl⟩,hr⟩
      · exact .inl rfl
      · exact .inr ⟨hr,hb,hk⟩
  | @skip a b l hlt hp hrest ih =>
    obtain ⟨_,hP⟩ := hd a ha hlt
    rw [ih hP]
    constructor
    · rintro ⟨hv,hb,hk⟩
      exact ⟨.head hlt hv,hb,hk⟩
    · rintro ⟨hv,hb,hk⟩
      rcases cases_head hv with rfl | ⟨d,⟨_,rfl⟩,hr⟩
      · exact absurd hk hp
      · exact ⟨hr,hb,hk⟩

/-- On a descending chain the list goes down. -/
theorem Passes.pairwise (h : Passes bottom prev p a l b) (hd : Descends bottom prev P) (ha : P a) : l.Pairwise (· > ·) := by
  induction h with
  | stop _ => exact .nil
  | take hlt _ hrest ih =>
    obtain ⟨hdown,hP⟩ := hd _ ha hlt
    refine List.pairwise_cons.mpr ⟨fun k hk => ?_,ih hP⟩
    exact ((((hrest.mem_iff hd hP).mp hk).1.closed hd hP).2).trans_lt hdown
  | skip hlt _ _ ih => exact ih (hd _ ha hlt).2

end

end FishStore.ChainSearch
