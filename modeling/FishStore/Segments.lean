import Mathlib

/-!
# Walks over segments

A memory is cut into segments that are found one after the other: each position has
a next position, which depends on what is stored there. A walk visits the positions
below a bound. What it visits is described by where going on from a position leads.
-/

namespace FishStore.Segments

variable {next next' : ℕ → ℕ} {a b c x y stop fuel : ℕ}

/-- Going on from the first position leads to the second. -/
def Leads (next : ℕ → ℕ) : ℕ → ℕ → Prop := Relation.ReflTransGen fun x y => y = next x

theorem Leads.refl (a : ℕ) : Leads next a a := Relation.ReflTransGen.refl

theorem Leads.tail (h : Leads next a b) : Leads next a (next b) := Relation.ReflTransGen.tail h rfl

theorem Leads.head (h : Leads next (next a) b) : Leads next a b := Relation.ReflTransGen.head rfl h

/-- Either the walk is there, or it goes on. -/
theorem Leads.eq_or_next (h : Leads next a b) : a=b ∨ Leads next (next a) b := by
  rcases Relation.ReflTransGen.cases_head h with rfl | ⟨c,rfl,hc⟩
  · exact .inl rfl
  · exact .inr hc

theorem Leads.le (hnext : ∀ x, x<next x) (h : Leads next a b) : a≤b := by
  induction h with
  | refl => exact le_rfl
  | tail _ hb ih =>
    rw [hb]
    exact ih.trans (hnext _).le

/-- Every position that a walk comes to has what each next position inherits. -/
theorem Leads.inherit {P : ℕ → Prop} (h : Leads next a b) (ha : P a) (hstep : ∀ x, P x → P (next x)) : P b := by
  induction h with
  | refl => exact ha
  | tail _ hb ih =>
    rw [hb]
    exact hstep _ ih

/-- The positions below `stop` that a walk visits from `a`, at most `fuel` of them. -/
def visited (next : ℕ → ℕ) (stop : ℕ) : ℕ → ℕ → List ℕ
  | 0, _ => []
  | fuel + 1, a => if a < stop then a :: visited next stop fuel (next a) else []

theorem mem_visited (hnext : ∀ x, x<next x) (hfuel : stop≤a+fuel) :
    x ∈ visited next stop fuel a ↔ Leads next a x ∧ x<stop := by
  induction fuel generalizing a with
  | zero =>
    simp only [visited,List.not_mem_nil,false_iff,not_and,not_lt]
    exact fun h => hfuel.trans (h.le hnext)
  | succ fuel ih =>
    simp only [visited]
    split_ifs with ha
    · rw [List.mem_cons,ih (by have := hnext a; omega)]
      refine ⟨?_,?_⟩
      · rintro (rfl | ⟨hx,hlt⟩)
        · exact ⟨.refl _,ha⟩
        · exact ⟨hx.head,hlt⟩
      · rintro ⟨hx,hlt⟩
        rcases hx.eq_or_next with rfl | hx
        · exact .inl rfl
        · exact .inr ⟨hx,hlt⟩
    · simp only [List.not_mem_nil,false_iff,not_and,not_lt]
      exact fun h => (not_lt.mp ha).trans (h.le hnext)

theorem le_of_mem_visited (hnext : ∀ x, x<next x) (h : x ∈ visited next stop fuel a) : a≤x := by
  induction fuel generalizing a with
  | zero => cases h
  | succ fuel ih =>
    simp only [visited] at h
    split_ifs at h
    · rcases List.mem_cons.mp h with rfl | h
      · exact le_rfl
      · exact (hnext a).le.trans (ih h)
    · cases h

/-- No position is visited twice. -/
theorem visited_nodup (hnext : ∀ x, x<next x) : (visited next stop fuel a).Nodup := by
  induction fuel generalizing a with
  | zero => exact List.nodup_nil
  | succ fuel ih =>
    simp only [visited]
    split_ifs
    · refine List.nodup_cons.mpr ⟨fun h => ?_,ih⟩
      exact absurd (le_of_mem_visited hnext h) (not_le.mpr (hnext a))
    · exact List.nodup_nil

end FishStore.Segments
