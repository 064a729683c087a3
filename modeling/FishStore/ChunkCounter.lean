import Mathlib

/-!
# Chunks handed out by a counter

Threads divide a number of chunks among themselves: one counter hands them out,
another counts those that are not done. A thread that counts the last one down
knows that all are done, and a thread that finds none left knows that all were
handed out.
-/

namespace FishStore.ChunkCounter

open Function (update update_of_ne update_self)

/-- The chunks from 0 up to `next` were handed out: each is done, or one thread
holds it. -/
structure Chunks (num next pending : ℕ) (done : ℕ → Bool) (hold : ℕ → Option ℕ) : Prop where
  /-- A chunk that a thread holds is one, was handed out and is not done. -/
  held : ∀ t c, hold t = some c → c < num ∧ c < next ∧ done c = false
  /-- One thread holds a chunk. -/
  unique : ∀ t u c, hold t = some c → hold u = some c → t = u
  /-- A chunk that was handed out is done, or somebody holds it. -/
  cover : ∀ c, c < num → c < next → done c = true ∨ ∃ t, hold t = some c
  /-- What is done was handed out. -/
  taken : ∀ c, done c = true → c < num ∧ c < next
  /-- The chunks that are not done are counted. -/
  count : pending = ((Finset.range num).filter fun c => done c = false).card

section

variable {num next pending : ℕ} {done : ℕ → Bool} {hold : ℕ → Option ℕ} {t c : ℕ}

/-- At the start nothing was handed out. -/
theorem Chunks.start (num : ℕ) (hhold : ∀ t, hold t=none) : Chunks num 0 num (fun _ => false) hold := by
  refine ⟨?_,?_,fun c _ hc => absurd hc (Nat.not_lt_zero c),nofun,?_⟩
  · intro t c h
    rw [hhold t] at h
    cases h
  · intro t u c h
    rw [hhold t] at h
    cases h
  · simp

section

variable (h : Chunks num next pending done hold)

include h

/-- A thread takes the next chunk. -/
theorem Chunks.take (hlt : next<num) (hfree : hold t=none) :
    Chunks num (next+1) pending done (update hold t (some next)) := by
  have hnew : ∀ u, hold u ≠ some next := by
    intro u hu
    exact absurd (h.held u next hu).2.1 (lt_irrefl next)
  have hsame : ∀ {u}, u ≠ t → update hold t (some next) u=hold u := fun hu => update_of_ne hu _ _
  have hself : update hold t (some next) t=some next := update_self _ _ _
  refine ⟨?_,?_,?_,?_,h.count⟩
  · intro u c hu
    by_cases hut : u=t
    · subst hut
      rw [hself] at hu
      cases hu
      refine ⟨hlt,Nat.lt_succ_self next,?_⟩
      by_contra hdone
      exact absurd (h.taken next (by simpa using hdone)).2 (lt_irrefl next)
    · rw [hsame hut] at hu
      obtain ⟨hnum,hnext,hdone⟩ := h.held u c hu
      exact ⟨hnum,by omega,hdone⟩
  · intro u x c hu hx
    by_cases hut : u=t
    · by_cases hxt : x=t
      · rw [hut,hxt]
      · rw [hut,hself] at hu
        cases hu
        rw [hsame hxt] at hx
        exact absurd hx (hnew x)
    · rw [hsame hut] at hu
      by_cases hxt : x=t
      · rw [hxt,hself] at hx
        cases hx
        exact absurd hu (hnew u)
      · rw [hsame hxt] at hx
        exact h.unique u x c hu hx
  · intro c hnum hc
    by_cases hcn : c=next
    · subst hcn
      exact .inr ⟨t,hself⟩
    · rcases h.cover c hnum (by omega) with hdone | ⟨u,hu⟩
      · exact .inl hdone
      · refine .inr ⟨u,?_⟩
        rw [hsame]
        · exact hu
        · rintro rfl
          rw [hfree] at hu
          cases hu
  · intro c hc
    obtain ⟨hnum,hnext⟩ := h.taken c hc
    exact ⟨hnum,by omega⟩

/-- A thread finds no chunk left. -/
theorem Chunks.none_left (hle : num≤next) : Chunks num (next+1) pending done hold := by
  refine ⟨?_,h.unique,?_,?_,h.count⟩
  · intro u c hu
    obtain ⟨hnum,hnext,hdone⟩ := h.held u c hu
    exact ⟨hnum,by omega,hdone⟩
  · intro c hnum hc
    exact h.cover c hnum (by omega)
  · intro c hc
    obtain ⟨hnum,hnext⟩ := h.taken c hc
    exact ⟨hnum,by omega⟩

/-- A thread counts its chunk as done. -/
theorem Chunks.finish (ht : hold t=some c) : Chunks num next (pending - 1) (update done c true) (update hold t none) := by
  obtain ⟨hnum,hnext,hdone⟩ := h.held t c ht
  have hother : ∀ {d}, d ≠ c → update done c true d=done d := fun hd => update_of_ne hd _ _
  have hholds : ∀ {u d}, update hold t none u=some d → u ≠ t ∧ hold u=some d := by
    intro u d hu
    have hut : u ≠ t := by
      rintro rfl
      rw [update_self] at hu
      cases hu
    rw [update_of_ne hut] at hu
    exact ⟨hut,hu⟩
  refine ⟨?_,?_,?_,?_,?_⟩
  · intro u d hu
    obtain ⟨hut,hud⟩ := hholds hu
    have hdc : d ≠ c := by
      rintro rfl
      exact hut (h.unique u t d hud ht)
    rw [hother hdc]
    exact h.held u d hud
  · intro u x d hu hx
    exact h.unique u x d (hholds hu).2 (hholds hx).2
  · intro d hd hdn
    by_cases hdc : d=c
    · rw [hdc]
      exact .inl (update_self _ _ _)
    · rw [hother hdc]
      rcases h.cover d hd hdn with hdone' | ⟨u,hu⟩
      · exact .inl hdone'
      · refine .inr ⟨u,?_⟩
        rw [update_of_ne]
        · exact hu
        · rintro rfl
          rw [ht] at hu
          cases hu
          exact hdc rfl
  · intro d hd
    by_cases hdc : d=c
    · rw [hdc]
      exact ⟨hnum,hnext⟩
    · rw [hother hdc] at hd
      exact h.taken d hd
  · have herase : ((Finset.range num).filter fun d => update done c true d=false) =
        ((Finset.range num).filter fun d => done d=false).erase c := by
      ext d
      by_cases hdc : d=c
      · subst hdc
        simp
      · simp [hdc]
    have hmem : c ∈ (Finset.range num).filter fun d => done d=false := by simp [hnum,hdone]
    rw [herase,Finset.card_erase_of_mem hmem,h.count]

omit h in
/-- When none is pending, all are done. -/
theorem Chunks.all_done (h : Chunks num next 0 done hold) (hc : c<num) : done c=true := by
  have hempty := Finset.card_eq_zero.mp h.count.symm
  by_contra hdone
  have hpending : done c=false := by simpa using hdone
  have hmem : c ∈ (Finset.range num).filter fun d => done d=false := by simp [hc,hpending]
  rw [hempty] at hmem
  cases hmem

/-- When all are done, all were handed out. -/
theorem Chunks.all_taken (hdone : ∀ c, c<num → done c=true) : num≤next := by
  by_contra hlt
  exact absurd (h.taken next (hdone next (by omega))).2 (lt_irrefl next)

end

end

end FishStore.ChunkCounter
