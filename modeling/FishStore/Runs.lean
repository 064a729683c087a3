import Mathlib

/-!
# Guarded runs of interleaved threads

A machine is a partial step function over labelled steps. A run is a finite
sequence of its steps, each of which satisfies a guard on the state before
the step and on the step's label: the guard `fun _ _ => True` allows every
interleaving, a smaller guard states under which condition a property of all
runs is claimed. Traces are executable runs, for closed examples.
-/

namespace FishStore.Runs

/-- A labelled transition system given by its initial states and steps. -/
structure Machine (σ : Type*) (α : Type*) where
  /-- The states a run may start in. -/
  init : σ → Prop
  /-- The state after the labelled step, when that step is enabled. -/
  step : σ → α → Option σ

/-- A condition on the steps of a run, read in the state before the step. -/
abbrev Guard (σ : Type*) (α : Type*) := σ → α → Prop

/-- The guard that every step satisfies. -/
def anyStep {σ α : Type*} : Guard σ α := fun _ _ => True

section

variable {σ α : Type*} {M : Machine σ α} {ok ok' : Guard σ α}

/-- A finite sequence of steps that all satisfy the guard. -/
inductive Run (M : Machine σ α) (ok : Guard σ α) : σ → σ → Prop
  | refl (s : σ) : Run M ok s s
  | tail {s t u : σ} {a : α} : Run M ok s t → ok t a → M.step t a = some u → Run M ok s u

/-- The states that a guarded run reaches from an initial state. -/
def Reachable (M : Machine σ α) (ok : Guard σ α) (s : σ) : Prop :=
  ∃ s₀, M.init s₀ ∧ Run M ok s₀ s

theorem Run.trans {s t u : σ} (hst : Run M ok s t) (htu : Run M ok t u) : Run M ok s u := by
  induction htu with
  | refl => exact hst
  | tail _ hok hstep ih => exact ih.tail hok hstep

theorem Run.single {s t : σ} {a : α} (hok : ok s a) (h : M.step s a=some t) : Run M ok s t := (Run.refl s).tail hok h

/-- A weaker guard admits every run of a stronger one. -/
theorem Run.mono (h : ∀ s a, ok s a → ok' s a) {s t : σ} (hr : Run M ok s t) : Run M ok' s t := by
  induction hr with
  | refl => exact .refl _
  | tail _ hok hstep ih => exact ih.tail (h _ _ hok) hstep

theorem Reachable.run {s t : σ} (hs : Reachable M ok s) (hr : Run M ok s t) : Reachable M ok t := by
  obtain ⟨s₀,hi,h₀⟩ := hs
  exact ⟨s₀,hi,h₀.trans hr⟩

/-- A property that every guarded step preserves holds at the end of a run
if it holds at its start. -/
theorem Run.invariant {P : σ → Prop} (hstep : ∀ s a t, P s → ok s a → M.step s a=some t → P t)
    {s t : σ} (hs : P s) (hr : Run M ok s t) : P t := by
  induction hr with
  | refl => exact hs
  | tail _ hok hst ih => exact hstep _ _ _ ih hok hst

/-- The invariant rule: a property of the initial states that every guarded
step preserves holds in every reachable state. -/
theorem Reachable.invariant {P : σ → Prop} (h₀ : ∀ s, M.init s → P s)
    (hstep : ∀ s a t, P s → ok s a → M.step s a=some t → P t) {s : σ} (hs : Reachable M ok s) : P s := by
  obtain ⟨s₀,hi,hr⟩ := hs
  exact hr.invariant hstep (h₀ s₀ hi)

/-- The run rule: a relation that is reflexive and that every step from a
state with the invariant extends holds between the two ends of a run. -/
theorem Run.relation {P : σ → Prop} {R : σ → σ → Prop} (hP : ∀ s a t, P s → ok s a → M.step s a=some t → P t)
    (hrefl : ∀ s, P s → R s s) (hstep : ∀ s t a u, P t → R s t → ok t a → M.step t a=some u → R s u) {s t : σ}
    (hs : P s) (hr : Run M ok s t) : P t ∧ R s t := by
  induction hr with
  | refl => exact ⟨hs,hrefl _ hs⟩
  | tail _ hok hst ih => exact ⟨hP _ _ _ ih.1 hok hst,hstep _ _ _ _ ih.1 ih.2 hok hst⟩

/-- Steps that preserve an invariant and satisfy a second guard under it
make the run a run of that second guard. -/
theorem Run.strengthen {P : σ → Prop} (hstep : ∀ s a t, P s → ok s a → M.step s a=some t → ok' s a ∧ P t)
    {s t : σ} (hs : P s) (hr : Run M ok s t) : Run M ok' s t ∧ P t := by
  induction hr with
  | refl => exact ⟨.refl _,hs⟩
  | tail _ hok hst ih =>
    obtain ⟨hok',hp⟩ := hstep _ _ _ ih.2 hok hst
    exact ⟨ih.1.tail hok' hst,hp⟩

theorem Reachable.strengthen {P : σ → Prop} (h₀ : ∀ s, M.init s → P s)
    (hstep : ∀ s a t, P s → ok s a → M.step s a=some t → ok' s a ∧ P t)
    {s : σ} (hs : Reachable M ok s) : Reachable M ok' s ∧ P s := by
  obtain ⟨s₀,hi,hr⟩ := hs
  obtain ⟨hr',hp⟩ := hr.strengthen hstep (h₀ _ hi)
  exact ⟨⟨s₀,hi,hr'⟩,hp⟩

/-- The guard of a step that was taken, and the state it led to. -/
theorem of_guard {c : Prop} [Decidable c] {s t : σ} (h : (if c then some s else none)=some t) : c ∧ s=t :=
  (Option.ite_none_right_eq_some.mp h).imp_right Option.some.inj

/-- Execute a list of labels, failing at the first step that is not enabled. -/
def exec (M : Machine σ α) : σ → List α → Option σ
  | s, [] => some s
  | s, a :: as => (M.step s a).bind fun t => exec M t as

/-- Execute a list of labels whose steps all satisfy a decidable guard. -/
def execGuarded (M : Machine σ α) (ok : σ → α → Bool) : σ → List α → Option σ
  | s, [] => some s
  | s, a :: as => if ok s a then (M.step s a).bind fun t => execGuarded M ok t as else none

theorem run_of_execGuarded {g : σ → α → Bool} (hg : ∀ s a, g s a=true → ok s a)
    {as : List α} {s t : σ} (h : execGuarded M g s as=some t) : Run M ok s t := by
  induction as generalizing s with
  | nil =>
    cases h
    exact .refl _
  | cons a as ih =>
    unfold execGuarded at h
    split_ifs at h with hga
    obtain ⟨u,hu,ht⟩ := Option.bind_eq_some_iff.mp h
    exact (Run.single (hg s a hga) hu).trans (ih ht)

theorem run_of_exec {as : List α} {s t : σ} (h : exec M s as=some t) : Run M anyStep s t := by
  induction as generalizing s with
  | nil =>
    cases h
    exact .refl _
  | cons a as ih =>
    obtain ⟨u,hu,ht⟩ := Option.bind_eq_some_iff.mp h
    exact (Run.single trivial hu).trans (ih ht)

/-- A trace that ends in a state with the checked property. -/
theorem exists_run_of_exec {as : List α} {s : σ} {p : σ → Bool}
    (h : (exec M s as).any p=true) : ∃ t, Run M anyStep s t ∧ p t=true := by
  cases ht : exec M s as with
  | none =>
    rw [ht] at h
    cases h
  | some t =>
    rw [ht] at h
    exact ⟨t,run_of_exec ht,h⟩

/-- A guarded trace that ends in a state with the checked property. -/
theorem exists_run_of_execGuarded {g : σ → α → Bool} (hg : ∀ s a, g s a=true → ok s a) {as : List α} {s : σ} {p : σ → Bool}
    (h : (execGuarded M g s as).any p=true) : ∃ t, Run M ok s t ∧ p t=true := by
  cases ht : execGuarded M g s as with
  | none =>
    rw [ht] at h
    cases h
  | some t =>
    rw [ht] at h
    exact ⟨t,run_of_execGuarded hg ht,h⟩

end

end FishStore.Runs
