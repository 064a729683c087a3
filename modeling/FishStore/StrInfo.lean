import Mathlib

/-!
# The comparison of strings

`FUNC_STR_CMP` compares two strings with `strncmp` up to the shorter length, and then by their
lengths. `strncmp` stops at a null byte, and the difference of the lengths is narrowed to `int`.
-/

namespace FishStore.StrInfo

/-- `strncmp`: the first bytes that differ, if there is no null byte before them. Only the sign
of the result is specified. -/
def strncmp : ℕ → List UInt8 → List UInt8 → ℤ
  | n+1, a::s, b::t => if a=b then if a=0 then 0 else strncmp n s t else a.toNat-b.toNat
  | _, _, _ => 0

/-- The conversion from `int64_t` to `int`. -/
def toInt (n : ℤ) : ℤ := n.bmod (2^32)

/-- `FUNC_STR_CMP`, for sizes below `2^63`. -/
def funcStrCmp (s₁ s₂ : List UInt8) : ℤ :=
  let result := strncmp (min s₁.length s₂.length) s₁ s₂
  if result=0 then toInt (s₁.length-s₂.length) else result

/-- The order without the narrowing: `strncmp` first, then the lengths. -/
def Le (s t : List UInt8) : Prop :=
  strncmp (min s.length t.length) s t<0 ∨
    strncmp (min s.length t.length) s t=0 ∧ s.length≤t.length

variable {s t u : List UInt8} {a b : UInt8}

theorem strncmp_swap (n : ℕ) (s t : List UInt8) : strncmp n t s=-strncmp n s t := by
  induction n generalizing s t with
  | zero => rfl
  | succ n ih =>
    rcases s with _ | ⟨a,s⟩ <;> rcases t with _ | ⟨b,t⟩ <;> try rfl
    simp only [strncmp]
    by_cases hab : a=b
    · rw [if_pos hab,if_pos hab.symm,hab]
      split_ifs
      · rfl
      · exact ih s t
    · rw [if_neg hab,if_neg (Ne.symm hab)]
      ring

/-- Strings without a null byte that `strncmp` does not tell apart. -/
theorem eq_of_strncmp (hs : 0 ∉ s) (hlen : s.length=t.length) (h : strncmp (min s.length t.length) s t=0) : s=t := by
  induction s generalizing t with
  | nil => exact (List.length_eq_zero_iff.mp hlen.symm).symm
  | cons a s ih =>
    obtain _ | ⟨b,t⟩ := t
    · cases hlen
    rw [List.length_cons,List.length_cons,Nat.add_min_add_right,strncmp] at h
    rw [List.mem_cons,not_or] at hs
    split_ifs at h with hab hzero
    · exact absurd hzero.symm hs.1
    · rw [hab,ih hs.2 (Nat.succ.inj hlen) h]
    · exact absurd (UInt8.toNat_inj.mp (by omega)) hab

theorem le_nil : Le (a::s) [] ↔ False := by simp [Le,strncmp]

/-- The first bytes decide, unless they are the same and not null. -/
theorem le_cons : Le (a::s) (b::t) ↔
    a.toNat<b.toNat ∨ a=b ∧ (if a=0 then s.length≤t.length else Le s t) := by
  unfold Le
  rw [List.length_cons,List.length_cons,Nat.add_min_add_right,strncmp]
  by_cases hab : a=b
  · subst hab
    simp only [if_true,lt_irrefl,false_or,true_and]
    split_ifs <;> simp
  · have hne : a.toNat≠b.toNat := mt UInt8.toNat_inj.mp hab
    rw [if_neg hab]
    simp only [hab,false_and,or_false]
    omega

theorem Le.trans (h : Le s t) (h' : Le t u) : Le s u := by
  induction s generalizing t u with
  | nil => exact .inr ⟨by simp [strncmp],Nat.zero_le _⟩
  | cons a s ih =>
    obtain _ | ⟨b,t⟩ := t
    · exact (le_nil.mp h).elim
    obtain _ | ⟨c,u⟩ := u
    · exact (le_nil.mp h').elim
    rw [le_cons] at h h' ⊢
    rcases h with h | ⟨rfl,h⟩
    · rcases h' with h' | ⟨rfl,-⟩
      · exact .inl (h.trans h')
      · exact .inl h
    · rcases h' with h' | ⟨rfl,h'⟩
      · exact .inl h'
      · refine .inr ⟨rfl,?_⟩
        split_ifs at h h' ⊢
        · exact h.trans h'
        · exact ih h h'

/-- The lengths of two strings that fit `int` are compared exactly. -/
theorem toInt_sub (hs : s.length<2^31) (ht : t.length<2^31) : toInt (s.length-t.length)=s.length-t.length := by
  unfold toInt
  rw [Int.bmod_eq_of_le] <;> omega

theorem funcStrCmp_nonpos (hs : s.length<2^31) (ht : t.length<2^31) : funcStrCmp s t≤0 ↔ Le s t := by
  unfold funcStrCmp Le
  rw [toInt_sub hs ht]
  dsimp only
  split_ifs <;> omega

end FishStore.StrInfo
