import Mathlib

/-!
# Text that is printed item by item and read back word by word

A reader skips white space, takes a value off the front of a text and leaves the rest;
it fails where a stream sets its failure bit. A printed item is read back if it ends in
white space and the reader stops there. What two items leave to be read may differ in
leading white space only, so printed items can be put one after the other.
-/

namespace FishStore.TextStream

open List

/-- The characters of a file or of a string. -/
abbrev Text := List Char

/-- White space, as a stream skips it. -/
def isSpace (c : Char) : Bool := c == ' ' || (9 ≤ c.toNat && c.toNat ≤ 13)

/-- The text without its leading white space. -/
def trim (s : Text) : Text := s.dropWhile isSpace

/-- A reader: the value and the rest of the text, or none when the stream fails. -/
abbrev Reader (α : Type) := StateT Text Option α

/-- A character of a word. -/
def inWord (c : Char) : Bool := !isSpace c

/-- Extraction of a string: the characters up to the next white space. -/
def word : Reader Text := fun s =>
  let w := (trim s).takeWhile inWord
  if w = [] then none else some (w, (trim s).dropWhile inWord)

/-- The number that decimal digits stand for. -/
def numeral (ds : Text) : ℕ := ds.foldl (fun n c => 10 * n + (c.toNat - 48)) 0

/-- The sign of a number and what follows it. -/
def sign : Text → Bool × Text
  | '-' :: s => (true, s)
  | '+' :: s => (false, s)
  | s => (false, s)

/-- Extraction of an unsigned integer. A sign is accepted, and negates modulo the size. -/
def unsigned (bits : ℕ) : Reader ℕ := fun s =>
  let t := sign (trim s)
  let ds := t.2.takeWhile Char.isDigit
  if ds = [] ∨ 2 ^ bits ≤ numeral ds then none
  else some (if t.1 then (2 ^ bits - numeral ds) % 2 ^ bits else numeral ds, t.2.dropWhile Char.isDigit)

/-- Extraction of a signed integer. -/
def signed (bits : ℕ) : Reader ℤ := fun s =>
  let t := sign (trim s)
  let ds := t.2.takeWhile Char.isDigit
  let z : ℤ := if t.1 then -(numeral ds : ℤ) else numeral ds
  if ds = [] ∨ z < -2 ^ (bits - 1) ∨ 2 ^ (bits - 1) ≤ z then none
  else some (z, t.2.dropWhile Char.isDigit)

/-- Read a number of items. -/
def times {α : Type} (r : Reader α) : ℕ → Reader (List α)
  | 0 => pure []
  | n + 1 => do
    let a ← r
    let as ← times r n
    pure (a :: as)

/-- A decimal number, as it is printed. -/
def natText (n : ℕ) : Text := Nat.toDigits 10 n

/-- A decimal number with its sign, as it is printed. -/
def intText (z : ℤ) : Text := if z < 0 then '-' :: natText z.natAbs else natText z.natAbs

/-- A string that is extracted as a whole: not empty, and without white space. -/
def IsWord (w : Text) : Prop := w ≠ [] ∧ ∀ c ∈ w, isSpace c = false

theorem isWord_iff {w : Text} : (w ≠ [] ∧ w.all inWord=true) ↔ IsWord w := by
  simp only [IsWord,inWord,all_eq_true,Bool.not_eq_true']

instance (w : Text) : Decidable (IsWord w) := decidable_of_iff _ isWord_iff

/-- The reader takes the text as the value, up to white space around it. -/
def Reads {α : Type} (r : Reader α) (text : Text) (a : α) : Prop :=
  ∀ s rest, trim s = trim (text ++ rest) → ∃ s', r s = some (a, s') ∧ trim s' = trim rest

section

variable {α β : Type} {a : α} {b : β} {text text' w s rest : Text} {c : Char} {n : ℕ}

theorem trim_cons_space (h : isSpace c=true) (s : Text) : trim (c::s)=trim s := dropWhile_cons_of_pos h

theorem trim_of_head (h : ∀ c ∈ s.head?, isSpace c=false) : trim s=s := by
  cases s with
  | nil => rfl
  | cons c s =>
    refine dropWhile_cons_of_neg ?_
    rw [h c rfl]
    exact Bool.false_ne_true

theorem reads_pure (a : α) : Reads (pure a) [] a := fun s _ h => ⟨s,rfl,h⟩

/-- Printed items are read one after the other. -/
theorem Reads.bind {r : Reader α} {f : α → Reader β} (hr : Reads r text a) (hf : Reads (f a) text' b) :
    Reads (r >>= f) (text ++ text') b := by
  intro s rest hs
  rw [append_assoc] at hs
  obtain ⟨s₁,h₁,ht₁⟩ := hr s (text' ++ rest) hs
  obtain ⟨s₂,h₂,ht₂⟩ := hf s₁ rest ht₁
  refine ⟨s₂,?_,ht₂⟩
  change (r s).bind (fun p => f p.1 p.2)=_
  rw [h₁]
  exact h₂

theorem Reads.map {r : Reader α} (hr : Reads r text a) (f : α → β) : Reads (f <$> r) text (f a) := by
  have h := hr.bind (f := fun x => pure (f x)) (reads_pure (f a))
  rw [append_nil] at h
  exact h

/-- The items of a list are read back. -/
theorem reads_times {r : Reader α} {print : α → Text} {l : List α} (h : ∀ x ∈ l, Reads r (print x) x) :
    Reads (times r l.length) (l.flatMap print) l := by
  induction l with
  | nil => exact reads_pure []
  | cons x l ih =>
    have htail := ih fun y hy => h y (mem_cons_of_mem _ hy)
    have hpure : Reads (pure (x::l)) [] (x::l) := reads_pure (x::l)
    have hrest := htail.bind (f := fun as => pure (x::as)) hpure
    rw [append_nil] at hrest
    exact (h x mem_cons_self).bind hrest

/-- A word that is followed by white space is read back. -/
theorem reads_word (hw : IsWord w) (hc : isSpace c=true) : Reads word (w ++ [c]) w := by
  intro s rest hs
  obtain ⟨hne,hall⟩ := hw
  have hhead : trim (w ++ [c] ++ rest)=w ++ c::rest := by
    rw [append_assoc]
    refine trim_of_head fun d hd => ?_
    obtain ⟨x,w',rfl⟩ := exists_cons_of_ne_nil hne
    cases hd
    exact hall _ mem_cons_self
  have hkeep : ∀ d ∈ w, inWord d=true := by
    intro d hd
    unfold inWord
    rw [hall d hd]
    rfl
  have hstop : ¬inWord c=true := by
    unfold inWord
    rw [hc]
    exact Bool.false_ne_true
  refine ⟨c::rest,?_,trim_cons_space hc rest⟩
  unfold word
  rw [hs,hhead]
  dsimp only
  rw [takeWhile_append_of_pos hkeep,dropWhile_append_of_pos hkeep,
    takeWhile_cons_of_neg hstop,dropWhile_cons_of_neg hstop,append_nil,if_neg hne]

theorem word_isWord (h : word s=some (w, rest)) : IsWord w := by
  unfold word at h
  dsimp only at h
  split_ifs at h with hne
  cases h
  refine ⟨hne,fun c hc => ?_⟩
  have hkeep := mem_takeWhile_imp hc
  unfold inWord at hkeep
  rwa [Bool.not_eq_true'] at hkeep

/-- Every item of a list that was read is one that the reader returned. -/
theorem times_forall {r : Reader α} {P : α → Prop} (hr : ∀ s a s', r s=some (a, s') → P a) {l : List α} :
    ∀ {n : ℕ} {s : Text}, times r n s=some (l, rest) → ∀ x ∈ l, P x := by
  intro n
  induction n generalizing l with
  | zero =>
    intro s h x hx
    cases h
    cases hx
  | succ n ih =>
    intro s h
    change (r s).bind (fun p => (times r n p.2).bind fun q => some (p.1::q.1, q.2))=_ at h
    obtain ⟨⟨a,s₁⟩,h₁,h⟩ := Option.bind_eq_some_iff.mp h
    obtain ⟨⟨as,s₂⟩,h₂,h⟩ := Option.bind_eq_some_iff.mp h
    cases h
    intro x hx
    rcases mem_cons.mp hx with rfl | hx
    · exact hr _ _ _ h₁
    · exact ih h₂ x hx

theorem numeral_append (ds : Text) (c : Char) : numeral (ds ++ [c])=10*numeral ds+(c.toNat - 48) := by
  unfold numeral
  rw [foldl_append]
  rfl

/-- The digits of a number stand for it. -/
theorem numeral_natText (n : ℕ) : numeral (natText n)=n := by
  unfold natText
  induction n using Nat.strong_induction_on with
  | _ n ih =>
    rw [Nat.toDigits_eq_if (by decide)]
    split_ifs with hn
    · change 10*0+_=n
      rw [Nat.toNat_digitChar_sub_48_of_lt_ten hn]
      omega
    · rw [numeral_append,ih (n/10) (by omega),Nat.toNat_digitChar_sub_48_of_lt_ten (by omega)]
      omega

theorem isDigit_natText (h : c ∈ natText n) : c.isDigit=true := Nat.isDigit_of_mem_toDigits (by decide) (by decide) h

theorem natText_ne_nil (n : ℕ) : natText n ≠ [] := Nat.toDigits_ne_nil

/-- No digit is white space or a sign. -/
theorem isDigit_spec (h : c.isDigit=true) : isSpace c=false ∧ c ≠ '-' ∧ c ≠ '+' := by
  have hc : 48≤c.toNat ∧ c.toNat≤57 := by
    unfold Char.isDigit at h
    rw [Bool.and_eq_true,decide_eq_true_eq,decide_eq_true_eq] at h
    exact ⟨UInt32.le_iff_toNat_le.mp h.1,UInt32.le_iff_toNat_le.mp h.2⟩
  refine ⟨?_,?_,?_⟩
  · unfold isSpace
    rw [Bool.or_eq_false_iff,beq_eq_false_iff_ne,Bool.and_eq_false_iff]
    refine ⟨?_,Or.inr ?_⟩
    · rintro rfl
      exact absurd hc.1 (by decide)
    · rw [decide_eq_false_iff_not]
      omega
  · rintro rfl
    exact absurd hc.1 (by decide)
  · rintro rfl
    exact absurd hc.1 (by decide)

theorem isDigit_of_isSpace (h : isSpace c=true) : c.isDigit=false := by
  by_contra hd
  rw [Bool.not_eq_false] at hd
  rw [(isDigit_spec hd).1] at h
  cases h

theorem sign_minus (s : Text) : sign ('-'::s)=(true, s) := rfl

theorem sign_of_digit (h : ∀ c ∈ s.head?, c.isDigit=true) : sign s=(false, s) := by
  unfold sign
  split
  · exact absurd rfl (isDigit_spec (h '-' rfl)).2.1
  · exact absurd rfl (isDigit_spec (h '+' rfl)).2.2
  · rfl

/-- The digits of a number that white space follows. -/
theorem natText_digits (n : ℕ) (hc : isSpace c=true) (rest : Text) :
    trim (natText n ++ c::rest)=natText n ++ c::rest ∧ sign (natText n ++ c::rest)=(false, natText n ++ c::rest) ∧
      (natText n ++ c::rest).takeWhile Char.isDigit=natText n ∧ (natText n ++ c::rest).dropWhile Char.isDigit=c::rest := by
  have hhead : ∀ d ∈ (natText n ++ c::rest).head?, d.isDigit=true := by
    intro d hd
    obtain ⟨x,w,hx⟩ := exists_cons_of_ne_nil (natText_ne_nil n)
    rw [hx] at hd
    cases hd
    refine isDigit_natText (n := n) ?_
    rw [hx]
    exact mem_cons_self
  have hall : ∀ d ∈ natText n, d.isDigit=true := fun d hd => isDigit_natText hd
  have hstop : ¬c.isDigit=true := by
    rw [isDigit_of_isSpace hc]
    exact Bool.false_ne_true
  refine ⟨trim_of_head fun d hd => (isDigit_spec (hhead d hd)).1,sign_of_digit hhead,?_,?_⟩
  · rw [takeWhile_append_of_pos hall,takeWhile_cons_of_neg hstop,append_nil]
  · rw [dropWhile_append_of_pos hall,dropWhile_cons_of_neg hstop]

/-- A number that fits is read back. -/
theorem reads_unsigned {bits : ℕ} (hn : n<2^bits) (hc : isSpace c=true) : Reads (unsigned bits) (natText n ++ [c]) n := by
  intro s rest hs
  obtain ⟨htrim,hsign,htake,hdrop⟩ := natText_digits n hc rest
  rw [append_assoc] at hs
  refine ⟨c::rest,?_,trim_cons_space hc rest⟩
  unfold unsigned
  rw [hs]
  dsimp only [singleton_append]
  rw [htrim,hsign]
  dsimp only
  rw [htake,hdrop,numeral_natText,if_neg]
  · rfl
  · rintro (hnil | hle)
    · exact natText_ne_nil n hnil
    · omega

/-- A number with a sign that fits is read back. -/
theorem reads_signed (bits : ℕ) {z : ℤ} (hlo : -2^(bits - 1)≤z) (hhi : z<2^(bits - 1))
    (hc : isSpace c=true) : Reads (signed bits) (intText z ++ [c]) z := by
  intro s rest hs
  obtain ⟨htrim,hsign,htake,hdrop⟩ := natText_digits z.natAbs hc rest
  rw [append_assoc] at hs
  have hin : ∀ x : ℤ, x=z → ¬(natText z.natAbs=[] ∨ x < -2^(bits - 1) ∨ 2^(bits - 1)≤x) := by
    rintro x rfl (hnil | hlt | hle)
    · exact natText_ne_nil _ hnil
    · exact absurd hlo (not_le.mpr hlt)
    · exact absurd hhi (not_lt.mpr hle)
  refine ⟨c::rest,?_,trim_cons_space hc rest⟩
  unfold signed
  rw [hs]
  unfold intText
  by_cases hz : z<0
  · rw [if_pos hz]
    have hminus : trim (('-'::natText z.natAbs) ++ ([c] ++ rest)) = '-'::(natText z.natAbs ++ c::rest) :=
      dropWhile_cons_of_neg (by decide)
    rw [hminus,sign_minus]
    dsimp only
    rw [htake,hdrop,numeral_natText,if_neg (hin _ ?_)]
    · simp only [if_true,Option.some.injEq,Prod.mk.injEq,and_true]
      omega
    · simp only [if_true]
      omega
  · rw [if_neg hz]
    dsimp only [singleton_append]
    rw [htrim,hsign]
    dsimp only
    rw [htake,hdrop,numeral_natText,if_neg (hin _ ?_)]
    · simp only [Bool.false_eq_true,if_false,Option.some.injEq,Prod.mk.injEq,and_true]
      omega
    · simp only [Bool.false_eq_true,if_false]
      omega

/-- Items that follow white space are items that white space follows. -/
theorem flatMap_shift (print : α → Text) (c : Char) (l : List α) (rest : Text) :
    l.flatMap (fun x => c::print x) ++ c::rest=c::(l.flatMap (fun x => print x ++ [c]) ++ rest) := by
  induction l with
  | nil => rfl
  | cons x l ih =>
    rw [flatMap_cons,append_assoc,ih,flatMap_cons]
    simp only [cons_append,append_assoc,nil_append]

end

end FishStore.TextStream
