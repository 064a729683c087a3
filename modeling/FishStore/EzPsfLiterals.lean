import FishStore.TextStream

/-!
# The literals of EzPsf

The lexer lets underscores stand between digits, an `f` behind a floating number, and puts
both quotes into the text of a string. `visitLiteral` hands that text to `std::stoi`,
`std::stod` and `substr`.
-/

namespace FishStore.EzPsf

open TextStream List

/-- The literal nodes. -/
inductive Lit (D : Type)
  | int32 (v : BitVec 32)
  | int64 (v : BitVec 64)
  | double (v : D)
  | bool (v : Bool)
  | string (v : List Char)
  deriving DecidableEq

/-- `INT`. -/
def IsInt (s : Text) : Prop := (∃ c ∈ s.head?, c.isDigit = true) ∧ ∀ c ∈ s, c.isDigit = true ∨ c = '_'

/-- `'f'?`. -/
def IsSuffix (s : Text) : Prop := s=[] ∨ s=['f']

/-- `FLOAT`. -/
inductive IsFloat : Text → Prop
  | point {w r f : Text} (hw : w=[] ∨ IsInt w) (hr : IsInt r) (hf : IsSuffix f) : IsFloat (w ++ '.'::r++f)
  | whole {w f : Text} (hw : IsInt w) (hf : IsSuffix f) : IsFloat (w++['.']++f)
  | suffix {w : Text} (hw : IsInt w) : IsFloat (w++['f'])

/-- What stands in a `STRING` of that quote, without backslashes. -/
def IsBody (quote : Char) (s : Text) : Prop :=
  ∀ c ∈ s, c≠quote ∧ c ≠ '\r' ∧ c ≠ '\n' ∧ c ≠ '\\'

/-- The tokens of literals with a text of their own. -/
inductive Token
  | int (text : Text) (h : IsInt text)
  | float (text : Text) (h : IsFloat text)
  | string (quote : Char) (body : Text) (hq : quote=Char.ofNat 34 ∨ quote=Char.ofNat 39) (h : IsBody quote body)

/-- `getText`. -/
def Token.getText : Token → Text
  | .int text _ | .float text _ => text
  | .string quote body _ _ => quote::body++[quote]

/-- The doubles of the C library: the one nearest to a number, and the numbers that `strtod`
does not report as out of range. -/
structure Strtod (D : Type) where
  nearest : ℚ → D
  inRange : ℚ → Bool

/-- The digits behind a point. -/
def fraction : Text → Text
  | [] => []
  | c::s => if c = '.' then s.takeWhile Char.isDigit else []

/-- The decimal number that a text begins with. No token has a sign or an exponent. -/
def decimal (s : Text) : ℚ :=
  let digits := fraction (s.dropWhile Char.isDigit)
  numeral (s.takeWhile Char.isDigit)+numeral digits/10^digits.length

variable {D : Type}

/-- `std::stoi`, which throws where there is no result. -/
def stoi (s : Text) : Option (BitVec 32) := (signed 32 s).map fun r => .ofInt 32 r.1

/-- `std::stod`. -/
def stod (lib : Strtod D) (s : Text) : Option D :=
  if lib.inRange (decimal s) then some (lib.nearest (decimal s)) else none

/-- `substr`. -/
def substr (s : Text) (pos count : ℕ) : Text := (s.drop pos).take count

/-- `visitLiteral`. -/
def visitLiteral (lib : Strtod D) (t : Token) : Option (Lit D) :=
  match t with
  | .int text _ => (stoi text).map .int32
  | .float text _ => (stod lib text).map .double
  | .string .. => some (.string (substr t.getText 1 (t.getText.length-1)))

/-- The text without underscores. -/
def joined (s : Text) : Text := s.filter (· ≠ '_')

/-- What is written: the decimal value of the digits, as an `Int32` if it fits, and the
characters between the quotes. -/
def Token.written (lib : Strtod D) : Token → Option (Lit D)
  | .int text _ =>
    if numeral (joined text)<2^31 then some (.int32 (.ofNat 32 (numeral (joined text)))) else none
  | .float text _ => some (.double (lib.nearest (decimal ((joined text).filter (· ≠ 'f')))))
  | .string _ body _ _ => some (.string body)

/-- A number without underscores and, for a double, in range. -/
def Token.Clean (lib : Strtod D) : Token → Prop
  | .int text _ => '_' ∉ text
  | .float text _ => '_' ∉ text ∧ lib.inRange (decimal text) = true
  | .string .. => False

section

variable {s w : Text}

theorem joined_eq (h : '_' ∉ s) : joined s=s := by
  refine filter_eq_self.mpr fun c hc => ?_
  rw [decide_eq_true_eq]
  rintro rfl
  exact h hc

theorem IsInt.ne_f (h : IsInt s) : ∀ c ∈ s, c ≠ 'f' := by
  rintro c hc rfl
  rcases h.2 _ hc with hd | hu
  · exact absurd hd (by decide)
  · exact absurd hu (by decide)

/-- `strtol` takes all of the digits. -/
theorem stoi_eq (h : IsInt s) (hu : '_' ∉ s) : stoi s=if numeral s<2^31 then some (.ofNat 32 (numeral s)) else none := by
  have hdigit : ∀ c ∈ s, c.isDigit=true := by
    intro c hc
    rcases h.2 c hc with hd | rfl
    · exact hd
    · exact absurd hc hu
  have hhead : ∀ c ∈ s.head?, c.isDigit=true := fun c hc => hdigit c (mem_of_mem_head? hc)
  have hne : s≠[] := by
    rintro rfl
    obtain ⟨c,hc,-⟩ := h.1
    cases hc
  have htrim : trim s=s := trim_of_head fun c hc => (isDigit_spec (hhead c hc)).1
  unfold stoi signed
  dsimp only
  rw [htrim,sign_of_digit hhead]
  dsimp only
  rw [takeWhile_eq_self_iff.mpr hdigit]
  by_cases hlt : numeral s<2^31
  · rw [if_pos hlt,if_neg]
    · rfl
    · rintro (hnil|hlow|hhigh)
      · exact hne hnil
      · simp only [Bool.false_eq_true,if_false] at hlow
        omega
      · simp only [Bool.false_eq_true,if_false] at hhigh
        omega
  · rw [if_neg hlt,if_pos]
    · rfl
    · refine .inr (.inr ?_)
      simp only [Bool.false_eq_true,if_false]
      omega

/-- What is behind an `f` is not read. -/
theorem decimal_suffix (s : Text) : decimal (s++['f'])=decimal s := by
  have htake : ∀ s : Text, (s++['f']).takeWhile Char.isDigit=s.takeWhile Char.isDigit := by
    intro s
    rw [takeWhile_append]
    split_ifs with hall
    · rw [takeWhile_cons_of_neg (by decide),append_nil]
      exact ( takeWhile_prefix _).eq_of_length hall |>.symm
    · rfl
  have hdrop : (s++['f']).dropWhile Char.isDigit=s.dropWhile Char.isDigit++['f'] := by
    rw [dropWhile_append]
    split_ifs with hnil
    · rw [isEmpty_iff.mp hnil]
      rfl
    · rfl
  have hfraction : fraction (s.dropWhile Char.isDigit++['f'])=fraction (s.dropWhile Char.isDigit) := by
    cases s.dropWhile Char.isDigit with
    | nil => rfl
    | cons c rest =>
      unfold fraction
      rw [cons_append]
      dsimp only
      rw [htake]
  unfold decimal
  rw [htake,hdrop,hfraction]

/-- The suffix of a floating number is its only `f`. -/
theorem decimal_filter (h : IsFloat s) : decimal (s.filter (· ≠ 'f'))=decimal s := by
  have hend : ∀ w f : Text, (∀ c ∈ w, c ≠ 'f') → IsSuffix f → decimal ((w++f).filter (· ≠ 'f'))=decimal (w++f) := by
    intro w f hw hf
    have hself : w.filter (· ≠ 'f')=w := filter_eq_self.mpr fun c hc => decide_eq_true (hw c hc)
    rw [filter_append,hself]
    rcases hf with rfl | rfl
    · rfl
    · rw [decimal_suffix]
      exact congrArg decimal (append_nil w)
  cases h with
  | @point w r f hw hr hf =>
    refine hend _ _ (fun c hc => ?_) hf
    rcases mem_append.mp hc with hcw | hcr
    · rcases hw with rfl | hw
      · cases hcw
      · exact hw.ne_f c hcw
    · rcases mem_cons.mp hcr with rfl | hcr
      · decide
      · exact hr.ne_f c hcr
  | @whole w f hw hf =>
    refine hend _ _ (fun c hc => ?_) hf
    rcases mem_append.mp hc with hcw | hcr
    · exact hw.ne_f c hcw
    · rw [mem_singleton.mp hcr]
      decide
  | suffix hw => exact hend _ _ hw.ne_f (.inr rfl)

/-- The substring begins behind the first quote and ends with the last one. -/
theorem substr_quoted (quote : Char) (body : Text) :
    substr (quote::body++[quote]) 1 ((quote::body++[quote]).length-1)=body++[quote] := by
  change (body++[quote]).take (body++[quote]).length=_
  exact take_length

end

/-- A number without underscores and in range denotes what is written. A string never does:
its node has the closing quote. -/
theorem visitLiteral_written (lib : Strtod D) (t : Token) :
    (t.Clean lib → visitLiteral lib t=t.written lib) ∧
      (∀ quote body hq hb, t=.string quote body hq hb → visitLiteral lib t≠t.written lib) := by
  refine ⟨fun h => ?_,?_⟩
  · cases t with
    | int text hi =>
      unfold visitLiteral Token.written
      dsimp only
      rw [stoi_eq hi h,joined_eq h]
      split_ifs <;> rfl
    | float text hf =>
      obtain ⟨hu,hrange⟩ := h
      unfold visitLiteral Token.written stod
      dsimp only
      rw [joined_eq hu,decimal_filter hf,if_pos hrange]
      rfl
    | string => exact h.elim
  · rintro quote body hq hb rfl heq
    unfold visitLiteral Token.getText Token.written at heq
    dsimp only at heq
    rw [substr_quoted] at heq
    injection heq with hlit
    injection hlit with hbody
    exact absurd (congrArg length hbody) (by simp)

/-- Doubles without fractions, to evaluate examples with. -/
def integers : Strtod ℤ := ⟨Rat.floor,fun _ => true⟩

/-- `1_0` is one, and the string of an `a` ends in a quote. -/
theorem visitLiteral_underscore :
    (∃ h, visitLiteral integers (.int ['1','_','0'] h)=some (.int32 1) ∧
      Token.written integers (.int ['1','_','0'] h)=some (.int32 10)) ∧
    ∃ hq h, visitLiteral integers (.string (Char.ofNat 34) ['a'] hq h)=some (.string ['a',Char.ofNat 34]) := by
  refine ⟨⟨⟨⟨'1',rfl,by decide⟩,by simp⟩,rfl,rfl⟩,.inl rfl,?_,rfl⟩
  intro c hc
  rw [mem_singleton.mp hc]
  decide

end FishStore.EzPsf
