import Mathlib

/-!
# Field paths of the JSON adapter

`SIMDJsonFieldLookup` cuts a field path into member names and array indices with two
pointers into the text. A name ends at a dot or at the end of the text only, so an index
is seen where a component would start, and not behind the name of its array.
-/

namespace FishStore.FieldPaths

open List

/-- `SIMDJsonFieldLookupElement`: a member of an object or an element of an array. -/
inductive Lookup
  | object (keyName : List Char)
  | array (index : ℕ)
  deriving DecidableEq

/-- The character that ends a text. -/
def nul : Char := Char.ofNat 0

/-- `isspace`. -/
def isSpace (c : Char) : Bool := c = ' ' || (9 ≤ c.toNat && c.toNat ≤ 13)

/-- The sign that `strtol` takes, and what follows it. -/
def strtolSign : List Char → ℤ × List Char
  | '-' :: s => (-1, s)
  | '+' :: s => (1, s)
  | s => (1, s)

/-- `strtol` with base ten: the value, and the text from the `end` pointer on. -/
def strtol (s : List Char) : ℤ × List Char :=
  let (sign, body) := strtolSign (s.dropWhile isSpace)
  let digits := body.takeWhile Char.isDigit
  if digits = [] then (0, s)
  else
    let value : ℤ := sign * (digits.foldl (fun n c => 10 * n + (c.toNat - 48)) 0 : ℕ)
    (max (-2 ^ 63) (min (2 ^ 63 - 1) value), body.dropWhile Char.isDigit)

/-- The loop of the constructor. `field` is the text from `start` to `end` and `rest` the
text from `end` on; behind its last character stands `nul`, and behind that nothing may
be read. -/
def scan : ℕ → List Char → List Char → List Lookup → Option (List Lookup)
  | 0, _, _, _ => none
  | fuel + 1, field, rest, lookups =>
    let c := rest.headD nul
    if c = '.' ∨ c = nul then
      if field = [] then some lookups
      else if c = nul then some (lookups ++ [.object field])
      else scan fuel [] rest.tail (lookups ++ [.object field])
    else if (field ++ rest).headD nul = '[' then
      let index := strtol (field ++ rest).tail
      match index.2 with
      | [] => none
      | _ :: rest => scan fuel [] rest (lookups ++ [.array (index.1 % 2 ^ 64).toNat])
    else scan fuel (field ++ [c]) rest.tail lookups

/-- `SIMDJsonFieldLookup`. -/
def fieldLookup (s : List Char) : Option (List Lookup) := scan (s.length + 1) [] s []

/-- The access to values that simdjson provides. -/
structure Access (V : Type) where
  findFieldUnordered : V → List Char → V
  at' : V → ℕ → V

/-- One turn of the loop of `find`. -/
def Access.get {V : Type} (A : Access V) (v : V) : Lookup → V
  | .object k => A.findFieldUnordered v k
  | .array i => A.at' v i

/-- `find`. The first lookup is read as a member name; there has to be one. -/
def find {V : Type} (A : Access V) (source : V) : List Lookup → Option V
  | .object k :: rest => some (rest.foldl A.get (A.findFieldUnordered source k))
  | _ => none

/-- No dots and brackets. -/
def Plain (k : List Char) : Prop := ∀ c ∈ k, c ≠ '.' ∧ c ≠ '[' ∧ c ≠ ']'

/-- A path as the documentation has it: the name of a member, then names and indices. -/
structure Path where
  first : List Char
  rest : List Lookup
  plain : ∀ k, Lookup.object k ∈ Lookup.object first :: rest → Plain k

/-- The components of the path. -/
def Path.lookups (p : Path) : List Lookup := .object p.first :: p.rest

/-- A component behind the first one, in the documented form. -/
def written : Lookup → List Char
  | .object k => '.' :: k
  | .array i => '[' :: Nat.toDigits 10 i ++ [']']

/-- The documented form of a path. -/
def Path.text (p : Path) : List Char := p.first ++ p.rest.flatMap written

/-- The value that a path names. -/
def Path.value {V : Type} (A : Access V) (source : V) (p : Path) : V :=
  p.rest.foldl A.get (A.findFieldUnordered source p.first)

/-- A name that the scanner can read. -/
def Readable (l : Lookup) : Prop := ∃ k, l = .object k ∧ k ≠ [] ∧ nul ∉ k

/-- Where a component of a text starts: at the beginning, behind the dot at the end of a name,
and behind the character that ends the number of an index. -/
inductive Starts (s : List Char) : List Char → Prop
  | first : Starts s s
  | name {k r : List Char} : Starts s (k ++ '.' :: r) → (∀ c ∈ k, c ≠ '.' ∧ c ≠ nul) → k ≠ [] →
      k.head? ≠ some '[' → Starts s r
  | index {r t : List Char} {c : Char} : Starts s ('[' :: r) → (strtol r).2 = c :: t → Starts s t

section

variable {s t : List Char} {fuel : ℕ} {field rest k : List Char} {lookups out cs : List Lookup} {c : Char}

/-- Lookups are only added. -/
theorem prefix_of_scan (h : scan fuel field rest lookups=some out) : lookups <+: out := by
  induction fuel generalizing field rest lookups with
  | zero => cases h
  | succ fuel ih =>
    unfold scan at h
    dsimp only at h
    split_ifs at h with hend hempty hnul hbracket
    · cases h
      exact prefix_rfl
    · cases h
      exact prefix_append _ _
    · exact (prefix_append _ _).trans (ih h)
    · split at h
      · cases h
      · exact (prefix_append _ _).trans (ih h)
    · exact ih h

/-- One character of a name. -/
theorem scan_char (hc : c ≠ '.' ∧ c ≠ nul) (hstart : (field ++ c::rest).headD nul ≠ '[') :
    scan (fuel+1) field (c::rest) lookups=scan fuel (field ++ [c]) rest lookups := by
  rw [scan]
  exact (if_neg (not_or.mpr hc)).trans (if_neg hstart)

/-- The characters of a name. -/
theorem scan_name (hk : ∀ c ∈ k, c ≠ '.' ∧ c ≠ nul) (hstart : (field ++ k).head? ≠ some '[') :
    scan (fuel+k.length) field (k ++ rest) lookups=scan fuel (field ++ k) rest lookups := by
  induction k generalizing field with
  | nil => rw [append_nil]; rfl
  | cons c k ih =>
    have hne : (field ++ c::(k ++ rest)).headD nul ≠ '[' := by cases field <;> simpa using hstart
    rw [length_cons,←Nat.add_assoc,cons_append,scan_char (hk c mem_cons_self) hne,
      ih (fun d hd => hk d (mem_cons_of_mem _ hd)) (by simpa using hstart),append_assoc]
    rfl

theorem scan_word (hk : ∀ c ∈ k, c ≠ '.' ∧ c ≠ nul) (hstart : k.head? ≠ some '[') :
    scan (fuel+k.length) [] (k ++ rest) lookups=scan fuel k rest lookups :=
  scan_name hk hstart

theorem Plain.scan_word (hk : Plain k) (hnul : nul ∉ k) :
    scan (fuel+k.length) [] (k ++ rest) lookups=scan fuel k rest lookups := by
  refine FieldPaths.scan_word (fun c hc => ⟨(hk c hc).1,fun hn => hnul (hn ▸ hc)⟩) fun hb => ?_
  exact (hk _ (mem_of_head? hb)).2.1 rfl

/-- A name once begun is looked up with all that is read up to its end. -/
theorem name_of_scan (hfield : field ≠ []) (hstart : field.headD nul ≠ '[')
    (h : scan fuel field rest lookups=some out) : ∃ k, field <+: k ∧ lookups ++ [.object k] <+: out := by
  induction fuel generalizing field rest with
  | zero => cases h
  | succ fuel ih =>
    unfold scan at h
    dsimp only at h
    split_ifs at h with hend hnul hbracket
    · cases h
      exact ⟨field,prefix_rfl,prefix_rfl⟩
    · exact ⟨field,prefix_rfl,prefix_of_scan h⟩
    · cases field with
      | nil => exact absurd rfl hfield
      | cons d field => exact absurd hbracket hstart
    · obtain ⟨k,hk,hout⟩ := ih (by simp) (by cases field <;> first | exact absurd rfl hfield | exact hstart) h
      exact ⟨k,(prefix_append _ _).trans hk,hout⟩

/-- More fuel changes nothing. -/
theorem scan_add (n : ℕ) (h : scan fuel field rest lookups=some out) : scan (fuel+n) field rest lookups=some out := by
  induction fuel generalizing field rest lookups with
  | zero => cases h
  | succ fuel ih =>
    rw [Nat.add_right_comm]
    unfold scan at h ⊢
    dsimp only at h ⊢
    split_ifs at h ⊢ with hend hempty hnul hbracket
    · exact h
    · exact h
    · exact ih h
    · split at h
      · cases h
      · exact ih h
    · exact ih h

/-- Behind the name of an array the scanner reads on. -/
theorem scan_index_ne {i : ℕ} (hk : Plain k) (hne : k ≠ []) (hnul : nul ∉ k) :
    scan fuel k (written (.array i) ++ rest) lookups ≠ some (lookups ++ .object k::cs) := by
  intro h
  have hhead : ∀ tl, (k ++ tl).headD nul ≠ '[' := by
    intro tl
    cases k with
    | nil => exact absurd rfl hne
    | cons d k => exact (hk d mem_cons_self).2.1
  cases fuel with
  | zero => cases h
  | succ fuel =>
    have hstep : scan (fuel+1) k (written (.array i) ++ rest) lookups =
        scan fuel (k ++ ['[']) _ lookups := scan_char ⟨by decide,by decide⟩ (hhead _)
    obtain ⟨k',hpre,hout⟩ := name_of_scan (by simp) (hhead _) (hstep.symm.trans h)
    have heq : k'=k := by
      have := (prefix_append_right_inj _).mp hout
      simpa using this
    have hlen := hpre.length_le
    rw [heq,length_append,length_singleton] at hlen
    omega

/-- At the end of the text. -/
theorem scan_nul (hc : rest.headD nul=nul) : scan (fuel+1) field rest lookups =
      some (if field=[] then lookups else lookups ++ [.object field]) := by
  rw [scan]
  dsimp only
  rw [if_pos (.inr hc),if_pos hc]
  split_ifs <;> rfl

/-- At a dot. -/
theorem scan_dot : scan (fuel+1) field ('.'::rest) lookups =
    if field=[] then some lookups else scan fuel [] rest (lookups ++ [.object field]) := by
  rw [scan]
  exact if_pos (.inl rfl)

theorem ne_append_cons {l : Lookup} : some lookups ≠ some (lookups ++ l::cs) := by
  intro h
  have hlen := congrArg length (Option.some.inj h)
  rw [length_append,length_cons] at hlen
  omega

/-- At a bracket where a component starts. -/
theorem scan_index : scan (fuel+1) [] ('['::rest) lookups =
    (strtol rest).2.tail?.bind fun r => scan fuel [] r (lookups ++ [.array ((strtol rest).1%2^64).toNat]) := by
  have hend : ¬('[' = '.' ∨ '['=nul) := by decide
  rw [scan]
  refine (if_neg hend).trans ((if_pos rfl).trans ?_)
  cases hr : (strtol rest).2 <;> simp [hr]

theorem index_of_scan (h : scan (fuel+1) [] ('['::rest) lookups=some out) : ∃ i, lookups ++ [.array i] <+: out := by
  rw [scan_index] at h
  obtain ⟨r,-,h⟩ := Option.bind_eq_some_iff.mp h
  exact ⟨_,prefix_of_scan h⟩

/-- A name that is read back is not empty. -/
theorem ne_nil_of_scan (h : scan fuel [] (k ++ cs.flatMap written) lookups=some (lookups ++ .object k::cs)) : k ≠ [] := by
  rintro rfl
  cases fuel with
  | zero => cases h
  | succ fuel =>
    cases cs with
    | nil => exact ne_append_cons ((scan_nul rfl).symm.trans h)
    | cons l cs =>
      cases l with
      | object k' => exact ne_append_cons (scan_dot.symm.trans h)
      | array i =>
        obtain ⟨j,hpre⟩ := index_of_scan h
        cases (cons_prefix_cons.mp ((prefix_append_right_inj _).mp hpre)).1

/-- Nor does it have the character that ends a text. -/
theorem nul_notMem_of_scan (hk : Plain k)
    (h : scan fuel [] (k ++ rest) lookups=some (lookups ++ .object k::cs)) : nul ∉ k := by
  intro hmem
  obtain ⟨k₁,k₂,rfl,hnul⟩ := eq_append_cons_of_mem hmem
  have hk₁ : Plain k₁ := fun c hc => hk c (mem_append_left _ hc)
  have hmore := scan_add (1+k₁.length) h
  rw [←Nat.add_assoc,append_assoc,hk₁.scan_word hnul,scan_nul rfl] at hmore
  split_ifs at hmore with hempty
  · exact ne_append_cons hmore
  · have hlist := append_cancel_left (Option.some.inj hmore)
    have hlen := congrArg length (Lookup.object.inj (cons.inj hlist).1)
    rw [length_append,length_cons] at hlen
    omega

/-- What is read back are names that the scanner can read. -/
theorem readable_of_scan (hk : ∀ k', Lookup.object k' ∈ Lookup.object k::cs → Plain k')
    (h : scan fuel [] (k ++ cs.flatMap written) lookups=some (lookups ++ .object k::cs)) :
    ∀ l ∈ Lookup.object k::cs, Readable l := by
  induction cs generalizing fuel k lookups with
  | nil =>
    have hplain := hk k mem_cons_self
    refine forall_mem_singleton.mpr ⟨k,rfl,ne_nil_of_scan h,nul_notMem_of_scan hplain h⟩
  | cons l cs ih =>
    have hplain := hk k mem_cons_self
    have hne := ne_nil_of_scan h
    have hnul := nul_notMem_of_scan hplain h
    have hmore := scan_add (1+k.length) h
    rw [←Nat.add_assoc,hplain.scan_word hnul,flatMap_cons] at hmore
    cases l with
    | object k' =>
      rw [append_cons lookups,written,cons_append,scan_dot,if_neg hne] at hmore
      refine forall_mem_cons.mpr ⟨⟨k,rfl,hne,hnul⟩,ih (fun k' hk' => ?_) hmore⟩
      exact hk k' (mem_cons_of_mem _ hk')
    | array i => exact absurd hmore (scan_index_ne hplain hne hnul)

/-- Names that the scanner can read are read back. -/
theorem scan_of_readable (hk : ∀ k', Lookup.object k' ∈ Lookup.object k::cs → Plain k')
    (h : ∀ l ∈ Lookup.object k::cs, Readable l) :
    scan ((k ++ cs.flatMap written).length+1) [] (k ++ cs.flatMap written) lookups = some (lookups ++ .object k::cs) := by
  induction cs generalizing k lookups with
  | nil =>
    obtain ⟨k',heq,hne,hnul⟩ := h _ mem_cons_self
    cases heq
    rw [flatMap_nil,length_append,length_nil,Nat.add_zero,Nat.add_comm,
      (hk k mem_cons_self).scan_word hnul,scan_nul rfl,if_neg hne]
  | cons l cs ih =>
    obtain ⟨k',heq,hne,hnul⟩ := h _ mem_cons_self
    cases heq
    obtain ⟨k',rfl,-⟩ := h l (mem_cons_of_mem _ mem_cons_self)
    have htext : k ++ (Lookup.object k'::cs).flatMap written=k ++ '.'::(k' ++ cs.flatMap written) := rfl
    have hlen : (k ++ '.'::(k' ++ cs.flatMap written)).length+1 = (k' ++ cs.flatMap written).length+1+1+k.length := by
      rw [length_append,length_cons]
      omega
    rw [htext,hlen,(hk k mem_cons_self).scan_word hnul,scan_dot,if_neg hne,ih (fun k hk' => hk k (mem_cons_of_mem _ hk')) fun l hl =>
        h l (mem_cons_of_mem _ hl),←append_cons]

theorem length_strtol : (strtol rest).2.length≤rest.length := by
  have hsign : ∀ s, (strtolSign s).2.length ≤ s.length := by
    intro s
    fun_cases strtolSign s <;> simp
  unfold strtol
  dsimp only
  split_ifs
  · exact le_rfl
  · exact ((dropWhile_suffix _).length_le.trans (hsign _)).trans (dropWhile_suffix _).length_le

/-- The scanner ends if no index reaches the end of the text. -/
theorem exists_scan (hopen : ∀ r, Starts s ('['::r) → (strtol r).2 ≠ []) (hs : Starts s (field ++ rest))
    (hfield : ∀ c ∈ field, c ≠ '.' ∧ c ≠ nul) (hb : field.head? ≠ some '[') (hfuel : rest.length<fuel) :
    ∃ out, scan fuel field rest lookups=some out := by
  induction fuel generalizing field rest lookups with
  | zero => cases hfuel
  | succ fuel ih =>
    rcases rest with - | ⟨c,rest⟩
    · exact ⟨_,scan_nul rfl⟩
    have hlen := Nat.lt_of_succ_lt_succ hfuel
    by_cases hdot : c = '.'
    · subst hdot
      rw [scan_dot]
      split_ifs with he
      · exact ⟨_,rfl⟩
      · exact ih (hs.name hfield he hb) (by simp) (by simp) hlen
    by_cases hnul : c=nul
    · exact ⟨_,scan_nul hnul⟩
    by_cases hstart : (field ++ [c]).head?=some '['
    · obtain ⟨rfl,rfl⟩ : field=[] ∧ c = '[' := by cases field <;> simp_all
      obtain ⟨d,r,hr⟩ := exists_cons_of_ne_nil (hopen rest hs)
      have hle : (strtol rest).2.length≤rest.length := length_strtol
      rw [hr,length_cons] at hle
      rw [scan_index,hr]
      exact ih (hs.index hr) (by simp) (by simp) (by omega)
    · rw [scan_char ⟨hdot,hnul⟩ (by cases field <;> simpa using hstart)]
      refine ih (by simpa using hs) (fun d hd => ?_) hstart hlen
      rcases mem_append.mp hd with hd | hd
      · exact hfield d hd
      · rw [mem_singleton.mp hd]
        exact ⟨hdot,hnul⟩

/-- A text that is scanned is scanned from the start of each component. -/
theorem Starts.scan (ht : Starts s t) (h : fieldLookup s=some out) :
    ∃ fuel lookups, FieldPaths.scan fuel [] t lookups=some out := by
  induction ht with
  | first => exact ⟨_,_,h⟩
  | @name k r _ hk hne hb ih =>
    obtain ⟨fuel,lookups,hscan⟩ := ih
    have hmore := scan_add (1+k.length) hscan
    rw [←Nat.add_assoc,scan_word hk hb,scan_dot,if_neg hne] at hmore
    exact ⟨_,_,hmore⟩
  | index _ hr ih =>
    obtain ⟨fuel | fuel,lookups,hscan⟩ := ih
    · cases hscan
    · rw [scan_index,hr] at hscan
      exact ⟨_,_,hscan⟩

end

/-- The scanner reads back the components of a path exactly if all of them are names, none
empty and none with the character that ends a text. Then `find` descends along the path, and
different paths have different lookups. -/
theorem fieldLookup_iff (p : Path) :
    (fieldLookup p.text = some p.lookups ↔ ∀ l ∈ p.lookups, Readable l) ∧
      ((∀ l ∈ p.lookups, Readable l) →
        (∀ (V : Type) (A : Access V) (source : V),
          (fieldLookup p.text).bind (find A source) = some (p.value A source)) ∧
        ∀ q : Path, (∀ l ∈ q.lookups, Readable l) → p.lookups ≠ q.lookups →
          fieldLookup p.text ≠ fieldLookup q.text) := by
  have hread : ∀ p : Path, (∀ l ∈ p.lookups, Readable l) → fieldLookup p.text=some p.lookups :=
    fun p h => scan_of_readable p.plain h
  refine ⟨⟨fun h => readable_of_scan p.plain h,hread p⟩,fun h => ⟨fun V A source => ?_,fun q hq hne heq => ?_⟩⟩
  · rw [hread p h]
    rfl
  · rw [hread p h,hread q hq] at heq
    exact hne (Option.some.inj heq)

/-- The documented example `a[0].b`: its array is taken for a member named `a[0]`. An empty
name at the end of a path is dropped. -/
theorem index_read_as_name :
    ∃ p : Path, p.text = "a[0].b".toList ∧ p.lookups = [.object ['a'], .array 0, .object ['b']] ∧
      fieldLookup p.text = some [.object "a[0]".toList, .object ['b']] ∧
      fieldLookup "a.".toList = fieldLookup "a".toList :=
  ⟨⟨['a'],[.array 0,.object ['b']],by simp [Plain]⟩,by decide,rfl,by decide,by decide⟩

/-- The scanner stays inside a text and makes a lookup exactly if the text starts neither with
a dot nor with its end, and no index reaches the end. -/
theorem fieldLookup_safe_iff (s : List Char) : (∃ lookups, fieldLookup s = some lookups ∧ lookups ≠ []) ↔
    s.headD nul ≠ '.' ∧ s.headD nul ≠ nul ∧ ∀ r, Starts s ('[' :: r) → (strtol r).2 ≠ [] := by
  constructor
  · rintro ⟨out,h,hne⟩
    refine ⟨fun hdot => ?_,fun hnul => ?_,fun r hr hnil => ?_⟩
    · rcases s with - | ⟨c,s⟩
      · cases hdot
      · cases (show c = '.' from hdot)
        exact hne (Option.some.inj (h.symm.trans scan_dot))
    · exact hne (Option.some.inj (h.symm.trans (scan_nul hnul)))
    · obtain ⟨fuel | fuel,lookups,hscan⟩ := hr.scan h
      · cases hscan
      · rw [scan_index,hnil] at hscan
        cases hscan
  · rintro ⟨hdot,hnul,hopen⟩
    have hs : Starts s ([] ++ s) := .first
    obtain ⟨out,h⟩ : ∃ out, fieldLookup s=some out := exists_scan hopen hs (by simp) (by simp) (by simp)
    have hlook : ∃ l, [l] <+: out := by
      rcases s with - | ⟨c,s⟩
      · exact absurd rfl hnul
      by_cases hstart : c = '['
      · subst hstart
        obtain ⟨i,hi⟩ := index_of_scan h
        exact ⟨_,hi⟩
      · have hname : fieldLookup (c::s)=scan (s.length+1) ([] ++ [c]) s [] := scan_char ⟨hdot,hnul⟩ hstart
        obtain ⟨k,-,hk⟩ := name_of_scan (cons_ne_nil c []) hstart (hname.symm.trans h)
        exact ⟨_,hk⟩
    obtain ⟨l,hl⟩ := hlook
    exact ⟨out,h,fun hnil => by simp [hnil] at hl⟩

/-- Two texts without a lookup, and one that is read beyond its end. -/
theorem no_lookups : fieldLookup [] = some [] ∧ fieldLookup ".a".toList = some [] ∧
    fieldLookup "[0".toList = none := by
  decide

end FishStore.FieldPaths
