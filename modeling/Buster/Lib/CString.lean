import Mathlib.Algebra.Group.Int.Defs
import Mathlib.Algebra.Group.Nat.Defs
import Mathlib.Data.List.TakeWhile

/-!
# C strings

What functions of the C library do with a string, given by its characters up to
the NUL. A pointer into it is the rest from there on, or an offset. `strtoul` is
that of the C locale on a machine whose `unsigned long` has 64 bits.
-/

/-- The argument of a program that takes a string: no character of it is NUL. -/
structure CString where
  chars : List Char
  noNul : '\x00' ∉ chars

namespace CString

/-- The string that starts at a place in memory. -/
def ofBuffer (buffer : List Char) : List Char := buffer.takeWhile (· ≠ '\x00')

/-- For a character other than NUL. -/
def strchr (s : List Char) (c : Char) : Option (List Char) :=
  match s.dropWhile (· ≠ c) with
  | [] => none
  | t => some t

def isspace (c : Char) : Bool := c ∈ [' ', '\t', '\n', '\x0b', '\x0c', '\r']

/-- Letters of either case stand for the digits from ten on. -/
def charValue (c : Char) : Nat :=
  if '0' ≤ c ∧ c ≤ '9' then c.toNat - '0'.toNat
  else if 'a' ≤ c ∧ c ≤ 'z' then c.toNat - 'a'.toNat + 10
  else if 'A' ≤ c ∧ c ≤ 'Z' then c.toNat - 'A'.toNat + 10
  else 36

def digitValue (base : Nat) (c : Char) : Option Nat :=
  if charValue c < base then some (charValue c) else none

/-- The digits that a text begins with. -/
def digitsOf (base : Nat) : List Char → List Nat
  | [] => []
  | c :: cs =>
    match digitValue base c with
    | some d => d :: digitsOf base cs
    | none => []

def valueOf (base : Nat) (ds : List Nat) : Nat := ds.foldl (fun v d => v * base + d) 0

def signLength : List Char → Nat
  | '+' :: _ => 1
  | '-' :: _ => 1
  | _ => 0

/-- The `0x` of a hexadecimal number, when a digit follows. -/
def hexPrefix : List Char → Bool
  | '0' :: x :: d :: _ => (x = 'x' ∨ x = 'X') ∧ (digitValue 16 d).isSome
  | _ => false

/-- The base that is meant, and the length of the prefix that says so. -/
def radix (base : Nat) (s : List Char) : Nat × Nat :=
  if (base = 0 ∨ base = 16) ∧ hexPrefix s then (16, 2)
  else if base = 0 then (if s.head? = some '0' then 8 else 10, 0)
  else (base, 0)

structure Conversion where
  value : BitVec 64
  /-- How far into the string `endptr` is set. -/
  endptr : Nat
  erange : Bool
  deriving DecidableEq

/-- With no digits nothing is converted. A minus sign negates the result, and
what does not fit is `ULONG_MAX`. -/
def strtoul (s : List Char) (base : Nat) : Conversion :=
  let space := (s.takeWhile isspace).length
  let sign := signLength (s.drop space)
  let (base, pre) := radix base (s.drop (space + sign))
  let ds := digitsOf base (s.drop (space + sign + pre))
  if ds = [] then ⟨0, 0, false⟩
  else
    let endptr := space + sign + pre + ds.length
    if 2 ^ 64 ≤ valueOf base ds then ⟨BitVec.allOnes 64, endptr, true⟩
    else if (s.drop space).head? = some '-' then ⟨-BitVec.ofNat 64 (valueOf base ds), endptr, false⟩
    else ⟨BitVec.ofNat 64 (valueOf base ds), endptr, false⟩

/-- What does not fit is `LONG_MAX` or `LONG_MIN`. -/
def strtol (s : List Char) (base : Nat) : Int :=
  let space := (s.takeWhile isspace).length
  let sign := signLength (s.drop space)
  let (base, pre) := radix base (s.drop (space + sign))
  let value : Int := valueOf base (digitsOf base (s.drop (space + sign + pre)))
  let signed := if (s.drop space).head? = some '-' then -value else value
  max (-2 ^ 63) (min signed (2 ^ 63 - 1))

/-- The low bits of what `strtol` reads in base ten. -/
def atoi (s : List Char) : BitVec 32 := BitVec.ofInt 32 (strtol s 10)

/-! ## Finding a character -/

theorem strchr_eq_none {s : List Char} {c : Char} : strchr s c = none ↔ c ∉ s := by
  unfold strchr
  constructor
  · intro h found
    split at h
    · rename_i none
      have all := List.dropWhile_eq_nil_iff.mp none c found
      simp at all
    · cases h
  · intro absent
    have none : s.dropWhile (· ≠ c) = [] := by
      rw [List.dropWhile_eq_nil_iff]
      intro x hx
      simpa using fun e : x = c => absent (e ▸ hx)
    rw [none]

theorem strchr_append {before : List Char} {c : Char} (absent : c ∉ before) (after : List Char) :
    strchr (before ++ c :: after) c = some (c :: after) := by
  have found : (before ++ c :: after).dropWhile (· ≠ c) = c :: after := by
    rw [List.dropWhile_append_of_pos]
    · simp
    · intro x hx
      simpa using fun e : x = c => absent (e ▸ hx)
  unfold strchr
  rw [found]

/-! ## Reading numbers -/

/-- What `strtoul` reads over: white space, signs, and digits of any base. -/
def Numeric (c : Char) : Prop :=
  isspace c = true ∨ c = '+' ∨ c = '-' ∨ (digitValue 36 c).isSome

instance (c : Char) : Decidable (Numeric c) := inferInstanceAs (Decidable (_ ∨ _ ∨ _ ∨ _))

theorem digitValue_mono {base base' : Nat} {c : Char} (h : (digitValue base c).isSome)
    (le : base ≤ base') : (digitValue base' c).isSome := by
  unfold digitValue at h ⊢
  split at h
  · rename_i fits
    rw [if_pos (Nat.lt_of_lt_of_le fits le)]
    rfl
  · cases h

theorem digitsOf_numeric {base : Nat} (small : base ≤ 36) (cs : List Char) :
    ∀ c ∈ cs.take (digitsOf base cs).length, Numeric c := by
  induction cs with
  | nil =>
    intro c hc
    simp at hc
  | cons c cs ih =>
    unfold digitsOf
    split
    · rename_i d value
      have digit : Numeric c :=
        .inr (.inr (.inr (digitValue_mono (Option.isSome_of_eq_some value) small)))
      rw [List.length_cons, List.take_succ_cons]
      exact List.forall_mem_cons.mpr ⟨digit, ih⟩
    · intro c hc
      simp at hc

theorem sign_numeric (s : List Char) : ∀ c ∈ s.take (signLength s), Numeric c := by
  unfold signLength
  split
  · simpa using (by decide : Numeric '+')
  · simpa using (by decide : Numeric '-')
  · intro c hc
    simp at hc

/-- The prefix is one of a hexadecimal number or empty. -/
theorem radix_cases (base : Nat) (s : List Char) :
    (∃ x d rest, s = '0' :: x :: d :: rest ∧ (x = 'x' ∨ x = 'X') ∧ radix base s = (16, 2)) ∨
      (radix base s).2 = 0 ∧ (base ≤ 36 → (radix base s).1 ≤ 36) := by
  unfold radix
  split
  · rename_i hex
    have found := hex.2
    unfold hexPrefix at found
    split at found
    · rename_i x d rest
      simp only [decide_eq_true_eq] at found
      exact .inl ⟨x, d, rest, rfl, found.1, rfl⟩
    · cases found
  · apply Or.inr
    split
    · split <;> simp
    · simp

theorem radix_numeric (base : Nat) (s : List Char) :
    ∀ c ∈ s.take (radix base s).2, Numeric c := by
  rcases radix_cases base s with ⟨x, d, rest, rfl, letter, same⟩ | ⟨none, _⟩
  · have zero : Numeric '0' := by decide
    have mark : Numeric x := by
      rcases letter with rfl | rfl
      · decide
      · decide
    rw [same]
    simpa using ⟨zero, mark⟩
  · rw [none]
    intro c hc
    simp at hc

/-- The four parts of what is read. -/
theorem endptr_cases (s : List Char) (base : Nat) : (strtoul s base).endptr = 0 ∨
    ∃ space sign pre digits, (strtoul s base).endptr = space + sign + pre + digits ∧
      space = (s.takeWhile isspace).length ∧ sign = signLength (s.drop space) ∧
      pre = (radix base (s.drop (space + sign))).2 ∧
      digits = (digitsOf (radix base (s.drop (space + sign))).1
        (s.drop (space + sign + pre))).length := by
  unfold strtoul
  dsimp only
  split
  · exact .inl rfl
  · apply Or.inr
    refine ⟨_, _, _, _, ?_, rfl, rfl, rfl, rfl⟩
    split
    · rfl
    split
    · rfl
    · rfl

theorem take_endptr_numeric {base : Nat} (small : base ≤ 36) (s : List Char) :
    ∀ c ∈ s.take (strtoul s base).endptr, Numeric c := by
  rcases endptr_cases s base with none | ⟨space, sign, pre, digits, same, e₁, e₂, e₃, e₄⟩
  · rw [none]
    intro c hc
    simp at hc
  · have narrow : (radix base (s.drop (space + sign))).1 ≤ 36 := by
      rcases radix_cases base (s.drop (space + sign)) with ⟨_, _, _, _, _, hex⟩ | ⟨_, other⟩
      · rw [hex]
        decide
      · exact other small
    rw [same, List.take_add, List.take_add, List.take_add]
    simp only [List.mem_append, or_imp, forall_and]
    refine ⟨⟨⟨?_, ?_⟩, ?_⟩, ?_⟩
    · intro c hc
      rw [e₁, ← List.prefix_iff_eq_take.mp (List.takeWhile_prefix isspace)] at hc
      exact .inl (List.mem_takeWhile_imp hc)
    · rw [e₂]
      exact sign_numeric _
    · rw [e₃]
      exact radix_numeric _ _
    · rw [e₄]
      exact digitsOf_numeric narrow _

theorem length_digitsOf {base : Nat} {cs : List Char}
    (digits : ∀ c ∈ cs, (digitValue base c).isSome) : (digitsOf base cs).length = cs.length := by
  induction cs with
  | nil => rfl
  | cons c cs ih =>
    obtain ⟨first, rest⟩ := List.forall_mem_cons.mp digits
    obtain ⟨d, value⟩ := Option.isSome_iff_exists.mp first
    simp only [digitsOf, value, List.length_cons, ih rest]

/-- Neither white space nor a sign is a digit. -/
theorem digit_plain {base : Nat} {c : Char} (small : base ≤ 36)
    (digit : (digitValue base c).isSome) : isspace c = false ∧ c ≠ '+' ∧ c ≠ '-' := by
  have widest := digitValue_mono digit small
  refine ⟨?_, ?_, ?_⟩
  · cases space : isspace c with
    | false => rfl
    | true =>
      have none : [' ', '\t', '\n', '\x0b', '\x0c', '\r'].all
          fun x => (digitValue 36 x).isNone := by decide
      have lacks := List.all_eq_true.mp none c (of_decide_eq_true space)
      rw [Option.isNone_iff_eq_none.mp lacks] at widest
      cases widest
  · rintro rfl
    revert widest
    decide
  · rintro rfl
    revert widest
    decide

/-- A text of digits alone, the first of which begins no prefix, is read to its end. -/
theorem strtoul_digits {base b : Nat} {s : List Char} (some : s ≠ []) (small : b ≤ 36)
    (digits : ∀ c ∈ s, (digitValue b c).isSome) (noPrefix : radix base s = (b, 0))
    (fits : valueOf b (digitsOf b s) < 2 ^ 64) :
    strtoul s base = ⟨BitVec.ofNat 64 (valueOf b (digitsOf b s)), s.length, false⟩ := by
  obtain ⟨c, cs, rfl⟩ := List.exists_cons_of_ne_nil some
  obtain ⟨noSpace, noPlus, noMinus⟩ := digit_plain small (digits c List.mem_cons_self)
  have size := length_digitsOf digits
  have space : ((c :: cs).takeWhile isspace).length = 0 := by simp [noSpace]
  have sign : signLength (c :: cs) = 0 := by
    unfold signLength
    split
    · rename_i h
      exact absurd (List.cons.inj h).1 noPlus
    · rename_i h
      exact absurd (List.cons.inj h).1 noMinus
    · rfl
  have read : digitsOf b (c :: cs) ≠ [] := by
    intro none
    rw [none] at size
    cases size
  have positive : (c :: cs).head? ≠ Option.some '-' := fun h => noMinus (Option.some.inj h)
  unfold strtoul
  simp only [space, List.drop_zero, sign, Nat.add_zero, noPrefix, size, Nat.zero_add]
  rw [if_neg read, if_neg (by omega), if_neg positive]

/-! ## Decimal numbers -/

theorem digitsOf_append {base : Nat} {cs : List Char}
    (digits : ∀ c ∈ cs, (digitValue base c).isSome) (ds : List Char) :
    digitsOf base (cs ++ ds) = digitsOf base cs ++ digitsOf base ds := by
  induction cs with
  | nil => rfl
  | cons c cs ih =>
    obtain ⟨first, rest⟩ := List.forall_mem_cons.mp digits
    obtain ⟨d, value⟩ := Option.isSome_iff_exists.mp first
    simp only [List.cons_append, digitsOf, value, ih rest]

theorem valueOf_append (base : Nat) (ds : List Nat) (d : Nat) :
    valueOf base (ds ++ [d]) = valueOf base ds * base + d := by
  simp [valueOf]

theorem digitValue_digitChar {d : Nat} (h : d < 10) : digitValue 10 d.digitChar = some d := by
  revert d
  decide

theorem toDigits_of_le {n : Nat} (h : 10 ≤ n) :
    Nat.toDigits 10 n = Nat.toDigits 10 (n / 10) ++ [(n % 10).digitChar] :=
  Nat.toDigits_of_base_le (by decide) h

/-- What is printed of a number reads as its digits. -/
theorem digitsOf_toDigits (n : Nat) :
    (∀ c ∈ Nat.toDigits 10 n, (digitValue 10 c).isSome) ∧
      valueOf 10 (digitsOf 10 (Nat.toDigits 10 n)) = n := by
  induction n using Nat.strongRecOn with
  | ind n ih =>
    by_cases small : n < 10
    · have value := digitValue_digitChar small
      simp [Nat.toDigits_of_lt_base small, digitsOf, value, valueOf]
    · obtain ⟨digits, value⟩ := ih (n / 10) (by omega)
      have last := digitValue_digitChar (show n % 10 < 10 by omega)
      rw [toDigits_of_le (by omega), digitsOf_append digits]
      simp only [digitsOf, last, valueOf_append, value]
      refine ⟨List.forall_mem_append.mpr ⟨digits, ?_⟩, by omega⟩
      exact List.forall_mem_singleton.mpr (Option.isSome_of_eq_some last)

/-- Only zero itself is printed with a zero in front. -/
theorem toDigits_head {n : Nat} (pos : 0 < n) : (Nat.toDigits 10 n).head? ≠ some '0' := by
  induction n using Nat.strongRecOn with
  | ind n ih =>
    by_cases small : n < 10
    · rw [Nat.toDigits_of_lt_base small]
      have all : ∀ d < 10, 0 < d → [d.digitChar].head? ≠ some '0' := by decide
      exact all n small pos
    · obtain ⟨d, ds, same⟩ := List.exists_cons_of_ne_nil
        (Nat.toDigits_ne_nil : Nat.toDigits 10 (n / 10) ≠ [])
      have first := ih (n / 10) (by omega) (by omega)
      rw [same] at first
      rw [toDigits_of_le (by omega), same]
      exact first

/-- A number printed in decimal is read to its end, with the base left open. -/
theorem strtoul_toDigits {n : Nat} (fits : n < 2 ^ 64) :
    strtoul (Nat.toDigits 10 n) 0 =
      ⟨BitVec.ofNat 64 n, (Nat.toDigits 10 n).length, false⟩ := by
  by_cases pos : 0 < n
  · obtain ⟨digits, value⟩ := digitsOf_toDigits n
    have noZero := toDigits_head pos
    have base : radix 0 (Nat.toDigits 10 n) = (10, 0) := by
      have plain : hexPrefix (Nat.toDigits 10 n) = false := by
        unfold hexPrefix
        split
        · rename_i h
          rw [h] at noZero
          exact absurd rfl noZero
        · rfl
      simp [radix, plain, noZero]
    have read := strtoul_digits Nat.toDigits_ne_nil (by decide) digits base (by omega)
    rwa [value] at read
  · obtain rfl : n = 0 := by omega
    decide

end CString
