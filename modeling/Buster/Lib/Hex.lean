import Mathlib.Algebra.Group.Nat.Defs
import Mathlib.Data.List.Basic

/-!
# Hexadecimal text

Numbers printed in lower-case hexadecimal, as `printf`'s `%lx` and `%0<w>lx`
print them, and read back. `value_digits` and `value_padded` are the round
trips; `digits_digit` and `padded_digit` say which characters are used.
-/

namespace Hex

/-- The text `%lx` prints for `n`. -/
def digits (n : Nat) : List Char := Nat.toDigits 16 n

/-- The text `%0<w>lx` prints for `n`: at least `w` digits. -/
def padded (w n : Nat) : List Char := (digits n).leftpad w '0'

def digitValue (c : Char) : Option Nat := (List.range 16).find? (fun d => d.digitChar = c)

def IsDigit (c : Char) : Prop := (digitValue c).isSome

instance (c : Char) : Decidable (IsDigit c) := inferInstanceAs (Decidable (_ = true))

theorem isDigit_of_all {cs : List Char} (h : (cs.all fun c => (digitValue c).isSome) = true) :
    ∀ c ∈ cs, IsDigit c := List.all_eq_true.mp h

/-- Read digits after a number whose value so far is `acc`. -/
def valueFrom (acc : Nat) : List Char → Option Nat
  | [] => some acc
  | c :: cs => (digitValue c).bind fun d => valueFrom (acc * 16 + d) cs

/-- The number a non-empty string of digits stands for. -/
def value (cs : List Char) : Option Nat := if cs = [] then none else valueFrom 0 cs

theorem digitValue_of_lt {d : Nat} (h : d < 16) : digitValue d.digitChar = some d := by
  revert d
  decide

theorem valueFrom_append (acc : Nat) (cs ds : List Char) :
    valueFrom acc (cs ++ ds) = (valueFrom acc cs).bind fun n => valueFrom n ds := by
  induction cs generalizing acc with
  | nil => rfl
  | cons c cs ih =>
    simp only [List.cons_append, valueFrom]
    cases digitValue c with
    | none => rfl
    | some d => exact ih _

theorem digits_of_lt {n : Nat} (h : n < 16) : digits n = [n.digitChar] :=
  Nat.toDigits_of_lt_base h

theorem digits_of_le {n : Nat} (h : 16 ≤ n) : digits n = digits (n / 16) ++ [(n % 16).digitChar] :=
  Nat.toDigits_of_base_le (by decide) h

theorem digits_ne_nil (n : Nat) : digits n ≠ [] := Nat.toDigits_ne_nil

theorem valueFrom_digits (n : Nat) : valueFrom 0 (digits n) = some n := by
  induction n using Nat.strongRecOn with
  | ind n ih =>
    by_cases small : n < 16
    · simp [digits_of_lt small, valueFrom, digitValue_of_lt small]
    · rw [digits_of_le (by omega), valueFrom_append, ih (n / 16) (by omega)]
      have last := digitValue_of_lt (show n % 16 < 16 by omega)
      simp only [Option.bind_some, valueFrom, last]
      congr 1
      omega

theorem valueFrom_zeros (k : Nat) (cs : List Char) :
    valueFrom 0 (List.replicate k '0' ++ cs) = valueFrom 0 cs := by
  have zero : digitValue '0' = some 0 := by decide
  induction k with
  | zero => rfl
  | succ k ih => simpa [List.replicate_succ, valueFrom, zero] using ih

@[simp] theorem value_digits (n : Nat) : value (digits n) = some n := by
  simp [value, digits_ne_nil, valueFrom_digits]

theorem padded_ne_nil (w n : Nat) : padded w n ≠ [] := by
  intro h
  exact digits_ne_nil n (List.append_eq_nil_iff.mp h).2

@[simp] theorem value_padded (w n : Nat) : value (padded w n) = some n := by
  rw [value, if_neg (padded_ne_nil w n), padded, List.leftpad, valueFrom_zeros, valueFrom_digits]

theorem value_eq_none {c : Char} (h : ¬ IsDigit c) (cs : List Char) : value (c :: cs) = none := by
  have none : digitValue c = none := Option.not_isSome_iff_eq_none.mp h
  simp [value, valueFrom, none]

/-- One character that is no digit spoils a number. -/
theorem value_garbled {c : Char} (h : ¬ IsDigit c) (ds cs : List Char) :
    value (ds ++ c :: cs) = none := by
  have none : digitValue c = none := Option.not_isSome_iff_eq_none.mp h
  simp [value, valueFrom_append, valueFrom, none]

theorem length_digits_le {n w : Nat} (hw : 0 < w) : (digits n).length ≤ w ↔ n < 16 ^ w :=
  Nat.length_toDigits_le_iff (by decide) hw

theorem length_padded {n w : Nat} (hw : 0 < w) (h : n < 16 ^ w) : (padded w n).length = w := by
  have fits := (length_digits_le hw).mpr h
  simp only [padded, List.leftpad, List.length_append, List.length_replicate]
  omega

theorem length_padded_le {n w v : Nat} (hv : 0 < v) (hw : w ≤ v) (h : n < 16 ^ v) :
    (padded w n).length ≤ v := by
  have fits := (length_digits_le hv).mpr h
  simp only [padded, List.leftpad, List.length_append, List.length_replicate]
  omega

theorem digits_digit {n : Nat} {c : Char} (h : c ∈ digits n) : IsDigit c := by
  induction n using Nat.strongRecOn with
  | ind n ih =>
    by_cases small : n < 16
    · rw [digits_of_lt small, List.mem_singleton] at h
      simp [h, IsDigit, digitValue_of_lt small]
    · rw [digits_of_le (by omega), List.mem_append, List.mem_singleton] at h
      rcases h with h | rfl
      · exact ih (n / 16) (by omega) h
      · simp [IsDigit, digitValue_of_lt (show n % 16 < 16 by omega)]

theorem padded_digit {w n : Nat} {c : Char} (h : c ∈ padded w n) : IsDigit c := by
  rw [padded, List.leftpad, List.mem_append, List.mem_replicate] at h
  rcases h with ⟨_, rfl⟩ | h
  · decide
  · exact digits_digit h

end Hex
