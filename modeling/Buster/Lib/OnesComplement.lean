import Mathlib.Data.Nat.Digits.Defs
import Mathlib.Data.Nat.ModEq
import Mathlib.Tactic.Ring

/-!
# One's-complement sums

Words are added with an end-around carry. Up to the two encodings of zero this
is addition modulo `2 ^ w - 1`, and which of the two a sum is depends only on
whether all its words are zero: `Represents` says both, and has at most one word
for each number.
-/

namespace OnesComplement

variable {w : Nat}

/-- Addition with the carry put back in at the bottom. -/
def add (a b : BitVec w) : BitVec w := if a.toNat + b.toNat < 2 ^ w then a + b else a + b + 1

def sum (ws : List (BitVec w)) : BitVec w := ws.foldr add 0

/-- `v` is what the one's-complement sum of words that add up to `n` comes to. -/
structure Represents (v : BitVec w) (n : Nat) : Prop where
  modEq : v.toNat ≡ n [MOD 2 ^ w - 1]
  zero : v = 0 ↔ n = 0

theorem represents_self (v : BitVec w) : Represents v v.toNat :=
  ⟨rfl, BitVec.toNat_inj.symm.trans (by simp)⟩

theorem eq_zero_iff (v : BitVec w) : v = 0 ↔ v.toNat = 0 := BitVec.toNat_inj.symm.trans (by simp)

theorem toNat_add (a b : BitVec w) : (add a b).toNat =
    if a.toNat + b.toNat < 2 ^ w then a.toNat + b.toNat else a.toNat + b.toNat - (2 ^ w - 1) := by
  have ha := a.isLt
  have hb := b.isLt
  unfold add
  by_cases small : a.toNat + b.toNat < 2 ^ w
  · rw [if_pos small, if_pos small, BitVec.toNat_add, Nat.mod_eq_of_lt small]
  · have beyond : a.toNat + b.toNat - 2 ^ w < 2 ^ w := by omega
    have wrapped : (a.toNat + b.toNat) % 2 ^ w = a.toNat + b.toNat - 2 ^ w := by
      rw [Nat.mod_eq_sub_mod (by omega), Nat.mod_eq_of_lt beyond]
    have positive : w ≠ 0 := by
      rintro rfl
      simp at ha hb small
      omega
    have one : (1 : BitVec w).toNat = 1 := by
      simpa using Nat.pos_of_ne_zero positive
    have carried : a.toNat + b.toNat - 2 ^ w + 1 < 2 ^ w := by omega
    rw [if_neg small, if_neg small, BitVec.toNat_add, BitVec.toNat_add, wrapped, one,
      Nat.mod_eq_of_lt carried]
    omega

theorem Represents.add {a b : BitVec w} {m n : Nat} (ha : Represents a m) (hb : Represents b n) :
    Represents (add a b) (m + n) := by
  have total := ha.modEq.add hb.modEq
  have below := a.isLt
  have below' := b.isLt
  have za := ha.zero
  have zb := hb.zero
  rw [eq_zero_iff] at za zb
  by_cases small : a.toNat + b.toNat < 2 ^ w
  · have value := toNat_add a b
    rw [if_pos small] at value
    refine ⟨by rwa [value], ?_⟩
    rw [eq_zero_iff, value]
    omega
  · have value := toNat_add a b
    rw [if_neg small] at value
    have less : a.toNat + b.toNat = (OnesComplement.add a b).toNat + (2 ^ w - 1) := by omega
    refine ⟨?_, ?_⟩
    · rw [less] at total
      simpa [Nat.ModEq] using total
    · rw [eq_zero_iff, value]
      omega

/-- The sum of words represents the number they add up to. -/
theorem represents_sum (ws : List (BitVec w)) :
    Represents (sum ws) (ws.map BitVec.toNat).sum := by
  induction ws with
  | nil => exact ⟨by simp [sum, Nat.ModEq], by simp [sum]⟩
  | cons a ws ih => exact (represents_self a).add ih

theorem Represents.unique {u v : BitVec w} {n : Nat} (hu : Represents u n) (hv : Represents v n) :
    u = v := by
  have same : u.toNat ≡ v.toNat [MOD 2 ^ w - 1] := hu.modEq.trans hv.modEq.symm
  have zeros : u = 0 ↔ v = 0 := hu.zero.trans hv.zero.symm
  have below := u.isLt
  have below' := v.isLt
  rw [eq_zero_iff, eq_zero_iff] at zeros
  apply BitVec.eq_of_toNat_eq
  rcases Nat.lt_or_ge u.toNat (2 ^ w - 1) with hu | hu
  · rcases Nat.lt_or_ge v.toNat (2 ^ w - 1) with hv | hv
    · exact Nat.ModEq.eq_of_lt_of_lt same hu hv
    · have top : v.toNat = 2 ^ w - 1 := by omega
      rw [top, Nat.ModEq, Nat.mod_self, Nat.mod_eq_of_lt hu] at same
      omega
  · have top : u.toNat = 2 ^ w - 1 := by omega
    rcases Nat.lt_or_ge v.toNat (2 ^ w - 1) with hv | hv
    · rw [top, Nat.ModEq, Nat.mod_self, Nat.mod_eq_of_lt hv] at same
      omega
    · omega

/-- All ones stands for the multiples of `2 ^ w - 1` other than zero. -/
theorem Represents.eq_allOnes_iff {v : BitVec w} {n : Nat} (h : Represents v n) (positive : w ≠ 0) :
    v = BitVec.allOnes w ↔ n ≠ 0 ∧ 2 ^ w - 1 ∣ n := by
  have two : 1 < 2 ^ w := Nat.one_lt_two_pow positive
  constructor
  · rintro rfl
    have divides := h.modEq
    have zero := h.zero
    rw [eq_zero_iff] at zero
    rw [BitVec.toNat_allOnes] at divides zero
    refine ⟨by omega, ?_⟩
    rw [Nat.ModEq, Nat.mod_self] at divides
    exact Nat.dvd_of_mod_eq_zero divides.symm
  · rintro ⟨nonzero, divides⟩
    apply h.unique
    constructor
    · rw [BitVec.toNat_allOnes, Nat.ModEq, Nat.mod_self, Nat.mod_eq_zero_of_dvd divides]
    · rw [eq_zero_iff, BitVec.toNat_allOnes]
      omega

theorem Represents.congr {v : BitVec w} {m n : Nat} (h : Represents v m)
    (modEq : m ≡ n [MOD 2 ^ w - 1]) (zero : m = 0 ↔ n = 0) : Represents v n :=
  ⟨h.modEq.trans modEq, h.zero.trans zero⟩

/-! ## Words of two digits -/

/-- Digits added as words of two, the first one lower; the last may be alone. -/
def pairSum (b : Nat) : List Nat → Nat
  | [] => 0
  | [d] => d
  | d :: e :: ds => d + b * e + pairSum b ds

/-- An end-around carry turns a number into the sum of its words. -/
theorem pairSum_modEq {b : Nat} (base : 1 < b) (ds : List Nat) :
    pairSum b ds ≡ Nat.ofDigits b ds [MOD b * b - 1] := by
  match ds with
  | [] => rfl
  | [d] => rw [pairSum, Nat.ofDigits_singleton]
  | d :: e :: ds =>
    have rest := pairSum_modEq base ds
    have square : b * b ≡ 1 [MOD b * b - 1] := by
      have positive : 1 ≤ b * b := Nat.mul_pos (by omega) (by omega)
      exact (Nat.modEq_iff_dvd' positive).mpr (Nat.dvd_refl _) |>.symm
    have moved := (square.mul_right (Nat.ofDigits b ds)).symm
    rw [Nat.one_mul] at moved
    rw [pairSum, Nat.ofDigits_cons, Nat.ofDigits_cons, Nat.mul_add, ← Nat.add_assoc,
      ← Nat.mul_assoc]
    exact (rest.trans moved).add_left _

theorem pairSum_eq_zero {b : Nat} (base : 1 < b) (ds : List Nat) :
    pairSum b ds = 0 ↔ ∀ d ∈ ds, d = 0 := by
  match ds with
  | [] => exact iff_of_true rfl (List.forall_mem_nil _)
  | [d] => rw [pairSum, List.forall_mem_singleton]
  | d :: e :: ds =>
    rw [pairSum, List.forall_mem_cons, List.forall_mem_cons, ← pairSum_eq_zero base ds,
      Nat.add_eq_zero_iff, Nat.add_eq_zero_iff, Nat.mul_eq_zero, or_iff_right (by omega), and_assoc]

/-- Behind an even number of digits the words are the same. -/
theorem pairSum_append {b : Nat} {ds : List Nat} (even : ds.length % 2 = 0) (es : List Nat) :
    pairSum b (ds ++ es) = pairSum b ds + pairSum b es := by
  match ds with
  | [] => rw [List.nil_append, pairSum, Nat.zero_add]
  | [d] => cases even
  | d :: e :: ds =>
    have rest : ds.length % 2 = 0 := by
      rw [List.length_cons, List.length_cons] at even
      omega
    rw [List.cons_append, List.cons_append, pairSum, pairSum_append rest, pairSum,
      Nat.add_assoc (d + b * e)]

theorem pairSum_le {b : Nat} {ds : List Nat} (digits : ∀ d ∈ ds, d < b) :
    pairSum b ds ≤ (ds.length + 1) / 2 * (b * b - 1) := by
  match ds with
  | [] => exact Nat.zero_le _
  | [d] =>
    have digit := digits d (List.mem_singleton_self d)
    have square : d + 1 ≤ b * b := by nlinarith
    rw [pairSum, List.length_singleton, Nat.one_mul]
    exact Nat.le_sub_of_add_le square
  | d :: e :: ds =>
    obtain ⟨low, high, rest⟩ := (List.forall_mem_cons.trans
      (and_congr_right fun _ => List.forall_mem_cons)).mp digits
    have others := pairSum_le rest
    have word : d + b * e + 1 ≤ b * b := by nlinarith
    have words : ((d :: e :: ds).length + 1) / 2 = (ds.length + 1) / 2 + 1 := by
      rw [List.length_cons, List.length_cons]
      omega
    rw [pairSum, words, Nat.succ_mul]
    omega

/-- The words of a text, the first digit higher; behind a last one is a zero. -/
def words : List (BitVec w) → List (BitVec (w + w))
  | [] => []
  | [d] => [d ++ 0#w]
  | d :: e :: ds => (d ++ e) :: words ds

theorem toNat_word (d e : BitVec w) : (d ++ e).toNat = 2 ^ w * d.toNat + e.toNat := by
  rw [BitVec.toNat_append, ← Nat.shiftLeft_add_eq_or_of_lt e.isLt, Nat.shiftLeft_eq, Nat.mul_comm]

/-- Turning every word around multiplies the sum. -/
theorem sum_words_modEq (ds : List (BitVec w)) : ((words ds).map BitVec.toNat).sum ≡
    2 ^ w * pairSum (2 ^ w) (ds.map BitVec.toNat) [MOD 2 ^ (w + w) - 1] := by
  match ds with
  | [] => rfl
  | [d] =>
    rw [words, List.map_singleton, List.sum_singleton, toNat_word, BitVec.toNat_zero, Nat.add_zero]
    rfl
  | d :: e :: ds =>
    have rest := sum_words_modEq ds
    have carry : e.toNat ≡ 2 ^ w * 2 ^ w * e.toNat [MOD 2 ^ (w + w) - 1] := by
      have positive : 1 ≤ 2 ^ (w + w) := Nat.one_le_two_pow
      have one : 1 ≡ 2 ^ (w + w) [MOD 2 ^ (w + w) - 1] :=
        (Nat.modEq_iff_dvd' positive).mpr (Nat.dvd_refl _)
      have scaled := one.mul_right e.toNat
      rw [Nat.one_mul] at scaled
      rwa [← Nat.pow_add]
    rw [words, List.map_cons, List.sum_cons, toNat_word, List.map_cons, List.map_cons, pairSum,
      Nat.mul_add, Nat.mul_add, ← Nat.mul_assoc]
    exact (carry.add_left _).add rest

theorem sum_words_eq_zero (ds : List (BitVec w)) :
    ((words ds).map BitVec.toNat).sum = 0 ↔ pairSum (2 ^ w) (ds.map BitVec.toNat) = 0 := by
  have positive : 0 < 2 ^ w := Nat.two_pow_pos w
  match ds with
  | [] => rfl
  | [d] =>
    rw [words, List.map_singleton, List.sum_singleton, toNat_word, BitVec.toNat_zero, Nat.add_zero,
      Nat.mul_eq_zero, or_iff_right positive.ne']
    rfl
  | d :: e :: ds =>
    rw [words, List.map_cons, List.sum_cons, toNat_word, List.map_cons, List.map_cons, pairSum,
      Nat.add_eq_zero_iff, Nat.add_eq_zero_iff, sum_words_eq_zero ds, Nat.add_eq_zero_iff,
      Nat.add_eq_zero_iff, Nat.mul_eq_zero, Nat.mul_eq_zero, or_iff_right positive.ne',
      or_iff_right positive.ne']

/-- In whichever order the digits of a word are, the sum is all ones or it is not. -/
theorem sum_words_eq_allOnes (positive : w ≠ 0) (ds : List (BitVec w)) :
    sum (words ds) = BitVec.allOnes (w + w) ↔ pairSum (2 ^ w) (ds.map BitVec.toNat) ≠ 0 ∧
      2 ^ (w + w) - 1 ∣ pairSum (2 ^ w) (ds.map BitVec.toNat) := by
  have turned := sum_words_modEq ds
  rw [(represents_sum (words ds)).eq_allOnes_iff (by omega), ne_eq, ne_eq, sum_words_eq_zero]
  apply and_congr_right'
  rw [(Nat.ModEq.dvd_iff turned (Nat.dvd_refl _))]
  apply Nat.Coprime.dvd_mul_left
  have one : 1 ≤ 2 ^ (w + w) := Nat.one_le_two_pow
  have next : Nat.Coprime (2 ^ (w + w) - 1) (2 ^ (w + w)) := by
    have consecutive := Nat.coprime_self_add_right (m := 2 ^ (w + w) - 1) (n := 1)
    rw [Nat.sub_add_cancel one] at consecutive
    exact consecutive.mpr (Nat.coprime_one_right _)
  exact next.coprime_dvd_right (Nat.pow_dvd_pow 2 (Nat.le_add_left w w))

end OnesComplement
