import Mathlib.Algebra.GroupWithZero.Nat
import Mathlib.Data.List.Basic

/-!
# Accumulators

Numbers added one by one to a machine word, with every addition on record. The
word holds their sum as long as that fits, and then no addition overflows.
-/

namespace Accumulator

variable {w : Nat}

def total (start : BitVec w) (vs : List (BitVec w)) : BitVec w := vs.foldl (· + ·) start

/-- The operands of each addition. -/
def additions : BitVec w → List (BitVec w) → List (BitVec w × BitVec w)
  | _, [] => []
  | start, v :: vs => (start, v) :: additions (start + v) vs

/-- No addition overflows. -/
def Exact (adds : List (BitVec w × BitVec w)) : Prop := ∀ a ∈ adds, a.1.uaddOverflow a.2 = false

/-- What the numbers add up to, whatever the width. -/
def sum (vs : List (BitVec w)) : Nat := (vs.map BitVec.toNat).sum

theorem total_append (start : BitVec w) (us vs : List (BitVec w)) :
    total start (us ++ vs) = total (total start us) vs := List.foldl_append

theorem additions_append (start : BitVec w) (us vs : List (BitVec w)) :
    additions start (us ++ vs) = additions start us ++ additions (total start us) vs := by
  induction us generalizing start with
  | nil => rfl
  | cons u us ih =>
    rw [List.cons_append, additions, ih, additions, List.cons_append]
    rfl

theorem sum_cons (v : BitVec w) (vs : List (BitVec w)) : sum (v :: vs) = v.toNat + sum vs := by
  rw [sum, List.map_cons, List.sum_cons]
  rfl

/-- Numbers up to a bound add up to at most so many times the bound. -/
theorem sum_le {bound : Nat} {vs : List (BitVec w)} (h : ∀ v ∈ vs, v.toNat ≤ bound) :
    sum vs ≤ vs.length * bound := by
  induction vs with
  | nil => exact Nat.zero_le _
  | cons v vs ih =>
    obtain ⟨first, rest⟩ := List.forall_mem_cons.mp h
    rw [sum_cons, List.length_cons, Nat.succ_mul]
    have later := ih rest
    omega

theorem fits {start : BitVec w} {vs : List (BitVec w)} (room : start.toNat + sum vs < 2 ^ w) :
    Exact (additions start vs) ∧ (total start vs).toNat = start.toNat + sum vs := by
  induction vs generalizing start with
  | nil => exact ⟨List.forall_mem_nil _, rfl⟩
  | cons v vs ih =>
    rw [sum_cons] at room ⊢
    have first : start.toNat + v.toNat < 2 ^ w := by omega
    have next : (start + v).toNat = start.toNat + v.toNat := by
      rw [BitVec.toNat_add, Nat.mod_eq_of_lt first]
    have later : (start + v).toNat + sum vs < 2 ^ w := by omega
    obtain ⟨exact, value⟩ := ih later
    constructor
    · refine List.forall_mem_cons.mpr ⟨?_, exact⟩
      rw [BitVec.uaddOverflow, decide_eq_false_iff_not, Nat.not_le]
      exact first
    · change (total (start + v) vs).toNat = _
      omega

end Accumulator
