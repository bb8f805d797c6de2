import Mathlib.Data.List.Basic

/-!
# Ring buffers in memory

Slots of one width from a base address on. The pending ones go from the head up
to, but not including, the tail, and round the end of the ring where the tail
has wrapped.
-/

/-- `head` and `tail` are slot numbers. -/
structure RingBuffer where
  base : Nat
  width : Nat
  slots : Nat
  head : Nat
  tail : Nat
  head_lt : head < slots
  tail_lt : tail < slots

namespace RingBuffer

variable (r : RingBuffer)

def addr (slot : Nat) : Nat := r.base + r.width * slot

def limit : Nat := r.addr r.slots

/-- How many steps lead from the head to the tail. -/
def count : Nat := (r.tail + r.slots - r.head) % r.slots

def pending : List Nat := (List.range r.count).map fun i => (r.head + i) % r.slots

/-- The window `[lo, hi)` shows the ring and only the ring. -/
structure Shows (lo hi : Nat) : Prop where
  inside : r.base ≤ lo ∧ lo ≤ hi ∧ hi ≤ r.limit
  covers : ∀ slot ∈ r.pending, lo ≤ r.addr slot ∧ r.addr (slot + 1) ≤ hi

variable {r}

theorem count_of_le (h : r.head ≤ r.tail) : r.count = r.tail - r.head := by
  have := r.head_lt
  have := r.tail_lt
  rw [count, show r.tail + r.slots - r.head = r.tail - r.head + r.slots by omega,
    Nat.add_mod_right, Nat.mod_eq_of_lt (by omega)]

theorem count_of_lt (h : r.tail < r.head) : r.count = r.tail + r.slots - r.head := by
  have := r.head_lt
  exact Nat.mod_eq_of_lt (by omega)

theorem mem_pending_of_le (h : r.head ≤ r.tail) {slot : Nat} :
    slot ∈ r.pending ↔ r.head ≤ slot ∧ slot < r.tail := by
  have := r.tail_lt
  simp only [pending, count_of_le h, List.mem_map, List.mem_range]
  constructor
  · rintro ⟨i, hi, rfl⟩
    rw [Nat.mod_eq_of_lt (by omega)]
    omega
  · rintro ⟨low, high⟩
    exact ⟨slot - r.head, by omega, by rw [Nat.mod_eq_of_lt (by omega)]; omega⟩

theorem mem_pending_of_lt (h : r.tail < r.head) {slot : Nat} :
    slot ∈ r.pending ↔ (r.head ≤ slot ∧ slot < r.slots) ∨ slot < r.tail := by
  have := r.head_lt
  simp only [pending, count_of_lt h, List.mem_map, List.mem_range]
  constructor
  · rintro ⟨i, hi, rfl⟩
    by_cases wrapped : r.head + i < r.slots
    · rw [Nat.mod_eq_of_lt wrapped]
      omega
    · rw [show r.head + i = r.head + i - r.slots + r.slots by omega, Nat.add_mod_right,
        Nat.mod_eq_of_lt (by omega)]
      omega
  · rintro (⟨low, high⟩ | low)
    · exact ⟨slot - r.head, by omega, by rw [Nat.mod_eq_of_lt (by omega)]; omega⟩
    · refine ⟨slot + r.slots - r.head, by omega, ?_⟩
      rw [show r.head + (slot + r.slots - r.head) = slot + r.slots by omega, Nat.add_mod_right,
        Nat.mod_eq_of_lt (by omega)]

theorem addr_le {i j : Nat} (h : i ≤ j) : r.addr i ≤ r.addr j :=
  Nat.add_le_add_left (Nat.mul_le_mul_left _ h) _

/-- Where the tail has not wrapped, a window that ends at or past the tail shows
the ring when it stays inside and does not start past a pending head. -/
theorem shows_of_le {lo hi : Nat} (order : r.head ≤ r.tail)
    (inside : r.base ≤ lo ∧ lo ≤ hi ∧ hi ≤ r.limit) (first : lo ≤ r.addr r.head)
    (last : r.addr r.tail ≤ hi) : r.Shows lo hi := by
  refine ⟨inside, ?_⟩
  intro slot pending
  obtain ⟨low, high⟩ := (mem_pending_of_le order).mp pending
  exact ⟨Nat.le_trans first (addr_le low), Nat.le_trans (addr_le high) last⟩

/-- Where it has wrapped, a window has to reach from the base to the limit,
or from the head on when the tail is at the base. -/
theorem Shows.wrapped {lo hi : Nat} (h : r.Shows lo hi) (wrapped : r.tail < r.head) :
    hi = r.limit ∧ (0 < r.tail → lo = r.base) := by
  have := r.head_lt
  obtain ⟨low, _, high⟩ := h.inside
  have last := (h.covers (r.slots - 1) ((mem_pending_of_lt wrapped).mpr (by omega))).2
  rw [Nat.sub_add_cancel (by omega)] at last
  refine ⟨Nat.le_antisymm high last, ?_⟩
  intro pos
  have first := (h.covers 0 ((mem_pending_of_lt wrapped).mpr (.inr pos))).1
  exact Nat.le_antisymm first low

end RingBuffer
