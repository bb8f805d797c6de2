import Mathlib.Data.List.Chain

/-!
# Run-length encoding

A list is cut into maximal runs of equal values, each kept as its length and
its value. `runs` is the encoder with a run pending, as a loop that reads one
value at a time holds it: `count` repetitions of `prev` have been seen after
the first.
-/

namespace RunLength

variable {α : Type} [DecidableEq α]

def runs (prev : α) (count : Nat) : List α → List (Nat × α)
  | [] => [(count + 1, prev)]
  | x :: xs => if prev = x then runs prev (count + 1) xs else (count + 1, prev) :: runs x 0 xs

def expand (rs : List (Nat × α)) : List α := rs.flatMap fun r => List.replicate r.1 r.2

/-- No two neighbouring runs carry the same value. -/
def Maximal (rs : List (Nat × α)) : Prop := rs.IsChain fun a b => a.2 ≠ b.2

omit [DecidableEq α] in
@[simp] theorem expand_append (rs ss : List (Nat × α)) :
    expand (rs ++ ss) = expand rs ++ expand ss := by
  simp [expand]

omit [DecidableEq α] in
@[simp] theorem expand_cons (r : Nat × α) (rs : List (Nat × α)) :
    expand (r :: rs) = List.replicate r.1 r.2 ++ expand rs := rfl

theorem expand_runs (prev : α) (count : Nat) (xs : List α) :
    expand (runs prev count xs) = List.replicate (count + 1) prev ++ xs := by
  induction xs generalizing prev count with
  | nil => simp [runs, expand]
  | cons x xs ih =>
    simp only [runs]
    by_cases h : prev = x
    · subst h
      rw [if_pos rfl, ih, List.replicate_succ' (n := count + 1), List.append_assoc,
        List.singleton_append]
    · rw [if_neg h, expand_cons, ih]
      simp

theorem mem_runs {prev : α} {count : Nat} {xs : List α} {r : Nat × α}
    (h : r ∈ runs prev count xs) : 0 < r.1 ∧ (r.2 = prev ∨ r.2 ∈ xs) := by
  induction xs generalizing prev count with
  | nil =>
    obtain rfl : r = (count + 1, prev) := by simpa [runs] using h
    simp
  | cons x xs ih =>
    simp only [runs] at h
    by_cases same : prev = x
    · rw [if_pos same] at h
      obtain ⟨pos, value⟩ := ih h
      exact ⟨pos, value.imp_right (List.mem_cons_of_mem x)⟩
    · rw [if_neg same, List.mem_cons] at h
      rcases h with rfl | h
      · simp
      · obtain ⟨pos, value⟩ := ih h
        exact ⟨pos, .inr (List.mem_cons.mpr value)⟩

omit [DecidableEq α] in
/-- A run covers equal neighbours, as many as it counts. -/
theorem getElem?_expand (rs : List (Nat × α)) (r : Nat × α) (ss : List (Nat × α)) {j : Nat}
    (h : j < r.1) : (expand (rs ++ r :: ss))[(expand rs).length + j]? = some r.2 := by
  rw [expand_append, expand_cons, List.getElem?_append_right (by omega), Nat.add_sub_cancel_left,
    List.getElem?_append_left (by simpa using h), List.getElem?_replicate]
  simp [h]

theorem head?_runs (prev : α) (count : Nat) (xs : List α) :
    ∀ r ∈ (runs prev count xs).head?, r.2 = prev := by
  induction xs generalizing count with
  | nil => simp [runs]
  | cons x xs ih =>
    simp only [runs]
    by_cases h : prev = x
    · rw [if_pos h]; exact ih _
    · simp [if_neg h]

theorem maximal_runs (prev : α) (count : Nat) (xs : List α) : Maximal (runs prev count xs) := by
  induction xs generalizing prev count with
  | nil => simp [runs, Maximal]
  | cons x xs ih =>
    simp only [runs]
    by_cases h : prev = x
    · rw [if_pos h]; exact ih _ _
    · rw [if_neg h]
      refine (ih x 0).cons fun r hr => ?_
      rw [head?_runs x 0 xs r hr]
      exact h

end RunLength
