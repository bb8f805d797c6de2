import Mathlib.Data.Fintype.Pigeonhole
import Mathlib.Logic.Function.Iterate
import Mathlib.Logic.Relation

/-!
# Chains of pointers

A singly linked list given by a successor function and a pointer that ends it.
Following it comes to the end unless some cell leads back to itself.
-/

namespace Chain

variable {α : Type} (next : α → α) (stop : α)

/-- The cells of the chain that starts at a pointer. -/
inductive Cells : α → List α → Prop
  | nil : Cells stop []
  | cons {a as} : a ≠ stop → Cells (next a) as → Cells a (a :: as)

/-- A cell and the pointer in it. -/
def Link (a b : α) : Prop := a ≠ stop ∧ next a = b

/-- Some cell on the way leads back to itself. -/
def MeetsCycle (start : α) : Prop :=
  ∃ a, Relation.ReflTransGen (Link next stop) start a ∧ Relation.TransGen (Link next stop) a a

variable {next stop}

theorem Cells.unique {a : α} {as bs : List α} (ha : Cells next stop a as)
    (hb : Cells next stop a bs) : as = bs := by
  induction ha generalizing bs with
  | nil =>
    cases hb with
    | nil => rfl
    | cons ne _ => exact absurd rfl ne
  | cons ne _ ih =>
    cases hb with
    | nil => exact absurd rfl ne
    | cons _ rest => rw [ih rest]

theorem Cells.follow {a b : α} {as : List α} (h : Cells next stop a as)
    (link : Link next stop a b) : ∃ bs, Cells next stop b bs ∧ bs.length + 1 = as.length := by
  obtain ⟨ne, rfl⟩ := link
  cases h with
  | nil => exact absurd rfl ne
  | cons _ rest => exact ⟨_, rest, rfl⟩

theorem Cells.reach {a b : α} {as : List α} (h : Cells next stop a as)
    (path : Relation.ReflTransGen (Link next stop) a b) :
    ∃ bs, Cells next stop b bs ∧ bs.length ≤ as.length := by
  induction path with
  | refl => exact ⟨as, h, Nat.le_refl _⟩
  | tail _ link ih =>
    obtain ⟨bs, hb, shorter⟩ := ih
    obtain ⟨cs, hc, one⟩ := hb.follow link
    exact ⟨cs, hc, by omega⟩

/-- The rest of a chain gets shorter with every cell, so none comes again. -/
theorem Cells.no_cycle {a : α} {as : List α} (h : Cells next stop a as) :
    ¬ MeetsCycle next stop a := by
  rintro ⟨b, path, cycle⟩
  obtain ⟨bs, hb, _⟩ := h.reach path
  obtain ⟨c, link, back⟩ := Relation.TransGen.head'_iff.mp cycle
  obtain ⟨cs, hc, one⟩ := hb.follow link
  obtain ⟨bs', hb', shorter⟩ := hc.reach back
  rw [hb'.unique hb] at shorter
  omega

theorem cells_of_iterate {k : Nat} {a : α} (h : next^[k] a = stop) :
    ∃ as, Cells next stop a as := by
  induction k generalizing a with
  | zero =>
    rw [Function.iterate_zero, id_eq] at h
    exact ⟨[], h ▸ .nil⟩
  | succ k ih =>
    by_cases ended : a = stop
    · exact ⟨[], ended ▸ .nil⟩
    · obtain ⟨as, rest⟩ := ih h
      exact ⟨a :: as, .cons ended rest⟩

theorem reach_iterate {a : α} (endless : ∀ k, next^[k] a ≠ stop) (i j : Nat) :
    Relation.ReflTransGen (Link next stop) (next^[i] a) (next^[i + j] a) := by
  induction j with
  | zero => exact .refl
  | succ j ih =>
    refine ih.tail ⟨endless _, ?_⟩
    exact (Function.iterate_succ_apply' next (i + j) a).symm

/-- On finitely many pointers a chain ends exactly when it meets no cycle. -/
theorem ends_iff [Finite α] (a : α) :
    (∃ as, Cells next stop a as) ↔ ¬ MeetsCycle next stop a := by
  constructor
  · rintro ⟨as, h⟩
    exact h.no_cycle
  · intro acyclic
    by_contra never
    have endless : ∀ k, next^[k] a ≠ stop := fun k h => never (cells_of_iterate h)
    obtain ⟨i, j, ne, same⟩ := Finite.exists_ne_map_eq_of_infinite fun k => next^[k] a
    wlog order : i < j generalizing i j
    · exact this j i ne.symm same.symm (by omega)
    refine acyclic ⟨next^[i] a, by simpa using reach_iterate endless 0 i, ?_⟩
    have first : Link next stop (next^[i] a) (next^[i + 1] a) :=
      ⟨endless i, (Function.iterate_succ_apply' next i a).symm⟩
    have back := reach_iterate endless (i + 1) (j - (i + 1))
    rw [show i + 1 + (j - (i + 1)) = j by omega, ← same] at back
    exact Relation.TransGen.head'_iff.mpr ⟨_, first, back⟩

end Chain
