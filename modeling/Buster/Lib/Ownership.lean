import Mathlib.Data.Set.Basic
import Mathlib.Data.List.Nodup

/-!
# Ownership

Events gain resources, use them and give them up. What is owned follows from
the events so far, and a history respects ownership when each event uses only
what is owned at the time.
-/

namespace Ownership

variable {ε ρ : Type}

/-- What is given up is used. -/
structure Discipline (ε ρ : Type) where
  gains : ε → List ρ
  uses : ε → List ρ
  loses : ε → List ρ
  loses_used : ∀ e, loses e ⊆ uses e

namespace Discipline

variable (d : Discipline ε ρ)

def after (own : Set ρ) (e : ε) : Set ρ := {r | (r ∈ own ∧ r ∉ d.loses e) ∨ r ∈ d.gains e}

def owned : Set ρ → List ε → Set ρ
  | own, [] => own
  | own, e :: es => owned (d.after own e) es

def Respects : Set ρ → List ε → Prop
  | _, [] => True
  | own, e :: es => (∀ r ∈ d.uses e, r ∈ own) ∧ Respects (d.after own e) es

/-- From `own`, the events respect ownership, and `own'` is owned in the end. -/
structure Owns (own : Set ρ) (es : List ε) (own' : Set ρ) : Prop where
  respects : d.Respects own es
  keeps : own' ⊆ d.owned own es

variable {d}

theorem mem_after {own : Set ρ} {e : ε} {r : ρ} :
    r ∈ d.after own e ↔ (r ∈ own ∧ r ∉ d.loses e) ∨ r ∈ d.gains e := Iff.rfl

/-! ## Owning more -/

theorem after_mono {own more : Set ρ} (h : own ⊆ more) (e : ε) :
    d.after own e ⊆ d.after more e := by
  rintro r (⟨mine, kept⟩ | gained)
  · exact .inl ⟨h mine, kept⟩
  · exact .inr gained

theorem owned_mono {own more : Set ρ} (h : own ⊆ more) (es : List ε) :
    d.owned own es ⊆ d.owned more es := by
  induction es generalizing own more with
  | nil => exact h
  | cons e es ih => exact ih (after_mono h e)

theorem Respects.mono {own more : Set ρ} {es : List ε} (h : own ⊆ more) (safe : d.Respects own es) :
    d.Respects more es := by
  induction es generalizing own more with
  | nil => trivial
  | cons e es ih => exact ⟨fun r hr => h (safe.1 r hr), ih (after_mono h e) safe.2⟩

/-! ## One history after the other -/

theorem owned_append (own : Set ρ) (es fs : List ε) :
    d.owned own (es ++ fs) = d.owned (d.owned own es) fs := by
  induction es generalizing own with
  | nil => rfl
  | cons e es ih => exact ih _

theorem respects_append {own : Set ρ} {es fs : List ε} :
    d.Respects own (es ++ fs) ↔ d.Respects own es ∧ d.Respects (d.owned own es) fs := by
  induction es generalizing own with
  | nil => exact ⟨fun h => ⟨trivial, h⟩, fun h => h.2⟩
  | cons e es ih => exact (and_congr_right fun _ => ih).trans and_assoc.symm

theorem Respects.cut {own : Set ρ} {es all : List ε} (h : d.Respects own all) (cut : es <+: all) :
    d.Respects own es := by
  obtain ⟨rest, rfl⟩ := cut
  exact (respects_append.mp h).1

theorem Owns.nil (own : Set ρ) : d.Owns own [] own := ⟨trivial, Set.Subset.rfl⟩

theorem Owns.mono {own own' more less : Set ρ} {es : List ε} (h : d.Owns own es own')
    (grows : own ⊆ more) (shrinks : less ⊆ own') : d.Owns more es less :=
  ⟨h.respects.mono grows, shrinks.trans (h.keeps.trans (owned_mono grows es))⟩

theorem Owns.append {own₁ own₂ own₃ : Set ρ} {es fs : List ε} (h : d.Owns own₁ es own₂)
    (h' : d.Owns own₂ fs own₃) : d.Owns own₁ (es ++ fs) own₃ where
  respects := respects_append.mpr ⟨h.respects, h'.respects.mono h.keeps⟩
  keeps := by
    rw [owned_append]
    exact h'.keeps.trans (owned_mono h.keeps fs)

theorem Owns.cons {own own' : Set ρ} {e : ε} {es : List ε} (uses : ∀ r ∈ d.uses e, r ∈ own)
    (h : d.Owns (d.after own e) es own') : d.Owns own (e :: es) own' :=
  ⟨⟨uses, h.respects⟩, h.keeps⟩

/-- Events that use what is owned and give nothing up. -/
theorem Owns.steady {own : Set ρ} {es : List ε}
    (h : ∀ e ∈ es, (∀ r ∈ d.uses e, r ∈ own) ∧ d.loses e = []) : d.Owns own es own := by
  induction es with
  | nil => exact .nil own
  | cons e es ih =>
    obtain ⟨first, others⟩ := List.forall_mem_cons.mp h
    have kept : own ⊆ d.after own e := by
      intro r mine
      refine .inl ⟨mine, ?_⟩
      rw [first.2]
      exact List.not_mem_nil
    exact .cons first.1 ((ih others).mono kept Set.Subset.rfl)

/-- What is neither owned nor gained is not used. -/
theorem Respects.unused {own : Set ρ} {es : List ε} {r : ρ} (h : d.Respects own es)
    (strange : r ∉ own) (never : ∀ e ∈ es, r ∉ d.gains e) : ∀ e ∈ es, r ∉ d.uses e := by
  induction es generalizing own with
  | nil => exact List.forall_mem_nil _
  | cons e es ih =>
    obtain ⟨first, others⟩ := List.forall_mem_cons.mp never
    have still : r ∉ d.after own e := by
      rintro (⟨mine, _⟩ | gained)
      · exact strange mine
      · exact first gained
    exact List.forall_mem_cons.mpr ⟨fun used => strange (h.1 r used), ih h.2 still others⟩

theorem owned_of_kept {own : Set ρ} {es : List ε} {r : ρ} (mine : r ∈ own)
    (kept : ∀ e ∈ es, r ∉ d.loses e) : r ∈ d.owned own es := by
  induction es generalizing own with
  | nil => exact mine
  | cons e es ih =>
    obtain ⟨first, others⟩ := List.forall_mem_cons.mp kept
    exact ih (.inl ⟨mine, first⟩) others

/-- What else there is stays owned, if it is not gained a second time. -/
theorem Owns.frame {own own' rest : Set ρ} {es : List ε} (h : d.Owns own es own')
    (apart : ∀ r ∈ rest, r ∉ own ∧ ∀ e ∈ es, r ∉ d.gains e) :
    d.Owns (own ∪ rest) es (own' ∪ rest) where
  respects := h.respects.mono Set.subset_union_left
  keeps := by
    apply Set.union_subset
    · exact h.keeps.trans (owned_mono Set.subset_union_left es)
    · intro r hr
      obtain ⟨strange, never⟩ := apart r hr
      have unused := h.respects.unused strange never
      exact owned_of_kept (.inr hr) fun e he lost => unused e he (d.loses_used e lost)

/-! ## Gained only once -/

/-- What is gained is new. -/
structure Fresh (d : Discipline ε ρ) (own : Set ρ) (es : List ε) : Prop where
  once : (es.flatMap d.gains).Nodup
  new : ∀ r ∈ es.flatMap d.gains, r ∉ own

theorem Fresh.tail {own : Set ρ} {e : ε} {es : List ε} (h : d.Fresh own (e :: es)) :
    d.Fresh (d.after own e) es := by
  obtain ⟨once, new⟩ := h
  rw [List.flatMap_cons] at once new
  obtain ⟨_, later, apart⟩ := List.nodup_append.mp once
  refine ⟨later, ?_⟩
  rintro r gained (⟨mine, _⟩ | again)
  · exact new r (List.mem_append_right _ gained) mine
  · exact apart r again r gained rfl

/-- What is given up is gone. -/
theorem Respects.lost {own : Set ρ} {e : ε} {es : List ε} {r : ρ} (h : d.Respects own (e :: es))
    (fresh : d.Fresh own (e :: es)) (lost : r ∈ d.loses e) :
    r ∉ d.after own e ∧ ∀ e' ∈ es, r ∉ d.gains e' := by
  have mine : r ∈ own := h.1 r (d.loses_used e lost)
  have never : r ∉ (e :: es).flatMap d.gains := fun gained => fresh.new r gained mine
  rw [List.flatMap_cons, List.mem_append, not_or] at never
  constructor
  · rintro (⟨_, kept⟩ | gained)
    · exact kept lost
    · exact never.1 gained
  · exact fun e' he' gained => never.2 (List.mem_flatMap.mpr ⟨e', he', gained⟩)

/-- Nothing is used after it has been given up. -/
theorem Respects.pairwise {own : Set ρ} {es : List ε} (h : d.Respects own es)
    (fresh : d.Fresh own es) : es.Pairwise fun e e' => ∀ r ∈ d.loses e, r ∉ d.uses e' := by
  induction es generalizing own with
  | nil => exact .nil
  | cons e es ih =>
    refine .cons ?_ (ih h.2 fresh.tail)
    intro e' he' r lost
    obtain ⟨gone, never⟩ := h.lost fresh lost
    exact h.2.unused gone never e' he'

/-- What is owned is what there was or has been gained, and has not been given up. -/
theorem Respects.owned_iff {own : Set ρ} {es : List ε} (h : d.Respects own es)
    (fresh : d.Fresh own es) (r : ρ) :
    r ∈ d.owned own es ↔
      (r ∈ own ∨ r ∈ es.flatMap d.gains) ∧ r ∉ es.flatMap d.loses := by
  induction es generalizing own with
  | nil => simp [owned]
  | cons e es ih =>
    have first : r ∈ d.loses e → ¬ (r ∈ d.after own e ∨ r ∈ es.flatMap d.gains) := by
      intro lost
      obtain ⟨gone, never⟩ := h.lost fresh lost
      rintro (mine | gained)
      · exact gone mine
      · obtain ⟨e', he', gained⟩ := List.mem_flatMap.mp gained
        exact never e' he' gained
    rw [owned, ih h.2 fresh.tail, List.flatMap_cons, List.flatMap_cons, List.mem_append,
      List.mem_append]
    rw [mem_after] at first ⊢
    tauto

end Discipline

end Ownership
