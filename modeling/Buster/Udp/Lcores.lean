import Buster.Udp.Init

/-!
# The tables of the lcores

`init_lcores` indexes the configurations of the lcores, of which there are two,
with the lcore of each entry of the mapping, and the queues of an lcore with
their number so far. `check_lcore_params` before it asks only whether an lcore
is enabled.
-/

namespace Udp

open Imp.Prog

/-- No lcore has more queues than it has room for. -/
def HasRoom (ps : List LcoreParams) : Prop :=
  ∀ lcore, (mappedTo lcore ps).length ≤ maxRxQueuePerLcore

/-- The entries before have been entered. -/
structure Entered (s : Setup) (before : List LcoreParams) : Prop where
  counts : ∀ lcore : Fin myRteMaxLcore,
    (s.lcoreConf lcore).nRxQueue = (mappedTo lcore before).length
  room : HasRoom before

theorem mappedTo_append (lcore : Nat) (ps qs : List LcoreParams) :
    mappedTo lcore (ps ++ qs) = mappedTo lcore ps ++ mappedTo lcore qs := by
  rw [mappedTo, List.filter_append, List.map_append]
  rfl

theorem length_mappedTo_snoc (lcore : Nat) (ps : List LcoreParams) (p : LcoreParams) :
    (mappedTo lcore (ps ++ [p])).length =
      (mappedTo lcore ps).length + if p.lcoreId.toNat = lcore then 1 else 0 := by
  rw [mappedTo_append, List.length_append]
  by_cases mine : p.lcoreId.toNat = lcore
  · simp [mappedTo, mine]
  · simp [mappedTo, mine]

theorem HasRoom.of_append {ps qs : List LcoreParams} (h : HasRoom (ps ++ qs)) : HasRoom ps := by
  intro lcore
  have whole := h lcore
  rw [mappedTo_append, List.length_append] at whole
  omega

theorem entered_initial : Entered .initial [] where
  counts _ := rfl
  room _ := Nat.zero_le _

theorem Entered.add {s : Setup} {before : List LcoreParams} {p : LcoreParams}
    (h : Entered s before) {entry : Fin myRteMaxLcore} (named : p.lcoreId.toNat = entry)
    (room : (s.lcoreConf entry).nRxQueue < maxRxQueuePerLcore) :
    Entered (s.setConf entry ((s.lcoreConf entry).addQueue ⟨p.portId, p.queueId⟩))
      (before ++ [p]) where
  counts := by
    intro lcore
    rw [length_mappedTo_snoc, ← h.counts, named]
    by_cases mine : lcore = entry
    · subst mine
      rw [Setup.setConf_self, if_pos rfl]
      rfl
    · have other : entry.val ≠ lcore.val := fun same => mine (Fin.ext same.symm)
      rw [Setup.setConf_of_ne s _ mine, if_neg other, Nat.add_zero]
  room := by
    intro lcore
    rw [length_mappedTo_snoc, named]
    by_cases mine : entry.val = lcore
    · subst mine
      rw [if_pos rfl, ← h.counts]
      exact room
    · rw [if_neg mine]
      exact h.room lcore

/-- Every entry that comes before an lcore is full names an lcore that has a configuration. -/
def InTables (before ps : List LcoreParams) : Prop :=
  ∀ mid p after, ps = mid ++ p :: after → HasRoom (before ++ mid) →
    p.lcoreId.toNat < myRteMaxLcore

theorem inTables_full {before ps : List LcoreParams} {p : LcoreParams} (room : HasRoom before)
    (full : maxRxQueuePerLcore ≤ (mappedTo p.lcoreId.toNat before).length) :
    InTables before (p :: ps) ↔ p.lcoreId.toNat < myRteMaxLcore := by
  constructor
  · intro inside
    exact inside [] p ps rfl (by rwa [List.append_nil])
  · rintro first mid q after split roomy
    cases mid with
    | nil =>
      cases split
      exact first
    | cons p' mid =>
      cases split
      rw [List.append_cons] at roomy
      have many := roomy.of_append p.lcoreId.toNat
      rw [length_mappedTo_snoc, if_pos rfl] at many
      omega

theorem inTables_cons {before ps : List LcoreParams} {p : LcoreParams} (room : HasRoom before) :
    InTables before (p :: ps) ↔
      p.lcoreId.toNat < myRteMaxLcore ∧ InTables (before ++ [p]) ps := by
  constructor
  · intro inside
    refine ⟨inside [] p ps rfl (by rwa [List.append_nil]), ?_⟩
    intro mid q after split roomy
    rw [← List.append_cons] at roomy
    exact inside (p :: mid) q after (by rw [split, List.cons_append]) roomy
  · rintro ⟨first, rest⟩ mid q after split roomy
    cases mid with
    | nil =>
      cases split
      exact first
    | cons p' mid =>
      cases split
      rw [List.append_cons] at roomy
      exact rest mid q after rfl roomy

/-! ## Entering the mapping -/

variable {s s' : Setup} {es : List Call} {r : Option Unit}

theorem initLcores_inside_iff {before ps : List LcoreParams} (entered : Entered s before)
    (run : (initLcores ps).run.Returns s es r s') :
    (∀ c ∈ es, c.Inside) ↔ InTables before ps := by
  induction ps generalizing before s es with
  | nil =>
    obtain ⟨rfl, _, _⟩ := returns_pure.mp run
    refine iff_of_true (List.forall_mem_nil _) ?_
    intro mid p after split
    simp at split
  | cons p ps ih =>
    rcases initLcores_cases run with
      ⟨outside, rfl, _⟩ | ⟨entry, named, ⟨full, rfl, _⟩ | ⟨room, rest, rfl, run₁⟩⟩
    · rw [List.forall_mem_singleton]
      refine iff_of_false (Nat.not_lt.mpr outside) fun inside => Nat.not_lt.mpr outside ?_
      exact inside [] p ps rfl (by rw [List.append_nil]; exact entered.room)
    · rw [List.forall_mem_singleton, inTables_full entered.room, named]
      · exact Iff.rfl
      · rwa [named, ← entered.counts]
    · rw [List.forall_mem_cons, List.forall_mem_cons, ih (entered.add named room) run₁,
        inTables_cons entered.room, named]
      constructor
      · rintro ⟨first, _, others⟩
        exact ⟨first, others⟩
      · rintro ⟨first, others⟩
        exact ⟨first, ⟨first, room⟩, others⟩

/-- An access lies outside of a table exactly when an entry that is reached names
an lcore from 2 on: the number of queues is checked and the lcore is not. -/
theorem lcores_inside_iff {l : Launch} {ps : List LcoreParams}
    (accepted : Passes (checkLcoreParams l ps) .initial [] () .initial)
    (run : (checkLcoreParams l ps >>= fun _ => initLcores ps).run.Returns .initial es r s') :
    (∀ c ∈ es, c.Inside) ↔
      ∀ before p after, ps = before ++ p :: after → HasRoom before →
        p.lcoreId.toNat < myRteMaxLcore := by
  obtain ⟨rest, rfl, run₁⟩ := accepted.rest run
  exact initLcores_inside_iff entered_initial run₁

/-- The seventeenth queue of lcore 0 is refused. -/
theorem seventeen_inside :
    let ps := List.replicate 17 ⟨0, 0, 0⟩
    let start := checkLcoreParams (onePort (· < 2) 2) ps >>= fun _ => initLcores ps
    let out := start.run.run 0 .initial
    out.value = some none ∧ ∀ c ∈ out.events, c.Inside := by
  intro ps start out
  have ended : out.value = some none := by decide
  have run : (checkLcoreParams (onePort (· < 2) 2) ps >>= fun _ => initLcores ps).run.Returns
      .initial out.events none out.state := ⟨0, by rw [← ended]⟩
  have checked : Passes (checkLcoreParams (onePort (· < 2) 2) ps) .initial [] () .initial :=
    ⟨0, rfl⟩
  refine ⟨ended, (lcores_inside_iff checked run).mpr ?_⟩
  intro before p after split _
  have member : p ∈ ps := split ▸ List.mem_append_right _ List.mem_cons_self
  rw [List.eq_of_mem_replicate member]
  decide

/-- Lcore 2 is enabled, and the only queue is mapped to it. -/
theorem thirdLcore_outside :
    Passes (checkLcoreParams (onePort (· < 3) 3) [⟨0, 0, 2⟩]) .initial [] () .initial ∧
    ∃ es s', (initLcores [⟨0, 0, 2⟩]).run.Returns .initial es none s' ∧
      es = [.lcoreConf 2] ∧ ¬ ∀ c ∈ es, c.Inside :=
  ⟨⟨0, rfl⟩, _, _, ⟨0, rfl⟩, rfl, by decide⟩

end Udp
