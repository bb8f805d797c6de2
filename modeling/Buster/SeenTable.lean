import Mathlib.Data.List.GetD
import Buster.Unique

/-!
# The table of seen IOMMUs

`buster_ini` enters every mapping that it has not seen into an array of 16, and
goes by the zeros left in the array to reject a mapping that failed. Neither the
blocks it visits nor the index are bounded.
-/

namespace Buster

open Imp.Prog

variable {m : Machine}

/-! ## The table alone -/

/-- What a visit does to the table when `get_iommu_regs` gives that. -/
def Seen.look (seen : Seen) (mmioBase : U64) : Seen :=
  if isRepeatIn mmioBase seen.regs.toList then seen else seen.enter mmioBase

/-- The different mappings in the order they came, and failures left out. -/
def mappings (xs : List U64) : List U64 :=
  xs.foldl (fun ds x => if x = 0 ∨ x ∈ ds then ds else ds ++ [x]) []

/-- Once there have been 16 mappings, every result is one of them. -/
def FitsTable (xs : List U64) : Prop :=
  ∀ i < xs.length, nmiommu * 4 ≤ (mappings (xs.take i)).length →
    xs.getD i 0 ∈ mappings (xs.take i)

instance (xs : List U64) : Decidable (FitsTable xs) := inferInstanceAs (Decidable (∀ i < _, _))

theorem mappings_append (xs : List U64) (x : U64) : mappings (xs ++ [x]) =
    if x = 0 ∨ x ∈ mappings xs then mappings xs else mappings xs ++ [x] := by
  unfold mappings
  rw [List.foldl_append]
  rfl

theorem fitsTable_append (xs : List U64) (x : U64) : FitsTable (xs ++ [x]) ↔
    FitsTable xs ∧ (nmiommu * 4 ≤ (mappings xs).length → x ∈ mappings xs) := by
  have before {i : Nat} (h : i < xs.length) :
      (xs ++ [x]).take i = xs.take i ∧ (xs ++ [x]).getD i 0 = xs.getD i 0 :=
    ⟨List.take_append_of_le_length (by omega), List.getD_append _ _ _ _ h⟩
  have last : (xs ++ [x]).take xs.length = xs ∧ (xs ++ [x]).getD xs.length 0 = x := by simp
  have size : (xs ++ [x]).length = xs.length + 1 := List.length_append
  constructor
  · intro fits
    constructor
    · intro i h
      have earlier := fits i (by omega)
      rwa [(before h).1, (before h).2] at earlier
    · have here := fits xs.length (by omega)
      rwa [last.1, last.2] at here
  · rintro ⟨fits, here⟩ i h
    rcases Nat.lt_succ_iff_lt_or_eq.mp (size ▸ h) with earlier | rfl
    · rw [(before earlier).1, (before earlier).2]
      exact fits i earlier
    · rwa [last.1, last.2]

/-- The table has these mappings in front and zeros behind. -/
structure Filled (seen : Seen) (ds : List U64) : Prop where
  regs : seen.regs.toList = ds ++ List.replicate (nmiommu * 4 - ds.length) 0
  idx : seen.idx = ds.length
  fits : ds.length ≤ nmiommu * 4

theorem filled_initial : Filled .initial [] where
  regs := Vector.toList_replicate
  idx := rfl
  fits := by decide

theorem Filled.repeated_iff {seen : Seen} {ds : List U64} (h : Filled seen ds) (x : U64) :
    isRepeatIn x seen.regs.toList = true ↔ x ∈ ds ∨ x = 0 ∧ ds.length < nmiommu * 4 := by
  rw [isRepeatIn_iff, h.regs, List.mem_append, List.mem_replicate]
  constructor
  · rintro (old | ⟨room, null⟩)
    · exact .inl old
    · exact .inr ⟨null, by omega⟩
  · rintro (old | ⟨null, room⟩)
    · exact .inl old
    · exact .inr ⟨by omega, null⟩

theorem Filled.enter {seen : Seen} {ds : List U64} (h : Filled seen ds) (x : U64)
    (room : ds.length < nmiommu * 4) : Filled (seen.enter x) (ds ++ [x]) where
  regs := by
    obtain ⟨k, left⟩ : ∃ k, nmiommu * 4 - ds.length = k + 1 :=
      ⟨nmiommu * 4 - ds.length - 1, by omega⟩
    have size : nmiommu * 4 - (ds ++ [x]).length = k := by
      rw [List.length_append, List.length_singleton]
      omega
    rw [Seen.enter, Vector.toList_setIfInBounds, h.regs, h.idx, size, left, List.replicate_succ,
      List.set_append_right _ _ (Nat.le_refl _), Nat.sub_self, List.set_cons_zero,
      List.append_assoc, List.singleton_append]
  idx := by
    rw [List.length_append, ← h.idx]
    rfl
  fits := by
    rw [List.length_append]
    exact room

/-- A result is found, or entered, or finds the table full. -/
theorem look_cases {seen : Seen} {xs : List U64} (h : Filled seen (mappings xs)) (x : U64) :
    Filled (seen.look x) (mappings (xs ++ [x])) ∧
        (nmiommu * 4 ≤ (mappings xs).length → x ∈ mappings xs) ∨
      nmiommu * 4 ≤ (mappings xs).length ∧ x ∉ mappings xs ∧
        (seen.look x).idx = nmiommu * 4 + 1 := by
  have fits := h.fits
  have decided := h.repeated_iff x
  unfold Seen.look
  rw [mappings_append]
  by_cases repeated : isRepeatIn x seen.regs.toList = true
  · rw [if_pos repeated]
    left
    rcases decided.mp repeated with old | ⟨null, room⟩
    · rw [if_pos (.inr old)]
      exact ⟨h, fun _ => old⟩
    · rw [if_pos (.inl null)]
      exact ⟨h, fun full => absurd room (Nat.not_lt.mpr full)⟩
  · rw [if_neg repeated]
    have new : x ∉ mappings xs := fun old => repeated (decided.mpr (.inl old))
    by_cases room : (mappings xs).length < nmiommu * 4
    · have made : x ≠ 0 := fun null => repeated (decided.mpr (.inr ⟨null, room⟩))
      rw [if_neg (not_or.mpr ⟨made, new⟩)]
      exact .inl ⟨h.enter x room, fun full => absurd room (Nat.not_lt.mpr full)⟩
    · have count : (seen.enter x).idx = seen.idx + 1 := rfl
      exact .inr ⟨Nat.not_lt.mp room, new, by rw [count, h.idx]; omega⟩

theorem look_idx (seen : Seen) (x : U64) : seen.idx ≤ (seen.look x).idx := by
  unfold Seen.look
  split
  · exact Nat.le_refl _
  · exact Nat.le_succ _

/-- The index stays inside the table just when the results fit. -/
theorem looks_iff (xs : List U64) :
    ((xs.foldl Seen.look .initial).idx ≤ nmiommu * 4 ↔ FitsTable xs) ∧
      (FitsTable xs → Filled (xs.foldl Seen.look .initial) (mappings xs)) := by
  induction xs using List.reverseRecOn with
  | nil => exact ⟨iff_of_true (Nat.zero_le _) (fun i h => by cases h), fun _ => filled_initial⟩
  | append_singleton xs x ih =>
    obtain ⟨inside, filled⟩ := ih
    rw [List.foldl_append, List.foldl_cons, List.foldl_nil, fitsTable_append]
    have grows := look_idx (xs.foldl Seen.look .initial) x
    by_cases fits : FitsTable xs
    · rcases look_cases (filled fits) x with ⟨next, found⟩ | ⟨full, new, past⟩
      · exact ⟨iff_of_true (next.idx ▸ next.fits) ⟨fits, found⟩, fun _ => next⟩
      · have refused : ¬ (FitsTable xs ∧ (nmiommu * 4 ≤ (mappings xs).length → x ∈ mappings xs)) :=
          fun h => new (h.2 full)
        exact ⟨iff_of_false (by omega) refused, fun h => absurd h refused⟩
    · have past : ¬ (xs.foldl Seen.look .initial).idx ≤ nmiommu * 4 := fun h => fits (inside.mp h)
      exact ⟨iff_of_false (by omega) fun h => fits h.1, fun h => absurd h.1 fits⟩

/-! ## The stores of a run -/

def Event.stored : Event → Option Nat
  | .storeSeen index => some index
  | _ => none

/-- The indexes at which the table is written. -/
def stored (es : List Event) : List Nat := es.filterMap Event.stored

theorem mem_stored {es : List Event} {i : Nat} : i ∈ stored es ↔ .storeSeen i ∈ es := by
  rw [stored, List.mem_filterMap]
  constructor
  · rintro ⟨e, he, index⟩
    cases e with
    | storeSeen j =>
      cases index
      exact he
    | _ => cases index
  · intro h
    exact ⟨_, h, rfl⟩

/-- Nothing is stored in the table. -/
def Event.Unstored (e : Event) : Prop := e.stored = none

theorem stored_unstored {es : List Event} (h : ∀ e ∈ es, e.Unstored) : stored es = [] :=
  filterMap_hidden (fun _ he => he) h

theorem stored_append (es fs : List Event) : stored (es ++ fs) = stored es ++ stored fs :=
  List.filterMap_append

theorem Event.Dump.unstored {e : Event} (h : e.Dump) : e.Unstored := by
  cases e with
  | storeSeen => exact h.elim
  | _ => rfl

theorem Event.Maps.unstored {e : Event} (h : e.Maps) : e.Unstored := by
  cases e with
  | storeSeen => exact h.elim
  | _ => rfl

theorem unstored_emit {e : Event} (h : e.Unstored) :
    (emit e : Kernel Unit).Confined (fun _ => True) Event.Unstored := confined_emit h

theorem unstored_printk (line : Text) :
    (printk line).Confined (fun _ => True) Event.Unstored :=
  have print : (Event.printk line).Unstored := rfl
  unstored_emit print

theorem unstored_load32 (a : U64) :
    (load32 m a).Confined (fun _ => True) Event.Unstored :=
  (confined_load32 a).weaken fun _ h => h.dump.unstored

theorem unstored_getIommuRegs (capPtr : U64) :
    (getIommuRegs m capPtr).Confined (fun _ => True) Event.Unstored := by
  obtain ⟨rest, split, after⟩ := getIommuRegs_split (m := m) capPtr
  have call : (Event.getIommuRegs capPtr).Unstored := rfl
  rw [split]
  exact (unstored_emit call).bind fun _ => (unstored_load32 _).bind fun low =>
    (unstored_load32 _).bind fun high => (after low high).weaken fun _ h =>
      h.elim Event.Maps.unstored fun h => h.dump.unstored

theorem unstored_bustOpen (mmio : U64) :
    (bustOpen m mmio).Confined (fun _ => True) Event.Unstored := by
  obtain ⟨rest, split, dumps⟩ := bustOpen_split (m := m) mmio
  have call : (Event.bustOpen mmio).Unstored := rfl
  rw [split]
  exact (unstored_emit call).bind fun _ =>
    (dumps _ fun _ _ => trivial).weaken fun _ h => h.dump.unstored

theorem unstored_getCapSpace (bus dev func : U32) :
    (getCapSpace m bus dev func).Confined (fun _ => True) Event.Unstored := by
  have mapped : (mapConf m bus dev func).Confined (fun _ => True) Event.Unstored :=
    ((confined_getMapping m _ _).weaken fun _ h => h.unstored).bind fun _ =>
      (unstored_printk _).bind fun _ => confined_pure _
  exact mapped.bind fun confSpace => (confined_dumpCaps (fun _ _ => trivial) bus dev func
    confSpace).weaken fun _ h => h.unstored

/-- The table grows from one state to the other, entry by entry. -/
def Stores (seen : Seen) (es : List Event) (seen' : Seen) : Prop :=
  ∃ k, seen'.idx = seen.idx + k ∧ stored es = List.range' seen.idx k

theorem stores_none {seen : Seen} {es : List Event} (h : ∀ e ∈ es, e.Unstored) :
    Stores seen es seen := ⟨0, rfl, stored_unstored h⟩

theorem Stores.append {seen seen₁ seen₂ : Seen} {es fs : List Event} (h : Stores seen es seen₁)
    (h' : Stores seen₁ fs seen₂) : Stores seen (es ++ fs) seen₂ := by
  obtain ⟨k, count, indexes⟩ := h
  obtain ⟨l, count', indexes'⟩ := h'
  refine ⟨k + l, by omega, ?_⟩
  rw [stored_append, indexes, indexes', count, List.range'_append_1]

/-! ## What the visits give -/

theorem visit_look {seen seen' : Seen} {capPtr : U64} {g g' : Globals} {es : List Event}
    (run : (visit m seen capPtr).Returns g es seen' g') :
    seen' = seen.look (decoded m g.idx capPtr) ∧ g'.idx = afterVisit m g.idx capPtr ∧
      Stores seen es seen' := by
  have calls := visit_calls run
  obtain ⟨es₁, mmio, g₁, decode, rest⟩ := visit_cases run
  obtain ⟨rfl, _⟩ := getIommuRegs_spec decode
  have quiet : ∀ e ∈ es₁, e.Unstored := ((unstored_getIommuRegs capPtr).returns trivial decode).2
  unfold Seen.look
  rcases rest with ⟨repeated, rfl, rfl, rfl⟩ | ⟨new, es₂, open', rfl, rfl⟩
  · rw [if_pos repeated]
    exact ⟨rfl, calls, stores_none quiet⟩
  · rw [if_neg new]
    have entered : Stores seen [.storeSeen seen.idx] (seen.enter (decoded m g.idx capPtr)) :=
      ⟨1, rfl, rfl⟩
    have opened := ((unstored_bustOpen (decoded m g.idx capPtr)).returns trivial open').2
    refine ⟨rfl, calls, ?_⟩
    exact (stores_none quiet).append (entered.append (stores_none opened))

/-- The results for the blocks of the `do`-`while` from a block on. -/
inductive DecodesBlocks (m : Machine) : Nat → U64 → List U64 → Nat → Prop
  | last {n capPtr} : LastPointer m.mem capPtr →
      DecodesBlocks m n capPtr [decoded m n (nextBlock m.mem capPtr)]
        (afterVisit m n (nextBlock m.mem capPtr))
  | more {n capPtr xs k} : ¬ LastPointer m.mem capPtr →
      DecodesBlocks m (afterVisit m n (nextBlock m.mem capPtr)) (nextBlock m.mem capPtr) xs k →
      DecodesBlocks m n capPtr (decoded m n (nextBlock m.mem capPtr) :: xs) k

theorem DecodesBlocks.unique {n k k' : Nat} {capPtr : U64} {xs xs' : List U64}
    (h : DecodesBlocks m n capPtr xs k) (h' : DecodesBlocks m n capPtr xs' k') :
    xs = xs' ∧ k = k' := by
  induction h generalizing xs' k' with
  | last ends =>
    cases h' with
    | last _ => exact ⟨rfl, rfl⟩
    | more goes _ => exact absurd ends goes
  | more goes _ ih =>
    cases h' with
    | last ends => exact absurd ends goes
    | more _ rest =>
      obtain ⟨rfl, rfl⟩ := ih rest
      exact ⟨rfl, rfl⟩

theorem visitLoop_looks {w : BlockWalk} {seen' : Seen} {g g' : Globals} {es : List Event}
    (run : (loop (visitRound m) w).Returns g es seen' g') :
    ∃ xs, DecodesBlocks m g.idx w.capPtr xs g'.idx ∧ seen' = xs.foldl Seen.look w.seen ∧
      Stores w.seen es seen' := by
  have loaded (a : U64) (seen : Seen) : Stores seen [.load a 4] seen :=
    stores_none (List.forall_mem_singleton.mpr rfl)
  refine visitLoop_induction (motive := fun w g es seen' g' =>
    ∃ xs, DecodesBlocks m g.idx w.capPtr xs g'.idx ∧ seen' = xs.foldl Seen.look w.seen ∧
      Stores w.seen es seen') ?_ ?_ run
  · intro w g es seen' g' ends visit
    obtain ⟨rfl, calls, stores⟩ := visit_look visit
    exact ⟨_, calls ▸ DecodesBlocks.last ends, rfl, (loaded _ _).append stores⟩
  · intro w g es₁ seen₁ g₁ es₂ seen' g' goes visit ih
    obtain ⟨rfl, calls, stores⟩ := visit_look visit
    obtain ⟨xs, decodes, rfl, stores'⟩ := ih
    exact ⟨_, DecodesBlocks.more goes (calls ▸ decodes), rfl,
      ((loaded _ _).append stores).append stores'⟩

/-- The results for the blocks visited on some buses. -/
inductive Decodes (m : Machine) : List U32 → Nat → List U64 → Nat → Prop
  | nil {n} : Decodes m [] n [] n
  | skip {bus buses n xs k} : firstBlock m n bus = 0 → Decodes m buses (nextCall n) xs k →
      Decodes m (bus :: buses) n xs k
  | scan {bus buses n ys j xs k} : firstBlock m n bus ≠ 0 →
      DecodesBlocks m (afterVisit m (nextCall n) (firstBlock m n bus)) (firstBlock m n bus) ys j →
      Decodes m buses j xs k →
      Decodes m (bus :: buses) n (decoded m (nextCall n) (firstBlock m n bus) :: ys ++ xs) k

theorem Decodes.unique {buses : List U32} {n k k' : Nat} {xs xs' : List U64}
    (h : Decodes m buses n xs k) (h' : Decodes m buses n xs' k') : xs = xs' := by
  induction h generalizing xs' with
  | nil =>
    cases h'
    rfl
  | skip null _ ih =>
    cases h' with
    | skip _ rest => exact ih rest
    | scan some _ _ => exact absurd null some
  | scan some first _ ih =>
    cases h' with
    | skip null _ => exact absurd null some
    | scan _ first' rest =>
      obtain ⟨rfl, rfl⟩ := first.unique first'
      rw [ih rest]

theorem scanBus_looks {seen seen' : Seen} {bus : U32} {g g' : Globals} {es : List Event}
    (run : (scanBus m seen bus).Returns g es seen' g') :
    Stores seen es seen' ∧
      (firstBlock m g.idx bus = 0 ∧ seen' = seen ∧ g'.idx = nextCall g.idx ∨
        firstBlock m g.idx bus ≠ 0 ∧ ∃ ys,
          DecodesBlocks m (afterVisit m (nextCall g.idx) (firstBlock m g.idx bus))
            (firstBlock m g.idx bus) ys g'.idx ∧
          seen' = (decoded m (nextCall g.idx) (firstBlock m g.idx bus) :: ys).foldl
            Seen.look seen) := by
  obtain ⟨es₁, capPtr, g₁, space, rest⟩ := scanBus_cases run
  obtain ⟨rfl, calls, _⟩ := getCapSpace_spec space
  have quiet := ((unstored_getCapSpace bus 0 2).returns trivial space).2
  rcases rest with ⟨null, rfl, rfl, rfl⟩ | ⟨some, es₂, seen₁, g₂, es₃, first, later, rfl⟩
  · refine ⟨stores_none ?_, .inl ⟨null, rfl, calls⟩⟩
    exact List.forall_mem_append.mpr ⟨quiet, List.forall_mem_singleton.mpr rfl⟩
  · obtain ⟨rfl, after, stores⟩ := visit_look first
    obtain ⟨ys, decodes, rfl, stores'⟩ := visitLoop_looks later
    rw [calls] at after
    refine ⟨(stores_none quiet).append (stores.append stores'), .inr ⟨some, ys, ?_, ?_⟩⟩
    · exact after ▸ decodes
    · rw [List.foldl_cons, calls]

theorem scanAll_looks {buses : List U32} {seen seen' : Seen} {g g' : Globals} {es : List Event}
    (run : (scanAll m buses seen).Returns g es seen' g') :
    ∃ xs, Decodes m buses g.idx xs g'.idx ∧ seen' = xs.foldl Seen.look seen ∧
      Stores seen es seen' := by
  induction buses generalizing seen g es with
  | nil =>
    obtain ⟨rfl, rfl, rfl⟩ := returns_pure.mp run
    exact ⟨[], .nil, rfl, stores_none (List.forall_mem_nil _)⟩
  | cons bus buses ih =>
    obtain ⟨es₁, seen₁, g₁, es₂, first, rest, rfl⟩ := returns_bind.mp run
    obtain ⟨stores, one⟩ := scanBus_looks first
    obtain ⟨xs, decodes, rfl, stores'⟩ := ih rest
    rcases one with ⟨null, rfl, calls⟩ | ⟨some, ys, visits, rfl⟩
    · exact ⟨xs, .skip null (calls ▸ decodes), rfl, stores.append stores'⟩
    · refine ⟨_, .scan some visits decodes, ?_, stores.append stores'⟩
      rw [List.foldl_append]

theorem freeall_unstored {g g' : Globals} {es : List Event}
    (run : freeall.Returns g es () g') : ∀ e ∈ es, e.Unstored := by
  obtain ⟨rfl, _⟩ := run.unique (freeall_returns g)
  intro e he
  rcases List.mem_cons.mp he with rfl | he
  · rfl
  · obtain ⟨va, _, rfl⟩ := List.mem_map.mp he
    rfl

/-- The indexes count up from 0, as far as the results of the visits take them. -/
theorem busterIni_stores {es : List Event} {r : Int} {g' : Globals}
    (run : (busterIni m).Returns .initial es r g') :
    ∃ xs k, Decodes m busnums 0 xs k ∧
      stored es = List.range (xs.foldl Seen.look .initial).idx := by
  obtain ⟨es₁, seen, g₁, es₂, scanned, freed, rfl⟩ := busterIni_cases run
  obtain ⟨xs, decodes, rfl, count, up, indexes⟩ := scanAll_looks scanned
  have start : Seen.initial.idx = 0 := rfl
  refine ⟨xs, _, decodes, ?_⟩
  rw [stored_append, stored_unstored (freeall_unstored freed), List.append_nil,
    indexes, up, start, Nat.zero_add, List.range_eq_range']

theorem stores_inside_iff {es : List Event} {r : Int} {g' : Globals}
    (run : (busterIni m).Returns .initial es r g') {xs : List U64} {k : Nat}
    (decodes : Decodes m busnums 0 xs k) :
    (∀ i, .storeSeen i ∈ es → i < nmiommu * 4) ↔ FitsTable xs := by
  obtain ⟨xs', k', decodes', indexes⟩ := busterIni_stores run
  obtain rfl := decodes.unique decodes'
  rw [← (looks_iff xs).1]
  simp only [← mem_stored, indexes, List.mem_range]
  constructor
  · intro all
    by_contra past
    exact Nat.lt_irrefl _ (all (nmiommu * 4) (Nat.not_le.mp past))
  · intro fits i below
    exact Nat.lt_of_lt_of_le below fits

/-- Every store is inside the table exactly when the results of the visits fit in. -/
theorem seen_inside_iff {es : List Event} {r : Int} {g' : Globals}
    (run : (busterIni m).Returns .initial es r g') :
    (∀ i, .storeSeen i ∈ es → i < nmiommu * 4) ↔
      ∃ xs k, Decodes m busnums 0 xs k ∧ FitsTable xs := by
  constructor
  · intro inside
    obtain ⟨xs, k, decodes, _⟩ := busterIni_stores run
    exact ⟨xs, k, decodes, (stores_inside_iff run decodes).mp inside⟩
  · rintro ⟨xs, k, decodes, fits⟩
    exact (stores_inside_iff run decodes).mpr fits

/-- The only IOMMU there is is entered twice. -/
theorem oneIommu_decodes : Decodes oneIommu busnums 0 [0x1100000, 0x1200000] 6 := by
  have absent {bus : U32} (other : bus = 0x40 ∨ bus = 0x80 ∨ bus = 0xc0) (n : Nat) :
      firstBlock oneIommu n bus = 0 := if_pos (oneIommu_unmapped other n)
  exact .scan (by decide) (.last (by decide)) (.skip (absent (.inl rfl) _)
    (.skip (absent (.inr (.inl rfl)) _) (.skip (absent (.inr (.inr rfl)) _) .nil)))

theorem oneIommu_seen_inside : ∃ es r g', (busterIni oneIommu).Returns .initial es r g' ∧
    ∀ i, .storeSeen i ∈ es → i < nmiommu * 4 := by
  obtain ⟨es, r, g', run⟩ := oneIommu_ends
  exact ⟨es, r, g', run, (seen_inside_iff run).mpr ⟨_, _, oneIommu_decodes, by decide⟩⟩

/-- A load stays inside the table and opens no IOMMU twice exactly when the
results of its visits fit in and no two of the blocks visited name the same base
and can both be mapped: what was opened before is never recognised. -/
theorem opened_once_iff (fresh : m.Fresh) {es : List Event} {r : Int} {g' : Globals}
    (run : (busterIni m).Returns .initial es r g') :
    (∀ i, .storeSeen i ∈ es → i < nmiommu * 4) ∧ (opened m.mem 0 es).Nodup ↔
      (∃ xs k, Decodes m busnums 0 xs k ∧ FitsTable xs) ∧
        ∃ bases k, Scans m busnums 0 bases k ∧ bases.Nodup := by
  obtain ⟨xs, k, decodes, _⟩ := busterIni_stores run
  obtain ⟨j, scans⟩ := opened_eq_scans fresh run
  rw [stores_inside_iff run decodes]
  constructor
  · rintro ⟨fits, once⟩
    exact ⟨⟨xs, k, decodes, fits⟩, _, j, scans, once⟩
  · rintro ⟨⟨xs', k', decodes', fits⟩, bases, j', scans', once⟩
    rw [decodes.unique decodes', scans.unique scans']
    exact ⟨fits, once⟩

theorem oneIommu_opened_iff : ∃ es r g', (busterIni oneIommu).Returns .initial es r g' ∧
    ((∀ i, .storeSeen i ∈ es → i < nmiommu * 4) ∧ (opened oneIommu.mem 0 es).Nodup ↔
      (∃ xs k, Decodes oneIommu busnums 0 xs k ∧ FitsTable xs) ∧
        ∃ bases k, Scans oneIommu busnums 0 bases k ∧ bases.Nodup) := by
  obtain ⟨es, r, g', run⟩ := oneIommu_ends
  exact ⟨es, r, g', run, opened_once_iff oneIommu_fresh run⟩

/-- The only IOMMU there is is opened twice, and nothing is stored outside the table. -/
theorem oneIommu_opened_twice : oneIommu.Fresh ∧ ∃ es r g',
    (busterIni oneIommu).Returns .initial es r g' ∧
      (∀ i, .storeSeen i ∈ es → i < nmiommu * 4) ∧
      opened oneIommu.mem 0 es = [0xfd000000, 0xfd000000] ∧ ¬ (opened oneIommu.mem 0 es).Nodup := by
  obtain ⟨es, r, g', run⟩ := oneIommu_ends
  obtain ⟨k, scans⟩ := opened_eq_scans oneIommu_fresh run
  have absent {bus : U32} (other : bus = 0x40 ∨ bus = 0x80 ∨ bus = 0xc0) (n : Nat) :
      firstBlock oneIommu n bus = 0 := if_pos (oneIommu_unmapped other n)
  have both : Scans oneIommu busnums 0 [0xfd000000, 0xfd000000] 6 :=
    .scan (by decide) (.last (by decide)) (.skip (absent (.inl rfl) _)
      (.skip (absent (.inr (.inl rfl)) _) (.skip (absent (.inr (.inr rfl)) _) .nil)))
  have twice := scans.unique both
  refine ⟨oneIommu_fresh, es, r, g', run, ?_, twice, ?_⟩
  · exact (stores_inside_iff run oneIommu_decodes).mpr (by decide)
  · rw [twice]
    decide

/-! ## A list of 17 blocks -/

/-- Computes `DecodesBlocks`, for at most so many blocks. -/
def decodeBlocks (m : Machine) : Nat → Nat → U64 → Option (List U64 × Nat)
  | 0, _, _ => none
  | blocks + 1, n, capPtr =>
    let next := nextBlock m.mem capPtr
    if LastPointer m.mem capPtr then some ([decoded m n next], afterVisit m n next)
    else (decodeBlocks m blocks (afterVisit m n next) next).map fun r =>
      (decoded m n next :: r.1, r.2)

theorem decodesBlocks_of_eq {blocks n : Nat} {capPtr : U64} {r : List U64 × Nat}
    (h : decodeBlocks m blocks n capPtr = some r) : DecodesBlocks m n capPtr r.1 r.2 := by
  induction blocks generalizing n capPtr r with
  | zero => cases h
  | succ blocks ih =>
    rw [decodeBlocks] at h
    split at h
    · rename_i ends
      cases h
      exact .last ends
    · rename_i goes
      obtain ⟨r', later, rfl⟩ := Option.map_eq_some_iff.mp h
      exact .more goes (ih later)

theorem visitLoop_ends_of {n k : Nat} {capPtr : U64} {xs : List U64}
    (h : DecodesBlocks m n capPtr xs k) (fit : ∀ n capPtr, RegsFit m (decoded m n capPtr))
    (seen : Seen) (g : Globals) : (loop (visitRound m) ⟨capPtr, seen⟩).Ends g := by
  induction h generalizing seen g with
  | @last n capPtr ends =>
    exact visitLoop_ends (w := ⟨capPtr, seen⟩) ends ((fit _ _).visit_ends seen)
  | @more n capPtr xs k goes _ ih =>
    apply visitLoop_ends_of_next (w := ⟨capPtr, seen⟩) goes ((fit _ _).visit_ends seen)
    intro es seen₁ g₁ visited
    exact ih seen₁ g₁

/-- The function of the one bus has 17 blocks on end, each an enabled IOMMU. -/
def manyBlocks : Machine where
  mem a :=
    if a = 0x10034 then 0x40
    else if a < 0x10040 ∨ 0x10150 ≤ a then 0
    else if a % 16 = 1 then if a = 0x10141 then 0 else 0x10
    else if a % 16 = 4 then 0x01
    else if a % 16 = 7 then 0xfd
    else 0
  ioremap := oneIommu.ioremap
  physToVirt := oneIommu.physToVirt

/-- The last block is visited twice. -/
theorem manyBlocks_decoded : ∃ r, decodeBlocks manyBlocks 17 2 0x10040 = some r ∧
    ((decoded manyBlocks 1 0x10040 :: r.1).foldl Seen.look .initial).idx = 18 := by
  have computed : (decodeBlocks manyBlocks 17 2 0x10040).any (fun r =>
      ((decoded manyBlocks 1 0x10040 :: r.1).foldl Seen.look .initial).idx = 18) = true := by
    decide +kernel
  obtain ⟨r, all, entered⟩ := (Option.any_eq_true _ _).mp computed
  exact ⟨r, all, of_decide_eq_true entered⟩

theorem manyBlocks_fit (n : Nat) (capPtr : U64) :
    RegsFit manyBlocks (decoded manyBlocks n capPtr) := by
  have null : RegsFit manyBlocks 0 := by decide
  have space : RegsFit manyBlocks 0x10000 := by decide +kernel
  have mapped : ∀ i < 51, RegsFit manyBlocks (0x1000000 + BitVec.ofNat 64 (0x100000 * i)) := by
    decide +kernel
  have answered (addr : U64) (size : Nat) : RegsFit manyBlocks (oneIommu.ioremap n addr size) := by
    rcases oneIommu_answers n addr size with failed | first | ⟨i, hi, made⟩
    · rw [failed]
      exact null
    · rw [first]
      exact space
    · rw [made]
      exact mapped i hi
  unfold decoded Machine.mapped
  split
  · split
    · exact answered _ (512 * 1024)
    · exact null
  · exact null

theorem manyBlocks_cells :
    Chain.Cells (nextCap manyBlocks.mem 0x10000) 0 (firstCap manyBlocks.mem 0x10000) [0x40, 0x10] :=
  .cons (by decide) (.cons (by decide) .nil)

theorem manyBlocks_scanned : (scanBus manyBlocks .initial 0).Ends .initial := by
  obtain ⟨r, all, _⟩ := manyBlocks_decoded
  have mapped : manyBlocks.mapped Globals.initial.idx (confAddr 0 0 2) 4096 = 0x10000 := by decide
  have block : firstBlock manyBlocks Globals.initial.idx 0 = 0x10040 := by decide
  refine scanBus_ends_of_blocks (mapped.symm ▸ manyBlocks_cells) ?_
  intro g _ _
  rw [block]
  have rest (seen : Seen) := visitLoop_ends_of (decodesBlocks_of_eq all) manyBlocks_fit seen
  exact (ends_bind rest).mpr ((manyBlocks_fit _ _).visit_ends .initial)

/-- The indexes go up to 17, in a table of 16. -/
theorem manyBlocks_outside : ∃ es r g', (busterIni manyBlocks).Returns .initial es r g' ∧
    stored es = List.range 18 ∧ ¬ ∀ i, .storeSeen i ∈ es → i < nmiommu * 4 := by
  obtain ⟨es, r, g', run⟩ :=
    oneBus_ends (m := manyBlocks) oneIommu_unmapped manyBlocks_scanned
  obtain ⟨xs, k, decodes, indexes⟩ := busterIni_stores run
  obtain ⟨blocks, all, entered⟩ := manyBlocks_decoded
  have absent {bus : U32} (other : bus = 0x40 ∨ bus = 0x80 ∨ bus = 0xc0) (n : Nat) :
      firstBlock manyBlocks n bus = 0 := if_pos (oneIommu_unmapped other n)
  have first : firstBlock manyBlocks 0 0 = 0x10040 := by decide
  have each : Decodes manyBlocks busnums 0 (decoded manyBlocks 1 0x10040 :: blocks.1 ++ []) _ :=
    .scan (first ▸ by decide) (first ▸ decodesBlocks_of_eq all) (.skip (absent (.inl rfl) _)
      (.skip (absent (.inr (.inl rfl)) _) (.skip (absent (.inr (.inr rfl)) _) .nil)))
  rw [List.append_nil] at each
  rw [decodes.unique each, entered] at indexes
  refine ⟨es, r, g', run, indexes, ?_⟩
  intro inside
  have written : 17 ∈ stored es := indexes ▸ by decide
  exact absurd (inside 17 (mem_stored.mp written)) (by decide)

end Buster
