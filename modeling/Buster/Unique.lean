import Buster.Scan

/-!
# Which IOMMUs are opened twice

`buster_ini` compares mappings, and `get_iommu_regs` makes a new one on every
call. So nothing that can be mapped is ever found among the seen ones, and the
register bases that are opened are those of the blocks visited: `Scans` works
them out from memory and from the answers of `ioremap`.
-/

namespace Buster

open Imp.Prog

/-- The bases opened in a run: a call of `bust_open` with a mapping belongs to
the block last given to `get_iommu_regs`. -/
def opened (mem : Mem) (last : U64) : List Event → List U64
  | [] => []
  | .getIommuRegs capPtr :: es => opened mem capPtr es
  | .bustOpen mmio :: es =>
    if mmio = 0 then opened mem last es else baseAddr mem last :: opened mem last es
  | _ :: es => opened mem last es

/-- The events open `bases`, whatever comes before and after them. -/
def Opens (mem : Mem) (es : List Event) (bases : List U64) : Prop :=
  ∀ last fs, ∃ last', opened mem last (es ++ fs) = bases ++ opened mem last' fs

theorem opened_plain {mem : Mem} {es : List Event} (h : ∀ e ∈ es, e.Plain) (last : U64)
    (fs : List Event) : opened mem last (es ++ fs) = opened mem last fs := by
  induction es with
  | nil => rfl
  | cons e es ih =>
    have rest := ih fun e he => h e (List.mem_cons_of_mem _ he)
    have first := h e List.mem_cons_self
    cases e with
    | getIommuRegs => exact first.elim
    | bustOpen => exact first.elim
    | _ => exact rest

theorem opens_plain {mem : Mem} {es : List Event} (h : ∀ e ∈ es, e.Plain) : Opens mem es [] :=
  fun last fs => ⟨last, opened_plain h last fs⟩

theorem Opens.append {mem : Mem} {es fs : List Event} {bases bases' : List U64}
    (h : Opens mem es bases) (h' : Opens mem fs bases') :
    Opens mem (es ++ fs) (bases ++ bases') := by
  intro last gs
  obtain ⟨mid, first⟩ := h last (fs ++ gs)
  obtain ⟨last', rest⟩ := h' mid gs
  exact ⟨last', by rw [List.append_assoc, first, rest, List.append_assoc]⟩

theorem Opens.eq {mem : Mem} {es : List Event} {bases : List U64} (h : Opens mem es bases)
    (last : U64) : opened mem last es = bases := by
  obtain ⟨last', all⟩ := h last []
  simpa [opened] using all

/-! ## One visit -/

variable {m : Machine}

/-- The base opened for a block, when call number `n` is the next to `get_mapping`. -/
def visited (m : Machine) (n : Nat) (capPtr : U64) : List U64 :=
  if NamesBase m.mem capPtr ∧ m.mapped n (baseAddr m.mem capPtr) (512 * 1024) ≠ 0 then
    [baseAddr m.mem capPtr]
  else []

/-- What `ioremap` gives out is never what it gave out before. -/
def Machine.Fresh (m : Machine) : Prop :=
  ∀ i j addr size addr' size', i < j → j ≤ nVaddr → m.ioremap j addr' size' ≠ 0 →
    m.ioremap i addr size ≠ m.ioremap j addr' size'

/-- All that has been seen are mappings made by the first `n` calls. -/
def Seen.Known (seen : Seen) (m : Machine) (n : Nat) : Prop :=
  ∀ x ∈ seen.regs.toList, x ≠ 0 → ∃ i addr size, i < n ∧ x = m.ioremap i addr size

theorem le_afterVisit (n : Nat) (capPtr : U64) : n ≤ afterVisit m n capPtr := by
  unfold afterVisit nextCall
  split
  · split <;> omega
  · exact Nat.le_refl n

theorem Seen.Known.later {seen : Seen} {n n' : Nat} (h : seen.Known m n) (le : n ≤ n') :
    seen.Known m n' := by
  intro x hx ne
  obtain ⟨i, addr, size, before, same⟩ := h x hx ne
  exact ⟨i, addr, size, by omega, same⟩

theorem Seen.Known.enter {seen : Seen} {n : Nat} {x : U64} (h : seen.Known m n)
    (new : x ≠ 0 → ∃ i addr size, i < n ∧ x = m.ioremap i addr size) :
    (seen.enter x).Known m n := by
  intro y hy ne
  rw [Seen.enter, Vector.toList_setIfInBounds] at hy
  rcases List.mem_or_eq_of_mem_set hy with old | rfl
  · exact h y old ne
  · exact new ne

theorem mapped_fresh (fresh : m.Fresh) {seen : Seen} {n : Nat} (known : seen.Known m n)
    {addr : U64} {size : Nat} (made : m.mapped n addr size ≠ 0) :
    m.mapped n addr size ∉ seen.regs.toList := by
  unfold Machine.mapped at made ⊢
  by_cases pass : n ≤ nVaddr
  · rw [if_pos pass] at made ⊢
    intro old
    obtain ⟨i, addr', size', before, same⟩ := known _ old made
    exact fresh i n addr' size' addr size before pass made same.symm
  · exact absurd (if_neg pass) made

theorem visited_eq {n : Nat} {capPtr mmio : U64} (value : mmio =
      (if NamesBase m.mem capPtr then m.mapped n (baseAddr m.mem capPtr) (512 * 1024) else 0)) :
    visited m n capPtr = if mmio = 0 then [] else [baseAddr m.mem capPtr] := by
  unfold visited
  by_cases names : NamesBase m.mem capPtr
  · rw [if_pos names] at value
    simp [names, value]
  · rw [if_neg names] at value
    simp [names, value]

/-- A mapping that was made is the one of the block's base. -/
theorem made_of_value {n : Nat} {capPtr mmio : U64} (value : mmio =
      (if NamesBase m.mem capPtr then m.mapped n (baseAddr m.mem capPtr) (512 * 1024) else 0))
    (ne : mmio ≠ 0) :
    NamesBase m.mem capPtr ∧ mmio = m.mapped n (baseAddr m.mem capPtr) (512 * 1024) := by
  by_cases names : NamesBase m.mem capPtr
  · exact ⟨names, by rw [value, if_pos names]⟩
  · exact absurd (by rw [value, if_neg names]) ne

/-- It came from a call that the next one is numbered after. -/
theorem made_before {n : Nat} {capPtr mmio : U64} (names : NamesBase m.mem capPtr) (ne : mmio ≠ 0)
    (made : mmio = m.mapped n (baseAddr m.mem capPtr) (512 * 1024)) :
    ∃ i addr size, i < afterVisit m n capPtr ∧ mmio = m.ioremap i addr size := by
  unfold Machine.mapped at made
  by_cases pass : n ≤ nVaddr
  · rw [if_pos pass] at made
    refine ⟨n, _, _, ?_, made⟩
    rw [afterVisit, if_pos names, nextCall, if_pos pass]
    exact Nat.lt_succ_self n
  · exact absurd (made.trans (if_neg pass)) ne

/-- What is opened is the base of the block that was decoded before. -/
theorem opens_bustOpen {mem : Mem} {capPtr mmio : U64} {before after : List Event}
    (plain : ∀ e ∈ before, e.Plain) (plain' : ∀ e ∈ after, e.Plain) :
    Opens mem (.getIommuRegs capPtr :: before ++ .bustOpen mmio :: after)
      (if mmio = 0 then [] else [baseAddr mem capPtr]) := by
  intro last fs
  refine ⟨capPtr, ?_⟩
  rw [List.append_assoc, List.cons_append, List.cons_append, opened, opened_plain plain, opened,
    opened_plain plain']
  split
  · rfl
  · rfl

/-- A visit opens the base of its block whenever that can be mapped. -/
theorem visit_spec {seen seen' : Seen} {capPtr : U64} {g g' : Globals} {es : List Event}
    (fresh : m.Fresh) (known : seen.Known m g.idx)
    (run : (visit m seen capPtr).Returns g es seen' g') :
    Opens m.mem es (visited m g.idx capPtr) ∧ g'.idx = afterVisit m g.idx capPtr ∧
      seen'.Known m g'.idx := by
  obtain ⟨es₁, mmio, g₁, decoded, rest⟩ := visit_cases run
  obtain ⟨value, calls, es₂, rfl, plain⟩ := getIommuRegs_spec decoded
  have known₁ := known.later (le_afterVisit (m := m) g.idx capPtr)
  rw [visited_eq value]
  rcases rest with ⟨repeated, rfl, rfl, rfl⟩ | ⟨new, es₃, opened, rfl, rfl⟩
  · have null : mmio = 0 := by
      by_contra ne
      have same := (made_of_value value ne).2
      exact mapped_fresh fresh known (same ▸ ne) (same ▸ isRepeatIn_iff.mp repeated)
    rw [if_pos null]
    exact ⟨fun _ fs => ⟨capPtr, opened_plain plain capPtr fs⟩, calls, calls ▸ known₁⟩
  · obtain ⟨kept, es₄, rfl, plain'⟩ := bustOpen_spec opened
    have next := kept.trans calls
    refine ⟨?_, next, ?_⟩
    · have before : ∀ e ∈ es₂ ++ [.storeSeen seen.idx], e.Plain :=
        List.forall_mem_append.mpr ⟨plain, List.forall_mem_singleton.mpr trivial⟩
      have shows : Opens m.mem (.getIommuRegs capPtr :: (es₂ ++ [.storeSeen seen.idx]) ++
          .bustOpen mmio :: es₄) (if mmio = 0 then [] else [baseAddr m.mem capPtr]) :=
        opens_bustOpen before plain'
      simpa using shows
    · rw [next]
      apply known₁.enter
      intro ne
      obtain ⟨names, made⟩ := made_of_value value ne
      exact made_before names ne made

/-! ## The walks over the blocks -/

/-- The bases opened by the `do`-`while` from a block on, and the number of the next call. -/
inductive VisitsBlocks (m : Machine) : Nat → U64 → List U64 → Nat → Prop
  | last {n capPtr} : LastPointer m.mem capPtr →
      VisitsBlocks m n capPtr (visited m n (nextBlock m.mem capPtr))
        (afterVisit m n (nextBlock m.mem capPtr))
  | more {n capPtr bases k} : ¬ LastPointer m.mem capPtr →
      VisitsBlocks m (afterVisit m n (nextBlock m.mem capPtr)) (nextBlock m.mem capPtr) bases k →
      VisitsBlocks m n capPtr (visited m n (nextBlock m.mem capPtr) ++ bases) k

theorem VisitsBlocks.unique {n k k' : Nat} {capPtr : U64} {bases bases' : List U64}
    (h : VisitsBlocks m n capPtr bases k) (h' : VisitsBlocks m n capPtr bases' k') :
    bases = bases' ∧ k = k' := by
  induction h generalizing bases' k' with
  | last ends =>
    cases h' with
    | last _ => exact ⟨rfl, rfl⟩
    | more goes _ => exact absurd ends goes
  | more goes _ ih =>
    cases h' with
    | last ends => exact absurd ends goes
    | more _ rest =>
      obtain ⟨rfl, rfl⟩ := ih rest
      exact ⟨rfl, rfl⟩

theorem visitLoop_spec (fresh : m.Fresh) {w : BlockWalk} {seen' : Seen} {g g' : Globals}
    {es : List Event} (known : w.seen.Known m g.idx)
    (run : (loop (visitRound m) w).Returns g es seen' g') :
    ∃ bases, VisitsBlocks m g.idx w.capPtr bases g'.idx ∧ Opens m.mem es bases ∧
      seen'.Known m g'.idx := by
  have loaded (a : U64) : Opens m.mem [.load a 4] [] :=
    opens_plain (List.forall_mem_singleton.mpr trivial)
  refine visitLoop_induction (motive := fun w g es seen' g' => w.seen.Known m g.idx →
    ∃ bases, VisitsBlocks m g.idx w.capPtr bases g'.idx ∧ Opens m.mem es bases ∧
      seen'.Known m g'.idx) ?_ ?_ run known
  · intro w g es seen' g' ends visit known
    obtain ⟨opens, calls, known'⟩ := visit_spec fresh known visit
    exact ⟨_, calls ▸ .last ends, (loaded _).append opens, known'⟩
  · intro w g es₁ seen₁ g₁ es₂ seen' g' goes visit ih known
    obtain ⟨opens, calls, known'⟩ := visit_spec fresh known visit
    obtain ⟨bases, visits, opens', known''⟩ := ih known'
    exact ⟨_, .more goes (calls ▸ visits), ((loaded _).append opens).append opens', known''⟩

/-- The bases opened on some buses, when call number `n` is the next. -/
inductive Scans (m : Machine) : List U32 → Nat → List U64 → Nat → Prop
  | nil {n} : Scans m [] n [] n
  | skip {bus buses n bases k} : firstBlock m n bus = 0 → Scans m buses (nextCall n) bases k →
      Scans m (bus :: buses) n bases k
  | scan {bus buses n first j bases k} : firstBlock m n bus ≠ 0 →
      VisitsBlocks m (afterVisit m (nextCall n) (firstBlock m n bus)) (firstBlock m n bus) first j →
      Scans m buses j bases k →
      Scans m (bus :: buses) n (visited m (nextCall n) (firstBlock m n bus) ++ first ++ bases) k

theorem Scans.unique {buses : List U32} {n k k' : Nat} {bases bases' : List U64}
    (h : Scans m buses n bases k) (h' : Scans m buses n bases' k') : bases = bases' := by
  induction h generalizing bases' with
  | nil =>
    cases h'
    rfl
  | skip null _ ih =>
    cases h' with
    | skip _ rest => exact ih rest
    | scan some _ _ => exact absurd null some
  | scan some first _ ih =>
    cases h' with
    | skip null _ => exact absurd null some
    | scan _ first' rest =>
      obtain ⟨rfl, rfl⟩ := first.unique first'
      rw [ih rest]

theorem scanBus_spec (fresh : m.Fresh) {seen seen' : Seen} {bus : U32} {g g' : Globals}
    {es : List Event} (known : seen.Known m g.idx)
    (run : (scanBus m seen bus).Returns g es seen' g') :
    seen'.Known m g'.idx ∧
      (firstBlock m g.idx bus = 0 ∧ Opens m.mem es [] ∧ g'.idx = nextCall g.idx ∨
        firstBlock m g.idx bus ≠ 0 ∧ ∃ bases,
          VisitsBlocks m (afterVisit m (nextCall g.idx) (firstBlock m g.idx bus))
            (firstBlock m g.idx bus) bases g'.idx ∧
          Opens m.mem es (visited m (nextCall g.idx) (firstBlock m g.idx bus) ++ bases)) := by
  obtain ⟨es₁, capPtr, g₁, space, rest⟩ := scanBus_cases run
  obtain ⟨rfl, calls, plain⟩ := getCapSpace_spec space
  have known₁ : seen.Known m g₁.idx := by
    apply known.later
    rw [calls, nextCall]
    split <;> omega
  rcases rest with ⟨null, rfl, rfl, rfl⟩ | ⟨some, es₂, seen₁, g₂, es₃, first, later, rfl⟩
  · refine ⟨known₁, .inl ⟨null, opens_plain ?_, calls⟩⟩
    exact List.forall_mem_append.mpr ⟨plain, List.forall_mem_singleton.mpr trivial⟩
  · obtain ⟨opens, after, known₂⟩ := visit_spec fresh known₁ first
    obtain ⟨bases, visits, opens', known₃⟩ := visitLoop_spec fresh known₂ later
    rw [calls] at opens after
    refine ⟨known₃, .inr ⟨some, bases, after ▸ visits, ?_⟩⟩
    exact (opens_plain plain).append (opens.append opens')

theorem scanAll_spec (fresh : m.Fresh) {buses : List U32} {seen seen' : Seen} {g g' : Globals}
    {es : List Event} (known : seen.Known m g.idx)
    (run : (scanAll m buses seen).Returns g es seen' g') :
    ∃ bases, Scans m buses g.idx bases g'.idx ∧ Opens m.mem es bases := by
  induction buses generalizing seen g es with
  | nil =>
    obtain ⟨rfl, rfl, rfl⟩ := returns_pure.mp run
    exact ⟨[], .nil, opens_plain (by simp)⟩
  | cons bus buses ih =>
    obtain ⟨es₁, seen₁, g₁, es₂, first, rest, rfl⟩ := returns_bind.mp run
    obtain ⟨known₁, one⟩ := scanBus_spec fresh known first
    obtain ⟨bases, scans, opens⟩ := ih known₁ rest
    rcases one with ⟨null, silent, calls⟩ | ⟨some, firstBases, visits, opens'⟩
    · exact ⟨bases, .skip null (calls ▸ scans), silent.append opens⟩
    · exact ⟨_, .scan some visits scans, opens'.append opens⟩

theorem plain_freeall (g : Globals) {g' : Globals} {es : List Event}
    (run : freeall.Returns g es () g') : ∀ e ∈ es, e.Plain := by
  obtain ⟨rfl, _⟩ := run.unique (freeall_returns g)
  intro e he
  rcases List.mem_cons.mp he with rfl | he
  · trivial
  · obtain ⟨va, _, rfl⟩ := List.mem_map.mp he
    trivial

theorem opened_eq_scans (fresh : m.Fresh) {es : List Event} {r : Int} {g' : Globals}
    (run : (busterIni m).Returns .initial es r g') :
    ∃ k, Scans m busnums 0 (opened m.mem 0 es) k := by
  obtain ⟨es₁, seen, g₁, es₂, scanned, freed, rfl⟩ := busterIni_cases run
  have known : Seen.initial.Known m Globals.initial.idx := by
    intro x hx ne
    rw [Seen.initial, Vector.toList_replicate] at hx
    exact absurd (List.eq_of_mem_replicate hx) ne
  obtain ⟨bases, scans, opens⟩ := scanAll_spec fresh known scanned
  have all := (opens.append (opens_plain (plain_freeall g₁ freed))).eq 0
  rw [List.append_nil] at all
  exact ⟨_, by rwa [all]⟩

/-- Its answers: no mapping, the configuration space, or registers. -/
theorem oneIommu_answers (n : Nat) (addr : U64) (size : Nat) :
    oneIommu.ioremap n addr size = 0 ∨ oneIommu.ioremap n addr size = 0x10000 ∨
      ∃ i < 51, oneIommu.ioremap n addr size = 0x1000000 + BitVec.ofNat 64 (0x100000 * i) := by
  dsimp only [oneIommu]
  split
  · split
    · exact .inr (.inl rfl)
    · exact .inl rfl
  split
  · rename_i registers
    exact .inr (.inr ⟨n, Nat.lt_succ_of_le registers.2, rfl⟩)
  · exact .inl rfl

/-- Mappings of its registers lie above its configuration space, each above the last. -/
theorem oneIommu_above {i j : Nat} (before : i < j) (pass : j ≤ 50) (addr : U64) (size : Nat) :
    oneIommu.ioremap i addr size ≠ 0x1000000 + BitVec.ofNat 64 (0x100000 * j) := by
  have last : (0x1000000 + BitVec.ofNat 64 (0x100000 * j) : U64).toNat =
      0x1000000 + 0x100000 * j := by
    rw [BitVec.toNat_add, BitVec.toNat_ofNat]
    have : (0x1000000 : U64).toNat = 0x1000000 := rfl
    omega
  intro same
  have same := congrArg BitVec.toNat same
  rw [last] at same
  dsimp only [oneIommu] at same
  split at same
  · split at same
    · have : (0x10000 : U64).toNat = 0x10000 := rfl
      omega
    · have : (0 : U64).toNat = 0 := rfl
      omega
  · split at same
    · rw [BitVec.toNat_add, BitVec.toNat_ofNat] at same
      have : (0x1000000 : U64).toNat = 0x1000000 := rfl
      omega
    · have : (0 : U64).toNat = 0 := rfl
      omega

theorem oneIommu_fresh : oneIommu.Fresh := by
  intro i j addr size addr' size' before pass made
  unfold nVaddr at pass
  dsimp only [oneIommu] at made ⊢
  by_cases space : addr' = confAddr 0 0 2
  · rw [if_pos space, if_neg (by omega)] at made
    exact absurd rfl made
  rw [if_neg space] at made ⊢
  by_cases base : addr' = 0xfd000000 ∧ j ≤ nVaddr
  · rw [if_pos base]
    exact oneIommu_above before pass addr size
  · rw [if_neg base] at made
    exact absurd rfl made

theorem oneIommu_unmapped {bus : U32} (other : bus = 0x40 ∨ bus = 0x80 ∨ bus = 0xc0) (n : Nat) :
    oneIommu.mapped n (confAddr bus 0 2) 4096 = 0 := by
  have outside : confAddr bus 0 2 ≠ confAddr 0 0 2 ∧ confAddr bus 0 2 ≠ 0xfd000000 := by
    rcases other with rfl | rfl | rfl
    · decide
    · decide
    · decide
  have refused : oneIommu.ioremap n (confAddr bus 0 2) 4096 = 0 := by
    dsimp only [oneIommu]
    rw [if_neg outside.1, if_neg fun both => outside.2 both.1]
  rw [Machine.mapped, refused, ite_self]

/-- Where only the first bus answers, it is enough that its scan ends. -/
theorem oneBus_ends (absent : ∀ {bus : U32}, bus = 0x40 ∨ bus = 0x80 ∨ bus = 0xc0 →
      ∀ n, m.mapped n (confAddr bus 0 2) 4096 = 0)
    (first : (scanBus m .initial 0).Ends .initial) : (busterIni m).Ends .initial := by
  have skipped {bus : U32} (other : bus = 0x40 ∨ bus = 0x80 ∨ bus = 0xc0) (seen : Seen)
      (g : Globals) : (scanBus m seen bus).Ends g :=
    scanBus_ends_of_unmapped (absent other g.idx)
  have rest (seen : Seen) (g : Globals) : (scanAll m [0x40, 0x80, 0xc0] seen).Ends g := by
    refine (ends_bind fun seen g => ?_).mpr (skipped (.inl rfl) seen g)
    refine (ends_bind fun seen g => ?_).mpr (skipped (.inr (.inl rfl)) seen g)
    refine (ends_bind fun seen g => ?_).mpr (skipped (.inr (.inr rfl)) seen g)
    exact (pure_returns seen g).ends
  refine (ends_bind fun _ g => ?_).mpr ?_
  · exact (freeall_returns g).ends_bind.mpr (pure_returns _ g).ends
  · exact (ends_bind rest).mpr first

theorem oneIommu_ends : (busterIni oneIommu).Ends .initial :=
  oneBus_ends oneIommu_unmapped (oneIommu_scanned .initial rfl)

end Buster
