import Buster.SeenTable

/-!
# What a load finds

Everything that loading the module does is decided by the memory and by what
`ioremap` answers. `Tours` says what is dumped, and when nothing is: it follows
the two lists of each bus, with neither loops nor a log. A load ends when there
is such a tour and none of its dumps hangs, and then the tour tells what it dumps
and how it uses the table of mappings.
-/

namespace Buster

open Imp.Prog

/-- What one block hands to the next: the mappings seen, and the number of the
next call to `get_mapping`. -/
structure Tour where
  seen : Seen
  calls : Nat

def Tour.start : Tour := ⟨.initial, 0⟩

/-- The dumps of a block taken for an IOMMU. -/
def Tour.blockRanges (t : Tour) (m : Machine) (capPtr : U64) : List Range :=
  visitRanges m t.seen t.calls capPtr

def Tour.block (t : Tour) (m : Machine) (capPtr : U64) : Tour :=
  ⟨t.seen.look (decoded m t.calls capPtr), afterVisit m t.calls capPtr⟩

def Tour.allRanges (m : Machine) : Tour → List U64 → List Range
  | _, [] => []
  | t, b :: bs => t.blockRanges m b ++ (t.block m b).allRanges m bs

def Tour.all (m : Machine) (t : Tour) (bs : List U64) : Tour :=
  bs.foldl (fun t b => t.block m b) t

/-- The blocks that the `do`-`while` comes to from a block. -/
inductive Blocks (mem : Mem) : U64 → List U64 → Prop
  | last {c : U64} : LastPointer mem c → Blocks mem c [nextBlock mem c]
  | more {c : U64} {bs : List U64} : ¬ LastPointer mem c → Blocks mem (nextBlock mem c) bs →
      Blocks mem c (nextBlock mem c :: bs)

theorem Blocks.unique {mem : Mem} {c : U64} {bs bs' : List U64} (h : Blocks mem c bs)
    (h' : Blocks mem c bs') : bs = bs' := by
  induction h generalizing bs' with
  | last ends =>
    cases h' with
    | last _ => rfl
    | more goes _ => exact absurd ends goes
  | more goes _ ih =>
    cases h' with
    | last ends => exact absurd ends goes
    | more _ rest => rw [ih rest]

/-- The configuration space of a bus. -/
def Tour.space (t : Tour) (m : Machine) (bus : U32) : U64 :=
  m.mapped t.calls (confAddr bus 0 2) 4096

/-- Past the call that maps a configuration space. -/
def Tour.mapped (t : Tour) : Tour := ⟨t.seen, nextCall t.calls⟩

/-- The two lists of a configuration space: the offsets that `get_cap_space`
follows, and the blocks that `buster_ini` goes to. Of these there are none when
the first would be at NULL. -/
structure Lists (mem : Mem) (space : U64) (os : List U8) (bs : List U64) : Prop where
  cells : Chain.Cells (nextCap mem space) 0 (firstCap mem space) os
  blocks : let first := space + (firstCap mem space).setWidth 64
    first = 0 ∧ bs = [] ∨ first ≠ 0 ∧ ∃ more, bs = first :: more ∧ Blocks mem first more

theorem Lists.unique {mem : Mem} {space : U64} {os os' : List U8} {bs bs' : List U64}
    (h : Lists mem space os bs) (h' : Lists mem space os' bs') : os = os' ∧ bs = bs' := by
  refine ⟨h.cells.unique h'.cells, ?_⟩
  rcases h.blocks with ⟨null, rfl⟩ | ⟨some, more, rfl, blocks⟩
  · rcases h'.blocks with ⟨_, rfl⟩ | ⟨some, _⟩
    · rfl
    · exact absurd null some
  · rcases h'.blocks with ⟨null, _⟩ | ⟨_, more', rfl, blocks'⟩
    · exact absurd null some
    · rw [blocks.unique blocks']

/-- The dumps of a load on some buses. -/
inductive Tours (m : Machine) : List U32 → Tour → List Range → Tour → Prop
  | nil {t : Tour} : Tours m [] t [] t
  | absent {bus : U32} {buses : List U32} {t t' : Tour} {ws : List Range} :
      t.space m bus = 0 → Tours m buses t.mapped ws t' → Tours m (bus :: buses) t ws t'
  | present {bus : U32} {buses : List U32} {t t' : Tour} {ws : List Range} {os : List U8}
      {bs : List U64} : t.space m bus ≠ 0 → Lists m.mem (t.space m bus) os bs →
      Tours m buses (t.mapped.all m bs) ws t' →
      Tours m (bus :: buses) t
        (os.map (capRange (t.space m bus)) ++ capRange (t.space m bus) 0 ::
          (t.mapped.allRanges m bs ++ ws)) t'

variable {m : Machine}

/-! ## One block -/

theorem visit_tour {seen seen' : Seen} {capPtr : U64} {g g' : Globals} {es : List Event}
    (run : (visit m seen capPtr).Returns g es seen' g') :
    ranges es = (Tour.mk seen g.idx).blockRanges m capPtr ∧
      (⟨seen', g'.idx⟩ : Tour) = (Tour.mk seen g.idx).block m capPtr := by
  obtain ⟨look, calls, _⟩ := visit_look run
  refine ⟨?_, by rw [look, calls]; rfl⟩
  obtain ⟨es₁, mmio, g₁, decode, rest⟩ := visit_cases run
  obtain ⟨rfl, _⟩ := getIommuRegs_spec decode
  have regs := getIommuRegs_ranges decode
  dsimp only [Tour.blockRanges, visitRanges]
  rcases rest with ⟨repeated, rfl, _, _⟩ | ⟨new, es₂, opened, rfl, _⟩
  · rw [if_pos repeated, List.append_nil, regs]
  · have rings := bustOpen_ranges opened
    rw [if_neg new, ranges_append, regs]
    exact congrArg _ rings

/-! ## The blocks of a bus -/

theorem visitLoop_tour {w : BlockWalk} {seen' : Seen} {g g' : Globals} {es : List Event}
    (run : (loop (visitRound m) w).Returns g es seen' g') :
    ∃ bs, Blocks m.mem w.capPtr bs ∧ ranges es = (Tour.mk w.seen g.idx).allRanges m bs ∧
      (⟨seen', g'.idx⟩ : Tour) = (Tour.mk w.seen g.idx).all m bs := by
  refine visitLoop_induction (motive := fun w g es seen' g' => ∃ bs,
    Blocks m.mem w.capPtr bs ∧ ranges es = (Tour.mk w.seen g.idx).allRanges m bs ∧
      (⟨seen', g'.idx⟩ : Tour) = (Tour.mk w.seen g.idx).all m bs) ?_ ?_ run
  · intro w g es seen' g' ends visited
    obtain ⟨dumped, after⟩ := visit_tour visited
    refine ⟨_, .last ends, ?_, after⟩
    rw [Tour.allRanges, Tour.allRanges, List.append_nil]
    exact dumped
  · intro w g es₁ seen₁ g₁ es₂ seen' g' goes visited ih
    obtain ⟨dumped, after⟩ := visit_tour visited
    obtain ⟨bs, blocks, dumped', after'⟩ := ih
    refine ⟨_, .more goes blocks, ?_, ?_⟩
    · rw [Tour.allRanges, ← after, ← dumped, ← dumped']
      exact ranges_append es₁ es₂
    · rw [Tour.all, List.foldl_cons, ← after]
      exact after'

theorem visitLoop_ends_of_blocks {c : U64} {bs : List U64} (h : Blocks m.mem c bs) {seen : Seen}
    {g : Globals} (fit : ∀ w ∈ (Tour.mk seen g.idx).allRanges m bs, (m.call w).Fits) :
    (loop (visitRound m) ⟨c, seen⟩).Ends g := by
  induction h generalizing seen g with
  | @last c ends =>
    obtain ⟨first, _⟩ := List.forall_mem_append.mp fit
    exact visitLoop_ends (w := ⟨c, seen⟩) ends ((visit_ends_iff seen _ g).mpr first)
  | @more c bs goes _ ih =>
    obtain ⟨first, others⟩ := List.forall_mem_append.mp fit
    apply visitLoop_ends_of_next (w := ⟨c, seen⟩) goes ((visit_ends_iff seen _ g).mpr first)
    intro es seen₁ g₁ visited
    apply ih
    rw [(visit_tour visited).2]
    exact others

/-! ## A bus -/

/-- What the walk along the list dumps, and where it leaves the numbers of calls. -/
theorem getCapSpace_tour {bus : U32} {g g' : Globals} {es : List Event} {capPtr : U64}
    (run : (getCapSpace m bus 0 2).Returns g es capPtr g') :
    let space := m.mapped g.idx (confAddr bus 0 2) 4096
    g'.idx = nextCall g.idx ∧
      (space = 0 ∧ capPtr = 0 ∧ ranges es = [] ∨
        space ≠ 0 ∧ capPtr = space + (firstCap m.mem space).setWidth 64 ∧ ∃ os,
          Chain.Cells (nextCap m.mem space) 0 (firstCap m.mem space) os ∧
          ranges es = os.map (capRange space) ++ [capRange space 0]) := by
  intro space
  obtain ⟨_, calls, _⟩ := getCapSpace_spec run
  refine ⟨calls, ?_⟩
  have value : capPtr =
      if space = 0 then 0 else space + (firstCap m.mem space).setWidth 64 := getCapSpace_value run
  by_cases null : space = 0
  · refine .inl ⟨null, by rwa [if_pos null] at value, ?_⟩
    obtain ⟨es₀, g₀, mapped, none⟩ := mapConf_ends m bus 0 2 g
    obtain ⟨es₁, rfl, run₁⟩ := mapped.rest run
    unfold dumpCaps at run₁
    rw [if_pos null] at run₁
    obtain ⟨es₂, rfl, run₂⟩ := (printk_returns _ g₀).rest run₁
    obtain ⟨rfl, _, _⟩ := returns_pure.mp run₂
    rw [ranges_append, none]
    rfl
  · obtain ⟨os, cells⟩ := ((getCapSpace_ends m bus 0 2 g).mp run.ends).resolve_left null
    obtain ⟨es', g'', run', dumped⟩ := getCapSpace_returns rfl null cells
    obtain ⟨rfl, rfl, _⟩ := run.unique run'
    exact .inr ⟨null, rfl, os, cells, dumped⟩

theorem scanBus_tour {seen seen' : Seen} {bus : U32} {g g' : Globals} {es : List Event}
    (run : (scanBus m seen bus).Returns g es seen' g') :
    let t : Tour := ⟨seen, g.idx⟩
    t.space m bus = 0 ∧ ranges es = [] ∧ (⟨seen', g'.idx⟩ : Tour) = t.mapped ∨
      t.space m bus ≠ 0 ∧ ∃ os bs, Lists m.mem (t.space m bus) os bs ∧
        ranges es = os.map (capRange (t.space m bus)) ++ capRange (t.space m bus) 0 ::
          t.mapped.allRanges m bs ∧
        (⟨seen', g'.idx⟩ : Tour) = t.mapped.all m bs := by
  intro t
  obtain ⟨es₁, capPtr, g₁, space, rest⟩ := scanBus_cases run
  obtain ⟨calls, ⟨null, rfl, none⟩ | ⟨some, rfl, os, cells, dumped⟩⟩ := getCapSpace_tour space
  · rcases rest with ⟨_, rfl, rfl, rfl⟩ | ⟨nonnull, _⟩
    · refine .inl ⟨null, ?_, by rw [calls]; rfl⟩
      rw [ranges_append, none]
      rfl
    · exact absurd rfl nonnull
  · rcases rest with ⟨null, rfl, rfl, rfl⟩ | ⟨placed, es₂, seen₁, g₂, es₃, first, later, rfl⟩
    · refine .inr ⟨some, os, [], ⟨cells, .inl ⟨null, rfl⟩⟩, ?_, by rw [calls]; rfl⟩
      rw [ranges_append, dumped, List.append_assoc]
      rfl
    · obtain ⟨dumped₁, after₁⟩ := visit_tour first
      obtain ⟨bs, blocks, dumped₂, after₂⟩ := visitLoop_tour later
      refine .inr ⟨some, os, _, ⟨cells, .inr ⟨placed, bs, rfl, blocks⟩⟩, ?_, ?_⟩
      · rw [ranges_append, ranges_append, dumped, dumped₁, dumped₂, after₁, calls,
          List.append_assoc]
        rfl
      · rw [after₂, after₁, calls]
        rfl

/-- A bus whose space is mapped is scanned to the end when its lists end and the
dumps of its blocks do not hang. -/
theorem scanBus_ends_of_lists {seen : Seen} {bus : U32} {g : Globals} {os : List U8}
    {bs : List U64} (some : (Tour.mk seen g.idx).space m bus ≠ 0)
    (lists : Lists m.mem ((Tour.mk seen g.idx).space m bus) os bs)
    (fit : ∀ w ∈ (Tour.mk seen g.idx).mapped.allRanges m bs, (m.call w).Fits) :
    (scanBus m seen bus).Ends g := by
  refine scanBus_ends_of_blocks lists.cells ?_
  intro g₁ calls placed
  have first : firstBlock m g.idx bus = _ := if_neg some
  rw [first] at placed ⊢
  obtain ⟨more, rfl, blocks⟩ : ∃ more, bs = _ :: more ∧ Blocks m.mem _ more := by
    rcases lists.blocks with ⟨null, _⟩ | ⟨_, walk⟩
    · exact absurd null placed
    · exact walk
  rw [Tour.mapped, ← calls] at fit
  obtain ⟨one, others⟩ := List.forall_mem_append.mp fit
  obtain ⟨es, seen₁, g₂, visited⟩ := (visit_ends_iff seen _ g₁).mpr one
  refine visited.ends_bind.mpr (visitLoop_ends_of_blocks blocks ?_)
  rw [(visit_tour visited).2]
  exact others

/-! ## All buses -/

theorem scanAll_tours {buses : List U32} {seen seen' : Seen} {g g' : Globals} {es : List Event}
    (run : (scanAll m buses seen).Returns g es seen' g') :
    Tours m buses ⟨seen, g.idx⟩ (ranges es) ⟨seen', g'.idx⟩ := by
  induction buses generalizing seen g es with
  | nil =>
    obtain ⟨rfl, rfl, rfl⟩ := returns_pure.mp run
    exact .nil
  | cons bus buses ih =>
    obtain ⟨es₁, seen₁, g₁, es₂, first, rest, rfl⟩ := returns_bind.mp run
    have later := ih rest
    rw [ranges_append]
    rcases scanBus_tour first with ⟨null, none, after⟩ | ⟨some, os, bs, lists, dumped, after⟩
    · rw [none, List.nil_append]
      exact .absent null (after ▸ later)
    · rw [dumped, List.append_assoc, List.cons_append]
      exact .present some lists (after ▸ later)

/-- None of the dumps of these events hangs. -/
def Fitting (m : Machine) (_ : Globals) (es : List Event) (_ : Globals) : Prop :=
  ∀ w ∈ ranges es, (m.call w).Fits

/-- What comes back has not hung. -/
theorem fitting_parts : ScanParts m (Fitting m) fun _ _ => True where
  composes := {
    nil := fun _ => List.forall_mem_nil _
    append := by
      intro g es g₁ fs g' first rest
      rw [Fitting, ranges_append]
      exact List.forall_mem_append.mpr ⟨first, rest⟩
    cut := fun _ _ => trivial
    later := fun _ _ => trivial }
  space bus := {
    returned := fun run => fits_ranges ((fits_getCapSpace bus 0 2).returns trivial run).2
    begun := fun _ => trivial }
  missing := {
    returned := fun run => fits_ranges ((fits_printk _).returns trivial run).2
    begun := fun _ => trivial }
  pointer a := {
    returned := fun run => fits_ranges ((fits_load32 a).returns trivial run).2
    begun := fun _ => trivial }
  registers capPtr := {
    returned := by
      intro g es mmio g' run
      have fit := (getIommuRegs_ends_iff capPtr g).mp run.ends
      rwa [← (getIommuRegs_spec run).1, ← getIommuRegs_ranges run] at fit
    begun := fun _ => trivial }
  entered i := {
    returned := by
      intro g es u g' run
      obtain ⟨rfl, _⟩ := run.unique (emit_returns _ g)
      exact List.forall_mem_nil _
    begun := fun _ => trivial }
  opened n capPtr := {
    returned := by
      intro g es u g' run
      have fit := (bustOpen_ends_iff _ g).mp run.ends
      rwa [← bustOpen_ranges run] at fit
    begun := fun _ => trivial }

theorem scanAll_ends_of_tours {buses : List U32} {t t' : Tour} {ws : List Range}
    (h : Tours m buses t ws t') (fit : ∀ w ∈ ws, (m.call w).Fits) {g : Globals}
    (calls : g.idx = t.calls) : (scanAll m buses t.seen).Ends g := by
  induction h generalizing g with
  | nil => exact (pure_returns _ g).ends
  | @absent bus buses t t' ws null _ ih =>
    obtain ⟨seen, calls'⟩ := t
    obtain rfl : g.idx = calls' := calls
    obtain ⟨es, seen', g', run⟩ : (scanBus m seen bus).Ends g := scanBus_ends_of_unmapped null
    refine run.ends_bind.mpr ?_
    rcases scanBus_tour run with ⟨_, _, after⟩ | ⟨some, _⟩
    · obtain rfl : seen' = seen := congrArg Tour.seen after
      exact ih fit (congrArg Tour.calls after)
    · exact absurd null some
  | @present bus buses t t' ws os bs some lists _ ih =>
    obtain ⟨seen, calls'⟩ := t
    obtain rfl : g.idx = calls' := calls
    obtain ⟨_, fit⟩ := List.forall_mem_append.mp fit
    obtain ⟨_, fit⟩ := List.forall_mem_cons.mp fit
    obtain ⟨here, later⟩ := List.forall_mem_append.mp fit
    obtain ⟨es, seen', g', run⟩ := scanBus_ends_of_lists some lists here
    refine run.ends_bind.mpr ?_
    rcases scanBus_tour run with ⟨null, _⟩ | ⟨_, os', bs', lists', _, after⟩
    · exact absurd null some
    · obtain ⟨_, rfl⟩ := lists.unique lists'
      obtain rfl : seen' = _ := congrArg Tour.seen after
      exact ih later (congrArg Tour.calls after)

theorem Tours.unique {buses : List U32} {t t₁ t₂ : Tour} {ws vs : List Range}
    (h : Tours m buses t ws t₁) (h' : Tours m buses t vs t₂) : ws = vs ∧ t₁ = t₂ := by
  induction h generalizing vs with
  | nil =>
    cases h'
    exact ⟨rfl, rfl⟩
  | absent null _ ih =>
    cases h' with
    | absent _ rest => exact ih rest
    | present some _ _ => exact absurd null some
  | present some lists _ ih =>
    cases h' with
    | absent null _ => exact absurd null some
    | present _ lists' rest =>
      obtain ⟨rfl, rfl⟩ := lists.unique lists'
      obtain ⟨rfl, rfl⟩ := ih rest
      exact ⟨rfl, rfl⟩

theorem freeall_ranges {g g' : Globals} {es : List Event} (run : freeall.Returns g es () g') :
    ranges es = [] ∧ g' = g := by
  obtain ⟨rfl, _, rfl⟩ := run.unique (freeall_returns g)
  refine ⟨List.filterMap_eq_nil_iff.mpr ?_, rfl⟩
  intro e he
  rcases List.mem_cons.mp he with rfl | he
  · rfl
  · obtain ⟨va, _, rfl⟩ := List.mem_map.mp he
    rfl

/-- Loading the module ends exactly when the two lists of every configuration
space that is mapped do and no range on this tour of the buses is one that the
block loop of `log_range` never leaves. Then it dumps the ranges of the tour, all
of them and in that order. -/
theorem busterIni_tours (m : Machine) :
    ((busterIni m).Ends .initial ↔
      ∃ ws t, Tours m busnums .start ws t ∧ ∀ w ∈ ws, (m.call w).Fits) ∧
      ∀ es r g', (busterIni m).Returns .initial es r g' → ∀ ws,
        (∃ t, Tours m busnums .start ws t) ↔ ranges es = ws := by
  have dumped {es : List Event} {r : Int} {g' : Globals}
      (run : (busterIni m).Returns .initial es r g') :
      ∃ t, Tours m busnums .start (ranges es) t ∧ ∀ w ∈ ranges es, (m.call w).Fits := by
    obtain ⟨es₁, seen, g₁, es₂, scanned, freed, rfl⟩ := busterIni_cases run
    rw [ranges_append, (freeall_ranges freed).1, List.append_nil]
    exact ⟨_, scanAll_tours scanned, (fitting_parts.scanAll busnums .initial).returned scanned⟩
  refine ⟨⟨?_, ?_⟩, ?_⟩
  · rintro ⟨es, r, g', run⟩
    exact ⟨_, dumped run⟩
  · rintro ⟨ws, t, tours, fit⟩
    obtain ⟨es, seen, g₁, run⟩ := scanAll_ends_of_tours tours fit (g := .initial) rfl
    exact run.ends_bind.mpr ((freeall_returns g₁).ends_bind.mpr (pure_returns _ g₁).ends)
  · intro es r g' run ws
    obtain ⟨t, tours, _⟩ := dumped run
    constructor
    · rintro ⟨t', tours'⟩
      exact (tours.unique tours').1
    · rintro rfl
      exact ⟨t, tours⟩

theorem oneIommu_lists : Lists oneIommu.mem 0x10000 [0x40] [0x10040, 0x10040] :=
  ⟨oneIommu_wellFormed.cells, .inr ⟨by decide, [0x10040], by decide, .last (by decide)⟩⟩

theorem oneIommu_tour : Tours oneIommu busnums .start
    (capRange 0x10000 0x40 :: capRange 0x10000 0 ::
      (Tour.start.mapped.allRanges oneIommu [0x10040, 0x10040] ++ []))
    (Tour.start.mapped.all oneIommu [0x10040, 0x10040]).mapped.mapped.mapped := by
  have space : Tour.start.space oneIommu 0 = 0x10000 := by decide
  have some : Tour.start.space oneIommu 0 ≠ 0 := by
    rw [space]
    decide
  have first := Tours.present some
    (space.symm ▸ oneIommu_lists) (.absent (oneIommu_unmapped (.inl rfl) _)
      (.absent (oneIommu_unmapped (.inr (.inl rfl)) _)
        (.absent (oneIommu_unmapped (.inr (.inr rfl)) _) .nil)))
  rwa [space] at first

theorem oneIommu_toured : ∃ es r g', (busterIni oneIommu).Returns .initial es r g' ∧
    (ranges es).map (fun w => String.ofList w.2.2) = ["capabilites", "capabilites", "IOMMU BASE",
      "COM TBL", "EVNT LOG", "IOMMU BASE", "COM TBL", "EVNT LOG"] := by
  obtain ⟨es, r, g', run⟩ := (busterIni_tours oneIommu).1.mpr ⟨_, _, oneIommu_tour, by decide⟩
  have dumped := ((busterIni_tours oneIommu).2 es r g' run _).mp ⟨_, oneIommu_tour⟩
  refine ⟨es, r, g', run, ?_⟩
  rw [dumped]
  decide

end Buster
