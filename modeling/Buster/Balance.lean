import Buster.Lib.History
import Buster.Tour

/-!
# The mappings of a whole load

`ledger` says what any part of a load does to the table of mappings, and that
it removes none of them. Only `freeall` does, at the end of a load that gets
there: what was mapped is then unmapped exactly when the calls to `get_mapping`
were no more than the table has slots.
-/

namespace Buster

open Imp.Prog

/-- What a part of a load does to the table. As long as the calls fit, it
enters what it obtains behind what was there; the first call past the last slot
stores there all the same. -/
structure Ledger (g : Globals) (es : List Event) (g' : Globals) : Prop where
  keeps : unmapped es = []
  fits : g'.idx ≤ nVaddr → ∀ rs, g.Holds rs → ∃ new, g'.Holds (rs ++ new) ∧
    obtained es = new.filter (· ≠ 0) ∧ ∀ e ∈ es, e.InTable
  overruns : g.idx ≤ nVaddr → nVaddr < g'.idx → .storeVaddr nVaddr ∈ es
  grows : g.idx ≤ g'.idx

theorem ledger_composes : Composes Ledger (Begins Ledger) := by
  apply composes_begins
  · intro g
    refine ⟨rfl, fun _ rs holds => ⟨[], by rwa [List.append_nil], rfl, List.forall_mem_nil _⟩, ?_,
      Nat.le_refl _⟩
    intro pass beyond
    omega
  · intro g es g₁ fs g' h h'
    refine ⟨by rw [unmapped_append, h.keeps, h'.keeps]; rfl, ?_, ?_, h.grows.trans h'.grows⟩
    · intro room rs holds
      obtain ⟨new, holds₁, gained, inside⟩ := h.fits (h'.grows.trans room) rs holds
      obtain ⟨new', holds', gained', inside'⟩ := h'.fits room _ holds₁
      refine ⟨new ++ new', by rwa [← List.append_assoc], ?_,
        List.forall_mem_append.mpr ⟨inside, inside'⟩⟩
      rw [obtained_append, gained, gained', List.filter_append]
    · intro pass beyond
      by_cases early : nVaddr < g₁.idx
      · exact List.mem_append_left _ (h.overruns pass early)
      · exact List.mem_append_right _ (h'.overruns (by omega) beyond)

/-! ## What leaves the table alone -/

/-- The table and its index. -/
def Globals.SameTable (g g' : Globals) : Prop := g'.idx = g.idx ∧ g'.vaddrs = g.vaddrs

/-- Nothing mapped, unmapped or entered. -/
def Event.Unmapping : Event → Prop
  | .ioremap _ _ _ | .iounmap _ | .storeVaddr _ => False
  | _ => True

theorem Event.Dump.unmapping {e : Event} (h : e.Dump) : e.Unmapping := by
  cases e with
  | ioremap => exact h
  | iounmap => exact h
  | storeVaddr => exact h
  | _ => trivial

theorem Event.Quiet.unmapping {e : Event} (h : e.Quiet) : e.Unmapping := h.dump.unmapping

theorem ledger_quiet {g g' : Globals} {es : List Event} (same : g.SameTable g')
    (quiet : ∀ e ∈ es, e.Unmapping) : Ledger g es g' := by
  obtain ⟨idx, vaddrs⟩ := same
  have none : unmapped es = [] := by
    refine List.filterMap_eq_nil_iff.mpr fun e he => ?_
    have := quiet e he
    cases e with
    | iounmap => exact this.elim
    | _ => rfl
  have nothing : obtained es = [] := by
    unfold obtained
    rw [List.filterMap_eq_nil_iff.mpr fun e he => ?_]
    · rfl
    · have := quiet e he
      cases e with
      | ioremap => exact this.elim
      | _ => rfl
  refine ⟨none, fun _ rs holds => ⟨[], ?_, nothing, fun e he => ?_⟩, ?_, by omega⟩
  · rw [List.append_nil, Globals.Holds, idx, vaddrs]
    exact holds
  · have := quiet e he
    cases e with
    | storeVaddr => exact this.elim
    | _ => trivial
  · intro pass beyond
    omega

variable {m : Machine}

theorem ledger_of_confined {α : Type} {p : Kernel α} {shown : Event → Prop}
    (h : ∀ inv : Globals → Prop, (∀ g, inv g → inv { g with logId := g.logId + 1 }) →
      p.Confined inv shown) (quiet : ∀ e, shown e → e.Unmapping) :
    p.Follows Ledger (Begins Ledger) :=
  ledger_composes.of_confined (fun _ => ⟨rfl, rfl⟩) (fun g => h g.SameTable fun _ same => same)
    fun same all => ledger_quiet same fun e he => quiet e (all e he)

theorem ledger_emit {e : Event} (h : e.Unmapping) :
    (emit e : Kernel Unit).Follows Ledger (Begins Ledger) :=
  ledger_composes.emit fun _ => ledger_quiet ⟨rfl, rfl⟩ (List.forall_mem_singleton.mpr h)

theorem ledger_printk (line : Text) : (printk line).Follows Ledger (Begins Ledger) :=
  ledger_emit trivial

theorem ledger_load32 (a : U64) : (load32 m a).Follows Ledger (Begins Ledger) :=
  ledger_of_confined (fun _ _ => confined_load32 a) fun _ => Event.Quiet.unmapping

/-! ## The parts of a load -/

theorem ledger_getMapping (addr : U64) (size : Nat) :
    (getMapping m addr size).Follows Ledger (Begins Ledger) := by
  apply ledger_composes.of_returns
  intro g
  by_cases pass : g.idx ≤ nVaddr
  · have next : (g.enter (m.ioremap g.idx addr size)).idx = g.idx + 1 := rfl
    refine ⟨_, _, _, getMapping_returns m addr size pass, rfl, ?_, ?_, by omega⟩
    · intro room rs holds
      have free : rs.length < nVaddr := by
        have := holds.1
        omega
      refine ⟨[m.ioremap g.idx addr size], holds.enter free _, rfl, ?_⟩
      intro e he
      rcases List.mem_pair.mp he with rfl | rfl
      · trivial
      · exact holds.1 ▸ free
    · intro _ beyond
      have last : g.idx = nVaddr := by omega
      simp [last]
  · exact ⟨_, _, _, getMapping_refused m addr size (by omega),
      ledger_quiet ⟨rfl, rfl⟩ (List.forall_mem_nil _)⟩

theorem ledger_getCapSpace (bus dev func : U32) :
    (getCapSpace m bus dev func).Follows Ledger (Begins Ledger) := by
  have conf : (mapConf m bus dev func).Follows Ledger (Begins Ledger) :=
    ledger_composes.bind (ledger_getMapping _ _) fun _ =>
      ledger_composes.bind (ledger_printk _) fun _ => ledger_composes.pure _
  exact ledger_composes.bind conf fun _ => ledger_of_confined
    (fun _ keeps => confined_dumpCaps keeps bus dev func _) fun _ => Event.Dump.unmapping

theorem ledger_getIommuRegs (capPtr : U64) :
    (getIommuRegs m capPtr).Follows Ledger (Begins Ledger) := by
  have comp := ledger_composes
  refine comp.bind (ledger_emit trivial) fun _ => comp.bind (ledger_load32 _) fun low =>
    comp.bind (ledger_load32 _) fun high => ?_
  dsimp only
  split
  · exact comp.bind (ledger_printk _) fun _ => comp.pure _
  split
  · exact comp.pure _
  refine comp.bind (ledger_getMapping _ _) fun mmioBase => comp.bind (ledger_printk _) fun _ => ?_
  split
  · exact comp.bind (ledger_printk _) fun _ => comp.pure _
  · refine comp.bind ?_ fun _ => comp.pure _
    exact ledger_of_confined (fun _ keeps => confined_logRange keeps _ _ _)
      fun _ h => h.dump.unmapping

theorem ledger_bustOpen (mmio : U64) : (bustOpen m mmio).Follows Ledger (Begins Ledger) := by
  obtain ⟨rest, split, dumps⟩ := bustOpen_split (m := m) mmio
  rw [split]
  exact ledger_composes.bind (ledger_emit trivial) fun _ =>
    ledger_of_confined dumps fun _ h => h.dump.unmapping

theorem ledger_parts : ScanParts m Ledger (Begins Ledger) where
  composes := ledger_composes
  space bus := ledger_getCapSpace bus 0 2
  missing := ledger_printk _
  pointer := ledger_load32
  registers := ledger_getIommuRegs
  entered _ := ledger_emit trivial
  opened _ _ := ledger_bustOpen _

/-! ## A whole load -/

/-- Freeing what the table holds after a part of a load that started with an
empty one. -/
theorem Ledger.freed_iff {g g' : Globals} {es fs : List Event} (h : Ledger .initial es g)
    (freed : freeall.Returns g fs () g') : WellMapped (es ++ fs) ↔ g.idx ≤ nVaddr := by
  obtain ⟨rfl, _, _⟩ := freed.unique (freeall_returns g)
  have removed (line : Text) (vas : List U64) :
      unmapped (es ++ .printk line :: vas.map Event.iounmap) = vas ∧
        obtained (es ++ .printk line :: vas.map Event.iounmap) = obtained es := by
    have split : es ++ .printk line :: vas.map Event.iounmap =
        es ++ ([.printk line] ++ vas.map Event.iounmap) := rfl
    simp only [split, unmapped_append, obtained_append, unmapped_iounmaps, obtained_iounmaps,
      h.keeps]
    exact ⟨rfl, List.append_nil _⟩
  constructor
  · rintro ⟨inside, _⟩
    by_contra beyond
    have stored := h.overruns (Nat.zero_le _) (Nat.not_le.mp beyond)
    exact absurd (inside _ (List.mem_append_left _ stored)) (Nat.lt_irrefl nVaddr)
  · intro room
    obtain ⟨new, holds, gained, inside⟩ := h.fits room [] holds_initial
    constructor
    · intro e he
      rcases List.mem_append.mp he with he | he
      · exact inside e he
      rcases List.mem_cons.mp he with rfl | he
      · trivial
      · obtain ⟨va, _, rfl⟩ := List.mem_map.mp he
        trivial
    · rw [(removed _ _).1, (removed _ _).2, holds.nonnull, List.nil_append, gained]

/-- A load that ends unmaps what it mapped, each address as often as it was
obtained and with every store inside the table, exactly when its tour of the
buses makes no more calls than there are slots. A load that hangs has unmapped
nothing at any point. -/
theorem busterIni_wellMapped_iff (m : Machine) :
    (∀ es r g', (busterIni m).Returns .initial es r g' →
      ∃ t, Tours m busnums .start (ranges es) t ∧ (WellMapped es ↔ t.calls ≤ nVaddr)) ∧
    (¬ (busterIni m).Ends .initial →
      ∀ es, (busterIni m).Emitted .initial es → unmapped es = []) := by
  have scans := (ledger_parts (m := m)).scanAll busnums .initial
  constructor
  · intro es r g' run
    obtain ⟨es₁, seen, g₁, es₂, scanned, freed, rfl⟩ := busterIni_cases run
    refine ⟨⟨seen, g₁.idx⟩, ?_, (scans.returned scanned).freed_iff freed⟩
    rw [ranges_append, (freeall_ranges freed).1, List.append_nil]
    exact scanAll_tours scanned
  · intro hangs es emitted
    rcases emitted_bind.mp emitted with early | ⟨es₁, seen, g₁, es₂, scanned, _, _⟩
    · obtain ⟨all, g₁, ledger, pre⟩ := scans.begun early
      have none : unmapped es <+: unmapped all := pre.filterMap _
      rw [ledger.keeps] at none
      exact List.prefix_nil.mp none
    · refine absurd ?_ hangs
      exact scanned.ends_bind.mpr ((freeall_returns g₁).ends_bind.mpr (pure_returns _ g₁).ends)

/-- The four configuration spaces and one register block, mapped twice. -/
theorem oneIommu_wellMapped : ∃ es r g', (busterIni oneIommu).Returns .initial es r g' ∧
    WellMapped es := by
  obtain ⟨es, r, g', run⟩ := oneIommu_ends
  obtain ⟨t, tours, balanced⟩ := (busterIni_wellMapped_iff oneIommu).1 es r g' run
  refine ⟨es, r, g', run, balanced.mpr ?_⟩
  rw [(tours.unique oneIommu_tour).2]
  decide

end Buster
