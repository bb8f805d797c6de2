import Buster.Scan

/-!
# What is read of a configuration space

`get_cap_space` takes every offset from one byte and adds it to the start of the
space, so it stays inside whatever the bytes are. The walk of `buster_ini` adds
each pointer to where it stands, and stays inside as far as it stops in time.
-/

namespace Buster

open Imp.Prog

/-- The bytes read are all of those mapped at `confSpace`. -/
def InSpace (confSpace a : U64) (n : Nat) : Prop := (a - confSpace).toNat + n ≤ 4096

def Event.InSpace (confSpace : U64) : Event → Prop
  | .load a n => Buster.InSpace confSpace a n
  | _ => True

section space
variable {m : Machine} {confSpace : U64}

/-! ## `get_cap_space` -/

theorem Event.Maps.inSpace {e : Event} (h : e.Maps) : e.InSpace confSpace := by
  cases e with
  | load => exact h.elim
  | _ => trivial

/-- The eight-byte reads of a block's dump. -/
theorem inSpace_of_inside (o : U8) {e : Event}
    (h : e.Inside (confSpace + o.setWidth 64) (confSpace + o.setWidth 64 + 0x18)) :
    e.InSpace confSpace := by
  cases e with
  | load a n =>
    obtain ⟨above, below⟩ := h
    change (a - confSpace).toNat + n ≤ 4096
    have small := o.isLt
    bv_omega
  | _ => trivial

theorem inSpace_logCap (bus dev func capOff : U32) (o : U8) :
    (logCap m bus dev func capOff (confSpace + o.setWidth 64)).Confined (fun _ => True)
      (Event.InSpace confSpace) := by
  have dumped : (LogCall.run ⟨m, confSpace + o.setWidth 64, confSpace + o.setWidth 64 + 0x18,
      "capabilites".toList⟩).Completes (fun _ => True) (Event.InSpace confSpace) := by
    intro g _
    obtain ⟨es, g', run, inside⟩ := (capRange_fits m (confSpace + o.setWidth 64)).reads_inside g
    exact ⟨es, (), g', run, trivial, fun e he => inSpace_of_inside o (inside e he)⟩
  exact (confined_emit trivial).bind fun _ => dumped.confined

theorem inSpace_load32 {a : U64} (h : InSpace confSpace a 4) :
    (load32 m a).Confined (fun _ => True) (Event.InSpace confSpace) := by
  have inside : (Event.load a 4).InSpace confSpace := h
  exact (confined_emit inside).bind fun _ => confined_pure _

theorem inSpace_capRound (bus dev func : U32) (o : U8) :
    (capRound m bus dev func confSpace (.at confSpace o)).Confined (fun _ => True)
      (Event.InSpace confSpace) := by
  have pointer : InSpace confSpace (confSpace + o.setWidth 64 + 1) 4 := by
    unfold InSpace
    bv_omega
  unfold capRound
  split
  · apply Confined.bind (inSpace_logCap bus dev func _ o)
    intro _
    exact (inSpace_load32 pointer).bind fun _ => confined_pure _
  · exact confined_pure _

/-- Wherever a round goes, it goes to an offset of one byte. -/
theorem capRound_at {bus dev func : U32} {o : U8} {r : CapWalk ⊕ CapWalk} {g g' : Globals}
    {es : List Event}
    (run : (capRound m bus dev func confSpace (.at confSpace o)).Returns g es r g') :
    r = if o = 0 then .inr (.at confSpace o)
      else .inl (.at confSpace (nextCap m.mem confSpace o)) := by
  by_cases ended : o = 0
  · subst ended
    exact (run.unique (capRound_exit m bus dev func confSpace g)).2.1
  · obtain ⟨_, _, goes⟩ := capRound_next m bus dev func confSpace ended g
    rw [if_neg ended]
    exact (run.unique goes).2.1

theorem capLoop_at {bus dev func : U32} {o : U8} {w : CapWalk} {g g' : Globals} {es : List Event}
    (run : (loop (capRound m bus dev func confSpace) (.at confSpace o)).Returns g es w g') :
    w = .at confSpace 0 := by
  apply run.loop_induction (motive := fun b _ _ w _ => (∃ o, b = .at confSpace o) →
    w = .at confSpace 0) _ _ ⟨o, rfl⟩
  · rintro _ g es w g' last ⟨o, rfl⟩
    have result := capRound_at last
    split at result
    · rename_i ended
      cases result
      rw [ended]
    · cases result
  · rintro _ g es₁ next g₁ es₂ w g' first ih ⟨o, rfl⟩
    have result := capRound_at first
    split at result
    · cases result
    · cases result
      exact ih ⟨_, rfl⟩

theorem inSpace_capLoop (bus dev func : U32) (o : U8) :
    (loop (capRound m bus dev func confSpace) (.at confSpace o)).Confined (fun _ => True)
      (Event.InSpace confSpace) := by
  apply confined_loop_of (P := fun w => ∃ o, w = CapWalk.at confSpace o) _ _ ⟨o, rfl⟩
  · rintro _ ⟨o, rfl⟩
    exact inSpace_capRound bus dev func o
  · rintro _ g es next g' ⟨o, rfl⟩ run
    have result := capRound_at run
    split at result
    · cases result
    · cases result
      exact ⟨_, rfl⟩

theorem inSpace_dumpCaps (bus dev func : U32) :
    (dumpCaps m bus dev func confSpace).Confined (fun _ => True) (Event.InSpace confSpace) := by
  have pointer : InSpace confSpace (confSpace + 0x34) 4 := by
    unfold InSpace
    bv_omega
  unfold dumpCaps
  split
  · exact (confined_emit trivial).bind fun _ => confined_pure _
  · apply (inSpace_load32 pointer).bind_returned
    intro g es first g' loaded
    obtain ⟨_, rfl, _⟩ := returns_load32.mp loaded
    simp only [load32_low, setWidth_setWidth]
    apply (inSpace_capLoop bus dev func (firstCap m.mem confSpace)).bind_returned
    intro g₁ es₁ w g₂ walked
    rw [capLoop_at walked]
    exact (inSpace_logCap bus dev func _ 0).bind fun _ => confined_pure _

theorem inSpace_getCapSpace {bus dev func : U32} {g : Globals}
    (mapped : m.mapped g.idx (confAddr bus dev func) 4096 = confSpace) {es : List Event}
    (emitted : (getCapSpace m bus dev func).Emitted g es) : ∀ e ∈ es, e.InSpace confSpace := by
  have maps : (mapConf m bus dev func).Confined (fun _ => True) (Event.InSpace confSpace) :=
    ((confined_getMapping m _ 4096).weaken fun _ => Event.Maps.inSpace).bind fun _ =>
      (confined_emit trivial).bind fun _ => confined_pure _
  rcases emitted_bind.mp emitted with early | ⟨es₁, conf, g₁, es₂, first, later, rfl⟩
  · exact maps.emitted trivial early
  · obtain ⟨_, _, answer, _⟩ := mapConf_ends m bus dev func g
    obtain ⟨_, rfl, _⟩ := first.unique answer
    rw [mapped] at first later
    exact List.forall_mem_append.mpr ⟨(maps.returns trivial first).2,
      (inSpace_dumpCaps bus dev func).emitted trivial later⟩

/-- A well-formed list is dumped block by block and then the start of the space.
Whatever the space holds, at no point has anything outside it been read. -/
theorem getCapSpace_faithful {bus dev func : U32} {g : Globals}
    (mapped : m.mapped g.idx (confAddr bus dev func) 4096 = confSpace) (nonnull : confSpace ≠ 0) :
    (∀ os, WellFormed m.mem confSpace os → ∃ es g',
      (getCapSpace m bus dev func).Returns g es
        (confSpace + (firstCap m.mem confSpace).setWidth 64) g' ∧
      ranges es = os.map (capRange confSpace) ++ [capRange confSpace 0]) ∧
    ∀ es, (getCapSpace m bus dev func).Emitted g es →
      ∀ a n, .load a n ∈ es → InSpace confSpace a n := by
  constructor
  · intro os listed
    exact getCapSpace_returns mapped nonnull listed.cells
  · intro es emitted a n read
    exact inSpace_getCapSpace mapped emitted _ read

end space

/-- The capabilities at 0x40 and 0xf0 are all there is to the list; all other
bytes are 0xf0, and the walk that adds them up finds no end. -/
def farPointers : Machine where
  mem a := if a = 0x10034 then 0x40 else if a = 0x100f1 then 0 else 0xf0
  ioremap n addr _ := if n = 0 ∧ addr = confAddr 0 0 2 then 0x10000 else 0
  physToVirt := id

theorem farPointers_wellFormed : WellFormed farPointers.mem 0x10000 [0x40, 0xf0] :=
  ⟨.cons (by decide) (.cons (by decide) .nil), by decide, by decide⟩

/-- The first walk comes through. -/
theorem farPointers_faithful :
    (∃ es g', (getCapSpace farPointers 0 0 2).Returns .initial es 0x10040 g' ∧
      ranges es = [capRange 0x10000 0x40, capRange 0x10000 0xf0, capRange 0x10000 0]) ∧
    ∀ es, (getCapSpace farPointers 0 0 2).Emitted .initial es →
      ∀ a n, .load a n ∈ es → InSpace 0x10000 a n := by
  have mapped : farPointers.mapped Globals.initial.idx (confAddr 0 0 2) 4096 = 0x10000 := by decide
  obtain ⟨dumps, inside⟩ := getCapSpace_faithful mapped (by decide)
  exact ⟨dumps _ farPointers_wellFormed, inside⟩

/-! ## The walk of `buster_ini` -/

/-- Behind `get_cap_space`, double words are read through `cap_ptr` only; dumps
and rings are read by quad words. -/
def Event.DwordInSpace (confSpace : U64) : Event → Prop
  | .load a n => n = 4 → Buster.InSpace confSpace a 4
  | _ => True

/-- Where the walk stands after `k` bytes of offsets. -/
def blockAt (confSpace : U64) (k : Nat) : U64 := confSpace + BitVec.ofNat 64 k

/-- The pointer that is found there. -/
def pointerAt (mem : Mem) (confSpace : U64) (k : Nat) : U8 := mem (blockAt confSpace k + 1)

/-- Adding pointers up from `k` on comes to a last one, at no more than `limit`. -/
inductive StopsBy (mem : Mem) (confSpace : U64) (limit : Nat) : Nat → Prop
  | last {k} : LastPointer mem (blockAt confSpace k) →
      k + (pointerAt mem confSpace k).toNat ≤ limit → StopsBy mem confSpace limit k
  | more {k} : ¬ LastPointer mem (blockAt confSpace k) →
      StopsBy mem confSpace limit (k + (pointerAt mem confSpace k).toNat) →
      StopsBy mem confSpace limit k

section walk
variable {m : Machine} {confSpace : U64}

theorem nextBlock_at (mem : Mem) (k : Nat) : nextBlock mem (blockAt confSpace k) =
    blockAt confSpace (k + (pointerAt mem confSpace k).toNat) := by
  unfold nextBlock pointerAt
  generalize mem (blockAt confSpace k + 1) = p
  unfold blockAt
  bv_omega

theorem StopsBy.le {mem : Mem} {limit k : Nat} (h : StopsBy mem confSpace limit k) :
    k ≤ limit := by
  induction h with
  | last _ room => omega
  | more _ _ ih => omega

theorem inSpace_block {k n : Nat} {d : U64} (h : k + d.toNat + n ≤ 4096) :
    InSpace confSpace (blockAt confSpace k + d) n := by
  unfold InSpace blockAt
  bv_omega

theorem Event.Log.dwordInSpace {e : Event} (h : e.Log) : e.DwordInSpace confSpace := by
  cases e with
  | load a n =>
    intro four
    cases h.symm.trans four
  | _ => trivial

theorem Event.Maps.dwordInSpace {e : Event} (h : e.Maps) : e.DwordInSpace confSpace := by
  cases e with
  | load => exact h.elim
  | _ => trivial

theorem dwords_load32 {a : U64} (h : InSpace confSpace a 4) :
    (load32 m a).Confined (fun _ => True) (Event.DwordInSpace confSpace) := by
  have inside : (Event.load a 4).DwordInSpace confSpace := fun _ => h
  exact (confined_emit inside).bind fun _ => confined_pure _

theorem dwords_bustOpen (mmio : U64) :
    (bustOpen m mmio).Confined (fun _ => True) (Event.DwordInSpace confSpace) := by
  obtain ⟨rest, split, dumps⟩ := bustOpen_split (m := m) mmio
  rw [split]
  exact (confined_emit trivial).bind fun _ =>
    (dumps _ fun _ _ => trivial).weaken fun _ => Event.Log.dwordInSpace

/-- A block is read in the two double words behind its header. -/
theorem dwords_getIommuRegs {capPtr : U64} (low : InSpace confSpace (capPtr + 4) 4)
    (high : InSpace confSpace (capPtr + 8) 4) :
    (getIommuRegs m capPtr).Confined (fun _ => True) (Event.DwordInSpace confSpace) := by
  obtain ⟨rest, split, after⟩ := getIommuRegs_split (m := m) capPtr
  have dwords (e : Event) (h : e.Maps ∨ e.Log) : e.DwordInSpace confSpace :=
    h.elim Event.Maps.dwordInSpace Event.Log.dwordInSpace
  rw [split]
  exact (confined_emit trivial).bind fun _ => (dwords_load32 low).bind fun lowWord =>
    (dwords_load32 high).bind fun highWord => (after lowWord highWord).weaken dwords

theorem dwords_visit (seen : Seen) {k : Nat} (room : k ≤ 4096 - 12) :
    (visit m seen (blockAt confSpace k)).Confined (fun _ => True)
      (Event.DwordInSpace confSpace) := by
  have low : (4 : U64).toNat = 4 := rfl
  have high : (8 : U64).toNat = 8 := rfl
  apply (dwords_getIommuRegs (inSpace_block (by omega)) (inSpace_block (by omega))).bind
  intro mmioBase
  split
  · exact confined_pure _
  · exact (confined_emit trivial).bind fun _ => (dwords_bustOpen _).bind fun _ => confined_pure _

theorem dwords_visitRound (seen : Seen) {k : Nat}
    (room : k + (pointerAt m.mem confSpace k).toNat ≤ 4096 - 12) :
    (visitRound m ⟨blockAt confSpace k, seen⟩).Confined (fun _ => True)
      (Event.DwordInSpace confSpace) := by
  have one : (1 : U64).toNat = 1 := rfl
  apply (dwords_load32 (inSpace_block (by omega))).bind_returned
  intro g es next g' loaded
  obtain ⟨_, rfl, _⟩ := returns_load32.mp loaded
  simp only [load32_low, setWidth_setWidth]
  have moved : nextBlock m.mem (blockAt confSpace k) = _ := nextBlock_at m.mem k
  unfold nextBlock at moved
  rw [moved]
  apply (dwords_visit seen room).bind
  intro _
  split
  · exact confined_pure _
  · exact confined_pure _

/-- Two double words of the block visited are read. -/
theorem visit_reads {seen seen' : Seen} {capPtr : U64} {g g' : Globals} {es : List Event}
    (run : (visit m seen capPtr).Returns g es seen' g') : .load (capPtr + 8) 4 ∈ es := by
  obtain ⟨es₁, _, g₁, decoded, rest⟩ := visit_cases run
  have read : .load (capPtr + 8) 4 ∈ es₁ := by
    obtain ⟨es₂, rfl, decoded₁⟩ := (emit_returns _ g).rest decoded
    obtain ⟨es₃, rfl, decoded₂⟩ := (load32_returns m _ g).rest decoded₁
    obtain ⟨es₄, rfl, _⟩ := (load32_returns m _ g).rest decoded₂
    simp
  rcases rest with ⟨_, rfl, _⟩ | ⟨_, es₂, _, rfl, _⟩
  · exact read
  · exact List.mem_append_left _ read

theorem dwords_visitLoop {k : Nat} (stops : StopsBy m.mem confSpace (4096 - 12) k) (seen : Seen) :
    (loop (visitRound m) ⟨blockAt confSpace k, seen⟩).Confined (fun _ => True)
      (Event.DwordInSpace confSpace) := by
  induction stops generalizing seen with
  | last ends room =>
    apply (dwords_visitRound seen room).loop_round
    intro g es w g' run
    obtain ⟨_, _, _, _, result⟩ := visitRound_cases run
    rw [if_pos ends] at result
    cases result
  | more goes rest ih =>
    apply (dwords_visitRound seen rest.le).loop_round
    intro g es w g' run
    obtain ⟨_, seen', _, _, result⟩ := visitRound_cases run
    rw [if_neg goes, nextBlock_at] at result
    cases result
    exact ih seen'

/-- Where no dump hangs the walk gets to every block, so that it stops in time
if it reads nothing outside. -/
theorem stopsBy_of_dwords {k : Nat} (within : k ≤ 4096 - 12) {seen : Seen} {g : Globals}
    (fit : DumpsFit m (loop (visitRound m) ⟨blockAt confSpace k, seen⟩) g)
    (inside : ∀ es, (loop (visitRound m) ⟨blockAt confSpace k, seen⟩).Emitted g es →
      ∀ a, .load a 4 ∈ es → InSpace confSpace a 4) : StopsBy m.mem confSpace (4096 - 12) k := by
  induction left : 4096 - k using Nat.strong_induction_on generalizing k seen g with
  | _ left₀ ih =>
    subst left
    obtain ⟨es, r, g₁, round⟩ := settles_visitRound ⟨blockAt confSpace k, seen⟩ g fit.round
    obtain ⟨es₁, seen', visited, rfl, result⟩ := visitRound_cases round
    have read := List.mem_cons_of_mem (Event.load (blockAt confSpace k + 1) 4) (visit_reads visited)
    have room : k + (pointerAt m.mem confSpace k).toNat ≤ 4096 - 12 := by
      have here := inside _ (emitted_loop.mpr (.inl round.emitted)) _ read
      rw [nextBlock_at] at here
      have small := (pointerAt m.mem confSpace k).isLt
      unfold InSpace blockAt at here
      bv_omega
    by_cases ends : LastPointer m.mem (blockAt confSpace k)
    · exact .last ends room
    · rw [if_neg ends, nextBlock_at] at result
      subst result
      have moves : (pointerAt m.mem confSpace k).toNat ≠ 0 := by
        intro none
        exact ends (.inl (BitVec.eq_of_toNat_eq none))
      apply StopsBy.more ends
      refine ih (4096 - (k + (pointerAt m.mem confSpace k).toNat)) (by omega) room
        (fit.next round) ?_ rfl
      intro es₂ emitted a read₁
      exact inside _ (emitted_loop.mpr (.inr ⟨_, _, g₁, es₂, round, emitted, rfl⟩)) a
        (List.mem_append_right _ read₁)

/-- Everything read through `cap_ptr` after `get_cap_space` has emitted `es`. -/
def WalksInside (m : Machine) (seen : Seen) (bus : U32) (g : Globals) (es : List Event)
    (confSpace : U64) : Prop :=
  ∀ more, (scanBus m seen bus).Emitted g (es ++ more) →
    ∀ a, .load a 4 ∈ more → InSpace confSpace a 4

theorem getCapSpace_block {bus : U32} {g g' : Globals} {es : List Event} {capPtr : U64}
    (space : (getCapSpace m bus 0 2).Returns g es capPtr g') (nonnull : capPtr ≠ 0) :
    capPtr = blockAt (m.mapped g.idx (confAddr bus 0 2) 4096)
      (firstCap m.mem (m.mapped g.idx (confAddr bus 0 2) 4096)).toNat := by
  have value := getCapSpace_value space
  dsimp only at value
  generalize m.mapped g.idx (confAddr bus 0 2) 4096 = conf at value ⊢
  by_cases unmapped : conf = 0
  · rw [if_pos unmapped] at value
    exact absurd value nonnull
  · rw [if_neg unmapped] at value
    rw [value, blockAt]
    bv_omega

theorem firstCap_small (mem : Mem) (confSpace : U64) :
    (firstCap mem confSpace).toNat ≤ 4096 - 12 := by
  have := (firstCap mem confSpace).isLt
  omega

section bus
variable {bus : U32} {g g' : Globals} {es : List Event} {capPtr : U64}

theorem StopsBy.walksInside (space : (getCapSpace m bus 0 2).Returns g es capPtr g')
    (nonnull : capPtr ≠ 0)
    (block : capPtr = blockAt confSpace (firstCap m.mem confSpace).toNat)
    (stops : StopsBy m.mem confSpace (4096 - 12) (firstCap m.mem confSpace).toNat) (seen : Seen) :
    WalksInside m seen bus g es confSpace := by
  intro more emitted a read
  rcases space.emitted_bind.mp emitted with early | ⟨more', later, same⟩
  · have none := early.length_le
    rw [List.length_append] at none
    obtain rfl : more = [] := List.eq_nil_of_length_eq_zero (by omega)
    cases read
  · obtain rfl := List.append_cancel_left same
    rw [if_neg nonnull, block] at later
    have walk : (visit m seen (blockAt confSpace (firstCap m.mem confSpace).toNat) >>=
        fun seen => loop (visitRound m) ⟨blockAt confSpace (firstCap m.mem confSpace).toNat,
          seen⟩).Confined (fun _ => True) (Event.DwordInSpace confSpace) :=
      (dwords_visit seen (firstCap_small _ _)).bind fun seen => dwords_visitLoop stops seen
    exact walk.emitted trivial later _ read rfl

theorem WalksInside.stopsBy (space : (getCapSpace m bus 0 2).Returns g es capPtr g')
    (nonnull : capPtr ≠ 0)
    (block : capPtr = blockAt confSpace (firstCap m.mem confSpace).toNat) {seen : Seen}
    (fit : DumpsFit m (scanBus m seen bus) g) (inside : WalksInside m seen bus g es confSpace) :
    StopsBy m.mem confSpace (4096 - 12) (firstCap m.mem confSpace).toNat := by
  have walk := fit.rest space
  rw [if_neg nonnull] at walk
  obtain ⟨es₁, seen₁, g₁, first⟩ := settles_visit seen capPtr g' walk.first
  have later := walk.rest first
  rw [block] at first later
  apply stopsBy_of_dwords (firstCap_small _ _) later
  intro es₂ emitted a read
  apply inside (es₁ ++ es₂) _ a (List.mem_append_right es₁ read)
  apply space.emitted_bind.mpr (.inr ⟨es₁ ++ es₂, _, rfl⟩)
  rw [if_neg nonnull, block]
  exact first.emitted_bind.mpr (.inr ⟨es₂, emitted, rfl⟩)

/-- The walk of one bus reads nothing outside the configuration space when the
offsets it adds up come to a last pointer and to no more than 4084, and not
otherwise unless a dump hangs before it gets outside. -/
theorem scanBus_inside_iff (space : (getCapSpace m bus 0 2).Returns g es capPtr g')
    (nonnull : capPtr ≠ 0) (seen : Seen) :
    let confSpace := m.mapped g.idx (confAddr bus 0 2) 4096
    let stops := StopsBy m.mem confSpace (4096 - 12) (firstCap m.mem confSpace).toNat
    (stops → WalksInside m seen bus g es confSpace) ∧
      (DumpsFit m (scanBus m seen bus) g → (WalksInside m seen bus g es confSpace ↔ stops)) := by
  intro confSpace stops
  have block := getCapSpace_block space nonnull
  have enough : stops → WalksInside m seen bus g es confSpace := fun h =>
    h.walksInside space nonnull block seen
  exact ⟨enough, fun fit => ⟨fun inside => inside.stopsBy space nonnull block fit, enough⟩⟩

end bus

end walk

theorem oneIommu_inside : ∃ es g', (getCapSpace oneIommu 0 0 2).Returns .initial es 0x10040 g' ∧
    WalksInside oneIommu .initial 0 .initial es 0x10000 := by
  have mapped : oneIommu.mapped Globals.initial.idx (confAddr 0 0 2) 4096 = 0x10000 := by decide
  obtain ⟨es, g', space, _⟩ := getCapSpace_returns mapped (by decide) oneIommu_wellFormed.cells
  have stops : StopsBy oneIommu.mem 0x10000 (4096 - 12) 0x40 := .last (by decide) (by decide)
  have walks := (scanBus_inside_iff space (by decide) .initial).1
  rw [mapped] at walks
  exact ⟨es, g', space, walks stops⟩

/-- Where no block is enabled, only capabilities are dumped. -/
theorem scanBus_dumpsFit {m : Machine} (off : ∀ capPtr, ¬ NamesBase m.mem capPtr) (seen : Seen)
    (bus : U32) (g : Globals) : DumpsFit m (scanBus m seen bus) g := by
  have call (capPtr : U64) : (Event.getIommuRegs capPtr).Fits m := fits_of_hidden rfl
  have visits (seen : Seen) (capPtr : U64) :
      (visit m seen capPtr).Confined (fun _ => True) (Event.Fits m) := by
    have decodes : (getIommuRegs m capPtr).Confined (fun _ => True) (Event.Fits m) := by
      refine (confined_emit (call capPtr)).bind fun _ => ?_
      refine (fits_load32 _).bind_returned fun {g es low g'} run => ?_
      obtain ⟨_, rfl, _⟩ := returns_load32.mp run
      refine (fits_load32 _).bind_returned fun {g es high g'} run => ?_
      obtain ⟨_, rfl, _⟩ := returns_load32.mp run
      dsimp only
      split
      · exact (fits_printk _).bind fun _ => confined_pure _
      split
      · exact confined_pure _
      · rename_i enabled named
        exact absurd ⟨enabled, named⟩ (off capPtr)
    refine decodes.bind_returned fun {g es mmio g'} run => ?_
    have null : mmio = 0 := (getIommuRegs_spec run).1.trans (if_neg (off capPtr))
    split
    · exact confined_pure _
    · refine (confined_emit (fits_of_hidden rfl)).bind fun _ => ?_
      have opened : (bustOpen m mmio).Confined (fun _ => True) (Event.Fits m) := by
        refine (confined_emit (fits_of_hidden rfl)).bind fun _ => ?_
        rw [if_pos null]
        exact confined_pure _
      exact opened.bind fun _ => confined_pure _
  have scans : (scanBus m seen bus).Confined (fun _ => True) (Event.Fits m) := by
    refine (fits_getCapSpace bus 0 2).bind fun capPtr => ?_
    split
    · exact (fits_printk _).bind fun _ => confined_pure _
    · refine (visits _ _).bind fun seen => confined_loop ?_ _
      intro w
      refine (fits_load32 _).bind fun next => (visits _ _).bind fun seen => ?_
      split
      · exact confined_pure _
      · exact confined_pure _
  exact fun es emitted => fits_ranges (scans.emitted trivial emitted)

/-- All bytes are even. -/
theorem farPointers_disabled (capPtr : U64) : ¬ NamesBase farPointers.mem capPtr := by
  rintro ⟨enabled, _⟩
  have bit : (0x1 : U32) = 0xff &&& 0x1 := rfl
  rw [bit, ← BitVec.and_assoc, load32_low] at enabled
  apply enabled
  dsimp only [farPointers]
  split
  · decide
  split
  · decide
  · decide

theorem farPointers_pointer {k : Nat} (phase : k % 0xf0 = 0x40) (small : k ≤ 4084) :
    pointerAt farPointers.mem 0x10000 k = 0xf0 := by
  have first : blockAt 0x10000 k + 1 ≠ 0x10034 := by
    unfold blockAt
    bv_omega
  have second : blockAt 0x10000 k + 1 ≠ 0x100f1 := by
    unfold blockAt
    bv_omega
  dsimp only [pointerAt, farPointers]
  rw [if_neg first, if_neg second]

theorem farPointers_goes {k : Nat} (phase : k % 0xf0 = 0x40) :
    ¬ StopsBy farPointers.mem 0x10000 (4096 - 12) k := by
  intro stops
  induction stops with
  | @last k ends room =>
    have pointer := farPointers_pointer phase (by omega)
    unfold LastPointer at ends
    change pointerAt farPointers.mem 0x10000 k = 0 ∨ pointerAt farPointers.mem 0x10000 k = 0xff
      at ends
    rw [pointer] at ends
    revert ends
    decide
  | @more k _ rest ih =>
    have pointer := farPointers_pointer phase (by have := rest.le; omega)
    have added : (0xf0 : U8).toNat = 0xf0 := rfl
    rw [pointer] at ih
    exact ih (by omega)

/-- A well-formed list of two capabilities, and the walk reads outside the space. -/
theorem farPointers_outside : WellFormed farPointers.mem 0x10000 [0x40, 0xf0] ∧
    ∃ es g', (getCapSpace farPointers 0 0 2).Returns .initial es 0x10040 g' ∧
      ¬ WalksInside farPointers .initial 0 .initial es 0x10000 := by
  have mapped : farPointers.mapped Globals.initial.idx (confAddr 0 0 2) 4096 = 0x10000 := by decide
  obtain ⟨es, g', space, _⟩ :=
    getCapSpace_returns mapped (by decide) farPointers_wellFormed.cells
  refine ⟨farPointers_wellFormed, es, g', space, ?_⟩
  intro inside
  exact farPointers_goes (by decide)
    (inside.stopsBy space (by decide) (by decide)
      (scanBus_dumpsFit farPointers_disabled .initial 0 .initial))

end Buster
