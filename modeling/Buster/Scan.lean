import Buster.Decode
import Buster.Lib.History

/-!
# Loading the module

`buster_ini` takes one function on each of four buses, walks its capabilities
once more on its own, and opens every IOMMU whose mapping it has not seen.
-/

namespace Buster

open Imp.Prog

def nmiommu : Nat := 4

def busnums : List U32 := [0x00, 0x40, 0x80, 0xc0]

def isRepeatIn (val : U64) : List U64 → Bool
  | [] => false
  | x :: xs => if x = val then true else isRepeatIn val xs

/-- `seen_iommu_regs` and its index. -/
structure Seen where
  regs : Vector U64 (nmiommu * 4)
  idx : Nat

def Seen.initial : Seen := ⟨Vector.replicate (nmiommu * 4) 0, 0⟩

/-- The store is seen as an event; past the array it changes nothing else here. -/
def Seen.enter (seen : Seen) (mmioBase : U64) : Seen :=
  ⟨seen.regs.setIfInBounds seen.idx mmioBase, seen.idx + 1⟩

variable (m : Machine)

/-- Done to the first capability and, by a second copy of the same code, to
every other one. -/
def visit (seen : Seen) (capPtr : U64) : Kernel Seen := do
  let mmioBase ← getIommuRegs m capPtr
  if isRepeatIn mmioBase seen.regs.toList then
    return seen
  else
    emit (.storeSeen seen.idx)
    bustOpen m mmioBase
    return seen.enter mmioBase

structure BlockWalk where
  capPtr : U64
  seen : Seen

/-- One round of the `do`-`while`. The next pointer is added to the block it is
in, not to the configuration space. -/
def visitRound (w : BlockWalk) : Kernel (BlockWalk ⊕ Seen) := do
  let next ← load32 m (w.capPtr + 1)
  let capOff := next &&& 0xff
  let capPtr := w.capPtr + capOff.setWidth 64
  let seen ← visit m w.seen capPtr
  if capOff ≠ 0x00 ∧ capOff ≠ 0xff then
    return .inl ⟨capPtr, seen⟩
  else
    return .inr seen

def scanBus (seen : Seen) (bus : U32) : Kernel Seen := do
  let capPtr ← getCapSpace m bus 0 2
  if capPtr = 0 then
    printk (busterInfo ++ "cap_ptr is NULL\n".toList)
    return seen
  else
    let seen ← visit m seen capPtr
    loop (visitRound m) ⟨capPtr, seen⟩

def scanAll : List U32 → Seen → Kernel Seen
  | [], seen => pure seen
  | bus :: buses, seen => do
    let seen ← scanBus m seen bus
    scanAll buses seen

/-- The result -1 keeps the module from staying loaded. -/
def busterIni : Kernel Int := do
  let _ ← scanAll m busnums .initial
  freeall
  return -1

theorem isRepeatIn_iff {val : U64} {xs : List U64} : isRepeatIn val xs = true ↔ val ∈ xs := by
  induction xs with
  | nil => simp [isRepeatIn]
  | cons x xs ih =>
    by_cases same : x = val
    · simp [isRepeatIn, same]
    · simp [isRepeatIn, same, ih, Ne.symm same]

/-! ## The blocks taken for IOMMUs -/

/-- The block of a `get_iommu_regs` call. -/
def Event.iommuCall : Event → Option U64
  | .getIommuRegs capPtr => some capPtr
  | _ => none

def iommuCalls (es : List Event) : List U64 := es.filterMap Event.iommuCall

/-- Anything but such a call. -/
def Event.Other : Event → Prop
  | .getIommuRegs _ => False
  | _ => True

theorem Event.Plain.other {e : Event} (h : e.Plain) : e.Other := by
  cases e with
  | getIommuRegs => exact h
  | _ => trivial

theorem Event.Other.no_iommuCall {e : Event} (h : e.Other) : e.iommuCall = none := by
  cases e with
  | getIommuRegs => exact h.elim
  | _ => rfl

section calls
variable {m}

theorem other_printk (line : Text) : (printk line).Confined (fun _ => True) Event.Other :=
  confined_emit trivial

theorem other_missing (seen : Seen) :
    (printk (busterInfo ++ "cap_ptr is NULL\n".toList) >>= fun _ =>
      (pure seen : Kernel Seen)).Confined (fun _ => True) Event.Other :=
  (other_printk _).bind fun _ => confined_pure _

theorem Event.Log.other {e : Event} (h : e.Log) : e.Other := h.dump.plain.other

theorem other_getCapSpace (bus dev func : U32) :
    (getCapSpace m bus dev func).Confined (fun _ => True) Event.Other := by
  have mapped : (mapConf m bus dev func).Confined (fun _ => True) Event.Other :=
    ((confined_getMapping m _ _).weaken fun _ h => h.plain.other).bind fun _ =>
      (other_printk _).bind fun _ => confined_pure _
  exact mapped.bind fun confSpace => (confined_dumpCaps (fun _ _ => trivial) bus dev func
    confSpace).weaken fun _ h => h.plain.other

theorem other_bustOpen (mmio : U64) :
    (bustOpen m mmio).Confined (fun _ => True) Event.Other := by
  obtain ⟨rest, split, dumps⟩ := bustOpen_split (m := m) mmio
  rw [split]
  exact (confined_emit trivial).bind fun _ =>
    (dumps _ fun _ _ => trivial).weaken fun _ => Event.Log.other

theorem calls_getIommuRegs (capPtr : U64) :
    (getIommuRegs m capPtr).Traces Event.iommuCall [capPtr] := by
  obtain ⟨rest, split, after⟩ := getIommuRegs_split (m := m) capPtr
  have loads (a : U64) : (load32 m a).Confined (fun _ => True) Event.Other :=
    (confined_load32 a).weaken fun _ h => h.dump.plain.other
  have other (low high : U32) : (rest low high).Confined (fun _ => True) Event.Other :=
    (after low high).weaken fun _ h => h.elim (fun h => h.plain.other) Event.Log.other
  rw [split]
  refine traces_emit.bind fun _ => Confined.traces ?_ fun _ => Event.Other.no_iommuCall
  exact (loads _).bind fun low => (loads _).bind fun high => other low high

theorem calls_visit (seen : Seen) (capPtr : U64) :
    (visit m seen capPtr).Traces Event.iommuCall [capPtr] := by
  refine (calls_getIommuRegs capPtr).bind fun mmioBase => Confined.traces ?_
    fun _ => Event.Other.no_iommuCall
  split
  · exact confined_pure _
  · exact (confined_emit trivial).bind fun _ => (other_bustOpen _).bind fun _ => confined_pure _

/-- The block that the `do`-`while` goes to from a block. -/
def nextBlock (mem : Mem) (capPtr : U64) : U64 := capPtr + (mem (capPtr + 1)).setWidth 64

theorem calls_visitRound (w : BlockWalk) :
    (visitRound m w).Traces Event.iommuCall [nextBlock m.mem w.capPtr] := by
  refine Traces.after (a := m.mem.load32 (w.capPtr + 1)) (fun g => ?_) ?_
  · exact ⟨[.load (w.capPtr + 1) 4], g, returns_load32.mpr ⟨rfl, rfl, rfl⟩, rfl⟩
  · simp only [load32_low, setWidth_setWidth]
    refine (calls_visit _ _).bind fun _ => ?_
    split
    · exact traces_pure _
    · exact traces_pure _

theorem calls_blocks (seen : Seen) (capPtr : U64) :
    (visit m seen capPtr >>= fun seen => loop (visitRound m) ⟨capPtr, seen⟩).Opens Event.iommuCall
      [capPtr, nextBlock m.mem capPtr] :=
  (calls_visit seen capPtr).opens_bind fun seen => (calls_visitRound ⟨capPtr, seen⟩).opens_loop

end calls

/-! ## What the parts of a run do -/

section parts
variable {m}

/-- The `do`-`while` ends with the block that this one points to. -/
def LastPointer (mem : Mem) (capPtr : U64) : Prop :=
  mem (capPtr + 1) = 0 ∨ mem (capPtr + 1) = 0xff

instance (mem : Mem) (capPtr : U64) : Decidable (LastPointer mem capPtr) :=
  inferInstanceAs (Decidable (_ ∨ _))

theorem pointer_going {o : U8} :
    (o.setWidth 32 ≠ 0x00 ∧ o.setWidth 32 ≠ 0xff) ↔ ¬ (o = 0 ∨ o = 0xff) := by
  have zero : o.setWidth 32 = 0x00 ↔ o = 0 := setWidth_eq_zero
  have ones : o.setWidth 32 = 0xff ↔ o = 0xff := by
    constructor
    · intro h
      bv_omega
    · rintro rfl
      rfl
  rw [ne_eq, ne_eq, zero, ones, not_or]

/-- What `get_iommu_regs` gives is found among the seen ones, or entered and opened. -/
theorem visit_cases {seen seen' : Seen} {capPtr : U64} {g g' : Globals} {es : List Event}
    (run : (visit m seen capPtr).Returns g es seen' g') :
    ∃ es₁ mmio g₁, (getIommuRegs m capPtr).Returns g es₁ mmio g₁ ∧
      (isRepeatIn mmio seen.regs.toList = true ∧ es = es₁ ∧ seen' = seen ∧ g' = g₁ ∨
        ¬ isRepeatIn mmio seen.regs.toList = true ∧ ∃ es₂,
          (bustOpen m mmio).Returns g₁ es₂ () g' ∧
          es = es₁ ++ .storeSeen seen.idx :: es₂ ∧ seen' = seen.enter mmio) := by
  obtain ⟨es₁, mmio, g₁, es₂, decode, run₁, rfl⟩ := returns_bind.mp run
  refine ⟨es₁, mmio, g₁, decode, ?_⟩
  by_cases repeated : isRepeatIn mmio seen.regs.toList = true
  · rw [if_pos repeated] at run₁
    obtain ⟨rfl, rfl, rfl⟩ := returns_pure.mp run₁
    exact .inl ⟨repeated, List.append_nil _, rfl, rfl⟩
  · rw [if_neg repeated] at run₁
    obtain ⟨es₃, rfl, run₂⟩ := (emit_returns _ g₁).rest run₁
    obtain ⟨es₄, _, g₂, es₅, opened, last, rfl⟩ := returns_bind.mp run₂
    obtain ⟨rfl, rfl, rfl⟩ := returns_pure.mp last
    refine .inr ⟨repeated, es₄, opened, ?_, rfl⟩
    rw [List.append_nil]
    rfl

theorem visit_calls {seen seen' : Seen} {capPtr : U64} {g g' : Globals} {es : List Event}
    (run : (visit m seen capPtr).Returns g es seen' g') : g'.idx = afterVisit m g.idx capPtr := by
  obtain ⟨_, _, _, decode, rest⟩ := visit_cases run
  obtain ⟨_, calls, _⟩ := getIommuRegs_spec decode
  rcases rest with ⟨_, _, _, rfl⟩ | ⟨_, _, opened, _⟩
  · exact calls
  · exact (bustOpen_spec opened).1.trans calls

/-- A round loads an offset, visits the block there, and goes by the offset after that. -/
theorem visitRound_cases {w : BlockWalk} {r : BlockWalk ⊕ Seen} {g g' : Globals} {es : List Event}
    (run : (visitRound m w).Returns g es r g') :
    ∃ es₁ seen', (visit m w.seen (nextBlock m.mem w.capPtr)).Returns g es₁ seen' g' ∧
      es = .load (w.capPtr + 1) 4 :: es₁ ∧
      r = if LastPointer m.mem w.capPtr then .inr seen'
        else .inl ⟨nextBlock m.mem w.capPtr, seen'⟩ := by
  obtain ⟨es₁, rfl, run₁⟩ := (load32_returns m _ g).rest run
  simp only [load32_low, setWidth_setWidth] at run₁
  obtain ⟨es₂, seen', g₁, es₃, visited, last, rfl⟩ := returns_bind.mp run₁
  by_cases ends : LastPointer m.mem w.capPtr
  · rw [if_neg fun going => pointer_going.mp going ends] at last
    obtain ⟨rfl, rfl, rfl⟩ := returns_pure.mp last
    refine ⟨es₂, seen', visited, ?_, (if_pos ends).symm⟩
    rw [List.append_nil, List.singleton_append]
  · rw [if_pos (pointer_going.mpr ends)] at last
    obtain ⟨rfl, rfl, rfl⟩ := returns_pure.mp last
    refine ⟨es₂, seen', visited, ?_, (if_neg ends).symm⟩
    rw [List.append_nil, List.singleton_append]

/-- To show something of every `do`-`while` that ends, show it where the block
visited is the last one, and where it is not and the rest has it. -/
theorem visitLoop_induction {motive : BlockWalk → Globals → List Event → Seen → Globals → Prop}
    (last : ∀ {w g es seen' g'}, LastPointer m.mem w.capPtr →
      (visit m w.seen (nextBlock m.mem w.capPtr)).Returns g es seen' g' →
      motive w g (.load (w.capPtr + 1) 4 :: es) seen' g')
    (more : ∀ {w g es₁ seen₁ g₁ es₂ seen' g'}, ¬ LastPointer m.mem w.capPtr →
      (visit m w.seen (nextBlock m.mem w.capPtr)).Returns g es₁ seen₁ g₁ →
      motive ⟨nextBlock m.mem w.capPtr, seen₁⟩ g₁ es₂ seen' g' →
      motive w g (.load (w.capPtr + 1) 4 :: es₁ ++ es₂) seen' g')
    {w : BlockWalk} {seen' : Seen} {g g' : Globals} {es : List Event}
    (run : (loop (visitRound m) w).Returns g es seen' g') : motive w g es seen' g' := by
  refine run.loop_induction ?_ ?_
  · intro w g es seen' g' round
    obtain ⟨es₁, seen₁, visited, rfl, result⟩ := visitRound_cases round
    by_cases ends : LastPointer m.mem w.capPtr
    · rw [if_pos ends] at result
      cases result
      exact last ends visited
    · rw [if_neg ends] at result
      cases result
  · intro w g es₁ next g₁ es₂ seen' g' round rest
    obtain ⟨es₃, seen₁, visited, rfl, result⟩ := visitRound_cases round
    by_cases ends : LastPointer m.mem w.capPtr
    · rw [if_pos ends] at result
      cases result
    · rw [if_neg ends] at result
      cases result
      exact more ends visited rest

theorem scanBus_cases {seen seen' : Seen} {bus : U32} {g g' : Globals} {es : List Event}
    (run : (scanBus m seen bus).Returns g es seen' g') :
    ∃ es₁ capPtr g₁, (getCapSpace m bus 0 2).Returns g es₁ capPtr g₁ ∧
      (capPtr = 0 ∧ es = es₁ ++ [.printk (busterInfo ++ "cap_ptr is NULL\n".toList)] ∧
          seen' = seen ∧ g' = g₁ ∨
        capPtr ≠ 0 ∧ ∃ es₂ seen₁ g₂ es₃, (visit m seen capPtr).Returns g₁ es₂ seen₁ g₂ ∧
          (loop (visitRound m) ⟨capPtr, seen₁⟩).Returns g₂ es₃ seen' g' ∧
          es = es₁ ++ (es₂ ++ es₃)) := by
  obtain ⟨es₁, capPtr, g₁, es₂, space, run₁, rfl⟩ := returns_bind.mp run
  refine ⟨es₁, capPtr, g₁, space, ?_⟩
  by_cases null : capPtr = 0
  · rw [if_pos null] at run₁
    obtain ⟨es₃, rfl, last⟩ := (printk_returns _ g₁).rest run₁
    obtain ⟨rfl, rfl, rfl⟩ := returns_pure.mp last
    exact .inl ⟨null, rfl, rfl, rfl⟩
  · rw [if_neg null] at run₁
    obtain ⟨es₃, seen₁, g₂, es₄, first, rest, rfl⟩ := returns_bind.mp run₁
    exact .inr ⟨null, es₃, seen₁, g₂, es₄, first, rest, rfl⟩

theorem busterIni_cases {g g' : Globals} {es : List Event} {r : Int}
    (run : (busterIni m).Returns g es r g') :
    ∃ es₁ seen g₁ es₂, (scanAll m busnums .initial).Returns g es₁ seen g₁ ∧
      freeall.Returns g₁ es₂ () g' ∧ es = es₁ ++ es₂ := by
  obtain ⟨es₁, seen, g₁, es₂, scanned, run₁, rfl⟩ := returns_bind.mp run
  obtain ⟨es₃, _, g₂, es₄, freed, last, rfl⟩ := returns_bind.mp run₁
  obtain ⟨rfl, _, rfl⟩ := returns_pure.mp last
  exact ⟨es₁, seen, g₁, es₃, scanned, freed, by rw [List.append_nil]⟩

end parts

/-! ## Histories -/

/-- What all that a scan is made of follows. Only decoded registers are opened. -/
structure ScanParts (m : Machine) (R : Globals → List Event → Globals → Prop)
    (B : Globals → List Event → Prop) : Prop where
  composes : Composes R B
  space : ∀ bus, (getCapSpace m bus 0 2).Follows R B
  missing : (printk (busterInfo ++ "cap_ptr is NULL\n".toList)).Follows R B
  pointer : ∀ a, (load32 m a).Follows R B
  registers : ∀ capPtr, (getIommuRegs m capPtr).Follows R B
  entered : ∀ i, (emit (Event.storeSeen i) : Kernel Unit).Follows R B
  opened : ∀ n capPtr, (bustOpen m (decoded m n capPtr)).Follows R B

namespace ScanParts

variable {m : Machine} {R : Globals → List Event → Globals → Prop}
  {B : Globals → List Event → Prop} (parts : ScanParts m R B)
include parts

theorem visit (seen : Seen) (capPtr : U64) : (visit m seen capPtr).Follows R B := by
  have comp := parts.composes
  refine comp.bind_returned (parts.registers capPtr) fun {g es mmioBase g'} run => ?_
  obtain ⟨rfl, _⟩ := getIommuRegs_spec run
  split
  · exact comp.pure _
  · exact comp.bind (parts.entered _) fun _ => comp.bind (parts.opened g.idx capPtr) fun _ =>
      comp.pure _

theorem scanBus (seen : Seen) (bus : U32) : (scanBus m seen bus).Follows R B := by
  have comp := parts.composes
  refine comp.bind (parts.space bus) fun capPtr => ?_
  split
  · exact comp.bind parts.missing fun _ => comp.pure _
  · refine comp.bind (parts.visit seen capPtr) fun seen => comp.loop ?_ _
    intro w
    refine comp.bind (parts.pointer _) fun next => comp.bind (parts.visit _ _) fun seen => ?_
    split
    · exact comp.pure _
    · exact comp.pure _

theorem scanAll (buses : List U32) (seen : Seen) : (scanAll m buses seen).Follows R B := by
  induction buses generalizing seen with
  | nil => exact parts.composes.pure _
  | cons bus buses ih => exact parts.composes.bind (parts.scanBus seen bus) ih

end ScanParts

/-! ## Runs that end -/

section ends
variable {m : Machine}

/-- What a visit dumps, when call number `n` is the next to `get_mapping`. -/
def visitRanges (m : Machine) (seen : Seen) (n : Nat) (capPtr : U64) : List Range :=
  let mmio := decoded m n capPtr
  regsRange mmio ++ if isRepeatIn mmio seen.regs.toList then [] else ringRanges m mmio

/-- A visit ends unless one of its dumps hangs. -/
theorem visit_ends_iff (seen : Seen) (capPtr : U64) (g : Globals) :
    (visit m seen capPtr).Ends g ↔ ∀ w ∈ visitRanges m seen g.idx capPtr, (m.call w).Fits := by
  unfold visitRanges
  dsimp only
  rw [List.forall_mem_append, ← getIommuRegs_ends_iff]
  constructor
  · rintro ⟨es, seen', g', run⟩
    obtain ⟨es₁, mmio, g₁, decode, rest⟩ := visit_cases run
    refine ⟨decode.ends, ?_⟩
    obtain ⟨rfl, _⟩ := getIommuRegs_spec decode
    rcases rest with ⟨repeated, _⟩ | ⟨new, es₂, opened, _⟩
    · rw [if_pos repeated]
      exact List.forall_mem_nil _
    · rw [if_neg new]
      exact (bustOpen_ends_iff _ g₁).mp opened.ends
  · rintro ⟨⟨es, mmio, g₁, decode⟩, rings⟩
    obtain ⟨rfl, _⟩ := getIommuRegs_spec decode
    refine decode.ends_bind.mpr ?_
    by_cases repeated : isRepeatIn (decoded m g.idx capPtr) seen.regs.toList = true
    · rw [if_pos repeated]
      exact (pure_returns _ g₁).ends
    · rw [if_neg repeated] at rings ⊢
      refine (emit_returns _ g₁).ends_bind.mpr ?_
      exact (ends_bind fun _ g₂ => (pure_returns _ g₂).ends).mpr
        ((bustOpen_ends_iff _ g₁).mpr rings)

/-- It is enough that the dumps of a mapping not seen before do not hang. -/
theorem RegsFit.visit_ends {capPtr : U64} {g : Globals} (fit : RegsFit m (decoded m g.idx capPtr))
    (seen : Seen) : (visit m seen capPtr).Ends g := by
  obtain ⟨regs, rings⟩ := List.forall_mem_append.mp fit
  refine (visit_ends_iff seen capPtr g).mpr (List.forall_mem_append.mpr ⟨regs, ?_⟩)
  split
  · exact List.forall_mem_nil _
  · exact rings

theorem settles_visit (seen : Seen) (capPtr : U64) : Settles m (visit m seen capPtr) := by
  refine (settles_getIommuRegs capPtr).bind fun mmioBase => ?_
  split
  · exact settles_pure _
  · exact (settles_emit _).bind fun _ => (settles_bustOpen _).bind fun _ => settles_pure _

theorem settles_visitRound (w : BlockWalk) : Settles m (visitRound m w) := by
  refine (settles_load32 _).bind fun next => (settles_visit _ _).bind fun seen => ?_
  split
  · exact settles_pure _
  · exact settles_pure _

theorem visitRound_ends {w : BlockWalk} {g : Globals}
    (visited : (visit m w.seen (nextBlock m.mem w.capPtr)).Ends g) : (visitRound m w).Ends g := by
  refine (load32_returns m _ g).ends_bind.mpr ?_
  simp only [load32_low, setWidth_setWidth]
  refine (ends_bind fun _ g₁ => ?_).mpr visited
  split
  · exact (pure_returns _ g₁).ends
  · exact (pure_returns _ g₁).ends

/-- The round that visits the last block leaves the loop. -/
theorem visitLoop_ends {w : BlockWalk} {g : Globals} (last : LastPointer m.mem w.capPtr)
    (visited : (visit m w.seen (nextBlock m.mem w.capPtr)).Ends g) :
    (loop (visitRound m) w).Ends g := by
  obtain ⟨es, r, g', round⟩ := visitRound_ends visited
  obtain ⟨_, _, _, _, result⟩ := visitRound_cases round
  rw [if_pos last] at result
  rw [result] at round
  exact (returns_loop.mpr (.inl round)).ends

/-- Where the loop goes on, the rest of it decides. -/
theorem visitLoop_ends_of_next {w : BlockWalk} {g : Globals} (goes : ¬ LastPointer m.mem w.capPtr)
    (visited : (visit m w.seen (nextBlock m.mem w.capPtr)).Ends g)
    (rest : ∀ es seen g₁, (visit m w.seen (nextBlock m.mem w.capPtr)).Returns g es seen g₁ →
      (loop (visitRound m) ⟨nextBlock m.mem w.capPtr, seen⟩).Ends g₁) :
    (loop (visitRound m) w).Ends g := by
  obtain ⟨es, r, g₁, round⟩ := visitRound_ends visited
  obtain ⟨es₁, seen, visit, _, result⟩ := visitRound_cases round
  rw [if_neg goes] at result
  rw [result] at round
  obtain ⟨fs, seen', g', later⟩ := rest es₁ seen g₁ visit
  exact ⟨_, seen', g', returns_loop.mpr (.inr ⟨es, _, g₁, fs, round, later, rfl⟩)⟩

/-- A bus is passed over where its configuration space cannot be mapped. -/
theorem scanBus_ends_of_unmapped {bus : U32} {g : Globals} {seen : Seen}
    (null : m.mapped g.idx (confAddr bus 0 2) 4096 = 0) : (scanBus m seen bus).Ends g := by
  obtain ⟨es, capPtr, g₁, space⟩ := (getCapSpace_ends m bus 0 2 g).mpr (.inl null)
  refine space.ends_bind.mpr ?_
  have value : capPtr = 0 := (getCapSpace_value space).trans (if_pos null)
  rw [if_pos value]
  exact (printk_returns _ g₁).ends_bind.mpr (pure_returns _ g₁).ends

/-- Elsewhere the visit of the first block and the walk from there on decide. -/
theorem scanBus_ends_of_blocks {bus : U32} {g : Globals} {seen : Seen} {os : List U8}
    (cells : Chain.Cells (nextCap m.mem (m.mapped g.idx (confAddr bus 0 2) 4096)) 0
      (firstCap m.mem (m.mapped g.idx (confAddr bus 0 2) 4096)) os)
    (walk : ∀ g₁, g₁.idx = nextCall g.idx → firstBlock m g.idx bus ≠ 0 →
      (visit m seen (firstBlock m g.idx bus) >>= fun seen =>
        loop (visitRound m) ⟨firstBlock m g.idx bus, seen⟩).Ends g₁) :
    (scanBus m seen bus).Ends g := by
  obtain ⟨es, capPtr, g₁, space⟩ := (getCapSpace_ends m bus 0 2 g).mpr (.inr ⟨os, cells⟩)
  obtain ⟨rfl, calls, _⟩ := getCapSpace_spec space
  refine space.ends_bind.mpr ?_
  by_cases null : firstBlock m g.idx bus = 0
  · rw [if_pos null]
    exact (printk_returns _ g₁).ends_bind.mpr (pure_returns _ g₁).ends
  · rw [if_neg null]
    exact walk g₁ calls null

end ends

/-! ## The two walks -/

/-- The list of a configuration space as the hardware documents it, block by block. -/
structure WellFormed (mem : Mem) (confSpace : U64) (os : List U8) : Prop where
  cells : Chain.Cells (nextCap mem confSpace) 0 (firstCap mem confSpace) os
  offsets : ∀ o ∈ os, 0x40 ≤ o.toNat ∧ o.toNat ≤ 0xfc ∧ o.toNat % 4 = 0
  distinct : os.Nodup

def listed (confSpace : U64) (os : List U8) : List U64 := os.map fun o => confSpace + o.setWidth 64

/-- What the second walk takes first is never the beginning of the list. -/
theorem opening_not_listed {mem : Mem} {confSpace : U64} {first : U8} {os : List U8}
    (cells : Chain.Cells (nextCap mem confSpace) 0 first os) :
    ¬ [confSpace + first.setWidth 64, nextBlock mem (confSpace + first.setWidth 64)] <+:
      listed confSpace os := by
  intro pre
  cases cells with
  | nil => simp [listed] at pre
  | @cons o os ne rest =>
    cases os with
    | nil => simpa [listed] using pre.length_le
    | cons o' os =>
      have next : o' = nextCap mem confSpace first := by
        generalize nextCap mem confSpace first = p at rest
        cases rest
        rfl
      have same : nextBlock mem (confSpace + first.setWidth 64) = confSpace + o'.setWidth 64 := by
        simp only [listed, List.map_cons, List.cons_prefix_cons] at pre
        exact pre.2.1
      have astray : nextBlock mem (confSpace + first.setWidth 64) =
          confSpace + first.setWidth 64 + o'.setWidth 64 := by
        rw [next]
        rfl
      have zero : first.setWidth 64 = 0 := by
        rw [same] at astray
        bv_omega
      exact ne (by bv_omega)

theorem scanBus_opens {m : Machine} {g : Globals} (seen : Seen) {bus : U32} {confSpace : U64}
    (mapped : m.mapped g.idx (confAddr bus 0 2) 4096 = confSpace) (nonnull : confSpace ≠ 0) :
    let capPtr := confSpace + (firstCap m.mem confSpace).setWidth 64
    (∀ es, (scanBus m seen bus).Emitted g es →
      iommuCalls es <+: [capPtr, nextBlock m.mem capPtr] ∨
        [capPtr, nextBlock m.mem capPtr] <+: iommuCalls es) ∧
    ∀ es seen' g', (scanBus m seen bus).Returns g es seen' g' →
      (capPtr = 0 ∧ iommuCalls es = []) ∨ [capPtr, nextBlock m.mem capPtr] <+: iommuCalls es := by
  intro capPtr
  have silent {es : List Event} (h : ∀ e ∈ es, e.Other) : iommuCalls es = [] :=
    filterMap_hidden (fun _ => Event.Other.no_iommuCall) h
  have value {es : List Event} {a : U64} {g' : Globals}
      (run : (getCapSpace m bus 0 2).Returns g es a g') : iommuCalls es = [] ∧ a = capPtr := by
    refine ⟨silent ((other_getCapSpace bus 0 2).returns trivial run).2, ?_⟩
    have value := getCapSpace_value run
    simp only [mapped, if_neg nonnull] at value
    exact value
  constructor
  · intro es emitted
    rcases emitted_bind.mp emitted with early | ⟨es₁, a, g₁, es₂, first, later, rfl⟩
    · rw [silent ((other_getCapSpace bus 0 2).emitted trivial early)]
      exact .inl List.nil_prefix
    · obtain ⟨none, rfl⟩ := value first
      rw [iommuCalls, List.filterMap_append, ← iommuCalls, ← iommuCalls, none, List.nil_append]
      split at later
      · rw [silent ((other_missing seen).emitted trivial later)]
        exact .inl List.nil_prefix
      · exact ((calls_blocks seen capPtr) g₁).1 es₂ later
  · intro es seen' g' run
    obtain ⟨es₁, a, g₁, es₂, first, rest, rfl⟩ := returns_bind.mp run
    obtain ⟨none, rfl⟩ := value first
    rw [iommuCalls, List.filterMap_append, ← iommuCalls, ← iommuCalls, none, List.nil_append]
    split at rest
    · exact .inl ⟨‹_›, silent ((other_missing seen).returns trivial rest).2⟩
    · exact .inr (((calls_blocks seen capPtr) g₁).2 _ _ _ rest)

/-- The call for the next block is the second thing that a round does. -/
theorem visitRound_calls (m : Machine) (w : BlockWalk) (g : Globals) :
    (visitRound m w).Emitted g
      [.load (w.capPtr + 1) 4, .getIommuRegs (nextBlock m.mem w.capPtr)] := by
  refine (load32_returns m _ g).emitted_bind.mpr (.inr ⟨[.getIommuRegs _], ?_, rfl⟩)
  simp only [load32_low, setWidth_setWidth]
  exact emitted_bind.mpr (.inl (emitted_bind.mpr (.inl
    (emitted_bind.mpr (.inl (emit_returns _ g).emitted)))))

/-- The second walk reaches a second block exactly when it has a first one and
the dumps of that one do not hang. -/
theorem scanBus_second {m : Machine} {g : Globals} {bus : U32} {confSpace : U64} {os : List U8}
    (mapped : m.mapped g.idx (confAddr bus 0 2) 4096 = confSpace) (nonnull : confSpace ≠ 0)
    (cells : Chain.Cells (nextCap m.mem confSpace) 0 (firstCap m.mem confSpace) os) (seen : Seen) :
    let capPtr := confSpace + (firstCap m.mem confSpace).setWidth 64
    (∃ es, (scanBus m seen bus).Emitted g es ∧ (iommuCalls es).length = 2) ↔
      capPtr ≠ 0 ∧ ∀ w ∈ visitRanges m seen (nextCall g.idx) capPtr, (m.call w).Fits := by
  intro capPtr
  obtain ⟨es₀, g₁, space, _⟩ := getCapSpace_returns mapped nonnull cells
  have silent : iommuCalls es₀ = [] :=
    filterMap_hidden (fun _ => Event.Other.no_iommuCall)
      ((other_getCapSpace bus 0 2).returns trivial space).2
  have split (es fs : List Event) : iommuCalls (es ++ fs) = iommuCalls es ++ iommuCalls fs :=
    List.filterMap_append
  rw [← (getCapSpace_spec space).2.1, ← visit_ends_iff]
  constructor
  · rintro ⟨es, emitted, two⟩
    rcases space.emitted_bind.mp emitted with early | ⟨more, later, rfl⟩
    · have few : iommuCalls es <+: iommuCalls es₀ := early.filterMap _
      rw [silent, List.prefix_nil] at few
      rw [few] at two
      cases two
    rw [split, silent, List.nil_append] at two
    by_cases null : capPtr = 0
    · rw [if_pos null] at later
      have quiet := (other_missing seen).emitted trivial later
      rw [iommuCalls, filterMap_hidden (fun _ => Event.Other.no_iommuCall) quiet] at two
      cases two
    · rw [if_neg null] at later
      refine ⟨null, ?_⟩
      rcases emitted_bind.mp later with first | ⟨_, seen₁, g₂, _, first, _⟩
      · have few : iommuCalls more <+: [capPtr] := ((calls_visit seen capPtr) g₁).1 more first
        have := few.length_le
        rw [two] at this
        cases this
        contradiction
      · exact first.ends
  · rintro ⟨placed, es₁, seen₁, g₂, first⟩
    let second : List Event := [.load (capPtr + 1) 4, .getIommuRegs (nextBlock m.mem capPtr)]
    refine ⟨es₀ ++ (es₁ ++ second), space.emitted_bind.mpr (.inr ⟨es₁ ++ second, ?_, rfl⟩), ?_⟩
    · rw [if_neg placed]
      exact first.emitted_bind.mpr (.inr ⟨second, emitted_loop.mpr
        (.inl (visitRound_calls m ⟨capPtr, seen₁⟩ g₂)), rfl⟩)
    · have one : iommuCalls es₁ = [capPtr] := ((calls_visit _ _) g₁).2 _ _ _ first
      rw [split, split, silent, one]
      rfl

/-- One bus answers: its function has a single capability, at 0x40, that names
the base 0xfd000000. Mappings of that base are a megabyte apart. -/
def oneIommu : Machine where
  mem a :=
    if a = 0x10034 then 0x40 else if a = 0x10044 then 0x01 else if a = 0x10047 then 0xfd else 0
  ioremap n addr _ :=
    if addr = confAddr 0 0 2 then if n = 0 then 0x10000 else 0
    else if addr = 0xfd000000 ∧ n ≤ nVaddr then 0x1000000 + BitVec.ofNat 64 (0x100000 * n)
    else 0
  physToVirt := id

theorem oneIommu_wellFormed : WellFormed oneIommu.mem 0x10000 [0x40] :=
  ⟨.cons (by decide) (.nil), by decide, by decide⟩

theorem oneIommu_visited {n : Nat} (early : n = 1 ∨ n = 2) {g : Globals} (calls : g.idx = n)
    (seen : Seen) : (visit oneIommu seen 0x10040).Ends g := by
  have fit : RegsFit oneIommu (decoded oneIommu n 0x10040) := by
    rcases early with rfl | rfl
    · decide
    · decide
  rw [← calls] at fit
  exact fit.visit_ends seen

theorem oneIommu_scanned (seen : Seen) {g : Globals} (start : g.idx = 0) :
    (scanBus oneIommu seen 0).Ends g := by
  have mapped : oneIommu.mapped g.idx (confAddr 0 0 2) 4096 = 0x10000 := by
    rw [start]
    decide
  have block : firstBlock oneIommu g.idx 0 = 0x10040 := by
    rw [start]
    decide
  refine scanBus_ends_of_blocks (mapped.symm ▸ oneIommu_wellFormed.cells) ?_
  intro g₁ calls _
  rw [start] at calls
  rw [block]
  obtain ⟨es, seen₁, g₂, first⟩ := oneIommu_visited (.inl rfl) calls seen
  have calls' := visit_calls first
  rw [calls] at calls'
  have last : LastPointer oneIommu.mem 0x10040 := by decide
  exact first.ends_bind.mpr (visitLoop_ends last (oneIommu_visited (.inr rfl) calls' seen₁))

/-- Only the first walk follows the list. `get_cap_space` dumps the listed
blocks, each once and in order, and the start of the space after them. The
walk of `buster_ini` goes astray with its second block, which it reaches when
it has a first one and no dump of that hangs. -/
theorem walks_disagree {m : Machine} {g : Globals} {seen : Seen} {bus : U32} {confSpace : U64}
    {os : List U8} (mapped : m.mapped g.idx (confAddr bus 0 2) 4096 = confSpace)
    (nonnull : confSpace ≠ 0) (h : WellFormed m.mem confSpace os) :
    (∃ es capPtr g', (getCapSpace m bus 0 2).Returns g es capPtr g' ∧
      (ranges es).map Prod.fst = listed confSpace os ++ [confSpace]) ∧
    (∀ es seen' g', (scanBus m seen bus).Returns g es seen' g' →
      iommuCalls es ≠ listed confSpace os) ∧
    (∀ es, (scanBus m seen bus).Emitted g es → 2 ≤ (iommuCalls es).length →
      ¬ iommuCalls es <+: listed confSpace os) ∧
    let capPtr := confSpace + (firstCap m.mem confSpace).setWidth 64
    ((∃ es, (scanBus m seen bus).Emitted g es ∧ (iommuCalls es).length = 2) ↔
      capPtr ≠ 0 ∧ ∀ w ∈ visitRanges m seen (nextCall g.idx) capPtr, (m.call w).Fits) := by
  have astray := opening_not_listed h.cells
  obtain ⟨shown, finished⟩ := scanBus_opens seen mapped nonnull
  refine ⟨?_, ?_, ?_, scanBus_second mapped nonnull h.cells seen⟩
  · obtain ⟨es, g', run, dumped⟩ := getCapSpace_returns mapped nonnull h.cells
    refine ⟨es, _, g', run, ?_⟩
    rw [dumped, List.map_append, List.map_map]
    simp [capRange, listed]
  · intro es seen' g' run same
    rcases finished es seen' g' run with ⟨null, none⟩ | opening
    · obtain rfl : os = [] := by simpa [listed, none] using same.symm
      have first : firstCap m.mem confSpace = 0 := by
        have cells := h.cells
        generalize firstCap m.mem confSpace = o at cells
        cases cells
        rfl
      rw [first] at null
      exact nonnull (by simpa using null)
    · exact astray (same ▸ opening)
  · intro es emitted two pre
    rcases shown es emitted with short | opening
    · have all := short.eq_of_length_le (by simpa using two)
      exact astray (all ▸ pre)
    · exact astray (opening.trans pre)

theorem oneIommu_walks_disagree :
    (∃ es capPtr g', (getCapSpace oneIommu 0 0 2).Returns .initial es capPtr g' ∧
      (ranges es).map Prod.fst = listed 0x10000 [0x40] ++ [0x10000]) ∧
    (∀ es seen' g', (scanBus oneIommu .initial 0).Returns .initial es seen' g' →
      iommuCalls es ≠ listed 0x10000 [0x40]) ∧
    (∀ es, (scanBus oneIommu .initial 0).Emitted .initial es → 2 ≤ (iommuCalls es).length →
      ¬ iommuCalls es <+: listed 0x10000 [0x40]) ∧
    ∃ es, (scanBus oneIommu .initial 0).Emitted .initial es ∧ (iommuCalls es).length = 2 := by
  have mapped : oneIommu.mapped Globals.initial.idx (confAddr 0 0 2) 4096 = 0x10000 := by decide
  obtain ⟨logged, ended, going, second⟩ := walks_disagree mapped (by decide) oneIommu_wellFormed
  exact ⟨logged, ended, going, second.mpr (by decide)⟩

/-- The only block listed is visited twice. -/
theorem oneIommu_astray : WellFormed oneIommu.mem 0x10000 [0x40] ∧
    ∃ es seen' g', (scanBus oneIommu .initial 0).Returns .initial es seen' g' ∧
      [0x10040, 0x10040] <+: iommuCalls es ∧ iommuCalls es ≠ listed 0x10000 [0x40] := by
  obtain ⟨es, seen', g', run⟩ := oneIommu_scanned .initial (g := .initial) rfl
  have mapped : oneIommu.mapped Globals.initial.idx (confAddr 0 0 2) 4096 = 0x10000 := by decide
  have opening : [0x10040, 0x10040] <+: iommuCalls es := by
    rcases (scanBus_opens .initial mapped (by decide)).2 es seen' g' run with ⟨null, _⟩ | opening
    · exact absurd null (by decide)
    · exact opening
  refine ⟨oneIommu_wellFormed, es, seen', g', run, opening, ?_⟩
  intro same
  rw [same] at opening
  simpa [listed] using opening.length_le

end Buster
