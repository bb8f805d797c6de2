import Buster.Lib.RingBuffer
import Buster.Mapping

/-!
# The IOMMU's registers and rings

`get_iommu_regs` maps the register block that a capability names. `bust_open`
reads from it where the command buffer and the event log are and how far they
are used, and dumps a window of each.
-/

namespace Buster

open Imp.Prog

/-- `GET_MASK(start, end)`. -/
def getMask (first last : Nat) : U64 :=
  (BitVec.allOnes 64 <<< first) &&& (BitVec.allOnes 64 >>> (64 - last - 1))

def mmioLine (mmioBase baseAddr : U64) : Text :=
  "IOMMU VA: 0x".toList ++ (hexPad 16 mmioBase ++
    (" <- 0x".toList ++ (hexPad 16 baseAddr ++ ['\n'])))

def regLine (name : Text) (value : U64) : Text :=
  name ++ (": 0x".toList ++ (hexPad 16 value ++ ['\n']))

def tableLine (name : Text) (va pa : U64) : Text :=
  name ++ (": 0x".toList ++ (hexPad 16 va ++ (" <- 0x".toList ++ (hexPad 16 pa ++ ['\n']))))

variable (m : Machine)

def getIommuRegs (capPtr : U64) : Kernel U64 := do
  emit (.getIommuRegs capPtr)
  let baseAddrLow ← load32 m (capPtr + 4)
  let baseAddrHigh ← load32 m (capPtr + 8)
  let baseAddr := baseAddrLow.setWidth 64 ||| (baseAddrHigh.setWidth 64 <<< 32)
  let enable := baseAddrLow &&& 0x1
  let baseAddr := baseAddr ^^^ 0x1
  if enable = 0 then
    printk (busterInfo ++ "IOMMU area is disabled\n".toList)
    return 0
  else if baseAddr = 0 then
    return 0
  else
    let mmioBase ← getMapping m baseAddr (512 * 1024)
    printk (busterInfo ++ mmioLine mmioBase baseAddr)
    if mmioBase = 0 then
      printk (busterInfo ++ "IOMMU VA: NULL\n".toList)
      return 0
    else
      logRange m mmioBase (mmioBase + 4 * 4096) "IOMMU BASE".toList
      return mmioBase

/-- The register base of a capability block, as `get_iommu_regs` decodes it. -/
def baseAddr (mem : Mem) (capPtr : U64) : U64 :=
  ((mem.load32 (capPtr + 4)).setWidth 64 ||| ((mem.load32 (capPtr + 8)).setWidth 64 <<< 32)) ^^^ 0x1

/-- One ring: its names in the log, the offsets of its registers, and what the
code keeps of the base register. -/
structure RingKind where
  regName : Text
  tableName : Text
  msg : Text
  baseOff : U64
  tailOff : U64
  headOff : U64
  baseMask : U64

def comTbl : RingKind where
  regName := "comBaseReg".toList
  tableName := "comTblBase_v".toList
  msg := "COM TBL".toList
  baseOff := 8 * 1
  tailOff := 8 * (0x2008 / 8)
  headOff := 8 * (0x2000 / 8)
  baseMask := getMask 12 51

/-- The mask of the event log leaves out bit 51 and keeps the low bits. -/
def eventLog : RingKind where
  regName := "eventLogBaseReg".toList
  tableName := "eventLogBase_v".toList
  msg := "EVNT LOG".toList
  baseOff := 8 * 2
  tailOff := 8 * (0x2018 / 8)
  headOff := 8 * (0x2010 / 8)
  baseMask := (1 <<< 51) - 1

/-- What is read and printed of one ring before its dump. The table sizes
worked out there are not used. -/
def ringRange (k : RingKind) (mmioRegs : U64) : Kernel (U64 × U64) := do
  let baseReg ← load64 m (mmioRegs + k.baseOff)
  let tblBase := baseReg &&& k.baseMask
  printk (busterInfo ++ regLine k.regName baseReg)
  let tblBaseV := m.physToVirt tblBase
  printk (busterInfo ++ tableLine k.tableName tblBaseV tblBase)
  let tailReg ← load64 m (mmioRegs + k.tailOff)
  let tailPtr := tailReg &&& getMask 4 18
  let headReg ← load64 m (mmioRegs + k.headOff)
  let headPtr := headReg &&& getMask 4 18
  return (tblBaseV + headPtr - 16 * 256, tblBaseV + tailPtr)

def dumpRing (k : RingKind) (mmioRegs : U64) : Kernel Unit := do
  let (start, limit) ← ringRange m k mmioRegs
  logRange m start limit k.msg

/-- The second argument is never read. -/
def bustOpen (mmioRegs : U64) : Kernel Unit := do
  emit (.bustOpen mmioRegs)
  if mmioRegs = 0 then
    return ()
  else
    dumpRing m comTbl mmioRegs
    dumpRing m eventLog mmioRegs

/-! ## The rings that the registers describe -/

theorem toNat_and_getMask (x : U64) {a b : Nat} (h : b < 64) :
    (x &&& getMask a b).toNat = x.toNat % 2 ^ (b + 1) / 2 ^ a * 2 ^ a := by
  rw [← Nat.shiftRight_eq_div_pow, ← Nat.shiftLeft_eq]
  apply Nat.eq_of_testBit_eq
  intro i
  simp only [BitVec.testBit_toNat, getMask, BitVec.getLsbD_and, BitVec.getLsbD_shiftLeft,
    BitVec.getLsbD_ushiftRight, BitVec.getLsbD_allOnes, Nat.testBit_shiftLeft,
    Nat.testBit_shiftRight, Nat.testBit_mod_two_pow]
  by_cases low : a ≤ i
  · rw [show a + (i - a) = i by omega]
    by_cases high : i ≤ b
    · simp [low, show i < 64 by omega, show ¬ i < a by omega, show i < b + 1 by omega,
        show 64 - b - 1 + i < 64 by omega, show i - a < 64 by omega]
    · simp [show ¬ i < b + 1 by omega, show ¬ 64 - b - 1 + i < 64 by omega]
  · simp [low, show i < a by omega]

namespace RingKind

variable (k : RingKind) (m : Machine) (mmio : U64)

def baseReg : U64 := m.mem.load64 (mmio + k.baseOff)

def tailPtr : U64 := m.mem.load64 (mmio + k.tailOff) &&& getMask 4 18

def headPtr : U64 := m.mem.load64 (mmio + k.headOff) &&& getMask 4 18

/-- Bits 59:56 of the base register: the ring has two to that power slots of 16 bytes. -/
def lenCode : Nat := (k.baseReg m mmio).toNat % 2 ^ 60 / 2 ^ 56

/-- What the hardware documents of the registers. -/
structure Valid : Prop where
  length : 8 ≤ k.lenCode m mmio
  head : (k.headPtr m mmio).toNat < 16 * 2 ^ k.lenCode m mmio
  tail : (k.tailPtr m mmio).toNat < 16 * 2 ^ k.lenCode m mmio

variable {k m mmio}

/-- The ring as `phys_to_virt` makes it visible; its base is bits 51:12 of the register. -/
def Valid.ring (v : k.Valid m mmio) : RingBuffer where
  base := (m.physToVirt (k.baseReg m mmio &&& getMask 12 51)).toNat
  width := 16
  slots := 2 ^ k.lenCode m mmio
  head := (k.headPtr m mmio).toNat / 16
  tail := (k.tailPtr m mmio).toNat / 16
  head_lt := Nat.div_lt_of_lt_mul v.head
  tail_lt := Nat.div_lt_of_lt_mul v.tail

variable (k m mmio)

/-- What the code makes of the base register. -/
def tblBaseV : U64 := m.physToVirt (k.baseReg m mmio &&& k.baseMask)

/-- The arguments of the `log_range` call for the ring. -/
def window : U64 × U64 × Text :=
  (k.tblBaseV m mmio + k.headPtr m mmio - 16 * 256, k.tblBaseV m mmio + k.tailPtr m mmio, k.msg)

/-- The low 12 bits of the base register, which are no part of the address. -/
def lowBits : Nat := (k.baseReg m mmio).toNat % 4096

variable {k m mmio}

/-- The window that the code dumps shows the ring. -/
def Shown (v : k.Valid m mmio) : Prop :=
  v.ring.Shows (k.window m mmio).1.toNat (k.window m mmio).2.1.toNat

theorem Valid.slots_bounds (v : k.Valid m mmio) : 256 ≤ v.ring.slots ∧ v.ring.slots ≤ 2 ^ 15 := by
  have short : k.lenCode m mmio ≤ 15 := by
    unfold lenCode
    omega
  have two : 0 < 2 := by decide
  exact ⟨Nat.pow_le_pow_right two v.length, Nat.pow_le_pow_right two short⟩

theorem Valid.head_aligned (v : k.Valid m mmio) :
    (k.headPtr m mmio).toNat = 16 * v.ring.head := by
  change _ = 16 * ((k.headPtr m mmio).toNat / 16)
  rw [headPtr, toNat_and_getMask _ (by decide)]
  omega

theorem Valid.tail_aligned (v : k.Valid m mmio) :
    (k.tailPtr m mmio).toNat = 16 * v.ring.tail := by
  change _ = 16 * ((k.tailPtr m mmio).toNat / 16)
  rw [tailPtr, toNat_and_getMask _ (by decide)]
  omega

end RingKind

/-! ## The dumps of `bust_open` -/

variable {m}

theorem ringRange_returns (k : RingKind) (mmio : U64) (g : Globals) :
    ∃ es g', (ringRange m k mmio).Returns g es
      ((k.window m mmio).1, (k.window m mmio).2.1) g' ∧ ranges es = [] := by
  refine ⟨[.load (mmio + k.baseOff) 8] ++
    ([.printk (busterInfo ++ regLine k.regName (k.baseReg m mmio))] ++
      ([.printk (busterInfo ++ tableLine k.tableName (k.tblBaseV m mmio)
        (k.baseReg m mmio &&& k.baseMask))] ++
        ([.load (mmio + k.tailOff) 8] ++ ([.load (mmio + k.headOff) 8] ++ [])))), g, ?_, rfl⟩
  unfold ringRange
  refine (load64_returns m _ g).bind ?_
  refine (printk_returns _ g).bind ?_
  refine (printk_returns _ g).bind ?_
  exact (load64_returns m _ g).bind ((load64_returns m _ g).bind (pure_returns _ g))

theorem confined_dumpRing {inv : Globals → Prop}
    (keeps : ∀ g, inv g → inv { g with logId := g.logId + 1 }) (k : RingKind) (mmio : U64) :
    (dumpRing m k mmio).Confined inv Event.Log := by
  have loads (a : U64) : (load64 m a).Confined inv Event.Log :=
    (confined_load64 a).weaken fun _ => Event.Qwords.log
  have range : (ringRange m k mmio).Confined inv Event.Log :=
    (loads _).bind fun _ => (confined_emit trivial).bind fun _ => (confined_emit trivial).bind
      fun _ => (loads _).bind fun _ => (loads _).bind fun _ => confined_pure _
  exact range.bind fun _ => confined_logRange keeps _ _ _

/-- After saying that it was called, `bust_open` does no more than dump. -/
theorem bustOpen_split (mmio : U64) : ∃ rest : Kernel Unit,
    bustOpen m mmio = (emit (.bustOpen mmio) >>= fun _ => rest) ∧
      ∀ inv : Globals → Prop, (∀ g, inv g → inv { g with logId := g.logId + 1 }) →
        rest.Confined inv Event.Log := by
  refine ⟨_, rfl, ?_⟩
  intro inv keeps
  split
  · exact confined_pure _
  · exact (confined_dumpRing keeps comTbl mmio).bind fun _ => confined_dumpRing keeps eventLog mmio

/-- After saying that it was called and reading the two double words of the
base, `get_iommu_regs` maps and dumps. -/
theorem getIommuRegs_split (capPtr : U64) : ∃ rest : U32 → U32 → Kernel U64,
    getIommuRegs m capPtr = (emit (.getIommuRegs capPtr) >>= fun _ =>
        load32 m (capPtr + 4) >>= fun low => load32 m (capPtr + 8) >>= fun high => rest low high) ∧
      ∀ low high, (rest low high).Confined (fun _ => True) fun e => e.Maps ∨ e.Log := by
  refine ⟨_, rfl, ?_⟩
  intro low high
  have prints (line : Text) : (printk line).Confined (fun _ => True) fun e => e.Maps ∨ e.Log :=
    confined_emit (.inr trivial)
  dsimp only
  split
  · exact (prints _).bind fun _ => confined_pure _
  split
  · exact confined_pure _
  apply ((confined_getMapping m _ _).weaken fun _ => Or.inl).bind
  intro mmioBase
  apply (prints _).bind
  intro _
  split
  · exact (prints _).bind fun _ => confined_pure _
  · exact ((confined_logRange (fun _ _ => trivial) _ _ _).weaken fun _ => Or.inr).bind fun _ =>
      confined_pure _

theorem dumps_dumpRing (k : RingKind) (mmio : U64) :
    Dumps (dumpRing m k mmio) [k.window m mmio] :=
  Traces.after (ringRange_returns k mmio) (dumps_logRange _ _ _)

/-- A mapped IOMMU has two ranges dumped. -/
theorem dumps_bustOpen {mmio : U64} (nonnull : mmio ≠ 0) :
    Dumps (bustOpen m mmio) [comTbl.window m mmio, eventLog.window m mmio] := by
  unfold bustOpen
  refine Traces.after (fun g => ⟨_, g, emit_returns _ g, rfl⟩) ?_
  rw [if_neg nonnull]
  exact Traces.bind (dumps_dumpRing comTbl mmio) fun _ => dumps_dumpRing eventLog mmio

/-! ## Which windows show their ring -/

/-- The window of 256 entries before the head up to the tail, `d` bytes away
from where the ring is. -/
theorem window_shows_iff (r : RingBuffer) (b d h t : U64) (base : r.base = b.toNat)
    (width : r.width = 16) (few : 256 ≤ r.slots) (many : r.slots ≤ 2 ^ 15)
    (head : h.toNat = 16 * r.head) (tail : t.toNat = 16 * r.tail)
    (near : d.toNat < 4096 ∨ (2 ^ 20 ≤ d.toNat ∧ d.toNat < 2 ^ 64 - 2 ^ 20)) :
    r.Shows (b + d + h - 16 * 256).toNat (b + d + t).toNat ↔
      d.toNat < 4096 ∧ 4096 ≤ d.toNat + h.toNat ∧ h.toNat ≤ t.toNat ∧
        d.toNat + t.toNat ≤ 16 * r.slots ∧ b.toNat + d.toNat + t.toNat < 2 ^ 64 := by
  have := r.head_lt
  have := r.tail_lt
  have := b.isLt
  have before : (16 * 256 : U64).toNat = 4096 := rfl
  have limit : r.limit = b.toNat + 16 * r.slots := by
    rw [RingBuffer.limit, RingBuffer.addr, base, width]
  have hi : (b + d + t).toNat = (b.toNat + d.toNat + t.toNat) % 2 ^ 64 := by
    rw [BitVec.toNat_add, BitVec.toNat_add]
    omega
  have lo : (b + d + h - 16 * 256).toNat =
      (2 ^ 64 - 4096 + b.toNat + d.toNat + h.toNat) % 2 ^ 64 := by
    rw [BitVec.toNat_sub, BitVec.toNat_add, BitVec.toNat_add, before]
    omega
  constructor
  · intro shows
    obtain ⟨above, order, below⟩ := shows.inside
    rw [base, lo] at above
    rw [lo, hi] at order
    rw [hi, limit] at below
    by_cases wrapped : r.tail < r.head
    · obtain ⟨atLimit, atBase⟩ := shows.wrapped wrapped
      rw [hi, limit] at atLimit
      rw [lo, base] at atBase
      omega
    · omega
  · rintro ⟨small, enough, order, fits, room⟩
    have low : (b + d + h - 16 * 256).toNat = b.toNat + (d.toNat + h.toNat - 4096) := by omega
    have high : (b + d + t).toNat = b.toNat + d.toNat + t.toNat := by omega
    rw [low, high]
    apply RingBuffer.shows_of_le (by omega)
    · rw [limit, base]
      omega
    · rw [RingBuffer.addr, base, width]
      omega
    · rw [RingBuffer.addr, base, width]
      omega

/-- The mask of the event log against bits 51:12 of the register. -/
theorem eventLog_mask (x : U64) : x &&& eventLog.baseMask =
    (x &&& getMask 12 51) + ((x &&& getMask 0 11) - (x &&& getMask 51 51)) := by
  have mask : eventLog.baseMask = getMask 0 50 := by decide
  have e₀ := toNat_and_getMask x (a := 0) (b := 50) (by decide)
  have e₁ := toNat_and_getMask x (a := 12) (b := 51) (by decide)
  have e₂ := toNat_and_getMask x (a := 0) (b := 11) (by decide)
  have e₃ := toNat_and_getMask x (a := 51) (b := 51) (by decide)
  rw [mask]
  apply BitVec.eq_of_toNat_eq
  rw [BitVec.toNat_add, BitVec.toNat_sub, e₀, e₁, e₂, e₃]
  omega

theorem comTbl_shown_iff {mmio : U64} (v : comTbl.Valid m mmio) :
    RingKind.Shown v ↔ 4096 ≤ (comTbl.headPtr m mmio).toNat ∧
      (comTbl.headPtr m mmio).toNat ≤ (comTbl.tailPtr m mmio).toNat ∧
      v.ring.base + (comTbl.tailPtr m mmio).toNat < 2 ^ 64 := by
  obtain ⟨few, many⟩ := v.slots_bounds
  have fits := v.tail
  have shows := window_shows_iff v.ring (comTbl.tblBaseV m mmio) 0 (comTbl.headPtr m mmio)
    (comTbl.tailPtr m mmio) rfl rfl few many v.head_aligned v.tail_aligned (.inl (by decide))
  have here : comTbl.tblBaseV m mmio + 0 = comTbl.tblBaseV m mmio := by simp
  have base : v.ring.base = (comTbl.tblBaseV m mmio).toNat := rfl
  have slots : v.ring.slots = 2 ^ comTbl.lenCode m mmio := rfl
  have zero : (0 : U64).toNat = 0 := rfl
  rw [here, zero] at shows
  rw [RingKind.Shown, RingKind.window, shows, base, slots]
  omega

theorem eventLog_shown_iff {mmio off : U64} (linear : ∀ p, m.physToVirt p = p + off)
    (v : eventLog.Valid m mmio) :
    RingKind.Shown v ↔ (eventLog.baseReg m mmio).getLsbD 51 = false ∧
      4096 ≤ eventLog.lowBits m mmio + (eventLog.headPtr m mmio).toNat ∧
      (eventLog.headPtr m mmio).toNat ≤ (eventLog.tailPtr m mmio).toNat ∧
      eventLog.lowBits m mmio + (eventLog.tailPtr m mmio).toNat ≤ 16 * v.ring.slots ∧
      v.ring.base + eventLog.lowBits m mmio + (eventLog.tailPtr m mmio).toNat < 2 ^ 64 := by
  obtain ⟨few, many⟩ := v.slots_bounds
  let x := eventLog.baseReg m mmio
  let b := m.physToVirt (x &&& getMask 12 51)
  let d := (x &&& getMask 0 11) - (x &&& getMask 51 51)
  have away : eventLog.tblBaseV m mmio = b + d := by
    change m.physToVirt (x &&& eventLog.baseMask) = m.physToVirt (x &&& getMask 12 51) + d
    rw [linear, linear, eventLog_mask, BitVec.add_assoc, BitVec.add_assoc, BitVec.add_comm off]
  have low : (x &&& getMask 0 11).toNat = eventLog.lowBits m mmio := by
    rw [toNat_and_getMask x (by decide)]
    change _ = x.toNat % 4096
    omega
  have high : (x &&& getMask 51 51).toNat = if x.getLsbD 51 then 2 ^ 51 else 0 := by
    rw [toNat_and_getMask x (by decide), ← BitVec.testBit_toNat, Nat.testBit_eq_decide_div_mod_eq]
    simp only [decide_eq_true_eq]
    split <;> omega
  have bound : eventLog.lowBits m mmio < 4096 := Nat.mod_lt _ (by decide)
  have dist : d.toNat = if x.getLsbD 51 then 2 ^ 64 - 2 ^ 51 + eventLog.lowBits m mmio
      else eventLog.lowBits m mmio := by
    rw [BitVec.toNat_sub, low, high]
    split <;> omega
  have shows := window_shows_iff v.ring b d (eventLog.headPtr m mmio) (eventLog.tailPtr m mmio)
    rfl rfl few many v.head_aligned v.tail_aligned (by rw [dist]; split <;> omega)
  have base : v.ring.base = b.toNat := rfl
  rw [RingKind.Shown, RingKind.window, away, shows, base, dist]
  cases bit : x.getLsbD 51 with
  | false =>
    simp only [Bool.false_eq_true, ↓reduceIte, true_and]
    omega
  | true =>
    simp only [↓reduceIte, Bool.true_eq_false, false_and, iff_false]
    omega

theorem logRange_called (m : Machine) (start limit : U64) (msg : Text) (g : Globals) :
    (logRange m start limit msg).Emitted g [.logRange start limit msg] :=
  (emit_returns _ g).emitted_bind.mpr (.inl List.prefix_rfl)

/-- Whatever happens later, the call for the command buffer is made. -/
theorem comTbl_dumped {mmio : U64} (nonnull : mmio ≠ 0) (g : Globals) :
    ∃ es, (bustOpen m mmio).Emitted g es ∧ ranges es = [comTbl.window m mmio] := by
  obtain ⟨es, g', before, none⟩ := ringRange_returns (m := m) comTbl mmio g
  have called := logRange_called m (comTbl.window m mmio).1 (comTbl.window m mmio).2.1 comTbl.msg g'
  refine ⟨[.bustOpen mmio] ++ (es ++ [.logRange (comTbl.window m mmio).1
    (comTbl.window m mmio).2.1 comTbl.msg]), ?_, ?_⟩
  · unfold bustOpen
    refine (emit_returns _ g).emitted_bind.mpr (.inr ⟨_, ?_, rfl⟩)
    rw [if_neg nonnull]
    refine emitted_bind.mpr (.inl ?_)
    exact before.emitted_bind.mpr (.inr ⟨_, called, rfl⟩)
  · rw [ranges, List.filterMap_append, List.filterMap_append, ← ranges, ← ranges, none]
    rfl

/-- The windows that `bust_open` dumps. That of the command buffer shows its
ring when the head is a page or more into it and the tail has not wrapped. That
of the event log is shifted by the low bits of the base register as well, and
is elsewhere when bit 51 of the base is set. -/
theorem bustOpen_shows_iff {mmio off : U64} (nonnull : mmio ≠ 0)
    (linear : ∀ p, m.physToVirt p = p + off) (com : comTbl.Valid m mmio)
    (event : eventLog.Valid m mmio) :
    Dumps (bustOpen m mmio) [comTbl.window m mmio, eventLog.window m mmio] ∧
      (∀ g, ∃ es, (bustOpen m mmio).Emitted g es ∧ ranges es = [comTbl.window m mmio]) ∧
      (RingKind.Shown com ↔ 4096 ≤ (comTbl.headPtr m mmio).toNat ∧
        (comTbl.headPtr m mmio).toNat ≤ (comTbl.tailPtr m mmio).toNat ∧
        com.ring.base + (comTbl.tailPtr m mmio).toNat < 2 ^ 64) ∧
      (RingKind.Shown event ↔ (eventLog.baseReg m mmio).getLsbD 51 = false ∧
        4096 ≤ eventLog.lowBits m mmio + (eventLog.headPtr m mmio).toNat ∧
        (eventLog.headPtr m mmio).toNat ≤ (eventLog.tailPtr m mmio).toNat ∧
        eventLog.lowBits m mmio + (eventLog.tailPtr m mmio).toNat ≤ 16 * event.ring.slots ∧
        event.ring.base + eventLog.lowBits m mmio + (eventLog.tailPtr m mmio).toNat < 2 ^ 64) :=
  ⟨dumps_bustOpen nonnull, comTbl_dumped nonnull, comTbl_shown_iff com,
    eventLog_shown_iff linear event⟩

/-- Registers at 0x10000: the command buffer has 8 KiB at physical address 0, and
two commands are pending from its second page on; the event log has 4 KiB. -/
def pagePending : Machine where
  mem a :=
    if a = 0x1000f then 0x09 else if a = 0x10017 then 0x08
    else if a = 0x12001 ∨ a = 0x12009 then 0x10 else if a = 0x12008 then 0x20 else 0
  ioremap _ _ _ := 0
  physToVirt p := p + 0xffff888000000000

theorem pagePending_valid :
    comTbl.Valid pagePending 0x10000 ∧ eventLog.Valid pagePending 0x10000 :=
  ⟨⟨by decide, by decide, by decide⟩, ⟨by decide, by decide, by decide⟩⟩

theorem pagePending_shows_iff :
    Dumps (bustOpen pagePending 0x10000)
        [comTbl.window pagePending 0x10000, eventLog.window pagePending 0x10000] ∧
      RingKind.Shown pagePending_valid.1 ∧ ¬ RingKind.Shown pagePending_valid.2 := by
  obtain ⟨dumped, _, com, event⟩ := bustOpen_shows_iff (by decide) (fun _ => rfl)
    pagePending_valid.1 pagePending_valid.2
  rw [com, event]
  exact ⟨dumped, by decide, by decide⟩

/-- Registers at 0x10000: both rings have 4 KiB at physical address 0, and two
commands are pending from slot 0 on. -/
def twoPending : Machine where
  mem a := if a = 0x1000f ∨ a = 0x10017 then 0x08 else if a = 0x12008 then 0x20 else 0
  ioremap _ _ _ := 0
  physToVirt p := p + 0xffff888000000000

theorem twoPending_valid : comTbl.Valid twoPending 0x10000 ∧ eventLog.Valid twoPending 0x10000 :=
  ⟨⟨by decide, by decide, by decide⟩, ⟨by decide, by decide, by decide⟩⟩

/-- The window starts a page before the ring. -/
theorem twoPending_not_shown :
    ∃ v : comTbl.Valid twoPending 0x10000, ¬ RingKind.Shown v := by
  refine ⟨twoPending_valid.1, ?_⟩
  rw [comTbl_shown_iff]
  decide

/-! ## The two rings side by side -/

/-- Bits 51:12 of a base register, left in place. -/
def baseField (b : U64) : U64 := (b.extractLsb' 12 40).setWidth 64 <<< 12

theorem baseField_eq (b : U64) : baseField b = b &&& getMask 12 51 := by
  apply BitVec.eq_of_toNat_eq
  rw [toNat_and_getMask b (by decide), baseField, BitVec.toNat_shiftLeft, BitVec.toNat_setWidth,
    BitVec.extractLsb'_toNat, Nat.shiftRight_eq_div_pow, Nat.shiftLeft_eq]
  omega

/-- The registers of a ring hold these values. -/
structure RingKind.Holds (k : RingKind) (m : Machine) (mmio b h t : U64) : Prop where
  base : k.baseReg m mmio = b
  head : m.mem.load64 (mmio + k.headOff) = h
  tail : m.mem.load64 (mmio + k.tailOff) = t

def SameWindow (m : Machine) (mmio : U64) : Prop :=
  (comTbl.window m mmio).1 = (eventLog.window m mmio).1 ∧
    (comTbl.window m mmio).2.1 = (eventLog.window m mmio).2.1

instance (m : Machine) (mmio : U64) : Decidable (SameWindow m mmio) :=
  inferInstanceAs (Decidable (_ ∧ _))

/-- Of a base register, the code takes the address field for both rings. -/
def SameBase (m : Machine) (mmio b : U64) : Prop :=
  comTbl.baseReg m mmio &&& comTbl.baseMask = baseField b ∧
    eventLog.baseReg m mmio &&& eventLog.baseMask = baseField b

section rings
variable {m : Machine} {mmio b h t : U64}

theorem RingKind.Holds.window {k : RingKind} (regs : k.Holds m mmio b h t) :
    (k.window m mmio).1 = m.physToVirt (b &&& k.baseMask) + (h &&& getMask 4 18) - 16 * 256 ∧
      (k.window m mmio).2.1 = m.physToVirt (b &&& k.baseMask) + (t &&& getMask 4 18) := by
  rw [← regs.base, ← regs.head, ← regs.tail]
  exact ⟨rfl, rfl⟩

/-- The event log keeps bits 50:0, which are the address field when the bits
below it and its highest bit are clear. -/
theorem eventLog_field_iff (b : U64) :
    b &&& eventLog.baseMask = baseField b ↔ b.toNat % 4096 = 0 ∧ b.getLsbD 51 = false := by
  have mask : eventLog.baseMask = getMask 0 50 := by decide
  have kept := toNat_and_getMask b (a := 0) (b := 50) (by decide)
  have field := toNat_and_getMask b (a := 12) (b := 51) (by decide)
  have bit : b.getLsbD 51 = false ↔ b.toNat / 2 ^ 51 % 2 = 0 := by
    rw [← BitVec.testBit_toNat, Nat.testBit_eq_decide_div_mod_eq]
    simp
  rw [mask, baseField_eq, bit, ← BitVec.toNat_inj, kept, field]
  omega

theorem sameBase_iff (com : comTbl.Holds m mmio b h t) (event : eventLog.Holds m mmio b h t) :
    SameBase m mmio b ↔ b.toNat % 4096 = 0 ∧ b.getLsbD 51 = false := by
  unfold SameBase
  rw [com.base, event.base, eventLog_field_iff]
  exact and_iff_right (baseField_eq b).symm

theorem sameWindow_iff (com : comTbl.Holds m mmio b h t) (event : eventLog.Holds m mmio b h t) :
    SameWindow m mmio ↔
      m.physToVirt (baseField b) = m.physToVirt (b &&& eventLog.baseMask) := by
  unfold SameWindow
  rw [com.window.1, com.window.2, event.window.1, event.window.2, baseField_eq]
  change m.physToVirt (b &&& getMask 12 51) + _ - _ = _ ∧ m.physToVirt (b &&& getMask 12 51) + _ =
    _ ↔ _
  constructor
  · rintro ⟨_, limit⟩
    exact (BitVec.add_left_inj _).mp limit
  · intro same
    rw [same]
    exact ⟨rfl, rfl⟩

/-- Given the same registers, the two rings are taken for the same when the base
register has nothing below its address field and bit 51 clear. -/
theorem rings_alike_iff (nonnull : mmio ≠ 0) (com : comTbl.Holds m mmio b h t)
    (event : eventLog.Holds m mmio b h t) :
    Dumps (bustOpen m mmio) [comTbl.window m mmio, eventLog.window m mmio] ∧
      (SameWindow m mmio ∧ SameBase m mmio b ↔ b.toNat % 4096 = 0 ∧ b.getLsbD 51 = false) ∧
      (Function.Injective m.physToVirt →
        (SameWindow m mmio ↔ b.toNat % 4096 = 0 ∧ b.getLsbD 51 = false)) := by
  refine ⟨dumps_bustOpen nonnull, ?_, ?_⟩
  · rw [sameBase_iff com event, sameWindow_iff com event, ← eventLog_field_iff]
    exact and_iff_right_of_imp fun same => congrArg m.physToVirt same.symm
  · intro injective
    rw [sameWindow_iff com event, ← eventLog_field_iff]
    exact ⟨fun same => (injective same).symm, fun same => congrArg m.physToVirt same.symm⟩

end rings

/-- Both rings of 4 KiB are at the physical address 2^51. -/
def highBase : Machine where
  mem a := if a = 0x1000f ∨ a = 0x10017 ∨ a = 0x1000e ∨ a = 0x10016 then 0x08 else 0
  ioremap _ _ _ := 0
  physToVirt p := p + 0xffff888000000000

theorem highBase_holds : comTbl.Holds highBase 0x10000 0x0808000000000000 0 0 ∧
    eventLog.Holds highBase 0x10000 0x0808000000000000 0 0 :=
  ⟨⟨by decide, by decide, by decide⟩, ⟨by decide, by decide, by decide⟩⟩

theorem highBase_alike_iff :
    Dumps (bustOpen highBase 0x10000)
        [comTbl.window highBase 0x10000, eventLog.window highBase 0x10000] ∧
      ¬ (SameWindow highBase 0x10000 ∧ SameBase highBase 0x10000 0x0808000000000000) ∧
      ¬ SameWindow highBase 0x10000 := by
  obtain ⟨dumped, alike, windows⟩ := rings_alike_iff (by decide) highBase_holds.1 highBase_holds.2
  have injective : Function.Injective highBase.physToVirt := fun _ _ same =>
    (BitVec.add_left_inj _).mp same
  rw [alike, windows injective]
  exact ⟨dumped, by decide, by decide⟩

/-- The event log is looked for at the physical address 0. -/
theorem highBase_differs : comTbl.Holds highBase 0x10000 0x0808000000000000 0 0 ∧
    eventLog.Holds highBase 0x10000 0x0808000000000000 0 0 ∧ ¬ SameWindow highBase 0x10000 :=
  ⟨highBase_holds.1, highBase_holds.2, by decide⟩

end Buster
