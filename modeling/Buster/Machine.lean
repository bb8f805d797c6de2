import Mathlib.Data.List.Basic
import Buster.Lib.Trace
import Buster.Lib.Hex

/-!
# The machine the module runs on

Memory holds its content for the whole run. `ioremap` and `phys_to_virt`
belong to the kernel and are parameters. A run is seen through its events: the
loads, the lines printed, the mappings made and removed, the writes into the two
fixed tables, and the calls whose order matters.
-/

namespace Buster

abbrev U8 := BitVec 8
abbrev U32 := BitVec 32
abbrev U64 := BitVec 64

abbrev Text := List Char

abbrev Mem := U64 → U8

/-- Loads are little-endian and need no alignment. -/
def Mem.load32 (mem : Mem) (a : U64) : U32 :=
  (mem (a + 3) ++ mem (a + 2) ++ mem (a + 1) ++ mem a : BitVec (8 + 8 + 8 + 8))

def Mem.load64 (mem : Mem) (a : U64) : U64 :=
  (mem.load32 (a + 4) ++ mem.load32 a : BitVec (32 + 32))

structure Machine where
  mem : Mem
  /-- What the call answers, by its number in the run, address and size. -/
  ioremap : Nat → U64 → Nat → U64
  physToVirt : U64 → U64

def nVaddr : Nat := 50

/-- The module's global variables. -/
structure Globals where
  vaddrs : Vector U64 nVaddr
  idx : Nat
  logId : U64
  deriving DecidableEq

def Globals.initial : Globals := ⟨Vector.replicate nVaddr 0, 0, 0⟩

inductive Event where
  | load (addr : U64) (bytes : Nat)
  | printk (line : Text)
  | ioremap (addr : U64) (size : Nat) (va : U64)
  | iounmap (va : U64)
  | storeVaddr (index : Nat)
  | storeSeen (index : Nat)
  | logRange (start limit : U64) (msg : Text)
  | getIommuRegs (capPtr : U64)
  | bustOpen (mmio : U64)
  deriving DecidableEq

abbrev Kernel := Imp.Prog Event Globals

open Imp.Prog (get modify emit)

def load32 (m : Machine) (a : U64) : Kernel U32 := do
  emit (.load a 4)
  return m.mem.load32 a

def load64 (m : Machine) (a : U64) : Kernel U64 := do
  emit (.load a 8)
  return m.mem.load64 a

def printk (line : Text) : Kernel Unit := emit (.printk line)

/-- The tag `BUSTER_INFO` puts before every line. -/
def busterInfo : Text := "[buster] ".toList

/-- `snprintf` keeps one byte of `n` for the terminating NUL. -/
def snprintf (n : Nat) (text : Text) : Text := text.take (n - 1)

/-- What `%s` prints of a string: everything before its NUL. -/
def cstr (s : Text) : Text := s.takeWhile (· ≠ '\x00')

/-- What `%0<w>llx` prints. -/
def hexPad (w : Nat) {n : Nat} (x : BitVec n) : Text := Hex.padded w x.toNat

/-- What `%llx` prints. -/
def hex {n : Nat} (x : BitVec n) : Text := Hex.digits x.toNat

/-! ## Reading a run -/

def lines (es : List Event) : List Text :=
  es.filterMap fun | .printk line => some line | _ => none

@[simp] theorem lines_nil : lines [] = [] := rfl

@[simp] theorem lines_append (es fs : List Event) : lines (es ++ fs) = lines es ++ lines fs :=
  List.filterMap_append

@[simp] theorem lines_printk (line : Text) (es : List Event) :
    lines (.printk line :: es) = line :: lines es := rfl

@[simp] theorem lines_load (a : U64) (n : Nat) (es : List Event) :
    lines (.load a n :: es) = lines es := rfl

@[simp] theorem lines_logRange (a b : U64) (msg : Text) (es : List Event) :
    lines (.logRange a b msg :: es) = lines es := rfl

theorem lines_eq_nil {es : List Event} : lines es = [] ↔ ∀ e ∈ es, lines [e] = [] := by
  induction es with
  | nil => simp
  | cons e es ih => simpa [← ih] using lines_append [e] es ▸ List.append_eq_nil_iff

section returns
open Imp.Prog

variable {g g' : Globals} {es : List Event}

@[simp] theorem returns_load32 {m : Machine} {a : U64} {v : U32} :
    (load32 m a).Returns g es v g' ↔ es = [.load a 4] ∧ v = m.mem.load32 a ∧ g' = g := by
  simp only [load32, returns_bind, returns_emit, returns_pure]
  grind

@[simp] theorem returns_load64 {m : Machine} {a v : U64} :
    (load64 m a).Returns g es v g' ↔ es = [.load a 8] ∧ v = m.mem.load64 a ∧ g' = g := by
  simp only [load64, returns_bind, returns_emit, returns_pure]
  grind

@[simp] theorem returns_printk {line : Text} {u : Unit} :
    (printk line).Returns g es u g' ↔ es = [.printk line] ∧ g' = g := by
  simp [printk]

theorem load64_returns (m : Machine) (a : U64) (g : Globals) :
    (load64 m a).Returns g [.load a 8] (m.mem.load64 a) g :=
  (emit_returns _ g).bind (pure_returns _ g)

theorem printk_returns (line : Text) (g : Globals) :
    (printk line).Returns g [.printk line] () g := emit_returns _ g

end returns

/-- The low byte of a loaded word is the byte at its address; `& 0xff` selects it. -/
theorem load32_low (mem : Mem) (a : U64) : mem.load32 a &&& 0xff = (mem a).setWidth 32 := by
  have mask : (0xff : U32) = BitVec.setWidth 32 (BitVec.allOnes 8) := by decide
  rw [mask, Mem.load32]
  ext i hi
  simp only [BitVec.getElem_and, BitVec.getElem_setWidth, BitVec.getLsbD_allOnes]
  by_cases low : i < 8
  · rw [BitVec.getElem_append]
    simp [low]
  · simp [low, BitVec.getLsbD_of_ge (mem a) i (by omega)]

end Buster
