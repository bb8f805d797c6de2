import Buster.Record

/-!
# Where the configuration spaces begin

The module is compiled with the address of the first configuration space. A program
of its own prints that address, with the rest of the first entry of the ACPI table
MCFG. The text reads back as the entry; what the table lacks is read as ones.
-/

namespace Buster.Mcfg

/-- What is left of the table, and what has been printed. -/
structure Streams where
  mcfg : List U8
  cout : Text

abbrev Program := StateM Streams

/-- `fstream::get`: a byte, or EOF. A table that cannot be opened has no bytes. -/
def get : Program Int := fun s =>
  match s.mcfg with
  | [] => (-1, s)
  | b :: rest => (b.toNat, { s with mcfg := rest })

def print (text : Text) : Program Unit := fun s => ((), { s with cout := s.cout ++ text })

def skip : Nat → Program Unit
  | 0 => return ()
  | n + 1 => do
    let _ ← get
    skip n

/-- The loops of `base` and of `seg`, from round `i` on. A byte of `seg` is shifted
as an `int`, and the low bits of that are kept. -/
def assemble {w : Nat} (i : Nat) (x : BitVec w) : Nat → Program (BitVec w)
  | 0 => return x
  | n + 1 => do
    let tmp := BitVec.ofInt w (← get)
    assemble (i + 1) (x ||| tmp <<< (i * 8)) n

/-- A label and a number, to the end of the line. -/
def line (label digits : Text) : Text := label ++ (digits ++ ['\n'])

def mcfgR : Program U64 := do
  skip 44
  let base : U64 ← assemble 0 0 8
  let seg : BitVec 16 ← assemble 0 0 2
  print (line "seg: ".toList (hex seg))
  let busStart := BitVec.ofInt 8 (← get)
  let busEnd := BitVec.ofInt 8 (← get)
  print (line "bus_start: ".toList (hex busStart))
  print (line "bus_end: ".toList (hex busEnd))
  return base

def main : Program Unit := do
  let base ← mcfgR
  print (line "0x".toList (hexPad 16 base))

/-- What the program prints. -/
def printed (mcfg : List U8) : Text := (main ⟨mcfg, []⟩).2.cout

/-! ## Entries -/

structure Entry where
  base : U64
  seg : BitVec 16
  busStart : U8
  busEnd : U8
  deriving DecidableEq

/-- The first `n` bytes, the lowest one first. -/
def leBytes {w : Nat} (x : BitVec w) (n : Nat) : List U8 :=
  (List.range n).map fun i => x.extractLsb' (8 * i) 8

/-- The entry as the table has it. -/
def Entry.bytes (e : Entry) : List U8 :=
  leBytes e.base 8 ++ (leBytes e.seg 2 ++ [e.busStart, e.busEnd])

/-- A line with a number, and what comes after it. -/
def readLine (label text : Text) : Option (Nat × Text) := do
  let (digits, rest) ← cut '\n' (← label.isPrefixOf? text)
  return (← Hex.value digits, rest)

/-- The entry that the text tells. -/
def readBack (text : Text) : Option Entry := do
  let (seg, text) ← readLine "seg: ".toList text
  let (busStart, text) ← readLine "bus_start: ".toList text
  let (busEnd, text) ← readLine "bus_end: ".toList text
  let (base, text) ← readLine "0x".toList text
  if text ≠ [] then none
  return ⟨.ofNat 64 base, .ofNat 16 seg, .ofNat 8 busStart, .ofNat 8 busEnd⟩

/-! ## Reading the table -/

/-- The byte at `i`, all ones behind the end. -/
def byteAt (mcfg : List U8) (i : Nat) : U8 := mcfg.getD i 0xFF

/-- All bits are set behind the end. -/
theorem byteAt_nil (i p : Nat) : (byteAt [] i).getLsbD (p % 8) = true := by
  have below : p % 8 < 8 := Nat.mod_lt p (by decide)
  change (BitVec.allOnes 8).getLsbD (p % 8) = true
  rw [BitVec.getLsbD_allOnes, decide_eq_true below]

theorem byteAt_drop (mcfg : List U8) (n i : Nat) :
    byteAt (mcfg.drop n) i = byteAt mcfg (n + i) := by
  simp [byteAt, List.getD_eq_getElem?_getD, List.getElem?_drop]

/-- One byte, at the width it is kept in. -/
theorem get_reads {w : Nat} (mcfg : List U8) (cout : Text) :
    ∃ c, get ⟨mcfg, cout⟩ = (c, ⟨mcfg.drop 1, cout⟩) ∧ ∀ p < w,
      (BitVec.ofInt w c).getLsbD p = (decide (mcfg = []) || (byteAt mcfg 0).getLsbD p) := by
  cases mcfg with
  | nil =>
    refine ⟨-1, rfl, fun p inside => ?_⟩
    have ones : BitVec.ofInt w (-1) = BitVec.allOnes w :=
      (BitVec.ofInt_neg).trans BitVec.neg_one_eq_allOnes
    rw [ones]
    simp [inside]
  | cons b rest =>
    refine ⟨b.toNat, rfl, fun p inside => ?_⟩
    have same : BitVec.ofInt w b.toNat = b.setWidth w :=
      (BitVec.ofInt_natCast w b.toNat).trans (BitVec.ofNat_toNat w b)
    rw [same]
    simp [inside, byteAt]

theorem skip_reads (mcfg : List U8) (cout : Text) (n : Nat) :
    skip n ⟨mcfg, cout⟩ = ((), ⟨mcfg.drop n, cout⟩) := by
  induction n generalizing mcfg with
  | zero => rfl
  | succ n ih =>
    obtain ⟨c, read, _⟩ := get_reads (w := 0) mcfg cout
    have more := ih (mcfg.drop 1)
    rw [List.drop_drop, Nat.add_comm] at more
    change skip n (get ⟨mcfg, cout⟩).2 = _
    rw [read, more]

/-- Bits that are one stay so, and what is behind the end of the table sets all bits
from there on. -/
theorem assemble_reads {w : Nat} (i : Nat) (x : BitVec w) (n : Nat) (mcfg : List U8)
    (cout : Text) : ∃ y, assemble i x n ⟨mcfg, cout⟩ = (y, ⟨mcfg.drop n, cout⟩) ∧
      ∀ p < w, p / 8 < i + n → y.getLsbD p =
        (x.getLsbD p || decide (i ≤ p / 8) && (byteAt mcfg (p / 8 - i)).getLsbD (p % 8)) := by
  induction n generalizing i x mcfg with
  | zero =>
    refine ⟨x, rfl, fun p _ before => ?_⟩
    rw [decide_eq_false (by omega), Bool.false_and, Bool.or_false]
  | succ n ih =>
    obtain ⟨c, read, bits⟩ := get_reads (w := w) mcfg cout
    obtain ⟨y, more, all⟩ := ih (i + 1) (x ||| BitVec.ofInt w c <<< (i * 8)) (mcfg.drop 1)
    refine ⟨y, ?_, fun p inside before => ?_⟩
    · change assemble (i + 1) (x ||| BitVec.ofInt w (get ⟨mcfg, cout⟩).1 <<< (i * 8)) n
        (get ⟨mcfg, cout⟩).2 = _
      rw [read]
      rwa [List.drop_drop, Nat.add_comm 1 n] at more
    · rw [all p inside (by omega), BitVec.getLsbD_or, BitVec.getLsbD_shiftLeft, byteAt_drop,
        decide_eq_true inside, Bool.true_and, Bool.or_assoc]
      congr 1
      rcases Nat.lt_trichotomy (p / 8) i with earlier | here | later
      · have below : p < i * 8 := by omega
        simp [below, Nat.not_le.mpr earlier, Nat.not_le.mpr (Nat.lt_succ_of_lt earlier)]
      · have place : p - i * 8 = p % 8 := by omega
        have reached : ¬ p < i * 8 := by omega
        rw [place, bits _ (by omega), here, decide_eq_false reached, decide_eq_true (Nat.le_refl i),
          decide_eq_false (Nat.not_succ_le_self i), Nat.sub_self]
        cases mcfg with
        | nil => simp [byteAt_nil]
        | cons => simp
      · have place : 1 + (p / 8 - (i + 1)) = p / 8 - i := by omega
        have reached : ¬ p < i * 8 := by omega
        rw [bits _ (by omega), place, decide_eq_false reached, decide_eq_true (Nat.le_of_lt later),
          decide_eq_true (show i + 1 ≤ p / 8 from later)]
        cases mcfg with
        | nil => simp [byteAt_nil]
        | cons b rest =>
          have behind : (byteAt (b :: rest) 0).getLsbD (p - i * 8) = false :=
            BitVec.getLsbD_of_ge _ _ (by omega)
          simp [behind]

/-- The bytes that are put together to a number. -/
theorem assemble_leBytes {w n : Nat} (whole : w = 8 * n) (mcfg : List U8) (cout : Text) :
    ∃ y : BitVec w, assemble 0 0 n ⟨mcfg, cout⟩ = (y, ⟨mcfg.drop n, cout⟩) ∧
      leBytes y n = (List.range n).map (byteAt mcfg) := by
  obtain ⟨y, run, bits⟩ := assemble_reads 0 (0 : BitVec w) n mcfg cout
  refine ⟨y, run, List.map_congr_left fun i hi => ?_⟩
  have below := List.mem_range.mp hi
  apply BitVec.eq_of_getLsbD_eq
  intro q hq
  have place : (8 * i + q) / 8 = i ∧ (8 * i + q) % 8 = q := by omega
  rw [BitVec.getLsbD_extractLsb', decide_eq_true hq, Bool.true_and, bits _ (by omega) (by omega),
    place.1, place.2]
  simp

theorem leBytes_injective {w n : Nat} (whole : w = 8 * n) {x y : BitVec w}
    (h : leBytes x n = leBytes y n) : x = y := by
  apply BitVec.eq_of_getLsbD_eq
  intro p inside
  have below : p / 8 < n := by omega
  have byte := List.map_inj_left.mp h (p / 8) (List.mem_range.mpr below)
  have bit := congrArg (·.getLsbD (p % 8)) byte
  have place : 8 * (p / 8) + p % 8 = p := by omega
  simpa [BitVec.getLsbD_extractLsb', place, Nat.mod_lt] using bit

theorem Entry.bytes_injective {e e' : Entry} (h : e.bytes = e'.bytes) : e = e' := by
  obtain ⟨bases, rest⟩ := List.append_inj h rfl
  obtain ⟨segs, buses⟩ := List.append_inj rest rfl
  have base : e.base = e'.base := leBytes_injective (n := 8) rfl bases
  have seg : e.seg = e'.seg := leBytes_injective (n := 2) rfl segs
  obtain ⟨first, last⟩ : e.busStart = e'.busStart ∧ e.busEnd = e'.busEnd := by simpa using buses
  cases e
  cases e'
  rw [Entry.mk.injEq]
  exact ⟨base, seg, first, last⟩

/-! ## Reading the text -/

theorem readLine_line {label digits : Text} {n : Nat} (all : ∀ c ∈ digits, Hex.IsDigit c)
    (value : Hex.value digits = some n) (rest : Text) :
    readLine label (line label digits ++ rest) = some (n, rest) := by
  have newline := not_mem_of_digits (c := '\n') (by decide) all
  simp [readLine, line, isPrefixOf?_append, cut_append newline, value]

/-- The lines of an entry. -/
def Entry.text (e : Entry) : Text :=
  line "seg: ".toList (hex e.seg) ++ (line "bus_start: ".toList (hex e.busStart) ++
    (line "bus_end: ".toList (hex e.busEnd) ++ (line "0x".toList (hexPad 16 e.base) ++ [])))

theorem readBack_text (e : Entry) : readBack e.text = some e := by
  unfold readBack Entry.text
  simp only [readLine_line (hex_digits _) (Hex.value_digits _),
    readLine_line (hexPad_digits _) (Hex.value_padded _ _), Option.bind_eq_bind, Option.bind_some]
  simp

/-! ## The program -/

theorem run_bind {α β : Type} {x : Program α} {f : α → Program β} {s s' : Streams} {a : α}
    (h : x s = (a, s')) : (x >>= f) s = f a s' := by
  change f (x s).1 (x s).2 = _
  rw [h]

theorem get_byte (mcfg : List U8) (cout : Text) :
    ∃ c, get ⟨mcfg, cout⟩ = (c, ⟨mcfg.drop 1, cout⟩) ∧ BitVec.ofInt 8 c = byteAt mcfg 0 := by
  obtain ⟨c, read, bits⟩ := get_reads mcfg cout
  refine ⟨c, read, BitVec.eq_of_getLsbD_eq fun p inside => ?_⟩
  rw [bits p inside]
  cases mcfg with
  | nil =>
    have ones := byteAt_nil 0 p
    rw [Nat.mod_eq_of_lt inside] at ones
    rw [ones, Bool.or_true]
  | cons => rfl

/-- The program prints the entry whose bytes it has read. -/
theorem printed_text (mcfg : List U8) : ∃ e : Entry, printed mcfg = e.text ∧
    e.bytes = (List.range 12).map fun i => byteAt mcfg (44 + i) := by
  obtain ⟨base, readBase, baseBytes⟩ := assemble_leBytes (w := 64) (n := 8) rfl (mcfg.drop 44) []
  obtain ⟨seg, readSeg, segBytes⟩ := assemble_leBytes (w := 16) (n := 2) rfl (mcfg.drop 52) []
  let shown := line "seg: ".toList (hex seg)
  obtain ⟨first, readFirst, busStart⟩ := get_byte (mcfg.drop 54) shown
  obtain ⟨last, readLast, busEnd⟩ := get_byte (mcfg.drop 55) shown
  rw [List.drop_drop] at readBase readSeg readFirst readLast
  refine ⟨⟨base, seg, BitVec.ofInt 8 first, BitVec.ofInt 8 last⟩, ?_, ?_⟩
  · have run : mcfgR ⟨mcfg, []⟩ = (base, ⟨mcfg.drop 56,
        (shown ++ line "bus_start: ".toList (hex (BitVec.ofInt 8 first))) ++
          line "bus_end: ".toList (hex (BitVec.ofInt 8 last))⟩) := by
      have told : print shown ⟨mcfg.drop 54, []⟩ = ((), ⟨mcfg.drop 54, shown⟩) := rfl
      unfold mcfgR
      rw [run_bind (skip_reads mcfg [] 44), run_bind readBase, run_bind readSeg, run_bind told,
        run_bind readFirst, run_bind readLast]
      rfl
    rw [printed, main, run_bind run]
    simp [print, Entry.text, shown]
  · have behind (n : Nat) : byteAt (mcfg.drop n) = fun i => byteAt mcfg (n + i) :=
      funext (byteAt_drop mcfg n)
    simp only [Entry.bytes, baseBytes, segBytes, busStart, busEnd, behind]
    rfl

/-- What the program prints tells the first entry of the table and nothing else. It reads
back as the 12 bytes behind the header, with `0xFF` for each one that the table lacks; and
two tables are printed alike just when they have the same 12 bytes there. -/
theorem printed_iff (mcfg other : List U8) :
    (∃ e, readBack (printed mcfg) = some e ∧
      e.bytes = (List.range 12).map fun i => mcfg.getD (44 + i) 0xFF) ∧
    (printed mcfg = printed other ↔
      ∀ i < 12, mcfg.getD (44 + i) 0xFF = other.getD (44 + i) 0xFF) := by
  obtain ⟨e, text, bytes⟩ := printed_text mcfg
  obtain ⟨e', text', bytes'⟩ := printed_text other
  refine ⟨⟨e, by rw [text, readBack_text], bytes⟩, ?_⟩
  rw [text, text']
  constructor
  · intro same i below
    have read := congrArg readBack same
    rw [readBack_text, readBack_text, Option.some.injEq] at read
    rw [read, bytes'] at bytes
    exact (List.map_inj_left.mp bytes i (List.mem_range.mpr below)).symm
  · intro same
    have bytes_eq : e.bytes = e'.bytes := by
      rw [bytes, bytes']
      exact List.map_congr_left fun i hi => same i (List.mem_range.mp hi)
    rw [Entry.bytes_injective bytes_eq]

end Buster.Mcfg
