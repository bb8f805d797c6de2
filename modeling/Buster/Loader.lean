import Buster.Lib.CString
import Buster.Lib.Exit
import Buster.Machine

/-!
# The loader

`run.c` allocates a buffer of a number of pages, has the kernel module loaded
with the buffer's address and size, and writes the buffer to a file. The size in
bytes is a product of `int` everywhere but in the command for the kernel.
-/

namespace Buster.Loader

open Imp.Prog

/-- What the calls of the loader answer. Those of `malloc` are numbered. -/
structure World where
  malloc : Nat → U64 → U64
  system : Text → U32
  time : U64
  openFile : Text → U32
  write : U64 → U64

inductive Call where
  | mulInt (a b : U32)
  | mulUnsignedLong (a b : U64)
  | malloc (number : Nat) (bytes : U64)
  | printf (line : Text)
  | system (cmd : Text)
  | openFile (filename : Text)
  | write (fd : U32) (buf bytes : U64)
  | close (fd : U32)
  | free (p : U64)
  deriving DecidableEq

/-- Writing to NULL is the end of it. -/
abbrev Process := OptionT (Imp.Prog Call Unit)

def ask {α : Type} (c : Call) (answer : α) : Process α := do
  OptionT.lift (emit c)
  return answer

def printf (line : Text) : Process Unit := ask (.printf line) ()

/-- Where the product of two `int` overflows, the machine keeps its low bits. -/
def mulInt (a b : U32) : Process U32 := ask (.mulInt a b) (a * b)

def mulUnsignedLong (a b : U64) : Process U64 := ask (.mulUnsignedLong a b) (a * b)

variable (w : World)

def malloc (number : Nat) (bytes : U64) : Process U64 :=
  ask (.malloc number bytes) (w.malloc number bytes)

/-- What `%ld` prints. -/
def signedDecimal (x : U64) : Text :=
  if x.toInt < 0 then '-' :: Nat.toDigits 10 x.toInt.natAbs else Nat.toDigits 10 x.toNat

def insmodCommand (buf size : Nat) : Text :=
  "insmod buster.ko buf=".toList ++ (Nat.toDigits 10 buf ++
    (" size=".toList ++ Nat.toDigits 10 size))

def loadModule (buf : U64) (size : U32) : Process Unit := do
  let bytes ← mulUnsignedLong 4096 (size.signExtend 64)
  let cmd := insmodCommand buf.toNat bytes.toNat
  printf ("cmd: ".toList ++ (cmd ++ ['\n']))
  let status ← ask (.system cmd) (w.system cmd)
  if status.toInt < 0 then
    printf "system() failed\n".toList
  else
    return ()

/-- The pointer and the text behind it. -/
def getFilename : Process (U64 × Text) := do
  let filename ← malloc w 1 256
  if filename = 0 then
    failure
  else
    return (filename, "/home/abdullah/iommu/dump/".toList ++
      ("dump-".toList ++ (signedDecimal w.time ++ ".bin".toList)))

/-- The file is open: what `main` does up to its label `err`. -/
def writeBuffer (fd : U32) (buf : U64) (size : U32) : Process Unit := do
  let bytes := (← mulInt 4096 size).signExtend 64
  let written ← ask (.write fd buf bytes) (w.write bytes)
  let ret : U32 := written.setWidth 32
  let all ← mulInt 4096 size
  if ret ≠ all then
    printf "write failed\n".toList
  else
    return ()

/-- The buffer is there: what `main` does up to its label `err_buf`. -/
def useBuffer (buf : U64) (size : U32) : Process Unit := do
  loadModule w buf size
  let (filename, name) ← getFilename w
  printf ("filename: ".toList ++ (name ++ ['\n']))
  let fd ← ask (.openFile name) (w.openFile name)
  if fd.toInt < 0 then
    printf "open failed\n".toList
  else
    writeBuffer w fd buf size
  ask (.close fd) ()
  ask (.free filename) ()

def main (argv1 : Text) : Process U32 := do
  let size := CString.atoi argv1
  if size.toInt < 1 then
    printf "size must be > 0\n".toList
    return 1
  else
    let bytes := (← mulInt 4096 size).signExtend 64
    let buf ← malloc w 0 bytes
    if buf = 0 then
      printf "malloc failed\n".toList
    else
      useBuffer w buf size
    ask (.free buf) ()
    return 0

/-! ## The sizes -/

/-- The size in the call is that of so many pages, and the product is exact. -/
def Call.Agrees (size : Nat) : Call → Prop
  | .malloc 0 bytes => bytes.toNat = 4096 * size
  | .system cmd => ∃ buf, cmd = insmodCommand buf (4096 * size)
  | .write _ _ bytes => bytes.toNat = 4096 * size
  | .mulInt a b => a.smulOverflow b = false
  | .mulUnsignedLong a b => a.umulOverflow b = false
  | _ => True

section sizes
variable {size : U32}

theorem toInt_of_pos (pos : 1 ≤ size.toInt) : size.toInt = size.toNat ∧ size.toNat < 2 ^ 31 := by
  rw [BitVec.toInt_eq_toNat_cond] at pos ⊢
  have wide := size.isLt
  split at pos
  · rename_i low
    rw [if_pos low]
    omega
  · omega

/-- The product of `int` is exact up to 524287 pages. -/
theorem smulOverflow_iff (pos : 1 ≤ size.toInt) :
    (4096 : U32).smulOverflow size = false ↔ size.toInt ≤ 524287 := by
  have page : (4096 : U32).toInt = 4096 := rfl
  rw [BitVec.smulOverflow, page, Bool.or_eq_false_iff, decide_eq_false_iff_not,
    decide_eq_false_iff_not]
  omega

/-- Beyond that what is left of it in 32 bits is another number. -/
theorem mulInt_toNat (pos : 1 ≤ size.toInt) :
    ((4096 * size).signExtend 64).toNat = 4096 * size.toNat ↔ size.toInt ≤ 524287 := by
  obtain ⟨same, _⟩ := toInt_of_pos pos
  have product : (4096 * size).toNat = 4096 * size.toNat % 2 ^ 32 := BitVec.toNat_mul _ _
  cases positive : (4096 * size).msb with
  | false =>
    have low := BitVec.msb_eq_false_iff_two_mul_lt.mp positive
    rw [BitVec.signExtend_eq_setWidth_of_msb_false positive, BitVec.toNat_setWidth]
    omega
  | true =>
    have high := BitVec.msb_eq_true_iff_two_mul_ge.mp positive
    have extended : 2 ^ 64 - 2 ^ 32 ≤ ((4096 * size).signExtend 64).toNat := by
      rw [BitVec.toNat_signExtend, positive, if_pos rfl]
      exact Nat.le_add_left _ _
    omega

/-- That of `unsigned long` always is. -/
theorem mulUnsignedLong_toNat (pos : 1 ≤ size.toInt) :
    (4096 : U64).umulOverflow (size.signExtend 64) = false ∧
      (4096 * size.signExtend 64).toNat = 4096 * size.toNat := by
  obtain ⟨_, below⟩ := toInt_of_pos pos
  have positive : size.msb = false := by
    rw [BitVec.msb_eq_false_iff_two_mul_lt]
    omega
  have extended : (size.signExtend 64).toNat = size.toNat := by
    rw [BitVec.signExtend_eq_setWidth_of_msb_false positive, BitVec.toNat_setWidth]
    omega
  have page : (4096 : U64).toNat = 4096 := rfl
  have exact : (4096 : U64).umulOverflow (size.signExtend 64) = false := by
    rw [BitVec.umulOverflow, page, extended, decide_eq_false_iff_not]
    omega
  refine ⟨exact, ?_⟩
  rw [BitVec.toNat_mul_of_not_umulOverflow (by rw [exact]; decide), page, extended]

end sizes

/-! ## Runs -/

section runs
variable {w : World} {size : U32}

abbrev Agreeing (size : U32) {α : Type} (x : Process α) : Prop :=
  x.run.Confined (fun _ => True) (Call.Agrees size.toNat)

theorem agreeing_ask {α : Type} {c : Call} (h : c.Agrees size.toNat) (answer : α) :
    Agreeing size (ask c answer) :=
  (confined_emit h).lift.then fun _ => confined_through answer

/-- The answer is the only one there can be. -/
theorem agreeing_asked {α β : Type} {c : Call} {answer : α} {f : α → Process β}
    (h : c.Agrees size.toNat) (rest : Agreeing size (f answer)) :
    Agreeing size (ask c answer >>= f) := by
  apply (agreeing_ask h answer).then_passed
  intro s es a s' run
  obtain ⟨_, _, _, _, _, last, _⟩ := passes_bind.mp run
  rwa [(passes_pure.mp last).2.1]

theorem agreeing_printf (line : Text) : Agreeing size (printf line) :=
  agreeing_ask (c := .printf line) trivial ()

/-- The command is right for any number of pages. -/
theorem agreeing_loadModule (pos : 1 ≤ size.toInt) (buf : U64) :
    Agreeing size (loadModule w buf size) := by
  obtain ⟨exact, product⟩ := mulUnsignedLong_toNat pos
  refine agreeing_asked exact ?_
  rw [product]
  apply (agreeing_printf _).then
  intro _
  refine agreeing_asked ⟨buf.toNat, rfl⟩ ?_
  split
  · exact agreeing_printf _
  · exact confined_through _

theorem agreeing_getFilename : Agreeing size (getFilename w) := by
  refine agreeing_asked trivial ?_
  split
  · exact confined_exit
  · exact confined_through _

theorem agreeing_writeBuffer (pos : 1 ≤ size.toInt) (small : size.toInt ≤ 524287) (fd : U32)
    (buf : U64) : Agreeing size (writeBuffer w fd buf size) := by
  have exact := (smulOverflow_iff pos).mpr small
  refine agreeing_asked exact ?_
  refine agreeing_asked ((mulInt_toNat pos).mpr small) ?_
  refine agreeing_asked exact ?_
  split
  · exact agreeing_printf _
  · exact confined_through _

theorem agreeing_useBuffer (pos : 1 ≤ size.toInt) (small : size.toInt ≤ 524287) (buf : U64) :
    Agreeing size (useBuffer w buf size) := by
  apply (agreeing_loadModule pos buf).then
  intro _
  apply agreeing_getFilename.then
  rintro ⟨filename, name⟩
  apply (agreeing_printf _).then
  intro _
  refine agreeing_asked trivial ?_
  dsimp only
  have last : Agreeing size (do
      ask (.close (w.openFile name)) ()
      ask (.free filename) ()) :=
    agreeing_asked trivial (agreeing_ask (c := .free filename) trivial ())
  split
  · exact (agreeing_printf _).then fun _ => last
  · exact (agreeing_writeBuffer pos small _ _).then fun _ => last

theorem agreeing_main {argv1 : Text} (pos : 1 ≤ (CString.atoi argv1).toInt)
    (small : (CString.atoi argv1).toInt ≤ 524287) :
    Agreeing (CString.atoi argv1) (main w argv1) := by
  unfold main
  rw [if_neg (by omega)]
  refine agreeing_asked ((smulOverflow_iff pos).mpr small) ?_
  refine agreeing_asked ((mulInt_toNat pos).mpr small) ?_
  dsimp only
  have last (buf : U64) : Agreeing (CString.atoi argv1) (do
      ask (.free buf) ()
      return (0 : U32)) :=
    agreeing_asked trivial (confined_through _)
  split
  · exact (agreeing_printf _).then fun _ => last _
  · exact (agreeing_useBuffer pos small _).then fun _ => last _

theorem asked {α : Type} (c : Call) (answer : α) : Passes (ask c answer) () [c] answer () :=
  passes_bind.mpr ⟨[c], (), (), [], passes_lift.mpr (emit_returns c ()),
    passes_pure.mpr ⟨rfl, rfl, rfl⟩, rfl⟩

/-- The buffer gets what `int` makes of the size. -/
theorem main_allocates {argv1 : Text} (accepted : 1 ≤ (CString.atoi argv1).toInt)
    {es : List Call} {r : Option U32} (run : (main w argv1).run.Returns () es r ()) :
    .malloc 0 ((4096 * CString.atoi argv1).signExtend 64) ∈ es := by
  unfold main at run
  rw [if_neg (by omega)] at run
  obtain ⟨more, rfl, run₁⟩ := (asked _ _).rest run
  obtain ⟨more, rfl, _⟩ := (asked _ _).rest run₁
  exact List.mem_cons_of_mem _ List.mem_cons_self

end runs

/-- The sizes are the same and no product overflows exactly up to 524287 pages, the
last number whose bytes an `int` can count. -/
theorem sizes_agree_iff {w : World} {argv1 : Text} (accepted : 1 ≤ (CString.atoi argv1).toInt)
    {es : List Call} {r : Option U32} (run : (main w argv1).run.Returns () es r ()) :
    (∀ c ∈ es, c.Agrees (CString.atoi argv1).toNat) ↔ (CString.atoi argv1).toInt ≤ 524287 := by
  constructor
  · intro all
    apply (mulInt_toNat accepted).mp
    exact all _ (main_allocates accepted run)
  · intro small
    exact ((agreeing_main accepted small).returns trivial run).2

/-- Every call succeeds. -/
def quiet : World where
  malloc number _ := 0x10000 * BitVec.ofNat 64 (number + 1)
  system _ := 0
  time := 0
  openFile _ := 3
  write bytes := bytes

theorem sixteen_agrees :
    let out := (main quiet "16".toList).run.run 0 ()
    out.value = some (some 0) ∧ ∀ c ∈ out.events, c.Agrees 16 := by
  intro out
  have ended : out.value = some (some 0) := by decide
  have run : (main quiet "16".toList).run.Returns () out.events (some 0) () :=
    ⟨0, by rw [← ended]⟩
  exact ⟨ended, (sizes_agree_iff (by decide) run).mpr (by decide)⟩

/-- The product of `int` is 4096 for 1048577 pages, and that of `unsigned long` is not. -/
theorem manyPages_disagree : ∃ es, Passes (main quiet "1048577".toList) () es 0 () ∧
    .malloc 0 4096 ∈ es ∧ .write 3 0x10000 4096 ∈ es ∧
    .system "insmod buster.ko buf=65536 size=4294971392".toList ∈ es ∧
    ¬ ∀ c ∈ es, c.Agrees (CString.atoi "1048577".toList).toNat := by
  let out := (main quiet "1048577".toList).run.run 0 ()
  have run : Passes (main quiet "1048577".toList) () out.events 0 () :=
    Passes.of_run (by decide)
  have allocated : .malloc 0 4096 ∈ out.events := by decide
  refine ⟨out.events, run, allocated, by decide, by decide, ?_⟩
  intro all
  have pages : (CString.atoi "1048577".toList).toNat = 1048577 := by decide
  have size : 4096 = 4096 * (CString.atoi "1048577".toList).toNat := all _ allocated
  omega

end Buster.Loader
