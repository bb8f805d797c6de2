import Buster.Lib.Accumulator
import Buster.Udp.Checksum

/-!
# The server's own checksum helpers

`csum_partial` and `csum_fold` do again what `rte_raw_cksum` does. The one loop
counts down the bytes that are left, the other runs up to an end pointer. Every
addition to a sum is on record.
-/

namespace Udp

open Imp.Prog Accumulator

/-- Memory by the byte. -/
abbrev Bytes := Nat → U8

def Bytes.load16 (mem : Bytes) (off : Nat) : U16 := (mem (off + 1) ++ mem off : BitVec (8 + 8))

def Bytes.load32 (mem : Bytes) (off : Nat) : U32 :=
  (mem.load16 (off + 2) ++ mem.load16 off : BitVec (16 + 16))

/-- The operands of each addition are emitted. -/
abbrev Summing := Imp.Prog (U32 × U32) Unit

def addTo (sum v : U32) : Summing U32 := do
  emit (sum, v)
  return sum + v

/-! ## The helpers of the server -/

structure CsumWalk where
  p : Nat
  size : U16
  sum : U32

def csumPartialRound (mem : Bytes) (w : CsumWalk) : Summing (CsumWalk ⊕ CsumWalk) :=
  if 1 < w.size then do
    let sum ← addTo w.sum ((mem.load16 w.p).setWidth 32)
    return .inl ⟨w.p + 2, w.size - 2, sum⟩
  else
    return .inr w

def csumPartial (mem : Bytes) (p : Nat) (size : U16) (start : U32) : Summing U32 := do
  let w ← loop (csumPartialRound mem) ⟨p, size, start⟩
  if w.size ≠ 0 then
    addTo w.sum ((mem w.p).setWidth 32)
  else
    return w.sum

def csumFold (x : U32) : U16 :=
  let x := (x &&& (0x0000FFFF : U32)) + (x >>> 16)
  let x := (x &&& (0x0000FFFF : U32)) + (x >>> 16)
  x.setWidth 16

/-- Both pseudo-headers, that of the server and that of DPDK, lie in memory like this. -/
structure PsdHdr where
  srcAddr : U32
  dstAddr : U32
  zero : U8
  proto : U8
  len : U16

def PsdHdr.sizeof : Nat := 12

def leBytes (n : Nat) {w : Nat} (v : BitVec w) : List U8 :=
  (List.range n).map fun i => (v >>> (8 * i)).setWidth 8

def PsdHdr.bytes (h : PsdHdr) : List U8 :=
  leBytes 4 h.srcAddr ++ (leBytes 4 h.dstAddr ++ ([h.zero, h.proto] ++ leBytes 2 h.len))

def PsdHdr.memory (h : PsdHdr) : Bytes := fun i => h.bytes.getD i 0

/-- The difference is an `int`, and its low half is what is stored. -/
def ipv4PseudoCsum (mem : Bytes) (ip : Nat) : Summing U16 := do
  let totalLength : U32 := (bswap16 (mem.load16 (ip + 2))).setWidth 32
  let hdrLen : U32 := (mem ip &&& 0x0F).setWidth 32 * 4
  let psd : PsdHdr :=
    { srcAddr := mem.load32 (ip + 12), dstAddr := mem.load32 (ip + 16), zero := 0,
      proto := mem (ip + 9), len := bswap16 ((totalLength - hdrLen).setWidth 16) }
  let sum ← csumPartial psd.memory 0 (BitVec.ofNat 16 PsdHdr.sizeof) 0
  return csumFold sum

/-! ## Those of DPDK, in any memory -/

namespace Bytes

def rawCksumRound (mem : Bytes) (last : Nat) : Nat × U32 → Summing ((Nat × U32) ⊕ U32)
  | (buf, sum) =>
    if buf ≠ last then do
      let sum ← addTo sum ((mem.load16 buf).setWidth 32)
      return .inl (buf + 2, sum)
    else
      return .inr sum

/-- `__rte_raw_cksum` -/
def rawCksum (mem : Bytes) (buf len : Nat) (sum : U32) : Summing U32 := do
  let last := buf + len / 2 * 2
  let sum ← loop (mem.rawCksumRound last) (buf, sum)
  if len % 2 = 1 then
    addTo sum ((mem last).setWidth 32)
  else
    return sum

def rteRawCksum (mem : Bytes) (buf len : Nat) : Summing U16 := do
  let sum ← mem.rawCksum buf len 0
  return rawCksumReduce sum

def rteIpv4HdrLen (mem : Bytes) (ip : Nat) : U8 := (mem ip &&& 0x0f) * 4

/-- `RTE_MBUF_F_TX_TCP_SEG` -/
def txTcpSeg : U64 := 1 <<< 50

def rteIpv4PhdrCksum (mem : Bytes) (ip : Nat) (olFlags : U64) : Summing U16 :=
  let l3Len : U32 := (bswap16 (mem.load16 (ip + 2))).setWidth 32
  let psdHdr : PsdHdr :=
    { srcAddr := mem.load32 (ip + 12), dstAddr := mem.load32 (ip + 16), zero := 0,
      proto := mem (ip + 9),
      len :=
        if olFlags &&& txTcpSeg ≠ 0 then 0
        else bswap16 ((l3Len - (mem.rteIpv4HdrLen ip).setWidth 32).setWidth 16) }
  psdHdr.memory.rteRawCksum 0 PsdHdr.sizeof

/-! ## What is added -/

/-- The words of a buffer, and the byte that is left over. -/
def added (mem : Bytes) : Nat → Nat → List U32
  | _, 0 => []
  | p, 1 => [(mem p).setWidth 32]
  | p, size + 2 => (mem.load16 p).setWidth 32 :: mem.added (p + 2) size

theorem added_append (mem : Bytes) {n : Nat} (even : n % 2 = 0) (p k : Nat) :
    mem.added p (n + k) = mem.added p n ++ mem.added (p + n) k := by
  induction n using Nat.twoStepInduction generalizing p with
  | zero => rw [Nat.zero_add]; rfl
  | one => cases even
  | more n ih _ =>
    have rest := ih (by omega) (p + 2)
    have size : n + 2 + k = n + k + 2 := by omega
    have place : p + 2 + n = p + (n + 2) := by omega
    rw [size, added, rest, added, List.cons_append, place]

theorem added_le (mem : Bytes) (p size : Nat) : ∀ v ∈ mem.added p size, v.toNat ≤ 65535 := by
  induction size using Nat.twoStepInduction generalizing p with
  | zero => exact List.forall_mem_nil _
  | one =>
    refine List.forall_mem_singleton.mpr ?_
    have := (mem p).isLt
    rw [BitVec.toNat_setWidth]
    omega
  | more size ih _ =>
    refine List.forall_mem_cons.mpr ⟨?_, ih (p + 2)⟩
    have := (mem.load16 p).isLt
    rw [BitVec.toNat_setWidth]
    omega

theorem length_added (mem : Bytes) (p size : Nat) :
    (mem.added p size).length = (size + 1) / 2 := by
  induction size using Nat.twoStepInduction generalizing p with
  | zero => rfl
  | one => rfl
  | more size ih _ =>
    rw [added, List.length_cons, ih]
    omega

/-- A buffer that a `uint16_t` can measure never makes the sum wrap. -/
theorem added_fits (mem : Bytes) {p size : Nat} (small : size < 2 ^ 16) :
    Exact (additions 0 (mem.added p size)) ∧
      (total 0 (mem.added p size)).toNat = sum (mem.added p size) := by
  have most := sum_le (mem.added_le p size)
  have count := mem.length_added p size
  have words : (mem.added p size).length * 65535 ≤ 32768 * 65535 :=
    Nat.mul_le_mul_right _ (by omega)
  have zero : (0 : U32).toNat = 0 := rfl
  have room : (0 : U32).toNat + sum (mem.added p size) < 2 ^ 32 := by omega
  obtain ⟨exact, value⟩ := fits room
  rw [zero, Nat.zero_add] at value
  exact ⟨exact, value⟩

end Bytes

/-! ## What the two loops do -/

theorem addTo_returns (sum v : U32) : (addTo sum v).Returns () [(sum, v)] (sum + v) () :=
  (emit_returns _ ()).bind (pure_returns _ ())

section rounds
variable {mem : Bytes}

theorem csumPartialRound_leaves {w : CsumWalk} (h : ¬ 1 < w.size) :
    (csumPartialRound mem w).Returns () [] (.inr w) () := by
  rw [csumPartialRound, if_neg h]
  exact pure_returns _ ()

theorem csumPartialRound_goes {w : CsumWalk} (h : 1 < w.size) :
    let v := (mem.load16 w.p).setWidth 32
    (csumPartialRound mem w).Returns () [(w.sum, v)]
      (.inl ⟨w.p + 2, w.size - 2, w.sum + v⟩) () := by
  rw [csumPartialRound, if_pos h]
  exact (addTo_returns _ _).bind (pure_returns _ ())

theorem rawCksumRound_leaves (buf : Nat) (sum : U32) :
    (mem.rawCksumRound buf (buf, sum)).Returns () [] (.inr sum) () := by
  rw [Bytes.rawCksumRound, if_neg (not_not.mpr rfl)]
  exact pure_returns _ ()

theorem rawCksumRound_goes {last buf : Nat} (h : buf ≠ last) (sum : U32) :
    let v := (mem.load16 buf).setWidth 32
    (mem.rawCksumRound last (buf, sum)).Returns () [(sum, v)] (.inl (buf + 2, sum + v)) () := by
  rw [Bytes.rawCksumRound, if_pos h]
  exact (addTo_returns _ _).bind (pure_returns _ ())

end rounds

/-- The loop over the bytes that are left: two less in each round. -/
theorem csumPartial_returns (mem : Bytes) (p : Nat) (size : U16) (start : U32) :
    (csumPartial mem p size start).Returns () (additions start (mem.added p size.toNat))
      (total start (mem.added p size.toNat)) () := by
  induction left : size.toNat using Nat.twoStepInduction generalizing p size start with
  | zero =>
    obtain rfl : size = 0 := BitVec.eq_of_toNat_eq left
    have done : ¬ (1 : U16) < 0 := by decide
    exact (csumPartialRound_leaves done).leaves (pure_returns _ ())
  | one =>
    obtain rfl : size = 1 := BitVec.eq_of_toNat_eq left
    have done : ¬ (1 : U16) < 1 := by decide
    exact (csumPartialRound_leaves done).leaves (addTo_returns _ _)
  | more n ih _ =>
    have going : 1 < size := by
      rw [BitVec.lt_def, left]
      exact Nat.lt_add_left n (by decide)
    have next : (size - 2).toNat = n := by bv_omega
    exact (csumPartialRound_goes going).goes_on (ih (p + 2) (size - 2) _ next)

/-- The loop up to the end pointer, which stays where it is. -/
theorem rawCksum_returns (mem : Bytes) (buf len : Nat) (sum : U32) :
    (mem.rawCksum buf len sum).Returns () (additions sum (mem.added buf len))
      (total sum (mem.added buf len)) () := by
  induction len using Nat.twoStepInduction generalizing buf sum with
  | zero => exact (rawCksumRound_leaves buf sum).leaves (pure_returns _ ())
  | one => exact (rawCksumRound_leaves buf sum).leaves (addTo_returns _ _)
  | more len ih _ =>
    have last : buf + (len + 2) / 2 * 2 = buf + 2 + len / 2 * 2 := by omega
    have odd : (len + 2) % 2 = len % 2 := by omega
    have going : buf ≠ buf + 2 + len / 2 * 2 := by omega
    rw [Bytes.rawCksum, last, odd]
    exact (rawCksumRound_goes going sum).goes_on (ih (buf + 2) _)

/-- The halves are added the other way round. -/
theorem csumFold_eq (x : U32) : csumFold x = rawCksumReduce x := by
  have swap (y : U32) : (y &&& (0x0000FFFF : U32)) + (y >>> 16) =
      ((y &&& 0xffff0000) >>> 16) + (y &&& 0xffff) := by
    rw [high_half, BitVec.add_comm]
  rw [csumFold, swap, swap]
  rfl

/-- The helpers work out the one's-complement sum of the words as they lie in memory. -/
theorem represents_csumFold (mem : Bytes) (p : Nat) {size : Nat} (small : size < 2 ^ 16) :
    OnesComplement.Represents (csumFold (total 0 (mem.added p size)))
      (sum (mem.added p size)) := by
  have folded := represents_rawCksumReduce (total 0 (mem.added p size))
  rwa [(mem.added_fits small).2, ← csumFold_eq] at folded

theorem rteRawCksum_returns (mem : Bytes) (buf len : Nat) :
    (mem.rteRawCksum buf len).Returns () (additions 0 (mem.added buf len))
      (csumFold (total 0 (mem.added buf len))) () := by
  rw [csumFold_eq, ← List.append_nil (additions 0 _)]
  exact (rawCksum_returns mem buf len 0).bind (pure_returns _ ())

/-- The sum of a buffer goes on from that of its beginning, if this ends between words. -/
theorem csumPartial_append (mem : Bytes) (p : Nat) {first second : U16} (start : U32)
    (even : first.toNat % 2 = 0) (small : first.toNat + second.toNat < 2 ^ 16) :
    let begun := total start (mem.added p first.toNat)
    let rest := mem.added (p + first.toNat) second.toNat
    let adds := additions start (mem.added p first.toNat)
    (csumPartial mem p first start).Returns () adds begun () ∧
      (csumPartial mem (p + first.toNat) second begun).Returns () (additions begun rest)
        (total begun rest) () ∧
      (csumPartial mem p (first + second) start).Returns () (adds ++ additions begun rest)
        (total begun rest) () := by
  intro begun rest adds
  refine ⟨csumPartial_returns mem p first start, csumPartial_returns mem _ second begun, ?_⟩
  have size : (first + second).toNat = first.toNat + second.toNat := by
    rw [BitVec.toNat_add, Nat.mod_eq_of_lt small]
  have whole := csumPartial_returns mem p (first + second) start
  rwa [size, mem.added_append even, additions_append, total_append] at whole

/-! ## The two lengths -/

/-- The length of a header is at most 60 bytes, and no conversion changes it. -/
theorem setWidth_hdrLen (versionIhl : U8) :
    (versionIhl &&& 0x0F).setWidth 32 * 4 = ((versionIhl &&& 0x0f) * 4).setWidth 32 := by
  have low : (versionIhl &&& 0x0F).toNat ≤ 15 := by
    rw [BitVec.toNat_and]
    exact Nat.and_le_right
  bv_omega

theorem ipv4PseudoCsum_returns (mem : Bytes) (ip : Nat) : ∃ es v,
    (ipv4PseudoCsum mem ip).Returns () es v () ∧
      (mem.rteIpv4PhdrCksum ip 0).Returns () es v () := by
  have length : (mem ip &&& 0x0F).setWidth 32 * 4 = (mem.rteIpv4HdrLen ip).setWidth 32 :=
    setWidth_hdrLen (mem ip)
  have off : ¬ (0 : U64) &&& Bytes.txTcpSeg ≠ 0 := by decide
  unfold ipv4PseudoCsum Bytes.rteIpv4PhdrCksum
  dsimp only
  rw [if_neg off, length]
  generalize PsdHdr.memory _ = psd
  refine ⟨_, _, ?_, rteRawCksum_returns psd 0 _⟩
  rw [← List.append_nil (additions 0 _)]
  exact (csumPartial_returns psd 0 _ 0).bind (pure_returns _ ())

/-- The helpers give what those of DPDK give, and can be used piece by piece. -/
theorem csum_helpers_agree :
    (∀ (mem : Bytes) (p : Nat) (size : U16), ∃ es sum,
      (csumPartial mem p size 0).Returns () es sum () ∧
      (mem.rteRawCksum p size.toNat).Returns () es (csumFold sum) () ∧ Exact es) ∧
    (∀ (mem : Bytes) (p : Nat) (first second : U16),
      first.toNat % 2 = 0 → first.toNat + second.toNat < 2 ^ 16 → ∃ es sum es' sum',
        (csumPartial mem p first 0).Returns () es sum () ∧
        (csumPartial mem (p + first.toNat) second sum).Returns () es' sum' () ∧
        (csumPartial mem p (first + second) 0).Returns () (es ++ es') sum' () ∧
        Exact (es ++ es')) ∧
    ∀ (mem : Bytes) (ip : Nat), ∃ es v,
      (ipv4PseudoCsum mem ip).Returns () es v () ∧
      (mem.rteIpv4PhdrCksum ip 0).Returns () es v () := by
  refine ⟨?_, ?_, ipv4PseudoCsum_returns⟩
  · intro mem p size
    exact ⟨_, _, csumPartial_returns mem p size 0, rteRawCksum_returns mem p _,
      (mem.added_fits size.isLt).1⟩
  · intro mem p first second even small
    obtain ⟨begun, rest, whole⟩ := csumPartial_append mem p 0 even small
    refine ⟨_, _, _, _, begun, rest, whole, ?_⟩
    rw [← additions_append, ← mem.added_append even]
    exact (mem.added_fits small).1

/-- Four bytes, then three. -/
theorem sevenBytes_incremental :
    let mem : Bytes := fun i => BitVec.ofNat 8 i
    ∃ es sum es' sum', (csumPartial mem 0 4 0).Returns () es sum () ∧
      (csumPartial mem 4 3 sum).Returns () es' sum' () ∧
      (csumPartial mem 0 7 0).Returns () (es ++ es') sum' () ∧ Exact (es ++ es') := by
  intro mem
  exact csum_helpers_agree.2.1 mem 0 4 3 (by decide) (by decide)

end Udp
