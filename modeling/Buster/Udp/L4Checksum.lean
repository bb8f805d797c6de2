import Buster.Udp.SegmentChecksum

/-!
# The checksum of UDP and TCP

`rte_ipv4_udptcp_cksum` and the functions beside it add a pseudo-header to the
bytes behind the IP header. `Layer3` stands for the IPv4 and the IPv6 ones.
-/

namespace Udp

open Imp Imp.Prog Accumulator
open OnesComplement (Represents pairSum pairSum_append pairSum_eq_zero)

namespace Bytes

variable (mem : Bytes) (ip l4 : Nat)

/-- The psd_hdr of `rte_ipv6_phdr_cksum`; the top three bytes of `proto` are zero. -/
def ipv6PsdHdr (olFlags : U64) : List U8 :=
  let len : U32 := if olFlags &&& txTcpSeg ≠ 0 then 0 else (mem.load16 (ip + 4)).setWidth 32
  let proto : U32 := (mem (ip + 6)).setWidth 32 <<< 24
  leBytes 4 len ++ leBytes 4 proto

def rteIpv6PhdrCksum (olFlags : U64) : Summing U16 := do
  let psdHdr : Bytes := fun i => (mem.ipv6PsdHdr ip olFlags).getD i 0
  let sum ← mem.rawCksum (ip + 8) (16 + 16) 0
  let sum ← psdHdr.rawCksum 0 8 sum
  return rawCksumReduce sum

/-- A `uint16_t` is stored as it is. -/
def write16 (off : Nat) (v : U16) : Bytes := fun i =>
  if i = off then v.setWidth 8 else if i = off + 1 then (v >>> 8).setWidth 8 else mem i

end Bytes

/-- One fold is enough for two checksums. -/
def foldTwo (raw phdr : U16) : U16 :=
  let cksum : U32 := raw.setWidth 32 + phdr.setWidth 32
  (((cksum &&& 0xffff0000) >>> 16) + (cksum &&& 0xffff)).setWidth 16

/-- A checksum of zero is transmitted as all ones for UDP. -/
def transmitted (proto : U8) (cksum : U16) : U16 :=
  if ~~~cksum = 0 ∧ proto = ipprotoUdp then 0xffff else ~~~cksum

def verdict (cksum : U16) : Int := if cksum ≠ 0xffff then -1 else 0

/-! ## In one piece -/

namespace Bytes

variable (mem : Bytes) (ip l4 : Nat)

/-- `__rte_ipv4_udptcp_cksum` -/
def ipv4UdptcpCksum : Summing U16 := do
  let ipHdrLen : U32 := (mem.rteIpv4HdrLen ip).setWidth 32
  let l3Len : U32 := (bswap16 (mem.load16 (ip + 2))).setWidth 32
  if l3Len < ipHdrLen then
    return 0
  else
    let l4Len := l3Len - ipHdrLen
    let raw ← mem.rteRawCksum l4 l4Len.toNat
    let phdr ← mem.rteIpv4PhdrCksum ip 0
    return foldTwo raw phdr

/-- `__rte_ipv6_udptcp_cksum` -/
def ipv6UdptcpCksum : Summing U16 := do
  let l4Len : U32 := (bswap16 (mem.load16 (ip + 4))).setWidth 32
  let raw ← mem.rteRawCksum l4 l4Len.toNat
  let phdr ← mem.rteIpv6PhdrCksum ip 0
  return foldTwo raw phdr

def rteIpv4UdptcpCksum : Summing U16 := do
  return transmitted (mem (ip + 9)) (← mem.ipv4UdptcpCksum ip l4)

def rteIpv6UdptcpCksum : Summing U16 := do
  return transmitted (mem (ip + 6)) (← mem.ipv6UdptcpCksum ip l4)

def rteIpv4UdptcpCksumVerify : Summing Int := do
  return verdict (← mem.ipv4UdptcpCksum ip l4)

def rteIpv6UdptcpCksumVerify : Summing Int := do
  return verdict (← mem.ipv6UdptcpCksum ip l4)

end Bytes

/-! ## In segments -/

section segments
variable (m : Segment) (next : List Segment) (pktLen : U32) (mem : Bytes) (ip : Nat) (l4Off : U16)

/-- What the two `__rte_ipv?_udptcp_cksum_mbuf` do with their pseudo-header. -/
def udptcpCksumMbuf (phdrCksum : Summing U16) : SegmentSum U16 := do
  let l4Off : U32 := l4Off.setWidth 32
  if l4Off > pktLen then
    return 0
  else
    match ← rteRawCksumMbuf m next pktLen l4Off (pktLen - l4Off) with
    | none => return 0
    | some raw =>
      let phdr ← OptionT.lift phdrCksum
      return foldTwo raw phdr

/-- `__rte_ipv4_udptcp_cksum_mbuf` -/
def ipv4UdptcpCksumMbuf : SegmentSum U16 :=
  udptcpCksumMbuf m next pktLen l4Off (mem.rteIpv4PhdrCksum ip 0)

/-- `__rte_ipv6_udptcp_cksum_mbuf` -/
def ipv6UdptcpCksumMbuf : SegmentSum U16 :=
  udptcpCksumMbuf m next pktLen l4Off (mem.rteIpv6PhdrCksum ip 0)

def rteIpv4UdptcpCksumMbuf : SegmentSum U16 := do
  return transmitted (mem (ip + 9)) (← ipv4UdptcpCksumMbuf m next pktLen mem ip l4Off)

def rteIpv6UdptcpCksumMbuf : SegmentSum U16 := do
  return transmitted (mem (ip + 6)) (← ipv6UdptcpCksumMbuf m next pktLen mem ip l4Off)

def rteIpv4UdptcpCksumMbufVerify : SegmentSum Int := do
  return verdict (← ipv4UdptcpCksumMbuf m next pktLen mem ip l4Off)

def rteIpv6UdptcpCksumMbufVerify : SegmentSum Int := do
  return verdict (← ipv6UdptcpCksumMbuf m next pktLen mem ip l4Off)

end segments

/-! ## What they are for -/

inductive Layer3 where
  | ipv4
  | ipv6

namespace Layer3

def cksumSum : Layer3 → Bytes → Nat → Nat → Summing U16
  | ipv4 => Bytes.ipv4UdptcpCksum
  | ipv6 => Bytes.ipv6UdptcpCksum

def cksum : Layer3 → Bytes → Nat → Nat → Summing U16
  | ipv4 => Bytes.rteIpv4UdptcpCksum
  | ipv6 => Bytes.rteIpv6UdptcpCksum

def verify : Layer3 → Bytes → Nat → Nat → Summing Int
  | ipv4 => Bytes.rteIpv4UdptcpCksumVerify
  | ipv6 => Bytes.rteIpv6UdptcpCksumVerify

def cksumSumMbuf : Layer3 → Segment → List Segment → U32 → Bytes → Nat → U16 → SegmentSum U16
  | ipv4 => ipv4UdptcpCksumMbuf
  | ipv6 => ipv6UdptcpCksumMbuf

def cksumMbuf : Layer3 → Segment → List Segment → U32 → Bytes → Nat → U16 → SegmentSum U16
  | ipv4 => rteIpv4UdptcpCksumMbuf
  | ipv6 => rteIpv6UdptcpCksumMbuf

def verifyMbuf : Layer3 → Segment → List Segment → U32 → Bytes → Nat → U16 → SegmentSum Int
  | ipv4 => rteIpv4UdptcpCksumMbufVerify
  | ipv6 => rteIpv6UdptcpCksumMbufVerify

def phdrCksum : Layer3 → Bytes → Nat → Summing U16
  | ipv4, mem, ip => mem.rteIpv4PhdrCksum ip 0
  | ipv6, mem, ip => mem.rteIpv6PhdrCksum ip 0

/-- The fixed part of the header. -/
def size : Layer3 → Nat
  | ipv4 => 20
  | ipv6 => 40

/-- Where the header has the protocol. -/
def protoAt : Layer3 → Nat
  | ipv4 => 9
  | ipv6 => 6

/-- The number of bytes behind the IP header, if this is not longer than the packet. -/
def l4Len : Layer3 → Bytes → Nat → Option Nat
  | ipv4, mem, ip =>
    let total := (mem (ip + 2)).toNat * 256 + (mem (ip + 3)).toNat
    let header := (mem ip).toNat % 16 * 4
    if header ≤ total then some (total - header) else none
  | ipv6, mem, ip => some ((mem (ip + 4)).toNat * 256 + (mem (ip + 5)).toNat)

/-- The pseudo-header for `n` bytes of UDP or TCP, in network order. -/
def pseudo (v : Layer3) (mem : Bytes) (ip n : Nat) : List U8 :=
  let len := [BitVec.ofNat 8 (n / 256), BitVec.ofNat 8 n]
  match v with
  | ipv4 => slice mem (ip + 12) 8 ++ ([0, mem (ip + 9)] ++ len)
  | ipv6 => slice mem (ip + 8) 32 ++ ([0, 0] ++ len ++ [0, 0, 0, mem (ip + 6)])

/-- All the bytes that the checksum is over. -/
def covered (v : Layer3) (mem : Bytes) (ip l4 n : Nat) : List U8 :=
  v.pseudo mem ip n ++ slice mem l4 n

end Layer3

/-! ## Bytes in memory -/

theorem slice_getD (bs : List U8) : slice (fun i => bs.getD i 0) 0 bs.length = bs := by
  apply List.ext_getElem
  · exact length_slice ..
  · intro i hi inside
    simp [slice, inside]

theorem wordSum_append {as : List U8} (even : as.length % 2 = 0) (bs : List U8) :
    wordSum (as ++ bs) = wordSum as + wordSum bs := by
  rw [wordSum, List.map_append, pairSum_append (by rwa [List.length_map])]
  rfl

theorem slice_append (mem : Bytes) (p n k : Nat) :
    slice mem p (n + k) = slice mem p n ++ slice mem (p + n) k := by
  rw [slice, List.range'_append_1.symm, List.map_append]
  rfl

theorem leBytes_succ (n : Nat) {w : Nat} (v : BitVec w) :
    leBytes (n + 1) v = v.setWidth 8 :: leBytes n (v >>> 8) := by
  rw [leBytes, leBytes, List.range_succ_eq_map, List.map_cons, List.map_map]
  apply congrArg₂ List.cons
  · rfl
  · apply List.map_congr_left
    intro i _
    rw [Function.comp_apply, Nat.mul_succ, Nat.add_comm, BitVec.shiftRight_add]

/-- The bytes of a number in memory are those that it is made of. -/
theorem leBytes_of_number {w : Nat} {v : BitVec w} (bs : List U8) (h : v.toNat = number bs) :
    leBytes bs.length v = bs := by
  induction bs generalizing v with
  | nil => rfl
  | cons b bs ih =>
    have byte := b.isLt
    rw [number, List.map_cons, Nat.ofDigits_cons, ← number] at h
    have first : v.setWidth 8 = b := by
      apply BitVec.eq_of_toNat_eq
      rw [BitVec.toNat_setWidth, h]
      omega
    have rest : (v >>> 8).toNat = number bs := by
      rw [BitVec.toNat_ushiftRight, Nat.shiftRight_eq_div_pow, h]
      omega
    rw [List.length_cons, leBytes_succ, first, ih rest]

theorem number_two (a b : U8) : number [a, b] = a.toNat + 256 * b.toNat := by
  simp [number, Nat.ofDigits_cons]

theorem number_four (a b c d : U8) :
    number [a, b, c, d] = a.toNat + 256 * b.toNat + 65536 * (c.toNat + 256 * d.toNat) := by
  simp only [number, List.map_cons, List.map_nil, Nat.ofDigits_cons, Nat.ofDigits_nil]
  omega

theorem leBytes_load32 (mem : Bytes) (p : Nat) : leBytes 4 (mem.load32 p) = slice mem p 4 := by
  apply leBytes_of_number [mem p, mem (p + 1), mem (p + 2), mem (p + 3)]
  have low := (mem.load16 p).isLt
  have second : (mem.load16 (p + 2)).toNat = (mem (p + 2)).toNat + 256 * (mem (p + 3)).toNat :=
    mem.toNat_load16 (p + 2)
  rw [number_four, Bytes.load32, BitVec.toNat_append, ← Nat.shiftLeft_add_eq_or_of_lt low,
    Nat.shiftLeft_eq, second, mem.toNat_load16]
  omega

theorem leBytes_load16 (mem : Bytes) (p : Nat) :
    leBytes 4 ((mem.load16 p).setWidth 32) = [mem p, mem (p + 1), 0, 0] := by
  apply leBytes_of_number [mem p, mem (p + 1), 0, 0]
  have short := (mem.load16 p).isLt
  rw [number_four, BitVec.toNat_setWidth, Nat.mod_eq_of_lt (by omega), mem.toNat_load16]
  rfl

/-- A length turned around lies in memory in network order. -/
theorem leBytes_bswap16 (v : U16) :
    leBytes 2 (bswap16 v) = [BitVec.ofNat 8 (v.toNat / 256), BitVec.ofNat 8 v.toNat] := by
  apply leBytes_of_number [BitVec.ofNat 8 (v.toNat / 256), BitVec.ofNat 8 v.toNat]
  have short := v.isLt
  rw [number_two, toNat_bswap16, BitVec.toNat_ofNat, BitVec.toNat_ofNat]
  omega

theorem toNat_bswap_load16 (mem : Bytes) (p : Nat) :
    ((bswap16 (mem.load16 p)).setWidth 32 : U32).toNat =
      (mem p).toNat * 256 + (mem (p + 1)).toNat := by
  have low := (mem p).isLt
  have high := (mem (p + 1)).isLt
  have halves : (mem.load16 p).toNat % 256 = (mem p).toNat ∧
      (mem.load16 p).toNat / 256 = (mem (p + 1)).toNat := by
    rw [mem.toNat_load16]
    omega
  rw [BitVec.toNat_setWidth, toNat_bswap16, halves.1, halves.2, Nat.mod_eq_of_lt (by omega)]

theorem toNat_rteIpv4HdrLen (mem : Bytes) (ip : Nat) :
    ((mem.rteIpv4HdrLen ip).setWidth 32 : U32).toNat = (mem ip).toNat % 16 * 4 := by
  have low : (mem ip &&& 0x0f).toNat = (mem ip).toNat % 16 := by
    rw [BitVec.toNat_and]
    exact Nat.and_two_pow_sub_one_eq_mod _ 4
  have four : (4 : U8).toNat = 4 := rfl
  rw [Bytes.rteIpv4HdrLen, BitVec.toNat_setWidth, BitVec.toNat_mul, low, four]
  omega

/-! ## What is computed -/

/-- Folding two checksums together is their one's-complement sum. -/
theorem foldTwo_eq (raw phdr : U16) : foldTwo raw phdr = OnesComplement.add raw phdr := by
  have first := raw.isLt
  have second := phdr.isLt
  have sum : (raw.setWidth 32 + phdr.setWidth 32 : U32).toNat = raw.toNat + phdr.toNat := by
    rw [BitVec.toNat_add, BitVec.toNat_setWidth, BitVec.toNat_setWidth]
    omega
  apply BitVec.eq_of_toNat_eq
  rw [foldTwo, BitVec.toNat_setWidth, toNat_fold, sum, OnesComplement.toNat_add]
  split <;> omega

theorem pseudo_even (v : Layer3) (mem : Bytes) (ip n : Nat) :
    (v.pseudo mem ip n).length % 2 = 0 := by
  cases v <;> simp [Layer3.pseudo, length_slice]

theorem l4Len_ipv4 {mem : Bytes} {ip n : Nat} : Layer3.ipv4.l4Len mem ip = some n ↔
    (mem ip).toNat % 16 * 4 + n = (mem (ip + 2)).toNat * 256 + (mem (ip + 3)).toNat := by
  rw [Layer3.l4Len]
  split
  · rw [Option.some.injEq]
    omega
  · exact iff_of_false (Option.some_ne_none n).symm (by omega)

theorem l4Len_ipv6 {mem : Bytes} {ip n : Nat} : Layer3.ipv6.l4Len mem ip = some n ↔
    n = (mem (ip + 4)).toNat * 256 + (mem (ip + 5)).toNat := by
  rw [Layer3.l4Len, Option.some.injEq, eq_comm]

theorem l4Len_lt {v : Layer3} {mem : Bytes} {ip n : Nat} (len : v.l4Len mem ip = some n) :
    n < 2 ^ 16 := by
  have byte (p : Nat) := (mem p).isLt
  cases v with
  | ipv4 =>
    have high := byte (ip + 2)
    have low := byte (ip + 3)
    have all := l4Len_ipv4.mp len
    omega
  | ipv6 =>
    have high := byte (ip + 4)
    have low := byte (ip + 5)
    have all := l4Len_ipv6.mp len
    omega

/-- The lengths of an IPv4 packet, when its header is not longer than all of it. -/
theorem ipv4_l4Len {mem : Bytes} {ip n : Nat} (len : Layer3.ipv4.l4Len mem ip = some n) :
    let header : U32 := (mem.rteIpv4HdrLen ip).setWidth 32
    let total : U32 := (bswap16 (mem.load16 (ip + 2))).setWidth 32
    ¬ total < header ∧ (total - header).toNat = n := by
  intro header total
  have hdr : header.toNat = _ := toNat_rteIpv4HdrLen mem ip
  have all : total.toNat = _ := toNat_bswap_load16 mem (ip + 2)
  have sum : header.toNat + n = total.toNat := by
    rw [hdr, all]
    exact l4Len_ipv4.mp len
  have le : header ≤ total := by
    rw [BitVec.le_def]
    omega
  refine ⟨BitVec.not_lt.mpr le, ?_⟩
  rw [BitVec.toNat_sub_of_le le]
  omega

theorem ipv6PsdHdr_eq (mem : Bytes) (ip : Nat) :
    mem.ipv6PsdHdr ip 0 = [mem (ip + 4), mem (ip + 5), 0, 0, 0, 0, 0, mem (ip + 6)] := by
  have noTso : ¬ (0 : U64) &&& Bytes.txTcpSeg ≠ 0 := by decide
  have proto : leBytes 4 ((mem (ip + 6)).setWidth 32 <<< 24 : U32) = [0, 0, 0, mem (ip + 6)] := by
    apply leBytes_of_number [0, 0, 0, mem (ip + 6)]
    have byte := (mem (ip + 6)).isLt
    rw [number_four, BitVec.toNat_shiftLeft, Nat.shiftLeft_eq, BitVec.toNat_setWidth]
    have zero : (0 : U8).toNat = 0 := rfl
    omega
  rw [Bytes.ipv6PsdHdr, if_neg noTso, leBytes_load16, proto]
  rfl

/-- The two halves of the pseudo-header are summed up one after the other. -/
theorem ipv6PhdrCksum_returns {mem : Bytes} {ip n : Nat}
    (len : Layer3.ipv6.l4Len mem ip = some n) :
    ∃ es phdr, (mem.rteIpv6PhdrCksum ip 0).Returns () es phdr () ∧
      Represents phdr (wordSum (Layer3.ipv6.pseudo mem ip n)) := by
  let psdHdr : Bytes := fun i => (mem.ipv6PsdHdr ip 0).getD i 0
  let addresses := total 0 (mem.added (ip + 8) 32)
  have bytes : slice psdHdr 0 8 = mem.ipv6PsdHdr ip 0 := slice_getD (mem.ipv6PsdHdr ip 0)
  have first : addresses.toNat = wordSum (slice mem (ip + 8) 32) := by
    rw [(mem.added_fits (show 32 < 2 ^ 16 by decide)).2, sum_added]
  have few := wordSum_le (slice mem (ip + 8) 32)
  have few' := wordSum_le (slice psdHdr 0 8)
  rw [length_slice] at few few'
  have room : addresses.toNat + sum (psdHdr.added 0 8) < 2 ^ 32 := by
    rw [sum_added, first]
    omega
  have both := (fits room).2
  rw [sum_added, first, bytes, ipv6PsdHdr_eq] at both
  have same : wordSum (Layer3.ipv6.pseudo mem ip n) = wordSum (slice mem (ip + 8) 32) +
      wordSum [mem (ip + 4), mem (ip + 5), 0, 0, 0, 0, 0, mem (ip + 6)] := by
    have even : (slice mem (ip + 8) 32).length % 2 = 0 := by rw [length_slice]
    have high := (mem (ip + 4)).isLt
    have low := (mem (ip + 5)).isLt
    have bytes : BitVec.ofNat 8 (n / 256) = mem (ip + 4) ∧ BitVec.ofNat 8 n = mem (ip + 5) := by
      rw [l4Len_ipv6.mp len]
      constructor <;> apply BitVec.eq_of_toNat_eq <;> rw [BitVec.toNat_ofNat] <;> omega
    rw [Layer3.pseudo, bytes.1, bytes.2, wordSum_append even]
    simp [wordSum, pairSum]
  have folded := represents_rawCksumReduce (total addresses (psdHdr.added 0 8))
  rw [both, ← same] at folded
  exact ⟨_, _, (rawCksum_returns mem (ip + 8) 32 0).bind
    ((rawCksum_returns psdHdr 0 8 addresses).bind (pure_returns _ ())), folded⟩

/-- The sum of a pseudo-header is that of its bytes in network order. -/
theorem phdrCksum_returns {v : Layer3} {mem : Bytes} {ip n : Nat} (len : v.l4Len mem ip = some n) :
    ∃ es phdr, (v.phdrCksum mem ip).Returns () es phdr () ∧
      Represents phdr (wordSum (v.pseudo mem ip n)) := by
  have short := l4Len_lt len
  have noTso : ¬ (0 : U64) &&& Bytes.txTcpSeg ≠ 0 := by decide
  cases v with
  | ipv4 =>
    have rest := (ipv4_l4Len len).2
    unfold Layer3.phdrCksum Bytes.rteIpv4PhdrCksum
    dsimp only at rest ⊢
    rw [if_neg noTso]
    generalize hlen : ((bswap16 (mem.load16 (ip + 2))).setWidth 32 -
      (mem.rteIpv4HdrLen ip).setWidth 32 : U32).setWidth 16 = l4
    have value : l4.toNat = n := by
      rw [← hlen, BitVec.toNat_setWidth, rest, Nat.mod_eq_of_lt short]
    let psd : PsdHdr := ⟨mem.load32 (ip + 12), mem.load32 (ip + 16), 0, mem (ip + 9), bswap16 l4⟩
    have bytes : slice psd.memory 0 12 = psd.bytes := slice_getD psd.bytes
    have same : psd.bytes = Layer3.ipv4.pseudo mem ip n := by
      rw [PsdHdr.bytes, leBytes_load32, leBytes_load32, leBytes_bswap16, value, Layer3.pseudo,
        slice_append mem (ip + 12) 4 4, List.append_assoc]
    have folded := represents_csumFold psd.memory 0 (show 12 < 2 ^ 16 by decide)
    rw [sum_added, bytes, same] at folded
    exact ⟨_, _, rteRawCksum_returns psd.memory 0 12, folded⟩
  | ipv6 => exact ipv6PhdrCksum_returns len

/-- Both do the same with the length that they find. -/
theorem cksumSum_eq {v : Layer3} {mem : Bytes} {ip n : Nat} (l4 : Nat)
    (len : v.l4Len mem ip = some n) : v.cksumSum mem ip l4 = (do
      let raw ← mem.rteRawCksum l4 n
      let phdr ← v.phdrCksum mem ip
      return foldTwo raw phdr) := by
  cases v with
  | ipv4 =>
    obtain ⟨fits, rest⟩ := ipv4_l4Len len
    rw [Layer3.cksumSum, Bytes.ipv4UdptcpCksum]
    dsimp only
    rw [if_neg fits, rest]
    rfl
  | ipv6 =>
    have rest : ((bswap16 (mem.load16 (ip + 4))).setWidth 32 : U32).toNat = n :=
      (toNat_bswap_load16 mem (ip + 4)).trans (l4Len_ipv6.mp len).symm
    rw [Layer3.cksumSum, Bytes.ipv6UdptcpCksum, rest]
    rfl

/-- So is the sum of both, if there are bytes to sum up. -/
theorem cksumSum_returns {v : Layer3} {mem : Bytes} {ip n : Nat} (l4 : Nat)
    (len : v.l4Len mem ip = some n) :
    ∃ es sum, (v.cksumSum mem ip l4).Returns () es sum () ∧
      Represents sum (wordSum (v.covered mem ip l4 n)) := by
  obtain ⟨fs, phdr, header, pseudo⟩ := phdrCksum_returns len
  have data := represents_csumFold mem l4 (l4Len_lt len)
  rw [sum_added] at data
  have both := data.add pseudo
  rw [Nat.add_comm, ← wordSum_append (pseudo_even v mem ip n), ← foldTwo_eq] at both
  rw [cksumSum_eq l4 len]
  exact ⟨_, _, (rteRawCksum_returns mem l4 n).bind (header.bind (pure_returns _ ())), both⟩

/-! ## What verifies -/

theorem verify_returns {v : Layer3} {mem : Bytes} {ip l4 : Nat} {es : List (U32 × U32)} {sum : U16}
    (h : (v.cksumSum mem ip l4).Returns () es sum ()) :
    (v.verify mem ip l4).Returns () (es ++ []) (verdict sum) () := by
  cases v with
  | ipv4 => exact h.bind (pure_returns _ ())
  | ipv6 => exact h.bind (pure_returns _ ())

theorem cksum_returns {v : Layer3} {mem : Bytes} {ip l4 : Nat} {es : List (U32 × U32)} {sum : U16}
    (h : (v.cksumSum mem ip l4).Returns () es sum ()) :
    (v.cksum mem ip l4).Returns () (es ++ []) (transmitted (mem (ip + v.protoAt)) sum) () := by
  cases v with
  | ipv4 => exact h.bind (pure_returns _ ())
  | ipv6 => exact h.bind (pure_returns _ ())

theorem verdict_eq_zero (cksum : U16) : verdict cksum = 0 ↔ cksum = 0xffff := by
  unfold verdict
  split <;> simp_all

/-- A header that is longer than the packet. -/
theorem cksumSum_refused {v : Layer3} {mem : Bytes} {ip : Nat} (l4 : Nat)
    (none : v.l4Len mem ip = none) : (v.cksumSum mem ip l4).Returns () [] 0 () := by
  cases v with
  | ipv4 =>
    have short : ((bswap16 (mem.load16 (ip + 2))).setWidth 32 : U32) <
        (mem.rteIpv4HdrLen ip).setWidth 32 := by
      have hdr := toNat_rteIpv4HdrLen mem ip
      have all := toNat_bswap_load16 mem (ip + 2)
      rw [BitVec.lt_def, hdr, all]
      by_contra fits
      have some := l4Len_ipv4.mpr (Nat.add_sub_of_le (Nat.not_lt.mp fits))
      exact Option.some_ne_none _ (some.symm.trans none)
    rw [Layer3.cksumSum, Bytes.ipv4UdptcpCksum]
    dsimp only
    rw [if_pos short]
    exact pure_returns _ ()
  | ipv6 => cases none

/-- A packet verifies just when the words of the pseudo-header and of all the bytes behind
the IP header, in network order, have the one's-complement sum 0xFFFF. -/
theorem udptcpCksumVerify_iff (v : Layer3) (mem : Bytes) (ip l4 : Nat) :
    ∃ es r, (v.verify mem ip l4).Returns () es r () ∧ (r = 0 ↔ ∃ n, v.l4Len mem ip = some n ∧
      OnesComplement.sum (OnesComplement.words (v.covered mem ip l4 n)) = 0xFFFF) := by
  cases len : v.l4Len mem ip with
  | none =>
    refine ⟨_, _, verify_returns (cksumSum_refused l4 len), iff_of_false (by decide) ?_⟩
    rintro ⟨n, some, _⟩
    cases some
  | some n =>
    obtain ⟨es, sum, run, total⟩ := cksumSum_returns l4 len
    refine ⟨_, _, verify_returns run, ?_⟩
    have ones := total.eq_allOnes_iff (by decide)
    have words := OnesComplement.sum_words_eq_allOnes (by decide) (v.covered mem ip l4 n)
    rw [verdict_eq_zero]
    constructor
    · intro all
      exact ⟨n, rfl, words.mpr (ones.mp all)⟩
    · rintro ⟨_, ⟨⟩, all⟩
      exact ones.mpr (words.mp all)

/-! ## A word of the packet -/

theorem layer3_congr {v : Layer3} {mem mem' : Bytes} {ip : Nat}
    (same : ∀ i < v.size, mem' (ip + i) = mem (ip + i)) :
    v.l4Len mem' ip = v.l4Len mem ip ∧ (∀ n, v.pseudo mem' ip n = v.pseudo mem ip n) ∧
      mem' (ip + v.protoAt) = mem (ip + v.protoAt) := by
  have copied {p n : Nat} (inside : p + n ≤ v.size) :
      slice mem' (ip + p) n = slice mem (ip + p) n := by
    apply List.map_congr_left
    intro i hi
    have bounds := List.mem_range'_1.mp hi
    have value := same (i - ip) (by omega)
    rwa [Nat.add_sub_of_le (by omega)] at value
  cases v with
  | ipv4 =>
    have header : mem' ip = mem ip := same 0 (by decide)
    rw [Layer3.l4Len, Layer3.l4Len, header, same 2 (by decide), same 3 (by decide)]
    refine ⟨rfl, fun n => ?_, same 9 (by decide)⟩
    rw [Layer3.pseudo, Layer3.pseudo, copied (Nat.le_refl 20), same 9 (by decide)]
  | ipv6 =>
    rw [Layer3.l4Len, Layer3.l4Len, same 4 (by decide), same 5 (by decide)]
    refine ⟨rfl, fun n => ?_, same 6 (by decide)⟩
    rw [Layer3.pseudo, Layer3.pseudo, copied (Nat.le_refl 40), same 6 (by decide)]

theorem write16_other (mem : Bytes) {off i : Nat} (v : U16) (apart : i < off ∨ off + 2 ≤ i) :
    mem.write16 off v i = mem i := by
  rw [Bytes.write16, if_neg (by omega), if_neg (by omega)]

theorem slice_write16_other (mem : Bytes) {off p n : Nat} (v : U16)
    (apart : p + n ≤ off ∨ off + 2 ≤ p) : slice (mem.write16 off v) p n = slice mem p n := by
  apply List.map_congr_left
  intro i hi
  have inside := List.mem_range'_1.mp hi
  exact write16_other mem v (by omega)

theorem wordSum_write16_self (mem : Bytes) (off : Nat) (v : U16) :
    wordSum (slice (mem.write16 off v) off 2) = v.toNat := by
  have short := v.isLt
  have low : mem.write16 off v off = v.setWidth 8 := if_pos rfl
  have high : mem.write16 off v (off + 1) = (v >>> 8).setWidth 8 := by
    rw [Bytes.write16, if_neg (Nat.succ_ne_self off), if_pos rfl]
  change wordSum [mem.write16 off v off, mem.write16 off v (off + 1)] = _
  rw [low, high]
  simp only [wordSum, pairSum, List.map_cons, List.map_nil, BitVec.toNat_setWidth,
    BitVec.toNat_ushiftRight, Nat.shiftRight_eq_div_pow]
  omega

/-- A word of the bytes that are summed up adds its value and nothing else. -/
theorem wordSum_write16 (mem : Bytes) (p : Nat) {off n : Nat} (even : off % 2 = 0)
    (inside : off + 2 ≤ n) :
    ∃ others, ∀ v, wordSum (slice (mem.write16 (p + off) v) p n) = others + v.toNat := by
  obtain ⟨k, rfl⟩ := Nat.exists_eq_add_of_le inside
  refine ⟨wordSum (slice mem p off) + wordSum (slice mem (p + off + 2) k), fun v => ?_⟩
  have before := slice_write16_other mem v (.inl (Nat.le_refl (p + off)))
  have behind : slice (mem.write16 (p + off) v) (p + off + 2) k = slice mem (p + off + 2) k :=
    slice_write16_other mem v (.inr (Nat.le_refl _))
  rw [Nat.add_assoc, slice_append, slice_append, before, behind,
    wordSum_append (by rwa [length_slice]), wordSum_append (by rw [length_slice]),
    wordSum_write16_self]
  omega

/-! ## The field -/

theorem pseudo_ne_zero {v : Layer3} {mem : Bytes} {ip : Nat} (n : Nat)
    (proto : mem (ip + v.protoAt) ≠ 0) : wordSum (v.pseudo mem ip n) ≠ 0 := by
  rw [wordSum, ne_eq, pairSum_eq_zero (by decide)]
  intro zeros
  have present : mem (ip + v.protoAt) ∈ v.pseudo mem ip n := by
    cases v <;> simp [Layer3.pseudo, Layer3.protoAt]
  exact proto (BitVec.eq_of_toNat_eq (zeros _ (List.mem_map_of_mem present)))

/-- What is transmitted completes the sum. -/
theorem transmitted_modEq {sum : U16} {total : Nat} (proto : U8) (h : Represents sum total) :
    total + (transmitted proto sum).toNat ≡ 0 [MOD 65535] := by
  have short := sum.isLt
  have same := h.modEq
  have value : (~~~sum).toNat = 65535 - sum.toNat := BitVec.toNat_not
  unfold transmitted Nat.ModEq at *
  split
  · rename_i zero
    have ones : (0xffff : U16).toNat = 65535 := rfl
    have none : (~~~sum).toNat = 0 := congrArg BitVec.toNat zero.1
    omega
  · omega

/-- The checksum that is computed while its field is zero makes the packet verify, as does no
other field but the other encoding of zero. -/
theorem udptcpCksum_verifies (v : Layer3) (mem : Bytes) (ip l4 off n : Nat)
    (len : v.l4Len mem ip = some n) (proto : mem (ip + v.protoAt) ≠ 0) (even : off % 2 = 0)
    (inside : off + 2 ≤ n) (behind : ip + v.size ≤ l4 + off) :
    ∃ es c, (v.cksum (mem.write16 (l4 + off) 0) ip l4).Returns () es c () ∧
      (mem (ip + v.protoAt) = ipprotoUdp → c ≠ 0) ∧
      ∀ u, ∃ es' r, (v.verify (mem.write16 (l4 + off) u) ip l4).Returns () es' r () ∧
        (r = 0 ↔ u.toNat ≡ c.toNat [MOD 65535]) := by
  have kept (u : U16) : ∀ i < v.size, mem.write16 (l4 + off) u (ip + i) = mem (ip + i) :=
    fun i hi => write16_other mem u (.inl (by omega))
  have frame (u : U16) := layer3_congr (kept u)
  obtain ⟨others, data⟩ := wordSum_write16 mem l4 even inside
  let base := wordSum (v.pseudo mem ip n) + others
  have total (u : U16) :
      wordSum (v.covered (mem.write16 (l4 + off) u) ip l4 n) = base + u.toNat := by
    rw [Layer3.covered, wordSum_append (pseudo_even ..), (frame u).2.1, data, Nat.add_assoc]
  have nonzero : base ≠ 0 := by
    have header := pseudo_ne_zero n proto
    omega
  obtain ⟨es, sum, run, represents⟩ := cksumSum_returns l4 ((frame 0).1.trans len)
  rw [total 0] at represents
  have field := cksum_returns run
  rw [(frame 0).2.2] at field
  have completes := transmitted_modEq (mem (ip + v.protoAt)) represents
  refine ⟨_, _, field, ?_, fun u => ?_⟩
  · intro udp
    unfold transmitted
    split
    · decide
    · rename_i other
      exact fun none => other ⟨none, udp⟩
  · obtain ⟨es', sum', run', represents'⟩ := cksumSum_returns l4 ((frame u).1.trans len)
    rw [total u] at represents'
    refine ⟨_, _, verify_returns run', ?_⟩
    have ones := represents'.eq_allOnes_iff (by decide)
    rw [verdict_eq_zero]
    refine Iff.trans ones ?_
    rw [and_iff_right (by omega), ← Nat.modEq_zero_iff_dvd]
    constructor
    · exact fun whole => Nat.ModEq.add_left_cancel' base (whole.trans completes.symm)
    · exact fun same => (same.add_left base).trans completes

/-- An IPv4 header for `n` bytes of UDP. -/
def udpHeader (n : U8) : Bytes := fun i =>
  [0x45, 0, 0, 20 + n, 0, 0, 0, 0, 64, ipprotoUdp, 0, 0, 10, 0, 0, 1, 10, 0, 0, 2].getD i 0

/-- The checksum of an empty datagram. -/
theorem datagram_verifies : ∃ es c es',
    (((udpHeader 8).write16 26 0).rteIpv4UdptcpCksum 0 20).Returns () es c () ∧ c ≠ 0 ∧
      (((udpHeader 8).write16 26 c).rteIpv4UdptcpCksumVerify 0 20).Returns () es' 0 () := by
  obtain ⟨es, c, run, other, verifies⟩ := udptcpCksum_verifies .ipv4 (udpHeader 8) 0 20 6 8
    (by decide) (by decide) (by decide) (by decide) (by decide)
  obtain ⟨es', r, run', zero⟩ := verifies c
  rw [zero.mpr rfl] at run'
  exact ⟨es, c, es', run, other (by decide), run'⟩

/-! ## The packet in segments -/

theorem flat_first {m : Segment} (next : List Segment) {i : Nat} (inside : i < m.dataLen.toNat) :
    flat (m :: next) i = m.data i := by
  have there : i < m.bytes.length := by rwa [m.length_bytes]
  rw [flat, packetBytes_cons, List.getD_eq_getElem?_getD, List.getElem?_append_left there]
  simp [Segment.bytes, slice, inside]

section segments
variable {v : Layer3} {m : Segment} {next : List Segment} {pktLen : U32} {ip n : Nat} {l4Off : U16}

theorem udptcpCksumMbuf_passes {phdrCksum : Summing U16} {es fs : List (U32 × U32)}
    {raw phdr : U16} (inside : l4Off.toNat ≤ pktLen.toNat)
    (first : Passes (rteRawCksumMbuf m next pktLen (l4Off.setWidth 32)
      (pktLen - l4Off.setWidth 32)) () es (some raw) ())
    (header : phdrCksum.Returns () fs phdr ()) :
    Passes (udptcpCksumMbuf m next pktLen l4Off phdrCksum) () (es ++ (fs ++ []))
      (foldTwo raw phdr) () := by
  have fits : ¬ (l4Off.setWidth 32 : U32) > pktLen := by
    have short := l4Off.isLt
    rw [gt_iff_lt, BitVec.lt_def, BitVec.toNat_setWidth, Nat.mod_eq_of_lt (by omega)]
    omega
  rw [udptcpCksumMbuf, if_neg fits]
  exact passes_bind.mpr ⟨es, some raw, (), fs ++ [], first, passes_bind.mpr
    ⟨fs, phdr, (), [], passes_lift.mpr header, passes_pure.mpr ⟨rfl, rfl, rfl⟩, rfl⟩, rfl⟩

theorem cksumSumMbuf_eq (v : Layer3) (m : Segment) (next : List Segment) (pktLen : U32)
    (mem : Bytes) (ip : Nat) (l4Off : U16) : v.cksumSumMbuf m next pktLen mem ip l4Off =
      udptcpCksumMbuf m next pktLen l4Off (v.phdrCksum mem ip) := by
  cases v <;> rfl

/-- The sums of a packet without a trailer, in segments and in one piece. -/
theorem cksumSumMbuf_iff (whole : pktLen.toNat = (packetBytes (m :: next)).length)
    (header : ip + v.size ≤ m.dataLen.toNat) (len : v.l4Len m.data ip = some n) (some : 0 < n)
    (ends : l4Off.toNat + n = pktLen.toNat) : ∃ es sum es' sum',
      Passes (v.cksumSumMbuf m next pktLen m.data ip l4Off) () es sum () ∧
      (v.cksumSum (flat (m :: next)) ip l4Off.toNat).Returns () es' sum' () ∧
      Represents sum (wordSum (v.pseudo m.data ip n) +
        segmentTotal 0 (cut l4Off.toNat n (m :: next))) ∧
      Represents sum' (wordSum (v.pseudo m.data ip n) +
        number (cut l4Off.toNat n (m :: next)).flatten) := by
  have copied : ∀ i < v.size, flat (m :: next) (ip + i) = m.data (ip + i) :=
    fun i hi => flat_first next (by omega)
  obtain ⟨sameLen, samePseudo, _⟩ := layer3_congr copied
  obtain ⟨fs, phdr, header, pseudo⟩ := phdrCksum_returns len
  have small := l4Len_lt len
  have wide : (l4Off.setWidth 32 : U32).toNat = l4Off.toNat := by
    have short := l4Off.isLt
    rw [BitVec.toNat_setWidth, Nat.mod_eq_of_lt (by omega)]
  have rest : (pktLen - l4Off.setWidth 32).toNat = n := by
    rw [BitVec.toNat_sub_of_le (by rw [BitVec.le_def, wide]; omega), wide]
    omega
  have inRange : (l4Off.setWidth 32 : U32).toNat + (pktLen - l4Off.setWidth 32).toNat < 2 ^ 32 := by
    rw [wide, rest, ends]
    exact pktLen.isLt
  have outcome := rteRawCksumMbuf_cases whole inRange (by rwa [rest])
  rw [wide, rest] at outcome
  rcases outcome with ⟨refused | ⟨_, atEnd⟩, _⟩ | ⟨_, es, raw, first, summed⟩
  · omega
  · rw [← atEnd, wide] at ends
    omega
  have both := summed.add pseudo
  rw [Nat.add_comm, ← foldTwo_eq] at both
  have run := udptcpCksumMbuf_passes (by omega) first header
  obtain ⟨es', sum', plain, total⟩ := cksumSum_returns l4Off.toNat (sameLen.trans len)
  have there : l4Off.toNat + n ≤ (packetBytes (m :: next)).length := by omega
  rw [Layer3.covered, wordSum_append (pseudo_even ..), samePseudo,
    slice_flat (m :: next) there] at total
  have bytes := wordSum_modEq (cut l4Off.toNat n (m :: next)).flatten
  have zero := number_eq_zero (cut l4Off.toNat n (m :: next)).flatten
  rw [cksumSumMbuf_eq]
  exact ⟨_, _, es', sum', run, plain, both, total.congr (bytes.add_left _) (by omega)⟩

theorem verifyMbuf_passes {mem : Bytes} {es : List (U32 × U32)} {sum : U16}
    (h : Passes (v.cksumSumMbuf m next pktLen mem ip l4Off) () es sum ()) :
    Passes (v.verifyMbuf m next pktLen mem ip l4Off) () (es ++ []) (verdict sum) () := by
  have last : Passes (pure (verdict sum) : SegmentSum Int) () [] (verdict sum) () :=
    passes_pure.mpr ⟨rfl, rfl, rfl⟩
  cases v with
  | ipv4 => exact passes_bind.mpr ⟨es, sum, (), [], h, last, rfl⟩
  | ipv6 => exact passes_bind.mpr ⟨es, sum, (), [], h, last, rfl⟩

theorem cksumMbuf_passes {mem : Bytes} {es : List (U32 × U32)} {sum : U16}
    (h : Passes (v.cksumSumMbuf m next pktLen mem ip l4Off) () es sum ()) :
    Passes (v.cksumMbuf m next pktLen mem ip l4Off) () (es ++ [])
      (transmitted (mem (ip + v.protoAt)) sum) () := by
  have last (c : U16) : Passes (pure c : SegmentSum U16) () [] c () :=
    passes_pure.mpr ⟨rfl, rfl, rfl⟩
  cases v with
  | ipv4 => exact passes_bind.mpr ⟨es, sum, (), [], h, last _, rfl⟩
  | ipv6 => exact passes_bind.mpr ⟨es, sum, (), [], h, last _, rfl⟩

end segments

/-- What is transmitted tells sums other than zero apart. -/
theorem transmitted_inj {a b : U16} (proto : U8) (ha : a ≠ 0) (hb : b ≠ 0) :
    transmitted proto a = transmitted proto b ↔ a = b := by
  refine ⟨fun same => ?_, congrArg _⟩
  unfold transmitted at same
  split at same <;> split at same
  · rename_i ones ones'
    exact BitVec.not_inj.mp (ones.1.trans ones'.1.symm)
  · exact absurd (BitVec.not_inj.mp (same.symm.trans rfl)) hb
  · exact absurd (BitVec.not_inj.mp (same.trans rfl)) ha
  · exact BitVec.not_inj.mp same

/-- A packet in segments has the checksum of the same packet in one piece, and passes with the
right one, just when no segment that starts at an odd distance has a carry. -/
theorem udptcpCksumMbuf_iff (v : Layer3) (m : Segment) (next : List Segment) (pktLen : U32)
    (ip n : Nat) (l4Off : U16) (whole : pktLen.toNat = (packetBytes (m :: next)).length)
    (header : ip + v.size ≤ m.dataLen.toNat) (len : v.l4Len m.data ip = some n) (pos : 0 < n)
    (ends : l4Off.toNat + n = pktLen.toNat) (proto : m.data (ip + v.protoAt) ≠ 0) :
    let kept := KeepsCarries (cut l4Off.toNat n (m :: next))
    (∃ es c es' c', Passes (v.cksumMbuf m next pktLen m.data ip l4Off) () es c () ∧
      (v.cksum (flat (m :: next)) ip l4Off.toNat).Returns () es' c' () ∧ (c = c' ↔ kept)) ∧
    ∃ es r es' r', Passes (v.verifyMbuf m next pktLen m.data ip l4Off) () es r () ∧
      (v.verify (flat (m :: next)) ip l4Off.toNat).Returns () es' r' () ∧
      (kept → r = r') ∧ (r = 0 → r' = 0 → kept) := by
  intro kept
  obtain ⟨es, sum, es', sum', run, plain, pieces, bytes⟩ :=
    cksumSumMbuf_iff whole header len pos ends
  have short := (cut_length l4Off.toNat n (m :: next)).trans_lt (l4Len_lt len)
  have same : sum = sum' ↔ kept := segmentTotal_eq_iff short pieces bytes
  have nonzero := pseudo_ne_zero n proto
  have proto' : flat (m :: next) (ip + v.protoAt) = m.data (ip + v.protoAt) :=
    flat_first next (by cases v <;> simp only [Layer3.size, Layer3.protoAt] at * <;> omega)
  constructor
  · have field := cksum_returns plain
    rw [proto'] at field
    refine ⟨_, _, _, _, cksumMbuf_passes run, field, ?_⟩
    rw [transmitted_inj _ (mt pieces.zero.mp (by omega)) (mt bytes.zero.mp (by omega)), same]
  · refine ⟨_, _, _, _, verifyMbuf_passes run, verify_returns plain, ?_, ?_⟩
    · exact fun h => congrArg verdict (same.mpr h)
    · intro ok ok'
      rw [verdict_eq_zero] at ok ok'
      exact same.mp (ok.trans ok'.symm)

/-- Four bytes 0xFF behind an odd number of bytes change the checksum. -/
theorem oddDatagram_differs :
    let next : List Segment := [⟨fun _ => 0xFF, 4⟩]
    ∃ es c es' c', Passes (rteIpv4UdptcpCksumMbuf ⟨udpHeader 13, 29⟩ next 33 (udpHeader 13) 0 20)
        () es c () ∧
      ((flat (⟨udpHeader 13, 29⟩ :: next)).rteIpv4UdptcpCksum 0 20).Returns () es' c' () ∧
      c ≠ c' := by
  intro next
  obtain ⟨⟨es, c, es', c', run, plain, same⟩, _⟩ := udptcpCksumMbuf_iff .ipv4 ⟨udpHeader 13, 29⟩
    next 33 0 13 20 (by decide) (by decide) (by decide) (by decide) (by decide) (by decide)
  have lost : ¬ KeepsCarries (cut 20 13 (⟨udpHeader 13, 29⟩ :: next)) := by
    unfold KeepsCarries
    decide
  exact ⟨es, c, es', c', run, plain, mt same.mp lost⟩

end Udp
