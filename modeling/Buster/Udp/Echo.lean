import Buster.Udp.Server

/-!
# Echoing one packet

`echo_single_udp_packet` turns a UDP packet around where it lies in its buffer.
It goes by the headers only and never looks at the length of the data.
-/

namespace Udp

open Imp.Prog

def rteEtherTypeIpv4 : U16 := 0x0800
def rteEtherTypeVlan : U16 := 0x8100
def ipprotoUdp : U8 := 17

/-- `RTE_MBUF_F_TX_IP_CKSUM` and `RTE_MBUF_F_TX_UDP_CKSUM`. -/
def txCksumFlags : U64 := 1 <<< 54 ||| 3 <<< 52

/-- `rte_be_to_cpu_16` and `rte_cpu_to_be_16` on a little-endian host. -/
def bswap16 (v : U16) : U16 := (v.setWidth 8 ++ (v >>> 8).setWidth 8 : BitVec (8 + 8))

/-! ## The checksum of an IPv4 header -/

def rteIpv4HdrLen (pkt : Ptr) (ipH : Nat) : Server Nat := do
  let versionIhl ← load8 pkt ipH
  return ((versionIhl &&& 0x0f) * 4).toNat

def rawCksumWords (pkt : Ptr) : Nat → Nat → U32 → Server U32
  | 0, _, sum => pure sum
  | words + 1, buf, sum => do
    let v ← load16 pkt buf
    rawCksumWords pkt words (buf + 2) (sum + v.setWidth 32)

/-- `__rte_raw_cksum` -/
def rawCksumSum (pkt : Ptr) (buf len : Nat) (sum : U32) : Server U32 := do
  let sum ← rawCksumWords pkt (len / 2) buf sum
  if len % 2 = 1 then
    let left ← load8 pkt (buf + len / 2 * 2)
    return sum + left.setWidth 32
  else
    return sum

/-- `__rte_raw_cksum_reduce` -/
def rawCksumReduce (sum : U32) : U16 :=
  let sum := ((sum &&& 0xffff0000) >>> 16) + (sum &&& 0xffff)
  let sum := ((sum &&& 0xffff0000) >>> 16) + (sum &&& 0xffff)
  sum.setWidth 16

def rteRawCksum (pkt : Ptr) (buf len : Nat) : Server U16 := do
  let sum ← rawCksumSum pkt buf len 0
  return rawCksumReduce sum

def rteIpv4Cksum (pkt : Ptr) (ipH : Nat) : Server U16 := do
  let len ← rteIpv4HdrLen pkt ipH
  let cksum ← rteRawCksum pkt ipH len
  return ~~~cksum

/-! ## The echo -/

/-- The ethertype, past a VLAN tag if there is one, and the length before the IPv4 header. -/
def l2Header (pkt : Ptr) : Server (U16 × Nat) := do
  let etherType ← load16 pkt 12
  if bswap16 etherType = rteEtherTypeVlan then
    let ethProto ← load16 pkt (14 + 2)
    return (bswap16 ethProto, 14 + 4)
  else
    return (bswap16 etherType, 14)

/-- Two fields of the same size change places. -/
def swapFields (pkt : Ptr) (src dst n : Nat) : Server Unit := do
  let saved ← loadBytes pkt src n
  let other ← loadBytes pkt dst n
  storeBytes pkt src other
  storeBytes pkt dst saved

/-- The packet after its headers are known to be those of UDP over IPv4. -/
def turnAround (pkt : Ptr) (ipH udpH : Nat) : Server Unit := do
  swapFields pkt 6 0 6
  swapFields pkt (ipH + 12) (ipH + 16) 4
  swapFields pkt udpH (udpH + 2) 2
  modify fun w => w.setMbuf pkt
    { w.mbufs pkt with olFlags := (w.mbufs pkt).olFlags ||| txCksumFlags }
  store16 pkt (ipH + 10) 0
  let cksum ← rteIpv4Cksum pkt ipH
  store16 pkt (ipH + 10) cksum
  store16 pkt (udpH + 6) 0

def echoSingleUdpPacket (pkt : Ptr) : Server Bool := do
  let (ethType, l2Len) ← l2Header pkt
  if ethType ≠ rteEtherTypeIpv4 then
    return false
  else
    let nextProtoId ← load8 pkt (l2Len + 9)
    if nextProtoId ≠ ipprotoUdp then
      return false
    else
      turnAround pkt l2Len (l2Len + 20)
      return true

/-! ## What an echo leaves alone -/

/-- An access to the data of one packet. -/
def Event.Accesses (pkt : Ptr) : Event → Prop
  | .read p _ _ => p = pkt
  | .write p _ _ => p = pkt
  | _ => False

/-- At most the one buffer is another. -/
def Worker.SameBut (pkt : Ptr) (w w' : Worker) : Prop :=
  w'.conf = w.conf ∧ w'.next = w.next ∧ ∀ p, p ≠ pkt → w'.mbufs p = w.mbufs p

theorem Worker.SameBut.setMbuf {pkt : Ptr} {w w' : Worker} (h : w.SameBut pkt w') (m : Mbuf) :
    w.SameBut pkt (w'.setMbuf pkt m) := by
  refine ⟨h.1, h.2.1, ?_⟩
  intro p other
  rw [← h.2.2 p other]
  exact Function.update_of_ne other _ _

theorem accesses_read (pkt : Ptr) (off n : Nat) : Event.Accesses pkt (.read pkt off n) := rfl

theorem accesses_write (pkt : Ptr) (off n : Nat) : Event.Accesses pkt (.write pkt off n) := rfl

section echo
variable {pkt : Ptr} {w : Worker}

theorem completes_load8 (off : Nat) :
    (load8 pkt off).Completes (w.SameBut pkt) (Event.Accesses pkt) :=
  completes_get.bind fun _ => (completes_emit (accesses_read pkt off 1)).bind fun _ =>
    completes_pure _

theorem completes_load16 (off : Nat) :
    (load16 pkt off).Completes (w.SameBut pkt) (Event.Accesses pkt) :=
  completes_get.bind fun _ => (completes_emit (accesses_read pkt off 2)).bind fun _ =>
    completes_pure _

theorem completes_loadBytes (off n : Nat) :
    (loadBytes pkt off n).Completes (w.SameBut pkt) (Event.Accesses pkt) :=
  completes_get.bind fun _ => (completes_emit (accesses_read pkt off n)).bind fun _ =>
    completes_pure _

theorem completes_storeBytes (off : Nat) (bytes : List U8) :
    (storeBytes pkt off bytes).Completes (w.SameBut pkt) (Event.Accesses pkt) :=
  (completes_emit (accesses_write pkt off _)).bind fun _ => completes_modify fun _ h => h.setMbuf _

theorem completes_swapFields (src dst n : Nat) :
    (swapFields pkt src dst n).Completes (w.SameBut pkt) (Event.Accesses pkt) :=
  (completes_loadBytes src n).bind fun _ => (completes_loadBytes dst n).bind fun _ =>
    (completes_storeBytes src _).bind fun _ => completes_storeBytes dst _

theorem completes_rawCksumWords (words buf : Nat) (sum : U32) :
    (rawCksumWords pkt words buf sum).Completes (w.SameBut pkt) (Event.Accesses pkt) := by
  induction words generalizing buf sum with
  | zero => exact completes_pure _
  | succ words ih => exact (completes_load16 buf).bind fun v => ih _ _

theorem completes_rteIpv4Cksum (ipH : Nat) :
    (rteIpv4Cksum pkt ipH).Completes (w.SameBut pkt) (Event.Accesses pkt) := by
  have hdrLen : (rteIpv4HdrLen pkt ipH).Completes (w.SameBut pkt) (Event.Accesses pkt) :=
    (completes_load8 ipH).bind fun _ => completes_pure _
  have sum (len : Nat) : (rawCksumSum pkt ipH len 0).Completes (w.SameBut pkt)
      (Event.Accesses pkt) := by
    apply (completes_rawCksumWords (len / 2) ipH 0).bind
    intro sum
    split
    · exact (completes_load8 _).bind fun _ => completes_pure _
    · exact completes_pure _
  apply hdrLen.bind
  intro len
  exact ((sum len).bind fun _ => completes_pure _).bind fun _ => completes_pure _

theorem completes_turnAround (ipH udpH : Nat) :
    (turnAround pkt ipH udpH).Completes (w.SameBut pkt) (Event.Accesses pkt) :=
  (completes_swapFields _ _ _).bind fun _ => (completes_swapFields _ _ _).bind fun _ =>
    (completes_swapFields _ _ _).bind fun _ =>
      (completes_modify fun _ h => h.setMbuf _).bind fun _ =>
        (completes_storeBytes _ _).bind fun _ => (completes_rteIpv4Cksum ipH).bind fun _ =>
          (completes_storeBytes _ _).bind fun _ => completes_storeBytes _ _

theorem completes_echoSingleUdpPacket :
    (echoSingleUdpPacket pkt).Completes (w.SameBut pkt) (Event.Accesses pkt) := by
  have header : (l2Header pkt).Completes (w.SameBut pkt) (Event.Accesses pkt) := by
    apply (completes_load16 12).bind
    intro etherType
    split
    · exact (completes_load16 _).bind fun _ => completes_pure _
    · exact completes_pure _
  apply header.bind
  intro l2
  split
  split
  · exact completes_pure _
  apply (completes_load8 _).bind
  intro nextProtoId
  split
  · exact completes_pure _
  · exact (completes_turnAround _ _).bind fun _ => completes_pure _

end echo

end Udp
