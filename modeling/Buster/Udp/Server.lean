import Buster.Lib.Trace

/-!
# The worker of the UDP echo server

A worker is the state of the lcore that runs `main_loop`: its configuration,
with the transmit buffers, and the packet buffers it has been handed. What the
devices answer is the parameter `Nic`. A run is seen through its events.
-/

namespace Udp

abbrev U8 := BitVec 8
abbrev U16 := BitVec 16
abbrev U32 := BitVec 32
abbrev U64 := BitVec 64

def maxPktBurst : Nat := 32

def maxRxQueuePerLcore : Nat := 16

/-- A `struct rte_mbuf *`. A received one is new: it is numbered by its arrival. -/
abbrev Ptr := Nat

def null : Ptr := 0

/-- A packet buffer of one segment. Bytes from `dataLen` on are left over in it. -/
structure Mbuf where
  dataLen : Nat
  data : Nat → U8
  olFlags : U64

def Mbuf.load16 (m : Mbuf) (off : Nat) : U16 := (m.data (off + 1) ++ m.data off : BitVec (8 + 8))

def Mbuf.write (m : Mbuf) (off : Nat) (bytes : List U8) : Mbuf :=
  { m with
    data := fun i =>
      if off ≤ i ∧ i < off + bytes.length then bytes.getD (i - off) 0 else m.data i }

structure MbufTable where
  len : Nat
  mTable : Vector Ptr maxPktBurst

def MbufTable.empty : MbufTable := ⟨0, Vector.replicate maxPktBurst null⟩

structure LcoreRxQueue where
  portId : U8
  queueId : U8
  deriving DecidableEq

/-- `tx_queue_ids` and `tx_mbufs` have `RTE_MAX_ETHPORTS` entries. Here they have one for
every `uint8_t`: the ports of the queues are taken to be below `RTE_MAX_ETHPORTS`. -/
structure LcoreConf where
  nRxQueue : Nat
  rxQueues : Vector LcoreRxQueue maxRxQueuePerLcore
  txQueueIds : U8 → U16
  txMbufs : U8 → MbufTable

/-- The queues that an lcore polls. -/
def LcoreConf.polled (c : LcoreConf) : List LcoreRxQueue := c.rxQueues.toList.take c.nRxQueue

/-- Entering at the end of the used part of a table. -/
theorem take_set_succ {α : Type} {l : List α} {n : Nat} (h : n < l.length) (a : α) :
    (l.set n a).take (n + 1) = l.take n ++ [a] := by
  rw [List.take_add_one, List.take_set_of_le (Nat.le_refl n), List.getElem?_set_self h]
  rfl

structure Worker where
  conf : LcoreConf
  mbufs : Ptr → Mbuf
  /-- The number the next buffer will get. -/
  next : Ptr
  rxCalls : Nat
  txCalls : Nat

inductive Event where
  | read (pkt : Ptr) (off bytes : Nat)
  | write (pkt : Ptr) (off bytes : Nat)
  /-- With the lengths of the transmit buffers at the call. -/
  | rxBurst (port queue : U8) (lens : U8 → Nat) (burst : List (Mbuf × Ptr))
  | storeTable (port : U8) (len : Nat) (pkt : Ptr)
  | txBurst (port : U8) (queue : U16) (pkts : List Ptr) (rv : Nat)
  | free (pkt : Ptr)

abbrev Server := Imp.Prog Event Worker

open Imp.Prog (get modify emit)

/-- What the devices answer, by the number of the call. -/
structure Nic where
  rxBurst : Nat → U8 → U8 → { burst : List Mbuf // burst.length ≤ maxPktBurst }
  txBurst : Nat → U8 → U16 → (n : Nat) → Fin (n + 1)

/-! ## Worker updates -/

def Worker.setMbuf (w : Worker) (pkt : Ptr) (m : Mbuf) : Worker :=
  { w with mbufs := Function.update w.mbufs pkt m }

def Worker.setTable (w : Worker) (port : U8) (t : MbufTable) : Worker :=
  { w with conf := { w.conf with txMbufs := Function.update w.conf.txMbufs port t } }

@[simp] theorem Worker.setTable_self (w : Worker) (port : U8) (t : MbufTable) :
    (w.setTable port t).conf.txMbufs port = t := Function.update_self ..

def Worker.setLen (w : Worker) (port : U8) (len : Nat) : Worker :=
  w.setTable port { w.conf.txMbufs port with len := len }

@[simp] theorem Worker.setLen_self (w : Worker) (port : U8) (len : Nat) :
    (w.setLen port len).conf.txMbufs port = { w.conf.txMbufs port with len := len } :=
  w.setTable_self port _

def Worker.receive (w : Worker) (ms : List Mbuf) : Worker :=
  { w with
    mbufs := fun p => if w.next ≤ p then (ms[p - w.next]?).getD (w.mbufs p) else w.mbufs p
    next := w.next + ms.length
    rxCalls := w.rxCalls + 1 }

/-! ## Packet data -/

def load8 (pkt : Ptr) (off : Nat) : Server U8 := do
  let w ← get
  emit (.read pkt off 1)
  return (w.mbufs pkt).data off

def load16 (pkt : Ptr) (off : Nat) : Server U16 := do
  let w ← get
  emit (.read pkt off 2)
  return (w.mbufs pkt).load16 off

/-- A field that is only moved is kept as its bytes. -/
def loadBytes (pkt : Ptr) (off n : Nat) : Server (List U8) := do
  let w ← get
  emit (.read pkt off n)
  return (List.range n).map fun i => (w.mbufs pkt).data (off + i)

def storeBytes (pkt : Ptr) (off : Nat) (bytes : List U8) : Server Unit := do
  emit (.write pkt off bytes.length)
  modify fun w => w.setMbuf pkt ((w.mbufs pkt).write off bytes)

def store16 (pkt : Ptr) (off : Nat) (v : U16) : Server Unit :=
  storeBytes pkt off [v.setWidth 8, (v >>> 8).setWidth 8]

/-! ## The calls to the devices -/

def rteEthRxBurst (nic : Nic) (port queue : U8) : Server (List Ptr) := do
  let w ← get
  let burst := (nic.rxBurst w.rxCalls port queue).val
  emit (.rxBurst port queue (fun p => (w.conf.txMbufs p).len) (burst.zipIdx w.next))
  modify fun w => w.receive burst
  return (burst.zipIdx w.next).map Prod.snd

def rteEthTxBurst (nic : Nic) (port : U8) (queue : U16) (pkts : List Ptr) : Server Nat := do
  let w ← get
  let rv := (nic.txBurst w.txCalls port queue pkts.length).val
  emit (.txBurst port queue pkts rv)
  modify fun w => { w with txCalls := w.txCalls + 1 }
  return rv

def rtePktmbufFree (pkt : Ptr) : Server Unit := emit (.free pkt)

end Udp
