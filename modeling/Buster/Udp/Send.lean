import Mathlib.Data.List.GetD
import Buster.Udp.Echo

/-!
# The transmit buffers

`send_one` enters a packet into the buffer of its port and flushes it at 32;
`send_burst` hands the first `n` packets of a buffer to the device and frees
those that were not taken.
-/

namespace Udp

open Imp.Prog

variable (nic : Nic)

/-- One round of the `do`-`while` that drops what could not be sent. -/
def dropRound (mTable : Vector Ptr maxPktBurst) (n rv : Nat) : Server (Nat ⊕ Unit) := do
  rtePktmbufFree (mTable.toList.getD rv null)
  if rv + 1 < n then
    return .inl (rv + 1)
  else
    return .inr ()

def sendBurst (n : Nat) (port : U8) : Server Unit := do
  let w ← get
  let queueid := w.conf.txQueueIds port
  let mTable := (w.conf.txMbufs port).mTable
  let rv ← rteEthTxBurst nic port queueid (mTable.toList.take n)
  if rv < n then
    loop (dropRound mTable n) rv
  else
    return ()

def sendOne (pkt : Ptr) (port : U8) : Server Unit := do
  let w ← get
  let len := (w.conf.txMbufs port).len
  emit (.storeTable port len pkt)
  modify fun w => w.setTable port
    { w.conf.txMbufs port with mTable := (w.conf.txMbufs port).mTable.setIfInBounds len pkt }
  if len + 1 = maxPktBurst then
    sendBurst nic maxPktBurst port
    modify fun w => w.setLen port 0
  else
    modify fun w => w.setLen port (len + 1)

/-! ## Reading a run -/

def Event.received : Event → List Ptr
  | .rxBurst _ _ _ burst => burst.map Prod.snd
  | _ => []

def Event.receivedOn (port : U8) : Event → List Ptr
  | .rxBurst p _ _ burst => if p = port then burst.map Prod.snd else []
  | _ => []

/-- What the device has taken. -/
def Event.acceptedOn (port : U8) : Event → List Ptr
  | .txBurst p _ pkts rv => if p = port then pkts.take rv else []
  | _ => []

/-- What is no longer the program's. -/
def Event.handedOver : Event → List Ptr
  | .txBurst _ _ pkts rv => pkts.take rv
  | .free pkt => [pkt]
  | _ => []

def received (es : List Event) : List Ptr := es.flatMap Event.received

def receivedOn (port : U8) (es : List Event) : List Ptr := es.flatMap (Event.receivedOn port)

def acceptedOn (port : U8) (es : List Event) : List Ptr := es.flatMap (Event.acceptedOn port)

def handedOver (es : List Event) : List Ptr := es.flatMap Event.handedOver

/-- Nothing is received, and nothing is sent but on this port; stores are inside the table. -/
def Event.Sends (port : U8) : Event → Prop
  | .rxBurst .. => False
  | .storeTable _ len _ => len < maxPktBurst
  | .txBurst p .. => p = port
  | _ => True

theorem Event.Accesses.sends {pkt : Ptr} {port : U8} {e : Event} (h : e.Accesses pkt) :
    e.Sends port ∧ e.handedOver = [] ∧ e.acceptedOn port = [] := by
  cases e with
  | read => exact ⟨trivial, rfl, rfl⟩
  | write => exact ⟨trivial, rfl, rfl⟩
  | rxBurst => exact h.elim
  | storeTable => exact h.elim
  | txBurst => exact h.elim
  | free => exact h.elim

/-! ## One buffer -/

/-- The packets that wait in the buffer of a port. -/
structure Pending (w : Worker) (port : U8) (pkts : List Ptr) : Prop where
  len : (w.conf.txMbufs port).len = pkts.length
  inside : pkts.length < maxPktBurst
  table : (w.conf.txMbufs port).mTable.toList.take pkts.length = pkts

/-- What sending on a port leaves alone. -/
structure Worker.SamePast (port : U8) (w w' : Worker) : Prop where
  queues : w'.conf.nRxQueue = w.conf.nRxQueue ∧ w'.conf.rxQueues = w.conf.rxQueues
  tables : ∀ p, p ≠ port → w'.conf.txMbufs p = w.conf.txMbufs p
  next : w'.next = w.next

theorem Worker.SamePast.refl (port : U8) (w : Worker) : w.SamePast port w :=
  ⟨⟨rfl, rfl⟩, fun _ _ => rfl, rfl⟩

theorem Worker.SamePast.trans {port : U8} {w₁ w₂ w₃ : Worker} (h : w₁.SamePast port w₂)
    (h' : w₂.SamePast port w₃) : w₁.SamePast port w₃ where
  queues := ⟨h'.queues.1.trans h.queues.1, h'.queues.2.trans h.queues.2⟩
  tables p other := (h'.tables p other).trans (h.tables p other)
  next := h'.next.trans h.next

theorem Worker.samePast_setTable (port : U8) (w : Worker) (t : MbufTable) :
    w.SamePast port (w.setTable port t) where
  queues := ⟨rfl, rfl⟩
  tables _ other := Function.update_of_ne other _ _
  next := rfl

/-- The `do`-`while` frees what lies from `rv` on. -/
theorem drop_returns (mTable : Vector Ptr maxPktBurst) {n rv : Nat} (h : rv < n)
    (fits : n ≤ maxPktBurst) (w : Worker) :
    (loop (dropRound mTable n) rv).Returns w
      (((mTable.toList.take n).drop rv).map Event.free) () w := by
  have inside : rv < (mTable.toList.take n).length := by
    rw [List.length_take, Vector.length_toList]
    omega
  have first : mTable.toList.getD rv null = (mTable.toList.take n)[rv] := by
    have bound : rv < mTable.toList.length := by
      rw [Vector.length_toList]
      omega
    rw [List.getD_eq_getElem _ _ bound, List.getElem_take]
  rw [List.drop_eq_getElem_cons inside, List.map_cons, ← first]
  have freed := emit_returns (Event.free (mTable.toList.getD rv null)) w
  by_cases more : rv + 1 < n
  · have goes : (dropRound mTable n rv).Returns w [.free (mTable.toList.getD rv null)]
        (.inl (rv + 1)) w := by
      apply freed.bind
      rw [if_pos more]
      exact pure_returns _ w
    exact returns_loop.mpr (.inr ⟨_, _, _, _, goes, drop_returns mTable more fits w, rfl⟩)
  · have last : (dropRound mTable n rv).Returns w [.free (mTable.toList.getD rv null)]
        (.inr ()) w := by
      apply freed.bind
      rw [if_neg more]
      exact pure_returns _ w
    have none : (mTable.toList.take n).drop (rv + 1) = [] := by
      apply List.drop_eq_nil_of_le
      rw [List.length_take]
      omega
    rw [none]
    exact returns_loop.mpr (.inl last)
termination_by n - rv

theorem handedOver_frees (pkts : List Ptr) : handedOver (pkts.map Event.free) = pkts := by
  rw [handedOver, List.flatMap_map]
  exact List.flatMap_singleton' pkts

theorem acceptedOn_frees (port : U8) (pkts : List Ptr) :
    acceptedOn port (pkts.map Event.free) = [] := by
  rw [acceptedOn, List.flatMap_map]
  exact List.flatMap_eq_nil_iff.mpr fun _ _ => rfl

/-- The burst is offered, and what the device does not take is freed. -/
theorem sendBurst_events {n : Nat} (fits : n ≤ maxPktBurst) (port : U8) (w : Worker) :
    ∃ rv, (sendBurst nic n port).Returns w
      (.txBurst port (w.conf.txQueueIds port) ((w.conf.txMbufs port).mTable.toList.take n) rv ::
        (((w.conf.txMbufs port).mTable.toList.take n).drop rv).map Event.free) ()
      { w with txCalls := w.txCalls + 1 } := by
  let queueid := w.conf.txQueueIds port
  let pkts := (w.conf.txMbufs port).mTable.toList.take n
  let rv := (nic.txBurst w.txCalls port queueid pkts.length).val
  let w' : Worker := { w with txCalls := w.txCalls + 1 }
  have count : pkts.length = n := by
    rw [List.length_take, Vector.length_toList]
    omega
  have sent : (rteEthTxBurst nic port queueid pkts).Returns
      w [.txBurst port queueid pkts rv] rv w' :=
    (get_returns w).bind ((emit_returns _ w).bind ((modify_returns _ w).bind (pure_returns rv _)))
  refine ⟨rv, (get_returns w).bind (sent.bind ?_)⟩
  by_cases some : rv < n
  · rw [if_pos some]
    exact drop_returns _ some fits w'
  · have all : pkts.length ≤ rv := by omega
    rw [if_neg some, List.drop_eq_nil_of_le all]
    exact pure_returns _ w'

/-- Whatever the device takes, all `n` packets are handed over, in order. -/
theorem sendBurst_returns {n : Nat} (fits : n ≤ maxPktBurst) (port : U8) (w : Worker) :
    ∃ es, (sendBurst nic n port).Returns w es () { w with txCalls := w.txCalls + 1 } ∧
      (∀ e ∈ es, e.Sends port) ∧
      handedOver es = (w.conf.txMbufs port).mTable.toList.take n ∧
      (acceptedOn port es).Sublist ((w.conf.txMbufs port).mTable.toList.take n) := by
  obtain ⟨rv, run⟩ := sendBurst_events nic fits port w
  refine ⟨_, run, ?_, ?_, ?_⟩
  · rw [List.forall_mem_cons]
    refine ⟨rfl, ?_⟩
    intro e he
    obtain ⟨pkt, _, rfl⟩ := List.mem_map.mp he
    trivial
  · rw [handedOver, List.flatMap_cons, ← handedOver, handedOver_frees]
    exact List.take_append_drop rv _
  · rw [acceptedOn, List.flatMap_cons, ← acceptedOn, acceptedOn_frees, List.append_nil]
    have mine (pkts : List Ptr) (queueid : U16) :
        (Event.txBurst port queueid pkts rv).acceptedOn port = pkts.take rv := if_pos rfl
    rw [mine]
    exact List.take_sublist rv _

theorem Pending.unique {w : Worker} {port : U8} {ps qs : List Ptr} (h : Pending w port ps)
    (h' : Pending w port qs) : ps = qs := by
  rw [← h.table, ← h'.table, ← h.len, ← h'.len]

theorem Pending.entered {w : Worker} {port : U8} {pkts : List Ptr} (h : Pending w port pkts)
    (pkt : Ptr) :
    (((w.conf.txMbufs port).mTable.setIfInBounds (w.conf.txMbufs port).len pkt).toList.take
      (pkts.length + 1)) = pkts ++ [pkt] := by
  have room : pkts.length < (w.conf.txMbufs port).mTable.toList.length := by
    rw [Vector.length_toList]
    exact h.inside
  rw [Vector.toList_setIfInBounds, h.len, take_set_succ room, h.table]

/-- A packet waits behind those before it, or is handed over with them. -/
theorem sendOne_returns {w : Worker} {port : U8} {pkts : List Ptr} (h : Pending w port pkts)
    (pkt : Ptr) :
    ∃ es w' pkts', (sendOne nic pkt port).Returns w es () w' ∧ Pending w' port pkts' ∧
      w.SamePast port w' ∧ w'.mbufs = w.mbufs ∧ (∀ e ∈ es, e.Sends port) ∧
      handedOver es ++ pkts' = pkts ++ [pkt] ∧
      (acceptedOn port es ++ pkts').Sublist (pkts ++ [pkt]) := by
  let t := w.conf.txMbufs port
  let entered : MbufTable := { t with mTable := t.mTable.setIfInBounds t.len pkt }
  let w₁ := w.setTable port entered
  have holds : (w₁.conf.txMbufs port).mTable.toList.take (pkts.length + 1) = pkts ++ [pkt] := by
    rw [Worker.setTable_self]
    exact h.entered pkt
  have stored : Event.Sends port (.storeTable port t.len pkt) := by
    change t.len < maxPktBurst
    rw [h.len]
    exact h.inside
  have start (rest : Server Unit) {es w'} (run : rest.Returns w₁ es () w') :
      (emit (.storeTable port t.len pkt) >>= fun _ => (modify fun w => w.setTable port
        { w.conf.txMbufs port with mTable := (w.conf.txMbufs port).mTable.setIfInBounds t.len pkt })
        >>= fun _ => rest).Returns w (.storeTable port t.len pkt :: es) () w' :=
    (emit_returns _ w).bind ((modify_returns _ w).bind run)
  have past : w.SamePast port w₁ := w.samePast_setTable port entered
  by_cases full : t.len + 1 = maxPktBurst
  · have all : maxPktBurst = pkts.length + 1 := by rw [← h.len]; exact full.symm
    obtain ⟨es, flushed, sends, handed, accepted⟩ :=
      sendBurst_returns nic (Nat.le_of_eq all.symm) port w₁
    rw [holds] at handed accepted
    have same : sendBurst nic maxPktBurst port = sendBurst nic (pkts.length + 1) port := by rw [all]
    let w₂ : Worker := { w₁ with txCalls := w₁.txCalls + 1 }
    refine ⟨.storeTable port t.len pkt :: (es ++ []), w₂.setLen port 0, [],
      (get_returns w).bind (start _ ?_), ?_, ?_, rfl, ?_, ?_, ?_⟩
    · rw [if_pos full, same]
      exact flushed.bind (modify_returns _ w₂)
    · constructor
      case len => rw [Worker.setLen_self, List.length_nil]
      case inside => decide
      case table => rfl
    · have sent : w₁.SamePast port w₂ := ⟨⟨rfl, rfl⟩, fun _ _ => rfl, rfl⟩
      exact (past.trans sent).trans (w₂.samePast_setTable port _)
    · rw [List.append_nil, List.forall_mem_cons]
      exact ⟨stored, sends⟩
    · rw [List.append_nil, List.append_nil]
      exact handed
    · rw [List.append_nil, List.append_nil]
      exact accepted
  · refine ⟨[.storeTable port t.len pkt], w₁.setLen port (t.len + 1), pkts ++ [pkt],
      (get_returns w).bind (start _ ?_), ?_, ?_, rfl, ?_, rfl, List.Sublist.refl _⟩
    · rw [if_neg full]
      exact modify_returns _ w₁
    · have len : t.len = pkts.length := h.len
      have inside := h.inside
      constructor
      case len => rw [Worker.setLen_self, List.length_append, List.length_singleton, ← len]
      case inside =>
        rw [List.length_append, List.length_singleton]
        omega
      case table =>
        rw [Worker.setLen_self, List.length_append, List.length_singleton]
        exact holds
    · exact past.trans (w₁.samePast_setTable port _)
    · rw [List.forall_mem_singleton]
      exact stored

end Udp
