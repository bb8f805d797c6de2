import Buster.Udp.MainLoop
import Buster.Udp.Reply

/-!
# Which frames are answered

The main loop compares a frame's own ethertype before it calls the echo, and
the echo looks behind a VLAN tag. The two agree except on tagged packets, which
never get as far as the echo.
-/

namespace Udp

open Imp.Prog

variable {nic : Nic}

def Event.queued : Event → Option Ptr
  | .storeTable _ _ pkt => some pkt
  | _ => none

/-- The packets entered into a transmit buffer. -/
def queued (es : List Event) : List Ptr := es.filterMap Event.queued

theorem queued_append (es fs : List Event) : queued (es ++ fs) = queued es ++ queued fs :=
  List.filterMap_append

/-- Of a burst that is done with, the frame is queued just when the echo accepts it. -/
def Dispatched (b : List (Mbuf × Ptr) × List Event) (f : Mbuf × Ptr) : Prop :=
  f.2 ∈ queued b.2 ↔ f.1.Accepted

instance (b : List (Mbuf × Ptr) × List Event) (f : Mbuf × Ptr) : Decidable (Dispatched b f) :=
  inferInstanceAs (Decidable (_ ↔ _))

/-- Every frame of a burst that is done with. -/
def AllDispatched (es : List Event) : Prop :=
  ∀ b ∈ (batches es).dropLast, ∀ f ∈ b.1, Dispatched b f

instance (es : List Event) : Decidable (AllDispatched es) :=
  inferInstanceAs (Decidable (∀ b ∈ _, _))

/-! ## The two tests -/

/-- Of the accepted packets, the filter lets through those without a tag. -/
theorem Mbuf.ipv4_and_accepted (m : Mbuf) : m.Ipv4 ∧ m.Accepted ↔ m.Accepted ∧ ¬ m.Tagged := by
  constructor
  · rintro ⟨ipv4, accepted⟩
    refine ⟨accepted, fun tagged => ?_⟩
    have both : bswap16 (bswap16 rteEtherTypeIpv4) = rteEtherTypeVlan := ipv4 ▸ tagged
    revert both
    decide
  · rintro ⟨accepted, plain⟩
    have own : bswap16 (m.load16 12) = rteEtherTypeIpv4 := by
      simpa [Mbuf.ethType, plain] using accepted.1
    refine ⟨?_, accepted⟩
    rw [Mbuf.Ipv4, ← own, bswap16_bswap16]

/-! ## What is queued -/

section queued
variable {w w' : Worker} {es : List Event} {port : U8}

/-- Nothing is entered into a transmit buffer. -/
def Event.Unqueued (e : Event) : Prop := e.queued = none

theorem queued_unqueued (h : ∀ e ∈ es, e.Unqueued) : queued es = [] :=
  filterMap_hidden (fun _ he => he) h

theorem Event.Accesses.unqueued {pkt : Ptr} {e : Event} (h : e.Accesses pkt) : e.Unqueued := by
  cases e with
  | storeTable => exact h.elim
  | _ => rfl

/-- Packets are handed over, to the device or to the pool. -/
def Event.Hands : Event → Prop
  | .txBurst .. => True
  | .free _ => True
  | _ => False

theorem Event.Hands.unqueued {e : Event} (h : e.Hands) : e.Unqueued := by
  cases e with
  | storeTable => exact h.elim
  | _ => rfl

theorem Event.Hands.untouched {e : Event} (h : e.Hands) (pkt : Ptr) (i : Nat) :
    ¬ e.Touches pkt i := by
  cases e with
  | read | write => exact h.elim
  | _ => exact id

theorem Event.Accesses.apart {pkt p : Ptr} {e : Event} (h : e.Accesses pkt) (other : p ≠ pkt)
    (i : Nat) : ¬ e.Touches p i := by
  cases e with
  | read | write => exact fun touches => other (touches.1.symm.trans h)
  | _ => exact id

theorem confined_sendBurst (mbufs : Ptr → Mbuf) (n : Nat) (port : U8) :
    (sendBurst nic n port).Confined (fun w => w.mbufs = mbufs) Event.Hands := by
  have free (pkt : Ptr) : (rtePktmbufFree pkt).Confined (fun w => w.mbufs = mbufs)
      Event.Hands := confined_emit trivial
  apply confined_get.bind
  intro w
  have tx (queueid : U16) (pkts : List Ptr) : (rteEthTxBurst nic port queueid pkts).Confined
      (fun w => w.mbufs = mbufs) Event.Hands := by
    apply confined_get.bind
    intro w
    have hands (rv : Nat) : (Event.txBurst port queueid pkts rv).Hands := trivial
    have count : (modify fun w : Worker => { w with txCalls := w.txCalls + 1 }).Confined
        (fun w => w.mbufs = mbufs) Event.Hands := confined_modify fun _ same => same
    exact (confined_emit (hands _)).bind fun _ => count.bind fun _ => confined_pure _
  apply (tx _ _).bind
  intro rv
  split
  · apply confined_loop
    intro rv
    apply (free _).bind
    intro _
    split
    · exact confined_pure _
    · exact confined_pure _
  · exact confined_pure _

theorem confined_flush (mbufs : Ptr → Mbuf) (port : U8) :
    (flush nic port).Confined (fun w => w.mbufs = mbufs) Event.Hands := by
  have empty : (modify fun w : Worker => w.setLen port 0).Confined (fun w => w.mbufs = mbufs)
      Event.Hands := confined_modify fun _ same => same
  apply confined_get.bind
  intro w
  exact (confined_sendBurst _ _ _).bind fun _ => empty

/-- A packet that is sent is queued first, and the buffers keep their data. -/
theorem sendOne_queues {pkt : Ptr} {u : Unit} (run : (sendOne nic pkt port).Returns w es u w') :
    ∃ len fs, es = .storeTable port len pkt :: fs ∧ (∀ e ∈ fs, e.Hands) ∧ w'.mbufs = w.mbufs := by
  obtain ⟨_, rfl, run₁⟩ := (get_returns w).rest run
  obtain ⟨fs, rfl, run₂⟩ := (emit_returns _ w).rest run₁
  obtain ⟨_, rfl, run₃⟩ := (modify_returns _ w).rest run₂
  have rest : w'.mbufs = w.mbufs ∧ ∀ e ∈ fs, e.Hands := by
    apply Confined.returns _ _ run₃
    · split
      · exact (confined_sendBurst _ _ _).bind fun _ => confined_modify fun _ same => same
      · exact confined_modify fun _ same => same
    · rfl
  exact ⟨_, fs, rfl, rest.2, rest.1⟩

/-- How far into a frame the main loop reaches. -/
def Mbuf.polledSpan (m : Mbuf) : Nat := if m.Ipv4 then m.span else 14

/-- What handling one packet does. -/
structure Served (w : Worker) (pkt : Ptr) (own : List Event) (w₁ : Worker) : Prop where
  others : ∀ p, p ≠ pkt → w₁.mbufs p = w.mbufs p
  queued : queued own = if (w.mbufs pkt).Ipv4 ∧ (w.mbufs pkt).Accepted then [pkt] else []
  reach : Reach pkt own (w.mbufs pkt).polledSpan
  apart : ∀ p, p ≠ pkt → ∀ e ∈ own, ∀ i, ¬ e.Touches p i

/-- The events behind the echo touch no frame: they enter the packet into a transmit
buffer, or not. -/
theorem served_echoed {pkt : Ptr} {echo tail : List Event} {echoed : Bool} {w₁ w₂ : Worker}
    (ipv4 : (w.mbufs pkt).Ipv4) (run : (echoSingleUdpPacket pkt).Returns w echo echoed w₁)
    (kept : w₂.mbufs = w₁.mbufs) (untouched : ∀ e ∈ tail, ∀ p i, ¬ e.Touches p i)
    (sent : queued tail = if (w.mbufs pkt).Accepted then [pkt] else []) :
    Served w pkt ([.read pkt 12 2] ++ echo ++ tail) w₂ := by
  have completes : (echoSingleUdpPacket pkt).Completes (w.SameBut pkt) (Event.Accesses pkt) :=
    completes_echoSingleUdpPacket
  obtain ⟨_, _, _, run', same, accesses⟩ := completes w ⟨rfl, rfl, fun _ _ => rfl⟩
  obtain ⟨rfl, _, rfl⟩ := run.unique run'
  have looks : ∀ e ∈ [Event.read pkt 12 2] ++ echo, e.Accesses pkt :=
    List.forall_mem_append.mpr ⟨List.forall_mem_singleton.mpr (accesses_read pkt 12 2), accesses⟩
  constructor
  case others =>
    intro p other
    rw [kept]
    exact same.2.2 p other
  case queued =>
    rw [queued_append, queued_unqueued fun e he => (looks e he).unqueued, List.nil_append, sent]
    exact if_congr (by simp [ipv4]) rfl rfl
  case reach =>
    have looked : Reach pkt [.read pkt 12 2] 14 := reach_read Nat.two_pos
    have both := looked.append (echo_reach run)
    rw [Nat.max_eq_right (span_ge _)] at both
    rw [Mbuf.polledSpan, if_pos ipv4]
    exact both.then_untouched fun e he => untouched e he pkt
  case apart =>
    intro p other
    exact List.forall_mem_append.mpr
      ⟨fun e he => (looks e he).apart other, fun e he => untouched e he p⟩

/-- One packet after the other. -/
theorem handle_cons {pkt : Ptr} {pkts : List Ptr} {n n' : Nat}
    (run : (handle nic port (pkt :: pkts) n).Returns w es n' w') :
    ∃ own others n₁ w₁, es = own ++ others ∧ Served w pkt own w₁ ∧
      (handle nic port pkts n₁).Returns w₁ others n' w' := by
  obtain ⟨fs, rfl, run₁⟩ := (load16_returns pkt 12 w).rest run
  by_cases ipv4 : (w.mbufs pkt).load16 12 = bswap16 rteEtherTypeIpv4
  · rw [if_pos ipv4] at run₁
    obtain ⟨echo, echoed⟩ := echo_returns w pkt
    obtain ⟨gs, rfl, run₂⟩ := echoed.rest run₁
    by_cases accepted : (w.mbufs pkt).Accepted
    · simp only [decide_eq_true accepted, if_true] at run₂
      obtain ⟨hs, _, w₂, ks, sent, rest, rfl⟩ := returns_bind.mp run₂
      obtain ⟨len, hands, rfl, quiet, kept⟩ := sendOne_queues sent
      refine ⟨[.read pkt 12 2] ++ echo ++ .storeTable port len pkt :: hands, ks, _, w₂,
        by simp only [List.append_assoc], served_echoed ipv4 echoed kept ?_ ?_, rest⟩
      · exact List.forall_mem_cons.mpr ⟨fun _ _ => id, fun e he => (quiet e he).untouched⟩
      · have one : queued (.storeTable port len pkt :: hands) = pkt :: queued hands := rfl
        rw [if_pos accepted, one, queued_unqueued fun e he => (quiet e he).unqueued]
    · simp only [decide_eq_false accepted, Bool.false_eq_true, if_false] at run₂
      obtain ⟨ks, rfl, rest⟩ := (emit_returns (Event.free pkt) _).rest run₂
      refine ⟨[.read pkt 12 2] ++ echo ++ [.free pkt], ks, n, _,
        by simp only [List.append_assoc],
        served_echoed ipv4 echoed rfl (List.forall_mem_singleton.mpr fun _ _ => id) ?_, rest⟩
      rw [if_neg accepted]
      rfl
  · rw [if_neg ipv4] at run₁
    have judged : ¬ (w.mbufs pkt).Ipv4 := ipv4
    have looks : ∀ e ∈ [Event.read pkt 12 2], e.Accesses pkt :=
      List.forall_mem_singleton.mpr (accesses_read pkt 12 2)
    refine ⟨_, fs, n, w, rfl, ?_, run₁⟩
    constructor
    case others => exact fun _ _ => rfl
    case queued =>
      rw [if_neg fun h => judged h.1]
      rfl
    case reach =>
      rw [Mbuf.polledSpan, if_neg judged]
      exact reach_read Nat.two_pos
    case apart => exact fun p other e he => (looks e he).apart other

/-- Handling a packet queues it when both tests say so. -/
theorem handle_queued {pkts : List Ptr} {n n' : Nat} (distinct : pkts.Nodup)
    (run : (handle nic port pkts n).Returns w es n' w') :
    queued es = pkts.filter fun p => (w.mbufs p).Ipv4 ∧ (w.mbufs p).Accepted := by
  induction pkts generalizing w es n with
  | nil =>
    obtain ⟨rfl, _⟩ := returns_pure.mp run
    rfl
  | cons pkt pkts ih =>
    obtain ⟨new, distinct⟩ := List.nodup_cons.mp distinct
    obtain ⟨own, others, n₁, w₁, rfl, served, rest⟩ := handle_cons run
    -- the later packets are judged by the data they had before
    have later : queued others =
        pkts.filter fun p => (w.mbufs p).Ipv4 ∧ (w.mbufs p).Accepted := by
      rw [ih distinct rest]
      apply List.filter_congr
      intro p hp
      rw [served.others p fun e => new (e ▸ hp)]
    rw [queued_append, served.queued, later, List.filter_cons]
    by_cases both : (w.mbufs pkt).Ipv4 ∧ (w.mbufs pkt).Accepted
    · simp [both]
    · simp [both]

/-- Of each packet all that is read or written, and nothing of another one. -/
theorem handle_reach {pkts : List Ptr} {n n' : Nat} (distinct : pkts.Nodup)
    (run : (handle nic port pkts n).Returns w es n' w') :
    (∀ p ∈ pkts, Reach p es (w.mbufs p).polledSpan) ∧
      ∀ p, p ∉ pkts → ∀ e ∈ es, ∀ i, ¬ e.Touches p i := by
  induction pkts generalizing w es n with
  | nil =>
    obtain ⟨rfl, _⟩ := returns_pure.mp run
    exact ⟨List.forall_mem_nil _, fun _ _ => List.forall_mem_nil _⟩
  | cons pkt pkts ih =>
    obtain ⟨new, distinct⟩ := List.nodup_cons.mp distinct
    obtain ⟨own, others, n₁, w₁, rfl, served, rest⟩ := handle_cons run
    obtain ⟨reaches, apart⟩ := ih distinct rest
    constructor
    · intro p hp
      rcases List.mem_cons.mp hp with rfl | later
      · exact served.reach.then_untouched (apart p new)
      · have other : p ≠ pkt := fun e => new (e ▸ later)
        have reach := (reach_untouched (served.apart p other)).append (reaches p later)
        rwa [Nat.zero_max, served.others p other] at reach
    · intro p other
      rw [List.mem_cons, not_or] at other
      exact List.forall_mem_append.mpr ⟨served.apart p other.1, apart p other.2⟩

/-- A poll handles the packets of its burst, with the data they came with, and
then hands over. -/
theorem poll_handle {q : LcoreRxQueue} {burst : List (Mbuf × Ptr)} {rest : List Event}
    {exited : Bool} (run : (poll nic q).Returns w
      (.rxBurst q.portId q.queueId (fun _ => 0) burst :: rest) exited w') :
    ∃ w₁ es n w₂ fs, rest = es ++ fs ∧
      (handle nic q.portId (burst.map Prod.snd) 0).Returns w₁ es n w₂ ∧
      (burst.map Prod.snd).Nodup ∧ (∀ f ∈ burst, w₁.mbufs f.2 = f.1) ∧ ∀ e ∈ fs, e.Hands := by
  let ms := (nic.rxBurst w.rxCalls q.portId q.queueId).val
  let lens := fun p => (w.conf.txMbufs p).len
  have rx : (rteEthRxBurst nic q.portId q.queueId).Returns w
      [.rxBurst q.portId q.queueId lens (ms.zipIdx w.next)] ((ms.zipIdx w.next).map Prod.snd)
      (w.receive ms) :=
    (get_returns w).bind ((emit_returns _ w).bind ((modify_returns _ w).bind (pure_returns _ _)))
  obtain ⟨fs, split, run₁⟩ := rx.rest run
  obtain ⟨same, rfl⟩ := List.cons.inj split
  obtain rfl : burst = ms.zipIdx w.next := by
    injection same
  have distinct : ((ms.zipIdx w.next).map Prod.snd).Nodup := by
    rw [List.zipIdx_map_snd]
    exact List.nodup_range'
  have data : ∀ f ∈ ms.zipIdx w.next, (w.receive ms).mbufs f.2 = f.1 :=
    fun f hf => receive_mbufs w ms hf
  by_cases empty : (ms.zipIdx w.next).map Prod.snd = []
  · rw [if_pos empty] at run₁
    obtain ⟨rfl, _⟩ := returns_pure.mp run₁
    refine ⟨w.receive ms, [], 0, w.receive ms, [], rfl, ?_, distinct, data, List.forall_mem_nil _⟩
    rw [empty]
    exact pure_returns 0 (w.receive ms)
  · rw [if_neg empty] at run₁
    obtain ⟨es₁, n, w₁, es₂, handled, run₂, rfl⟩ := returns_bind.mp run₁
    refine ⟨_, es₁, n, w₁, es₂, rfl, handled, distinct, data, ?_⟩
    by_cases replied : n > 0
    · rw [if_pos replied] at run₂
      have flushes : (flush nic q.portId).Confined (fun w => w.mbufs = w₁.mbufs) Event.Hands :=
        confined_flush w₁.mbufs q.portId
      exact ((flushes.bind fun _ => confined_pure false).returns rfl run₂).2
    · rw [if_neg replied] at run₂
      obtain ⟨rfl, _⟩ := returns_pure.mp run₂
      exact List.forall_mem_nil _

section poll
variable {q : LcoreRxQueue} {burst : List (Mbuf × Ptr)} {rest : List Event} {exited : Bool}

theorem poll_queued (run : (poll nic q).Returns w
      (.rxBurst q.portId q.queueId (fun _ => 0) burst :: rest) exited w') :
    ∀ f ∈ burst, f.2 ∈ queued rest ↔ f.1.Ipv4 ∧ f.1.Accepted := by
  obtain ⟨w₁, es, n, w₂, fs, rfl, handled, distinct, data, hands⟩ := poll_handle run
  have flushed : queued fs = [] := queued_unqueued fun e he => (hands e he).unqueued
  intro f hf
  rw [queued_append, flushed, List.append_nil, handle_queued distinct handled, List.mem_filter,
    data f hf, decide_eq_true_iff]
  exact and_iff_right (List.mem_map_of_mem hf)

theorem poll_reach (run : (poll nic q).Returns w
      (.rxBurst q.portId q.queueId (fun _ => 0) burst :: rest) exited w') :
    (∀ f ∈ burst, Reach f.2 rest f.1.polledSpan) ∧
      ∀ p, p ∉ burst.map Prod.snd → ∀ e ∈ rest, ∀ i, ¬ e.Touches p i := by
  obtain ⟨w₁, es, n, w₂, fs, rfl, handled, distinct, data, hands⟩ := poll_handle run
  obtain ⟨reaches, apart⟩ := handle_reach distinct handled
  constructor
  · intro f hf
    have reach := reaches f.2 (List.mem_map_of_mem hf)
    rw [data f hf] at reach
    exact reach.then_untouched fun e he => (hands e he).untouched f.2
  · intro p other
    exact List.forall_mem_append.mpr ⟨apart p other, fun e he => (hands e he).untouched p⟩

end poll

end queued

/-- In every run, with whatever queues on ports below `RTE_MAX_ETHPORTS`, a frame of a burst
that is done with is queued just when the echo accepts it, unless it is an accepted packet
with a tag. -/
theorem mainLoop_dispatched_iff {nRxQueue : Nat} {rxQueues : Vector LcoreRxQueue maxRxQueuePerLcore}
    {txQueueIds : U8 → U16} {mbufs : Ptr → Mbuf} {es : List Event}
    (emitted : (mainLoop nic).Emitted (.start nRxQueue rxQueues txQueueIds mbufs) es) :
    ∀ b ∈ (batches es).dropLast, ∀ f ∈ b.1,
      (Dispatched b f ↔ ¬ (f.1.Tagged ∧ f.1.Accepted)) := by
  obtain ⟨all, w', runs, begins⟩ := mainLoop_runs (Worker.start_serving ..) emitted
  intro b hb f hf
  have both : f.2 ∈ queued b.2 ↔ f.1.Accepted ∧ ¬ f.1.Tagged := by
    rw [← Mbuf.ipv4_and_accepted]
    exact runs.batches (P := fun b => ∀ f ∈ b.1, f.2 ∈ queued b.2 ↔ f.1.Ipv4 ∧ f.1.Accepted)
      (fun _ run => poll_queued run) begins b hb f hf
  rw [Dispatched, both]
  tauto

/-- One UDP packet without a tag and one ARP frame. -/
theorem twoFrames_dispatched :
    AllDispatched ((mainLoop (twoFrames rteEtherTypeIpv4 0x0806)).run 3 oneQueue).events := by
  have plain : ∀ b ∈ (batches
      ((mainLoop (twoFrames rteEtherTypeIpv4 0x0806)).run 3 oneQueue).events).dropLast,
      ∀ f ∈ b.1, ¬ (f.1.Tagged ∧ f.1.Accepted) := by decide
  intro b hb f hf
  exact (mainLoop_dispatched_iff ⟨3, List.prefix_rfl⟩ b hb f hf).mpr (plain b hb f hf)

/-- A UDP packet behind a VLAN tag, all zero but for its headers. -/
def taggedFrame : Mbuf where
  dataLen := 64
  data i :=
    if i = 12 then 0x81
    else if i = 16 then 0x08
    else if i = 18 then 0x45
    else if i = 27 then ipprotoUdp
    else 0
  olFlags := 0

/-- A device that gives the one packet, and one frame after it. -/
def oneTagged : Nic where
  rxBurst n _ _ :=
    if n = 0 then ⟨[taggedFrame], by simp [maxPktBurst]⟩
    else if n = 1 then ⟨[frame rteEtherTypeIpv4], by simp [maxPktBurst]⟩
    else ⟨[], Nat.zero_le maxPktBurst⟩
  txBurst _ _ _ n := Fin.last n

theorem tagged_not_dispatched : ∃ es, (mainLoop oneTagged).Emitted oneQueue es ∧
    ¬ AllDispatched es :=
  ⟨_, ⟨3, List.prefix_rfl⟩, by decide⟩

end Udp
