import Buster.Udp.Dispatch

/-!
# The server as a function of what it receives

What is offered to the devices is the reply to each answered frame, in the
order in which the frames came, on the port it came from. `Answering` says it of
the packets of one burst, while some of them wait in the transmit buffer of
their port; at the end of a poll none do.
-/

namespace Udp

open Imp.Prog

variable {nic : Nic}

/-- The frame passes the filter of the main loop and the tests of the echo. -/
def Mbuf.Answered (m : Mbuf) : Prop := m.Ipv4 ∧ m.Accepted

instance (m : Mbuf) : Decidable m.Answered := inferInstanceAs (Decidable (_ ∧ _))

/-- The frame as the worker leaves it. -/
def Mbuf.served (m : Mbuf) : Mbuf := if m.Answered then m.reply else m

structure Arrival where
  port : U8
  frame : Mbuf
  pkt : Ptr

def Event.arrivals : Event → List Arrival
  | .rxBurst port _ _ burst => burst.map fun f => ⟨port, f.1, f.2⟩
  | _ => []

/-- The frames received, in order. -/
def arrived (es : List Event) : List Arrival := es.flatMap Event.arrivals

def Event.offers : Event → List (U8 × Ptr)
  | .txBurst port _ pkts _ => pkts.map (Prod.mk port)
  | _ => []

/-- The packets offered to the devices, in order. -/
def offered (es : List Event) : List (U8 × Ptr) := es.flatMap Event.offers

/-- The packets offered, as they are in memory. -/
def sent (w : Worker) (es : List Event) : List (U8 × Mbuf) :=
  (offered es).map fun o => (o.1, w.mbufs o.2)

/-- What the server is for: the reply to each answered frame, back on its port. -/
def answers (frames : List Arrival) : List (U8 × Mbuf) :=
  (frames.filter fun a => a.frame.Answered).map fun a => (a.port, a.frame.reply)

theorem arrived_append (es fs : List Event) : arrived (es ++ fs) = arrived es ++ arrived fs :=
  List.flatMap_append

theorem offered_append (es fs : List Event) : offered (es ++ fs) = offered es ++ offered fs :=
  List.flatMap_append

/-! ## What is offered with a flush -/

/-- Nothing is offered and nothing arrives. -/
def Event.Idle (e : Event) : Prop := e.offers = [] ∧ e.arrivals = []

theorem offered_idle {es : List Event} (h : ∀ e ∈ es, e.Idle) : offered es = [] :=
  List.flatMap_eq_nil_iff.mpr fun e he => (h e he).1

theorem Event.Accesses.idle {pkt : Ptr} {e : Event} (h : e.Accesses pkt) : e.Idle := by
  cases e with
  | rxBurst => exact h.elim
  | txBurst => exact h.elim
  | _ => exact ⟨rfl, rfl⟩

section offers
variable {w w' : Worker} {es : List Event} {port : U8} {u : Unit}

/-- What is handed over with a burst is what was offered, taken or not. -/
theorem sendBurst_handed {n : Nat} (fits : n ≤ maxPktBurst)
    (run : (sendBurst nic n port).Returns w es u w') :
    offered es = (handedOver es).map (Prod.mk port) ∧ w'.rxCalls = w.rxCalls := by
  obtain ⟨rv, run'⟩ := sendBurst_events nic fits port w
  obtain ⟨rfl, _, rfl⟩ := run.unique run'
  have frees (pkts : List Ptr) : offered (pkts.map Event.free) = [] := by
    apply offered_idle
    intro e he
    obtain ⟨pkt, _, rfl⟩ := List.mem_map.mp he
    exact ⟨rfl, rfl⟩
  refine ⟨?_, rfl⟩
  rw [handedOver, List.flatMap_cons, ← handedOver, handedOver_frees, offered, List.flatMap_cons,
    ← offered, frees, List.append_nil, Event.handedOver, List.take_append_drop]
  rfl

theorem sendOne_handed {pkt : Ptr} (run : (sendOne nic pkt port).Returns w es u w') :
    offered es = (handedOver es).map (Prod.mk port) ∧ w'.rxCalls = w.rxCalls := by
  obtain ⟨_, rfl, run₁⟩ := (get_returns w).rest run
  obtain ⟨fs, rfl, run₂⟩ := (emit_returns _ w).rest run₁
  obtain ⟨fs, rfl, run₃⟩ := (modify_returns _ w).rest run₂
  change offered fs = (handedOver fs).map (Prod.mk port) ∧ _
  split at run₃
  · obtain ⟨es₁, _, w₁, es₂, flushed, last, rfl⟩ := returns_bind.mp run₃
    obtain ⟨same, calls⟩ := sendBurst_handed (Nat.le_refl _) flushed
    obtain ⟨rfl, rfl⟩ := returns_modify.mp last
    rw [List.append_nil]
    exact ⟨same, calls⟩
  · obtain ⟨rfl, rfl⟩ := returns_modify.mp run₃
    exact ⟨rfl, rfl⟩

end offers

/-! ## What becomes of one packet -/

/-- What the main loop can do with one packet: pass it over, free it, or send
the reply that the echo has made of it. -/
inductive Handling (nic : Nic) (port : U8) (pkt : Ptr) (w : Worker) (n : Nat) :
    List Event → Nat → Worker → Prop
  | passed (other : ¬ (w.mbufs pkt).Ipv4) : Handling nic port pkt w n [.read pkt 12 2] n w
  | freed {echo} (ipv4 : (w.mbufs pkt).Ipv4) (other : ¬ (w.mbufs pkt).Accepted)
      (looks : ∀ e ∈ echo, e.Accesses pkt) : Handling nic port pkt w n (echo ++ [.free pkt]) n w
  | sent {echo es w'} (answered : (w.mbufs pkt).Answered) (looks : ∀ e ∈ echo, e.Accesses pkt)
      (run : (sendOne nic pkt port).Returns (w.setMbuf pkt (w.mbufs pkt).reply) es () w') :
      Handling nic port pkt w n (echo ++ es) (n + 1) w'

theorem handle_split {pkt : Ptr} {pkts : List Ptr} {port : U8} {w w' : Worker} {es : List Event}
    {n n' : Nat} (run : (handle nic port (pkt :: pkts) n).Returns w es n' w') :
    ∃ own others n₁ w₁, es = own ++ others ∧ Handling nic port pkt w n own n₁ w₁ ∧
      (handle nic port pkts n₁).Returns w₁ others n' w' := by
  obtain ⟨fs, rfl, run₁⟩ := (load16_returns pkt 12 w).rest run
  by_cases ipv4 : (w.mbufs pkt).load16 12 = bswap16 rteEtherTypeIpv4
  · rw [if_pos ipv4] at run₁
    obtain ⟨echo, echoed⟩ := echo_returns w pkt
    have looks : ∀ e ∈ .read pkt 12 2 :: echo, e.Accesses pkt := by
      have completes : (echoSingleUdpPacket pkt).Completes (w.SameBut pkt) (Event.Accesses pkt) :=
        completes_echoSingleUdpPacket
      obtain ⟨_, _, _, run', _, accesses⟩ := completes w ⟨rfl, rfl, fun _ _ => rfl⟩
      obtain ⟨rfl, _⟩ := echoed.unique run'
      exact List.forall_mem_cons.mpr ⟨accesses_read pkt 12 2, accesses⟩
    obtain ⟨gs, rfl, run₂⟩ := echoed.rest run₁
    by_cases accepted : (w.mbufs pkt).Accepted
    · simp only [decide_eq_true accepted, if_true, if_pos accepted] at run₂
      obtain ⟨hs, _, w₂, ks, sent, rest, rfl⟩ := returns_bind.mp run₂
      exact ⟨.read pkt 12 2 :: echo ++ hs, ks, _, w₂, by simp only [List.append_assoc,
        List.cons_append, List.nil_append], .sent ⟨ipv4, accepted⟩ looks sent, rest⟩
    · simp only [decide_eq_false accepted, Bool.false_eq_true, if_false, if_neg accepted] at run₂
      obtain ⟨ks, rfl, rest⟩ := (emit_returns (Event.free pkt) w).rest run₂
      exact ⟨.read pkt 12 2 :: echo ++ [.free pkt], ks, n, w, by simp only [List.append_assoc,
        List.cons_append, List.nil_append], .freed ipv4 accepted looks, rest⟩
  · rw [if_neg ipv4] at run₁
    exact ⟨_, fs, n, w, rfl, .passed ipv4, run₁⟩

/-- What handling `pkts` does, from some packets waiting in the buffer of the
port to others. -/
structure Answering (port : U8) (pkts : List Ptr) (w : Worker) (waiting : List Ptr) (n : Nat)
    (es : List Event) (w' : Worker) (waiting' : List Ptr) (n' : Nat) : Prop where
  pending : Pending w' port waiting'
  offers : offered es ++ waiting'.map (Prod.mk port) =
    (waiting ++ pkts.filter fun p => (w.mbufs p).Answered).map (Prod.mk port)
  served : ∀ p ∈ pkts, w'.mbufs p = (w.mbufs p).served
  others : ∀ p, p ∉ pkts → w'.mbufs p = w.mbufs p
  calls : w'.rxCalls = w.rxCalls
  quiet : arrived es = []
  grows : n ≤ n'
  still : n' = n → waiting' = waiting

section answering
variable {port : U8} {w w₁ w₂ : Worker} {waiting waiting₁ waiting₂ : List Ptr}
  {es fs : List Event} {n n₁ n₂ : Nat}

theorem Answering.nil (h : Pending w port waiting) :
    Answering port [] w waiting n [] w waiting n where
  pending := h
  offers := by simp [offered]
  served _ hp := by cases hp
  others _ _ := rfl
  calls := rfl
  quiet := rfl
  grows := Nat.le_refl n
  still _ := rfl

theorem Answering.append {ps qs : List Ptr} (h : Answering port ps w waiting n es w₁ waiting₁ n₁)
    (h' : Answering port qs w₁ waiting₁ n₁ fs w₂ waiting₂ n₂) (apart : ∀ q ∈ qs, q ∉ ps) :
    Answering port (ps ++ qs) w waiting n (es ++ fs) w₂ waiting₂ n₂ where
  pending := h'.pending
  offers := by
    have same : (qs.filter fun p => (w₁.mbufs p).Answered) =
        qs.filter fun p => (w.mbufs p).Answered := by
      apply List.filter_congr
      intro q hq
      rw [h.others q (apart q hq)]
    have second := h'.offers
    rw [same, List.map_append] at second
    rw [offered_append, List.append_assoc, second, ← List.append_assoc, h.offers,
      ← List.map_append, List.filter_append, List.append_assoc]
  served p hp := by
    rcases List.mem_append.mp hp with hp | hp
    · by_cases again : p ∈ qs
      · exact absurd hp (apart p again)
      · rw [h'.others p again, h.served p hp]
    · rw [h'.served p hp, h.others p (apart p hp)]
  others p other := by
    rw [List.mem_append, not_or] at other
    exact (h'.others p other.2).trans (h.others p other.1)
  calls := h'.calls.trans h.calls
  quiet := by rw [arrived_append, h.quiet, h'.quiet]; rfl
  grows := Nat.le_trans h.grows h'.grows
  still all := by
    have first := h.grows
    have second := h'.grows
    rw [h'.still (by omega), h.still (by omega)]

theorem arrived_sends {es : List Event} (h : ∀ e ∈ es, e.Sends port) : arrived es = [] := by
  apply List.flatMap_eq_nil_iff.mpr
  intro e he
  cases e with
  | rxBurst => exact (h _ he).elim
  | _ => rfl

/-- One packet that is not answered. -/
theorem answering_left {pkt : Ptr} (h : Pending w port waiting)
    (other : ¬ (w.mbufs pkt).Answered) (idle : ∀ e ∈ es, e.Idle) :
    Answering port [pkt] w waiting n es w waiting n where
  pending := h
  offers := by simp [offered_idle idle, other]
  served p hp := by
    rw [List.mem_singleton.mp hp, Mbuf.served, if_neg other]
  others _ _ := rfl
  calls := rfl
  quiet := List.flatMap_eq_nil_iff.mpr fun e he => (idle e he).2
  grows := Nat.le_refl n
  still _ := rfl

theorem answering_sent {pkt : Ptr} (answered : (w.mbufs pkt).Answered)
    (idle : ∀ e ∈ es, e.Idle) (replied : w₁ = w.setMbuf pkt (w.mbufs pkt).reply)
    (pending : Pending w₂ port waiting₂) (mbufs : w₂.mbufs = w₁.mbufs)
    (sends : ∀ e ∈ fs, e.Sends port) (handed : handedOver fs ++ waiting₂ = waiting ++ [pkt])
    (offers : offered fs = (handedOver fs).map (Prod.mk port)) (calls : w₂.rxCalls = w₁.rxCalls) :
    Answering port [pkt] w waiting n (es ++ fs) w₂ waiting₂ (n + 1) where
  pending := pending
  offers := by
    rw [offered_append, offered_idle idle, List.nil_append, offers, ← List.map_append, handed]
    simp [answered]
  served p hp := by
    rw [List.mem_singleton.mp hp, mbufs, replied, Worker.setMbuf_self, Mbuf.served,
      if_pos answered]
  others p other := by
    rw [mbufs, replied]
    exact Function.update_of_ne (List.mem_singleton.not.mp other) _ _
  calls := by rw [calls, replied]; rfl
  quiet := by
    rw [arrived_append, arrived_sends sends, List.append_nil]
    exact List.flatMap_eq_nil_iff.mpr fun e he => (idle e he).2
  grows := Nat.le_succ n
  still stuck := by omega

theorem Handling.answering {pkt : Ptr} (one : Handling nic port pkt w n es n₁ w₁)
    (h : Pending w port waiting) :
    ∃ waiting₁, Answering port [pkt] w waiting n es w₁ waiting₁ n₁ := by
  cases one with
  | passed other =>
    exact ⟨waiting, answering_left h (fun both => other both.1)
      (List.forall_mem_singleton.mpr (accesses_read pkt 12 2).idle)⟩
  | freed _ other looks =>
    exact ⟨waiting, answering_left h (fun both => other both.2) (List.forall_mem_append.mpr
      ⟨fun e he => (looks e he).idle, List.forall_mem_singleton.mpr ⟨rfl, rfl⟩⟩)⟩
  | sent answered looks run =>
    have same : Pending (w.setMbuf pkt (w.mbufs pkt).reply) port waiting := h.congr rfl
    obtain ⟨_, _, waiting₁, run', pending, _, mbufs, sends, handed, _⟩ :=
      sendOne_returns nic same pkt
    obtain ⟨rfl, _, rfl⟩ := run.unique run'
    obtain ⟨offers, calls⟩ := sendOne_handed run
    exact ⟨waiting₁, answering_sent answered (fun e he => (looks e he).idle) rfl pending mbufs
      sends handed offers calls⟩

theorem handle_answers {pkts : List Ptr} {n' : Nat} {w' : Worker} (h : Pending w port waiting)
    (distinct : pkts.Nodup) (run : (handle nic port pkts n).Returns w es n' w') :
    ∃ waiting', Answering port pkts w waiting n es w' waiting' n' := by
  induction pkts generalizing w waiting n es with
  | nil =>
    obtain ⟨rfl, rfl, rfl⟩ := returns_pure.mp run
    exact ⟨waiting, .nil h⟩
  | cons pkt pkts ih =>
    obtain ⟨new, distinct⟩ := List.nodup_cons.mp distinct
    have apart : ∀ q ∈ pkts, q ∉ [pkt] := by
      intro q hq same
      rw [List.mem_singleton.mp same] at hq
      exact new hq
    obtain ⟨own, others, n₁, w₁, rfl, one, rest⟩ := handle_split run
    obtain ⟨waiting₁, first⟩ := one.answering h
    obtain ⟨waiting₂, later⟩ := ih first.pending distinct rest
    exact ⟨waiting₂, first.append later apart⟩

end answering

/-! ## One poll -/

/-- What a poll does with the burst `ms`, whose buffers are numbered from `w.next` on. -/
structure Streamed (q : LcoreRxQueue) (ms : List Mbuf) (w : Worker) (es : List Event)
    (exited : Bool) (w' : Worker) : Prop where
  receives : ∃ rest, es = .rxBurst q.portId q.queueId (fun _ => 0) (ms.zipIdx w.next) :: rest ∧
    arrived rest = []
  offers : offered es =
    ((ms.zipIdx w.next).filter fun f => f.1.Answered).map fun f => (q.portId, f.2)
  served : ∀ f ∈ ms.zipIdx w.next, w'.mbufs f.2 = f.1.served
  others : ∀ p < w.next, w'.mbufs p = w.mbufs p
  calls : w'.rxCalls = w.rxCalls + 1
  next : w'.next = w.next + ms.length
  exits : exited = decide (ms = [])

theorem flush_handed {w w' : Worker} {port : U8} {waiting : List Ptr} {es : List Event} {u : Unit}
    (h : Pending w port waiting) (run : (flush nic port).Returns w es u w') :
    offered es = waiting.map (Prod.mk port) ∧ w'.mbufs = w.mbufs ∧ w'.rxCalls = w.rxCalls ∧
      arrived es = [] := by
  obtain ⟨_, _, run', _, _, sends, handed, _⟩ := flush_returns nic h
  obtain ⟨rfl, _, rfl⟩ := run.unique run'
  obtain ⟨fs, rfl, run₁⟩ := (get_returns w).rest run
  obtain ⟨es₁, _, w₁, es₂, burst, last, rfl⟩ := returns_bind.mp run₁
  obtain ⟨rfl, rfl⟩ := returns_modify.mp last
  have fits : (w.conf.txMbufs port).len ≤ maxPktBurst := by
    rw [h.len]
    exact Nat.le_of_lt h.inside
  obtain ⟨offers, calls⟩ := sendBurst_handed fits burst
  have hands : (sendBurst nic (w.conf.txMbufs port).len port).Confined
      (fun v => v.mbufs = w.mbufs) Event.Hands := confined_sendBurst w.mbufs _ port
  refine ⟨?_, (hands.returns rfl burst).1, calls, arrived_sends sends⟩
  rw [List.append_nil] at handed ⊢
  rw [← handed]
  exact offers

theorem receive_others {w : Worker} {ms : List Mbuf} {p : Ptr} (old : p < w.next) :
    (w.receive ms).mbufs p = w.mbufs p := if_neg (Nat.not_le.mpr old)

theorem zipIdx_ge {ms : List Mbuf} {first : Ptr} {p : Ptr}
    (h : p ∈ (ms.zipIdx first).map Prod.snd) : first ≤ p := by
  rw [List.zipIdx_map_snd, List.mem_range'_1] at h
  exact h.1

variable (nic) in
theorem rx_returns (w : Worker) (idle : w.Idle) (q : LcoreRxQueue) :
    let ms := (nic.rxBurst w.rxCalls q.portId q.queueId).val
    (rteEthRxBurst nic q.portId q.queueId).Returns w
      [.rxBurst q.portId q.queueId (fun _ => 0) (ms.zipIdx w.next)]
      ((ms.zipIdx w.next).map Prod.snd) (w.receive ms) := by
  have zero : (fun p => (w.conf.txMbufs p).len) = fun _ => 0 := funext idle
  apply (get_returns w).bind
  dsimp only
  rw [zero]
  exact (emit_returns _ w).bind ((modify_returns _ w).bind (pure_returns _ _))

/-- The packets of a burst, once they have been handled. -/
theorem answered_burst {ms : List Mbuf} {w : Worker} :
    (((ms.zipIdx w.next).map Prod.snd).filter fun p => ((w.receive ms).mbufs p).Answered) =
      ((ms.zipIdx w.next).filter fun f => f.1.Answered).map Prod.snd := by
  rw [List.filter_map]
  congr 1
  apply List.filter_congr
  intro f hf
  rw [Function.comp_apply, receive_mbufs w ms hf]

variable (nic) in
/-- Whether there is a flush or nothing to flush, what waited is offered. -/
theorem flushed_returns {w : Worker} {port : U8} {waiting : List Ptr} {n : Nat}
    (h : Pending w port waiting) (none : n = 0 → waiting = []) :
    ∃ es w', (if n > 0 then (flush nic port >>= fun _ => pure false : Server Bool)
        else pure false).Returns w es false w' ∧ offered es = waiting.map (Prod.mk port) ∧
      w'.mbufs = w.mbufs ∧ w'.rxCalls = w.rxCalls ∧ arrived es = [] := by
  by_cases replied : n > 0
  · obtain ⟨es, w', run, _⟩ := flush_returns nic h
    obtain ⟨offers, kept, calls, quiet⟩ := flush_handed h run
    refine ⟨es ++ [], w', ?_, ?_, kept, calls, ?_⟩
    · rw [if_pos replied]
      exact run.bind (pure_returns false w')
    · rwa [List.append_nil]
    · rwa [List.append_nil]
  · refine ⟨[], w, ?_, ?_, rfl, rfl, rfl⟩
    · rw [if_neg replied]
      exact pure_returns false w
    · rw [none (by omega)]
      rfl

theorem poll_streams (nic : Nic) {w : Worker} (idle : w.Idle) (q : LcoreRxQueue) :
    ∃ es exited w', (poll nic q).Returns w es exited w' ∧
      Streamed q (nic.rxBurst w.rxCalls q.portId q.queueId).val w es exited w' := by
  have rx := rx_returns nic w idle q
  generalize (nic.rxBurst w.rxCalls q.portId q.queueId).val = ms at rx
  let w₁ := w.receive ms
  by_cases empty : ms = []
  · subst empty
    refine ⟨_, true, w₁, rx.bind (pure_returns true w₁), ?_⟩
    exact ⟨⟨[], rfl, rfl⟩, rfl, List.forall_mem_nil _, fun p old => receive_others old, rfl, rfl,
      rfl⟩
  · have some : (ms.zipIdx w.next).map Prod.snd ≠ [] := by
      rw [List.zipIdx_map_snd]
      cases ms with
      | nil => exact absurd rfl empty
      | cons m ms => simp [List.range'_succ]
    have distinct : ((ms.zipIdx w.next).map Prod.snd).Nodup := by
      rw [List.zipIdx_map_snd]
      exact List.nodup_range'
    have idle₁ : w₁.Idle := idle
    have none : Pending w₁ q.portId [] := pending_idle idle₁ q.portId
    obtain ⟨es, n, w₂, _, handled, _⟩ := handle_returns none distinct 0
    obtain ⟨waiting, answering⟩ := handle_answers none distinct handled
    obtain ⟨fs, w₃, flushed, offers, kept, calls, quiet⟩ :=
      flushed_returns nic (n := n) answering.pending answering.still
    have run : (poll nic q).Returns w
        (.rxBurst q.portId q.queueId (fun _ => 0) (ms.zipIdx w.next) :: (es ++ fs)) false w₃ := by
      apply rx.bind
      rw [if_neg some]
      exact handled.bind flushed
    obtain ⟨_, _, _, _, run', _, _, next, _⟩ := poll_returns nic idle q
    obtain ⟨same, _, rfl⟩ := run.unique run'
    refine ⟨_, false, w₃, run, ⟨_, rfl, ?_⟩, ?_, ?_, ?_, ?_, ?_, ?_⟩
    · rw [arrived_append, answering.quiet, quiet]
      rfl
    · have all := answering.offers
      rw [List.nil_append, answered_burst, List.map_map] at all
      change offered (es ++ fs) = _
      rw [offered_append, offers]
      exact all
    · intro f hf
      rw [kept, answering.served f.2 (List.mem_map_of_mem hf), receive_mbufs w ms hf]
    · intro p old
      have outside : p ∉ (ms.zipIdx w.next).map Prod.snd := fun hp =>
        Nat.not_le.mpr old (zipIdx_ge hp)
      rw [kept, answering.others p outside, receive_others old]
    · rw [calls, answering.calls]
      rfl
    · injection (List.cons.inj same).1 with _ _ _ numbered
      rw [next, ← numbered, List.length_zipIdx]
    · simp [empty]

/-! ## A run -/

/-- The answered ones of some arrivals, by their packets. -/
def answered (frames : List Arrival) : List (U8 × Ptr) :=
  (frames.filter fun a => a.frame.Answered).map fun a => (a.port, a.pkt)

theorem answered_append (as bs : List Arrival) :
    answered (as ++ bs) = answered as ++ answered bs := by
  simp only [answered, List.filter_append, List.map_append]

/-- What a number of whole polls do. -/
structure Streams (w : Worker) (es : List Event) (w' : Worker) : Prop where
  offers : offered es = answered (arrived es)
  served : ∀ a ∈ arrived es, a.pkt < w'.next ∧ w'.mbufs a.pkt = a.frame.served
  others : ∀ p < w.next, w'.mbufs p = w.mbufs p
  grows : w.next ≤ w'.next

section runs
variable {q : LcoreRxQueue} {ms : List Mbuf} {w w' : Worker} {es : List Event} {exited : Bool}

theorem Streamed.arrived (h : Streamed q ms w es exited w') :
    arrived es = (ms.zipIdx w.next).map fun f => ⟨q.portId, f.1, f.2⟩ := by
  obtain ⟨rest, rfl, quiet⟩ := h.receives
  change _ ++ Udp.arrived rest = _
  rw [quiet, List.append_nil]
  rfl

theorem Streamed.answered (h : Streamed q ms w es exited w') :
    offered es = answered (Udp.arrived es) := by
  rw [h.offers, h.arrived, Udp.answered, List.filter_map, List.map_map]
  rfl

theorem Streamed.streams (h : Streamed q ms w es exited w') : Streams w es w' := by
  refine ⟨h.answered, ?_, h.others, by rw [h.next]; exact Nat.le_add_right ..⟩
  intro a ha
  rw [h.arrived] at ha
  obtain ⟨f, hf, rfl⟩ := List.mem_map.mp ha
  refine ⟨?_, h.served f hf⟩
  have numbered := List.mem_map_of_mem (f := Prod.snd) hf
  rw [List.zipIdx_map_snd, List.mem_range'_1] at numbered
  rw [h.next]
  exact numbered.2

theorem Streams.append {w₁ w₂ w₃ : Worker} {es fs : List Event} (h : Streams w₁ es w₂)
    (h' : Streams w₂ fs w₃) : Streams w₁ (es ++ fs) w₃ where
  offers := by rw [offered_append, arrived_append, answered_append, h.offers, h'.offers]
  served a ha := by
    rw [arrived_append] at ha
    rcases List.mem_append.mp ha with ha | ha
    · obtain ⟨old, done⟩ := h.served a ha
      exact ⟨Nat.lt_of_lt_of_le old h'.grows, by rw [h'.others _ old, done]⟩
    · exact h'.served a ha
  others p old := by rw [h'.others p (Nat.lt_of_lt_of_le old h.grows), h.others p old]
  grows := h.grows.trans h'.grows

theorem poll_streamed (idle : w.Idle) (run : (poll nic q).Returns w es exited w') :
    Streamed q (nic.rxBurst w.rxCalls q.portId q.queueId).val w es exited w' := by
  obtain ⟨_, _, _, run', streamed⟩ := poll_streams nic idle q
  obtain ⟨rfl, rfl, rfl⟩ := run.unique run'
  exact streamed

theorem PollRuns.streams (h : PollRuns nic w es w') : Streams w es w' := by
  induction h with
  | nil => exact ⟨rfl, List.forall_mem_nil _, fun _ _ => rfl, Nat.le_refl _⟩
  | poll idle run _ ih => exact (poll_streamed idle run).streams.append ih

/-- At any point, the packets offered so far are the first of the answered ones. -/
theorem PollRuns.offers {early : List Event} (h : PollRuns nic w es w') (cut : early <+: es) :
    offered early <+: answered (Udp.arrived early) := by
  induction h generalizing early with
  | nil =>
    rw [List.prefix_nil.mp cut]
    exact List.prefix_rfl
  | poll idle run _ ih =>
    have streamed := poll_streamed idle run
    rcases cut_of_prefix cut with begun | ⟨later, rfl, begun⟩
    · obtain ⟨rest, rfl, quiet⟩ := streamed.receives
      rcases List.prefix_cons_iff.mp begun with rfl | ⟨part, rfl, inside⟩
      · exact List.prefix_rfl
      · have none : Udp.arrived part = [] := by
          have := inside.flatMap Event.arrivals
          change Udp.arrived part <+: Udp.arrived rest at this
          rw [quiet] at this
          exact List.prefix_nil.mp this
        have whole := streamed.answered
        change _ = Udp.answered (_ ++ Udp.arrived rest) at whole
        change _ <+: Udp.answered (_ ++ Udp.arrived part)
        rw [none, ← quiet, ← whole]
        exact begun.flatMap Event.offers
    · rw [offered_append, arrived_append, answered_append, streamed.answered]
      exact (List.prefix_append_right_inj _).mpr (ih begun)

theorem serveRound_runs {n : Nat} {qs : Vector LcoreRxQueue maxRxQueuePerLcore} {u : Unit}
    {r : Unit ⊕ Stop} (h : w.Serving n qs) (run : (serveRound nic u).Returns w es r w') :
    PollRuns nic w es w' ∧ w'.Serving n qs := by
  obtain ⟨_, rfl, run₁⟩ := (get_returns w).rest run
  obtain ⟨es₁, exited, w₁, es₂, polled, last, rfl⟩ := returns_bind.mp run₁
  obtain ⟨_, _, _, polled', runs, serving⟩ := pollAll_returns nic h w.conf.polled
  obtain ⟨rfl, rfl, rfl⟩ := polled.unique polled'
  cases exited with
  | true =>
    obtain ⟨rfl, _, rfl⟩ := returns_pure.mp last
    rw [List.append_nil]
    exact ⟨runs, serving⟩
  | false =>
    obtain ⟨rfl, _, rfl⟩ := returns_pure.mp last
    rw [List.append_nil]
    exact ⟨runs, serving⟩

theorem steps_run {n k : Nat} {qs : Vector LcoreRxQueue maxRxQueuePerLcore} (h : w.Serving n qs)
    (rounds : Steps (serveRound nic) k () w es () w') : PollRuns nic w es w' ∧ w'.Serving n qs := by
  induction k generalizing w es with
  | zero =>
    obtain ⟨rfl, _, rfl⟩ := rounds
    exact ⟨.nil, h⟩
  | succ k ih =>
    obtain ⟨es₁, next, w₁, es₂, first, later, rfl⟩ := rounds
    obtain ⟨runs, serving⟩ := serveRound_runs h first
    obtain ⟨runs', serving'⟩ := ih serving later
    exact ⟨runs.append runs', serving'⟩

theorem mainLoop_returned_runs {n : Nat} {qs : Vector LcoreRxQueue maxRxQueuePerLcore}
    {stop : Stop} (h : w.Serving n qs) (run : (mainLoop nic).Returns w es stop w') :
    PollRuns nic w es w' := by
  obtain ⟨_, rfl, run₁⟩ := (get_returns w).rest run
  split at run₁
  · obtain ⟨rfl, _, rfl⟩ := returns_pure.mp run₁
    exact .nil
  · obtain ⟨k, es₁, _, w₁, es₂, rounds, last, rfl⟩ := loop_returns_iff.mp run₁
    obtain ⟨runs, serving⟩ := steps_run h rounds
    exact runs.append (serveRound_runs serving last).1

end runs

/-- Between polls, what has been sent is the answers to what has arrived, and
every frame that arrived is as serving leaves it. -/
def Echoed (es : List Event) (w : Worker) : Prop :=
  sent w es = answers (arrived es) ∧ ∀ a ∈ arrived es, w.mbufs a.pkt = a.frame.served

theorem Streams.echoed {w w' : Worker} {es : List Event} (h : Streams w es w') :
    Echoed es w' := by
  refine ⟨?_, fun a ha => (h.served a ha).2⟩
  rw [sent, h.offers, answered, answers, List.map_map]
  apply List.map_congr_left
  intro a ha
  obtain ⟨arrives, answers⟩ := List.mem_filter.mp ha
  rw [Function.comp_apply, (h.served a arrives).2, Mbuf.served, if_pos (of_decide_eq_true answers)]

/-- The server is a function of what it receives. Whatever the devices give and
take, at any point of any run, with whatever queues on ports below
`RTE_MAX_ETHPORTS`, the packets offered to them are those of the first
frames to be answered, in the order of their arrival and each on its own port;
and after any number of rounds, as when the process exits, they are those of all
of them, each turned into its reply, while every other frame is as it came. -/
theorem mainLoop_stream (nic : Nic) (nRxQueue : Nat)
    (rxQueues : Vector LcoreRxQueue maxRxQueuePerLcore) (txQueueIds : U8 → U16)
    (mbufs : Ptr → Mbuf) :
    let start := Worker.start nRxQueue rxQueues txQueueIds mbufs
    (∀ es, (mainLoop nic).Emitted start es → offered es <+: answered (arrived es)) ∧
      (∀ k es w', Steps (serveRound nic) k () start es () w' → Echoed es w') ∧
      ∀ es stop w', (mainLoop nic).Returns start es stop w' → Echoed es w' := by
  intro start
  have serving : start.Serving nRxQueue rxQueues := Worker.start_serving ..
  refine ⟨?_, ?_, ?_⟩
  · intro es emitted
    obtain ⟨all, w', runs, begins⟩ := mainLoop_runs serving emitted
    exact runs.offers begins
  · intro k es w' rounds
    exact (steps_run serving rounds).1.streams.echoed
  · intro es stop w' run
    exact (mainLoop_returned_runs serving run).streams.echoed

/-- Both packets are sent, and the third receive ends the process. -/
theorem twoFrames_stream :
    let nic := twoFrames rteEtherTypeIpv4 rteEtherTypeIpv4
    ∃ es w', (mainLoop nic).Returns oneQueue es .exited w' ∧
      offered es = [(0, 1), (0, 2)] ∧ Echoed es w' := by
  intro nic
  have run : (mainLoop nic).Returns oneQueue ((mainLoop nic).run 4 oneQueue).events .exited
      ((mainLoop nic).run 4 oneQueue).state := returns_of_value (by decide)
  exact ⟨_, _, run, by decide, (mainLoop_stream nic ..).2.2 _ _ _ run⟩

end Udp
