import Mathlib.Data.List.Infix
import Mathlib.Data.List.Nodup
import Mathlib.Data.List.Perm.Subperm
import Buster.Udp.Send

/-!
# The main loop

One poll receives a burst, echoes or frees its packets, and flushes the
buffer of the port. A frame whose own ethertype is not IPv4 is passed over: it
is neither sent nor freed.
-/

namespace Udp

open Imp.Prog

variable (nic : Nic)

/-- The packets of a burst in turn, with the number of replies so far. -/
def handle (port : U8) : List Ptr → Nat → Server Nat
  | [], nReply => pure nReply
  | pkt :: pkts, nReply => do
    let etherType ← load16 pkt 12
    if etherType = bswap16 rteEtherTypeIpv4 then
      let echoed ← echoSingleUdpPacket pkt
      if echoed then
        sendOne nic pkt port
        handle port pkts (nReply + 1)
      else
        rtePktmbufFree pkt
        handle port pkts nReply
    else
      handle port pkts nReply

def flush (port : U8) : Server Unit := do
  let w ← get
  sendBurst nic (w.conf.txMbufs port).len port
  modify fun w => w.setLen port 0

/-- The result tells whether the process exits: an empty burst is fatal. -/
def poll (q : LcoreRxQueue) : Server Bool := do
  let pktsBurst ← rteEthRxBurst nic q.portId q.queueId
  if pktsBurst = [] then
    return true
  else
    let nReply ← handle nic q.portId pktsBurst 0
    if nReply > 0 then
      flush nic q.portId
      return false
    else
      return false

def pollAll : List LcoreRxQueue → Server Bool
  | [] => pure false
  | q :: qs => do
    let exited ← poll nic q
    if exited then return true else pollAll qs

inductive Stop where
  | returned
  | exited
  deriving DecidableEq

def serveRound (_ : Unit) : Server (Unit ⊕ Stop) := do
  let w ← get
  let exited ← pollAll nic w.conf.polled
  if exited then return .inr .exited else return .inl ()

def mainLoop : Server Stop := do
  let w ← get
  if w.conf.nRxQueue = 0 then
    return .returned
  else
    loop (serveRound nic) ()

/-- The worker of an lcore with the queues that are mapped to it. -/
def Worker.start (nRxQueue : Nat) (rxQueues : Vector LcoreRxQueue maxRxQueuePerLcore)
    (txQueueIds : U8 → U16) (mbufs : Ptr → Mbuf) : Worker where
  conf := ⟨nRxQueue, rxQueues, txQueueIds, fun _ => .empty⟩
  mbufs := mbufs
  next := null + 1
  rxCalls := 0
  txCalls := 0

/-! ## One poll -/

/-- The ethertype right behind the addresses is IPv4. -/
def Mbuf.Ipv4 (m : Mbuf) : Prop := m.load16 12 = bswap16 rteEtherTypeIpv4

instance (m : Mbuf) : Decidable m.Ipv4 := inferInstanceAs (Decidable (_ = _))

variable {nic}

theorem load16_returns (pkt : Ptr) (off : Nat) (w : Worker) :
    (load16 pkt off).Returns w [.read pkt off 2] ((w.mbufs pkt).load16 off) w :=
  (get_returns w).bind ((emit_returns _ w).bind (pure_returns _ w))

theorem sends_quiet {port : U8} {es : List Event} (h : ∀ e ∈ es, e.Sends port) :
    received es = [] ∧ ∀ p, receivedOn p es = [] := by
  constructor
  · apply List.flatMap_eq_nil_iff.mpr
    intro e he
    cases e with
    | rxBurst => exact (h _ he).elim
    | _ => rfl
  · intro p
    apply List.flatMap_eq_nil_iff.mpr
    intro e he
    cases e with
    | rxBurst => exact (h _ he).elim
    | _ => rfl

/-- What handling `pkts` does, from some packets waiting in the buffer of the
port to others: the IPv4 ones are handed over or wait, and those that the device
has taken are in order before those that wait. -/
structure Handled (port : U8) (pkts : List Ptr) (w : Worker) (waiting : List Ptr) (n : Nat)
    (es : List Event) (w' : Worker) (waiting' : List Ptr) (n' : Nat) : Prop where
  pending : Pending w' port waiting'
  past : w.SamePast port w'
  mbufs : ∀ p, p ∉ pkts → w'.mbufs p = w.mbufs p
  sends : ∀ e ∈ es, e.Sends port
  handed : (handedOver es ++ waiting').Perm (waiting ++ pkts.filter fun p => (w.mbufs p).Ipv4)
  accepted : (acceptedOn port es ++ waiting').Sublist (waiting ++ pkts)
  grows : n ≤ n'
  still : n' = n → waiting' = waiting

section handled
variable {port : U8} {w w₁ w₂ : Worker} {waiting waiting₁ waiting₂ : List Ptr}
  {es fs : List Event} {n n₁ n₂ : Nat}

theorem Handled.nil (h : Pending w port waiting) : Handled port [] w waiting n [] w waiting n where
  pending := h
  past := .refl port w
  mbufs _ _ := rfl
  sends _ he := by cases he
  handed := by simp [handedOver]
  accepted := by simp [acceptedOn]
  grows := Nat.le_refl n
  still _ := rfl

theorem Handled.append {ps qs : List Ptr} (h : Handled port ps w waiting n es w₁ waiting₁ n₁)
    (h' : Handled port qs w₁ waiting₁ n₁ fs w₂ waiting₂ n₂) (apart : ∀ q ∈ qs, q ∉ ps) :
    Handled port (ps ++ qs) w waiting n (es ++ fs) w₂ waiting₂ n₂ where
  pending := h'.pending
  past := h.past.trans h'.past
  mbufs p other := by
    rw [List.mem_append, not_or] at other
    exact (h'.mbufs p other.2).trans (h.mbufs p other.1)
  sends := List.forall_mem_append.mpr ⟨h.sends, h'.sends⟩
  handed := by
    have same : (qs.filter fun p => (w₁.mbufs p).Ipv4) = qs.filter fun p => (w.mbufs p).Ipv4 := by
      apply List.filter_congr
      intro q hq
      rw [h.mbufs q (apart q hq)]
    have second := h'.handed
    rw [same] at second
    have both := (second.append_left (handedOver es)).trans
      (by simpa using h.handed.append_right (qs.filter fun p => (w.mbufs p).Ipv4))
    simpa [handedOver] using both
  accepted := by
    have both := (h'.accepted.append_left (acceptedOn port es)).trans
      (by simpa using h.accepted.append_right qs)
    simpa [acceptedOn] using both
  grows := Nat.le_trans h.grows h'.grows
  still all := by
    have first := h.grows
    have second := h'.grows
    rw [h'.still (by omega), h.still (by omega)]

theorem Pending.congr (h : Pending w port waiting) (same : w₁.conf = w.conf) :
    Pending w₁ port waiting where
  len := same ▸ h.len
  inside := h.inside
  table := same ▸ h.table

theorem Worker.SameBut.samePast {pkt : Ptr} (h : w.SameBut pkt w₁) (port : U8) :
    w.SamePast port w₁ where
  queues := by rw [h.1]; exact ⟨rfl, rfl⟩
  tables p _ := by rw [h.1]
  next := h.2.1

theorem accesses_quiet {pkt : Ptr} (h : ∀ e ∈ es, e.Accesses pkt) (port : U8) :
    (∀ e ∈ es, e.Sends port) ∧ handedOver es = [] ∧ acceptedOn port es = [] := by
  have each (e : Event) (he : e ∈ es) : e.Sends port ∧ e.handedOver = [] ∧ e.acceptedOn port = [] :=
    (h e he).sends
  refine ⟨fun e he => (each e he).1, ?_, ?_⟩
  · exact List.flatMap_eq_nil_iff.mpr fun e he => (each e he).2.1
  · exact List.flatMap_eq_nil_iff.mpr fun e he => (each e he).2.2

/-- A frame of another type is looked at and left. -/
theorem handled_passed {pkt : Ptr} (h : Pending w port waiting) (other : ¬ (w.mbufs pkt).Ipv4) :
    Handled port [pkt] w waiting n [.read pkt 12 2] w waiting n where
  pending := h
  past := .refl port w
  mbufs _ _ := rfl
  sends := List.forall_mem_singleton.mpr trivial
  handed := by simp [handedOver, Event.handedOver, other]
  accepted := by simp [acceptedOn, Event.acceptedOn]
  grows := Nat.le_refl n
  still _ := rfl

theorem handled_freed {pkt : Ptr} (h : Pending w port waiting) (ipv4 : (w.mbufs pkt).Ipv4)
    (quiet : ∀ e ∈ es, e.Accesses pkt) (same : w.SameBut pkt w₁) :
    Handled port [pkt] w waiting n (es ++ [.free pkt]) w₁ waiting n := by
  obtain ⟨sends, nothing, none⟩ := accesses_quiet quiet port
  constructor
  case pending => exact h.congr same.1
  case past => exact same.samePast port
  case mbufs =>
    intro p other
    exact same.2.2 p (List.mem_singleton.not.mp other)
  case sends => exact List.forall_mem_append.mpr ⟨sends, List.forall_mem_singleton.mpr trivial⟩
  case handed =>
    have freed : handedOver (es ++ [.free pkt]) = [pkt] := by
      rw [handedOver, List.flatMap_append, ← handedOver, nothing]
      rfl
    have behind : ([pkt] ++ waiting).Perm (waiting ++ [pkt]) := List.perm_append_comm
    rw [freed]
    simpa [ipv4] using behind
  case accepted =>
    have still : acceptedOn port (es ++ [.free pkt]) = [] := by
      rw [acceptedOn, List.flatMap_append, ← acceptedOn, none]
      rfl
    rw [still]
    exact List.sublist_append_left waiting [pkt]
  case grows => exact Nat.le_refl n
  case still => exact fun _ => rfl

theorem handled_sent {pkt : Ptr} (ipv4 : (w.mbufs pkt).Ipv4) (quiet : ∀ e ∈ es, e.Accesses pkt)
    (same : w.SameBut pkt w₁) (pending : Pending w₂ port waiting₂) (past : w₁.SamePast port w₂)
    (mbufs : w₂.mbufs = w₁.mbufs) (sends : ∀ e ∈ fs, e.Sends port)
    (handed : handedOver fs ++ waiting₂ = waiting ++ [pkt])
    (accepted : (acceptedOn port fs ++ waiting₂).Sublist (waiting ++ [pkt])) :
    Handled port [pkt] w waiting n (es ++ fs) w₂ waiting₂ (n + 1) := by
  obtain ⟨sends', nothing, none⟩ := accesses_quiet quiet port
  constructor
  case pending => exact pending
  case past => exact (same.samePast port).trans past
  case mbufs =>
    intro p other
    rw [mbufs]
    exact same.2.2 p (List.mem_singleton.not.mp other)
  case sends => exact List.forall_mem_append.mpr ⟨sends', sends⟩
  case handed =>
    rw [handedOver, List.flatMap_append, ← handedOver, ← handedOver, nothing, List.nil_append,
      handed]
    simp [ipv4]
  case accepted =>
    rw [acceptedOn, List.flatMap_append, ← acceptedOn, ← acceptedOn, none, List.nil_append]
    exact accepted
  case grows => exact Nat.le_succ n
  case still =>
    intro stuck
    omega

theorem handle_returns {pkts : List Ptr} (h : Pending w port waiting) (distinct : pkts.Nodup)
    (n : Nat) :
    ∃ es n' w' waiting', (handle nic port pkts n).Returns w es n' w' ∧
      Handled port pkts w waiting n es w' waiting' n' := by
  induction pkts generalizing w waiting n with
  | nil => exact ⟨[], n, w, waiting, pure_returns n w, .nil h⟩
  | cons pkt pkts ih =>
    obtain ⟨new, distinct⟩ := List.nodup_cons.mp distinct
    have apart : ∀ q ∈ pkts, q ∉ [pkt] := by
      intro q hq same
      rw [List.mem_singleton.mp same] at hq
      exact new hq
    -- one packet first, by what becomes of it; the others by induction
    suffices first : ∃ es w₁ waiting₁ n₁, Handled port [pkt] w waiting n es w₁ waiting₁ n₁ ∧
        ∀ fs a w₂, (handle nic port pkts n₁).Returns w₁ fs a w₂ →
          (handle nic port (pkt :: pkts) n).Returns w (es ++ fs) a w₂ by
      obtain ⟨es, w₁, waiting₁, n₁, one, continues⟩ := first
      obtain ⟨fs, n₂, w₂, waiting₂, rest, others⟩ := ih one.pending distinct n₁
      exact ⟨es ++ fs, n₂, w₂, waiting₂, continues fs n₂ w₂ rest, one.append others apart⟩
    by_cases ipv4 : (w.mbufs pkt).load16 12 = bswap16 rteEtherTypeIpv4
    · have completes : (echoSingleUdpPacket pkt).Completes (w.SameBut pkt) (Event.Accesses pkt) :=
        completes_echoSingleUdpPacket
      obtain ⟨es, echoed, w₁, echo, same, quiet⟩ := completes w ⟨rfl, rfl, fun _ _ => rfl⟩
      have looked : ∀ e ∈ .read pkt 12 2 :: es, e.Accesses pkt :=
        List.forall_mem_cons.mpr ⟨rfl, quiet⟩
      cases echoed with
      | false =>
        refine ⟨.read pkt 12 2 :: es ++ [.free pkt], w₁, waiting, n,
          handled_freed h ipv4 looked same, ?_⟩
        intro fs a w₂ rest
        rw [List.append_assoc]
        change Returns _ w ([.read pkt 12 2] ++ (es ++ ([.free pkt] ++ fs))) a w₂
        apply (load16_returns pkt 12 w).bind
        rw [if_pos ipv4]
        exact echo.bind ((emit_returns (Event.free pkt) w₁).bind rest)
      | true =>
        obtain ⟨fs, w₂, waiting₂, sent, pending, past, mbufs, sends, handed, accepted⟩ :=
          sendOne_returns nic (h.congr same.1) pkt
        refine ⟨.read pkt 12 2 :: es ++ fs, w₂, waiting₂, n + 1,
          handled_sent ipv4 looked same pending past mbufs sends handed accepted, ?_⟩
        intro gs a w₃ rest
        rw [List.append_assoc]
        change Returns _ w ([.read pkt 12 2] ++ (es ++ (fs ++ gs))) a w₃
        apply (load16_returns pkt 12 w).bind
        rw [if_pos ipv4]
        exact echo.bind (sent.bind rest)
    · refine ⟨[.read pkt 12 2], w, waiting, n, handled_passed h ipv4, ?_⟩
      intro fs a w₂ rest
      apply (load16_returns pkt 12 w).bind
      rw [if_neg ipv4]
      exact rest

end handled

/-! ## The polls of a run -/

def Worker.Idle (w : Worker) : Prop := ∀ port, (w.conf.txMbufs port).len = 0

/-- What follows a burst whose buffers are numbered from `first` on. -/
structure Polled (first : Ptr) (port : U8) (burst : List (Mbuf × Ptr)) (rest : List Event) :
    Prop where
  fresh : burst.map Prod.snd = List.range' first burst.length
  sends : ∀ e ∈ rest, e.Sends port
  handed : (handedOver rest).Perm ((burst.filter fun f => f.1.Ipv4).map Prod.snd)
  accepted : (acceptedOn port rest).Sublist (burst.map Prod.snd)

theorem pending_idle {w : Worker} (idle : w.Idle) (port : U8) : Pending w port [] where
  len := idle port
  inside := by decide
  table := rfl

theorem receive_mbufs (w : Worker) (ms : List Mbuf) {f : Mbuf × Ptr} (h : f ∈ ms.zipIdx w.next) :
    (w.receive ms).mbufs f.2 = f.1 := by
  obtain ⟨from_, found⟩ := List.mem_zipIdx_iff_le_and_getElem?_sub.mp h
  change (if w.next ≤ f.2 then _ else _) = _
  rw [if_pos from_, found]
  rfl

theorem flush_returns (nic : Nic) {w : Worker} {port : U8} {waiting : List Ptr}
    (h : Pending w port waiting) :
    ∃ es w', (flush nic port).Returns w es () w' ∧ w.SamePast port w' ∧
      (w'.conf.txMbufs port).len = 0 ∧ (∀ e ∈ es, e.Sends port) ∧ handedOver es = waiting ∧
      (acceptedOn port es).Sublist waiting := by
  obtain ⟨es, sent, sends, handed, accepted⟩ :=
    sendBurst_returns nic (Nat.le_of_lt h.inside) port w
  rw [h.table] at handed accepted
  let w₁ : Worker := { w with txCalls := w.txCalls + 1 }
  have past : w.SamePast port w₁ := ⟨⟨rfl, rfl⟩, fun _ _ => rfl, rfl⟩
  refine ⟨es ++ [], w₁.setLen port 0, ?_, past.trans (w₁.samePast_setTable port _), ?_, ?_, ?_, ?_⟩
  · apply (get_returns w).bind
    rw [h.len]
    exact sent.bind (modify_returns _ w₁)
  · rw [Worker.setLen_self]
  · rwa [List.append_nil]
  · rwa [List.append_nil]
  · rwa [List.append_nil]

theorem Worker.SamePast.idle {port : U8} {w w' : Worker} (h : w.SamePast port w') (idle : w.Idle)
    (emptied : (w'.conf.txMbufs port).len = 0) : w'.Idle := by
  intro p
  by_cases same : p = port
  · rw [same]
    exact emptied
  · rw [h.tables p same]
    exact idle p

/-- The rest of a poll, once the burst is there. -/
theorem serve_returns (nic : Nic) (port : U8) {w : Worker} {pkts : List Ptr} (idle : w.Idle)
    (distinct : pkts.Nodup) :
    ∃ es n w₁ fs w', (handle nic port pkts 0).Returns w es n w₁ ∧
      (if n > 0 then (flush nic port >>= fun _ => pure false : Server Bool) else pure false).Returns
        w₁ fs false w' ∧
      w.SamePast port w' ∧ w'.Idle ∧ (∀ e ∈ es ++ fs, e.Sends port) ∧
      (handedOver (es ++ fs)).Perm (pkts.filter fun p => (w.mbufs p).Ipv4) ∧
      (acceptedOn port (es ++ fs)).Sublist pkts := by
  obtain ⟨es, n, w₁, waiting, run, handled⟩ := handle_returns (pending_idle idle port) distinct 0
  by_cases replied : n > 0
  · obtain ⟨fs, w', flushed, past, emptied, sends, handed, accepted⟩ :=
      flush_returns nic handled.pending
    have all := handled.past.trans past
    refine ⟨es, n, w₁, fs ++ [], w', run, ?_, all, all.idle idle emptied, ?_, ?_, ?_⟩
    · rw [if_pos replied]
      exact flushed.bind (pure_returns false w')
    · rw [List.append_nil]
      exact List.forall_mem_append.mpr ⟨handled.sends, sends⟩
    · have perm := handled.handed
      rw [← handed] at perm
      simpa [handedOver] using perm
    · have order := (accepted.append_left (acceptedOn port es)).trans handled.accepted
      simpa [acceptedOn] using order
  · have none := handled.still (by omega)
    rw [none] at handled
    refine ⟨es, n, w₁, [], w₁, run, ?_, handled.past, ?_, ?_, ?_, ?_⟩
    · rw [if_neg replied]
      exact pure_returns false w₁
    · exact handled.past.idle idle handled.pending.len
    · rw [List.append_nil]
      exact handled.sends
    · simpa using handled.handed
    · simpa using handled.accepted

/-- With empty transmit buffers before, a poll leaves them empty. -/
theorem poll_returns (nic : Nic) {w : Worker} (idle : w.Idle) (q : LcoreRxQueue) :
    ∃ burst rest exited w', (poll nic q).Returns w
        (.rxBurst q.portId q.queueId (fun _ => 0) burst :: rest) exited w' ∧
      Polled w.next q.portId burst rest ∧ w'.Idle ∧ w'.next = w.next + burst.length ∧
      w'.conf.nRxQueue = w.conf.nRxQueue ∧ w'.conf.rxQueues = w.conf.rxQueues := by
  let ms := (nic.rxBurst w.rxCalls q.portId q.queueId).val
  let burst := ms.zipIdx w.next
  let w₁ := w.receive ms
  have zero : (fun p => (w.conf.txMbufs p).len) = fun _ => 0 := funext idle
  have count : burst.length = ms.length := List.length_zipIdx
  have fresh : burst.map Prod.snd = List.range' w.next burst.length := by
    rw [List.zipIdx_map_snd, count]
  have rx : (rteEthRxBurst nic q.portId q.queueId).Returns w
      [.rxBurst q.portId q.queueId (fun _ => 0) burst] (burst.map Prod.snd) w₁ := by
    apply (get_returns w).bind
    dsimp only
    rw [zero]
    exact (emit_returns _ w).bind ((modify_returns _ w).bind (pure_returns _ _))
  by_cases empty : burst.map Prod.snd = []
  · have none : burst = [] := List.map_eq_nil_iff.mp empty
    refine ⟨burst, [], true, w₁, rx.bind ?_, ⟨fresh, ?_, ?_, ?_⟩, idle, ?_, rfl, rfl⟩
    · rw [if_pos empty]
      exact pure_returns true w₁
    · intro e he
      cases he
    · rw [none]
      exact .refl _
    · exact List.nil_sublist _
    · rw [count]
      rfl
  · have distinct : (burst.map Prod.snd).Nodup := by
      rw [fresh]
      exact List.nodup_range'
    have idle₁ : w₁.Idle := idle
    obtain ⟨es, n, w₂, fs, w', handled, flushed, past, idle', sends, handed, accepted⟩ :=
      serve_returns nic q.portId idle₁ distinct
    refine ⟨burst, es ++ fs, false, w', rx.bind ?_, ⟨fresh, sends, ?_, accepted⟩, idle', ?_,
      past.queues.1, past.queues.2⟩
    · rw [if_neg empty]
      exact handled.bind flushed
    · rw [List.filter_map] at handed
      have same : (burst.filter ((fun p => decide (w₁.mbufs p).Ipv4) ∘ Prod.snd)) =
          burst.filter fun f => f.1.Ipv4 := by
        apply List.filter_congr
        intro f hf
        rw [Function.comp_apply, receive_mbufs w ms hf]
      rwa [same] at handed
    · rw [past.next, count]
      rfl

/-- A run seen as its polls, one after the other, from the first number on. -/
inductive Polls : Ptr → List Event → Ptr → Prop
  | nil {first} : Polls first [] first
  | poll {first port queue burst rest es last} : Polled first port burst rest →
      Polls (first + burst.length) es last →
      Polls first (.rxBurst port queue (fun _ => 0) burst :: rest ++ es) last

/-- The worker goes round with empty transmit buffers and the queues it started with. -/
structure Worker.Serving (n : Nat) (qs : Vector LcoreRxQueue maxRxQueuePerLcore) (w : Worker) :
    Prop where
  idle : w.Idle
  count : w.conf.nRxQueue = n
  queues : w.conf.rxQueues = qs

/-- The polls of a run one by one, each from empty transmit buffers. -/
inductive PollRuns (nic : Nic) : Worker → List Event → Worker → Prop
  | nil {w} : PollRuns nic w [] w
  | poll {w q es exited w₁ fs w'} (idle : w.Idle) (run : (poll nic q).Returns w es exited w₁)
      (rest : PollRuns nic w₁ fs w') : PollRuns nic w (es ++ fs) w'

theorem PollRuns.append {w₁ w₂ w₃ : Worker} {es fs : List Event} (h : PollRuns nic w₁ es w₂)
    (h' : PollRuns nic w₂ fs w₃) : PollRuns nic w₁ (es ++ fs) w₃ := by
  induction h with
  | nil => exact h'
  | poll idle run _ ih =>
    rw [List.append_assoc]
    exact .poll idle run (ih h')

theorem PollRuns.polls {w w' : Worker} {es : List Event} (h : PollRuns nic w es w') :
    Polls w.next es w'.next := by
  induction h with
  | nil => exact .nil
  | @poll w q es exited w₁ fs w' idle run _ ih =>
    obtain ⟨burst, rest, _, _, run', polled, _, next, _⟩ := poll_returns nic idle q
    obtain ⟨rfl, _, rfl⟩ := run.unique run'
    rw [next] at ih
    exact .poll polled ih

theorem pollAll_returns (nic : Nic) {n : Nat} {qs : Vector LcoreRxQueue maxRxQueuePerLcore}
    {w : Worker} (h : w.Serving n qs) (some : List LcoreRxQueue) :
    ∃ es exited w', (pollAll nic some).Returns w es exited w' ∧ PollRuns nic w es w' ∧
      w'.Serving n qs := by
  induction some generalizing w with
  | nil => exact ⟨[], false, w, pure_returns false w, .nil, h⟩
  | cons q some ih =>
    obtain ⟨burst, rest, exited, w₁, run, _, idle, _, count, queues⟩ :=
      poll_returns nic h.idle q
    have serving : w₁.Serving n qs := ⟨idle, count.trans h.count, queues.trans h.queues⟩
    cases exited with
    | true =>
      exact ⟨_ ++ [], true, w₁, run.bind (pure_returns true w₁), .poll h.idle run .nil, serving⟩
    | false =>
      obtain ⟨es, exited, w₂, others, polls, serving⟩ := ih serving
      exact ⟨_, exited, w₂, run.bind others, .poll h.idle run polls, serving⟩

theorem mainLoop_runs {n : Nat} {qs : Vector LcoreRxQueue maxRxQueuePerLcore} {w : Worker}
    (h : w.Serving n qs) {es : List Event} (emitted : (mainLoop nic).Emitted w es) :
    ∃ all w', PollRuns nic w all w' ∧ es <+: all := by
  rcases (get_returns w).emitted_bind.mp emitted with early | ⟨more, served, rfl⟩
  · exact ⟨[], w, .nil, early⟩
  by_cases unmapped : w.conf.nRxQueue = 0
  · rw [if_pos unmapped] at served
    exact ⟨[], w, .nil, (pure_returns _ w).continues served⟩
  · rw [if_neg unmapped] at served
    let inv (_ : Unit) (w : Worker) : Prop := w.Serving n qs
    have start : inv () w := h
    have round {b : Unit} {w : Worker} (h : inv b w) :
        ∃ es r w', (serveRound nic b).Returns w es r w' ∧ PollRuns nic w es w' ∧
          ∀ b' : Unit, r = .inl b' → inv b' w' := by
      obtain ⟨es, exited, w₁, run, polls, serving⟩ :=
        pollAll_returns nic h w.conf.polled
      cases exited with
      | true =>
        refine ⟨[] ++ (es ++ []), .inr .exited, w₁, (get_returns w).bind (run.bind
          (pure_returns _ w₁)), ?_, fun _ _ => serving⟩
        rwa [List.append_nil]
      | false =>
        refine ⟨[] ++ (es ++ []), .inl (), w₁, (get_returns w).bind (run.bind
          (pure_returns _ w₁)), ?_, fun _ _ => serving⟩
        rwa [List.append_nil]
    obtain ⟨all, w', runs, begins⟩ := emitted_of_rounds
      (T := PollRuns nic) PollRuns.append @round start served
    exact ⟨all, w', runs, begins⟩

/-! ## Sent once and in order -/

/-- A store is inside the table. -/
def Event.InTable : Event → Prop
  | .storeTable _ len _ => len < maxPktBurst
  | _ => True

/-- The transmit buffers are empty at a receive. -/
def Event.StartsEmpty : Event → Prop
  | .rxBurst _ _ lens _ => ∀ port, lens port = 0
  | _ => True

structure Orderly (es : List Event) : Prop where
  inTable : ∀ e ∈ es, e.InTable
  startsEmpty : ∀ e ∈ es, e.StartsEmpty
  once : (handedOver es).Nodup
  inOrder : ∀ port, (acceptedOn port es).Sublist (receivedOn port es)

theorem Event.Sends.inTable {port : U8} {e : Event} (h : e.Sends port) :
    e.InTable ∧ e.StartsEmpty := by
  cases e with
  | storeTable => exact ⟨h, trivial⟩
  | rxBurst => exact h.elim
  | _ => exact ⟨trivial, trivial⟩

theorem Event.Sends.elsewhere {port p : U8} {e : Event} (h : e.Sends port) (other : port ≠ p) :
    e.acceptedOn p = [] := by
  cases e with
  | txBurst q _ _ _ =>
    have same : q = port := h
    rw [same]
    exact if_neg other
  | _ => rfl

/-- What can be said of every part of a run: only what was received is handed over. -/
structure Covered (es : List Event) : Prop where
  inTable : ∀ e ∈ es, e.InTable ∧ e.StartsEmpty
  handed : (handedOver es).Subperm (received es)
  inOrder : ∀ port, (acceptedOn port es).Sublist (receivedOn port es)

theorem Covered.nil : Covered [] where
  inTable _ he := by cases he
  handed := .refl _
  inOrder _ := .refl _

theorem Covered.append {es fs : List Event} (h : Covered es) (h' : Covered fs) :
    Covered (es ++ fs) where
  inTable := List.forall_mem_append.mpr ⟨h.inTable, h'.inTable⟩
  handed := by
    rw [handedOver, received, List.flatMap_append, List.flatMap_append]
    exact h.handed.append h'.handed
  inOrder port := by
    rw [acceptedOn, receivedOn, List.flatMap_append, List.flatMap_append]
    exact (h.inOrder port).append (h'.inOrder port)

/-- Wherever a poll is cut, its part is covered. -/
theorem Polled.covered {first : Ptr} {port queue : U8} {burst : List (Mbuf × Ptr)}
    {rest es : List Event} (h : Polled first port burst rest)
    (cut : es <+: .rxBurst port queue (fun _ => 0) burst :: rest) : Covered es := by
  rcases List.prefix_cons_iff.mp cut with rfl | ⟨part, rfl, begins⟩
  · exact .nil
  have sends : ∀ e ∈ part, e.Sends port := fun e he => h.sends e (begins.subset he)
  obtain ⟨noneReceived, noneOn⟩ := sends_quiet sends
  constructor
  case inTable =>
    exact List.forall_mem_cons.mpr ⟨⟨trivial, fun _ => rfl⟩, fun e he => (sends e he).inTable⟩
  case handed =>
    have whole :
        received (.rxBurst port queue (fun _ => 0) burst :: part) = burst.map Prod.snd := by
      rw [received, List.flatMap_cons, ← received, noneReceived, List.append_nil]
      rfl
    rw [whole]
    have part := (begins.flatMap Event.handedOver).sublist.subperm
    exact (part.trans h.handed.subperm).trans ((List.filter_sublist.map _).subperm)
  case inOrder =>
    intro p
    have whole : receivedOn p (.rxBurst port queue (fun _ => 0) burst :: part) =
        if port = p then burst.map Prod.snd else [] := by
      rw [receivedOn, List.flatMap_cons, ← receivedOn, noneOn, List.append_nil]
      rfl
    rw [whole]
    by_cases same : port = p
    · rw [if_pos same, ← same]
      exact (begins.flatMap (Event.acceptedOn port)).sublist.trans h.accepted
    · have none : acceptedOn p (.rxBurst port queue (fun _ => 0) burst :: part) = [] := by
        apply List.flatMap_eq_nil_iff.mpr
        intro e he
        rcases List.mem_cons.mp he with rfl | he
        · rfl
        · exact Event.Sends.elsewhere (sends e he) same
      rw [none]
      exact List.nil_sublist _

theorem Polls.covered {first last : Ptr} {all es : List Event} (h : Polls first all last)
    (cut : es <+: all) : Covered es := by
  induction h generalizing es with
  | nil =>
    rw [List.prefix_nil.mp cut]
    exact .nil
  | poll polled _ ih =>
    rcases cut_of_prefix cut with early | ⟨later, rfl, begins⟩
    · exact polled.covered early
    · exact (polled.covered List.prefix_rfl).append (ih begins)

theorem Polled.received {first : Ptr} {port queue : U8} {burst : List (Mbuf × Ptr)}
    {rest : List Event} (h : Polled first port burst rest) :
    received (.rxBurst port queue (fun _ => 0) burst :: rest) = List.range' first burst.length := by
  rw [Udp.received, List.flatMap_cons, ← Udp.received, (sends_quiet h.sends).1, List.append_nil]
  exact h.fresh

theorem Polls.received {first last : Ptr} {all : List Event} (h : Polls first all last) :
    ∃ n, received all = List.range' first n := by
  induction h with
  | nil => exact ⟨0, rfl⟩
  | @poll first _ _ burst _ _ _ polled _ ih =>
    obtain ⟨n, rest⟩ := ih
    refine ⟨burst.length + n, ?_⟩
    rw [Udp.received, List.flatMap_append, ← Udp.received, ← Udp.received, polled.received, rest]
    exact List.range'_append_1

theorem Worker.start_serving (nRxQueue : Nat) (rxQueues : Vector LcoreRxQueue maxRxQueuePerLcore)
    (txQueueIds : U8 → U16) (mbufs : Ptr → Mbuf) :
    (Worker.start nRxQueue rxQueues txQueueIds mbufs).Serving nRxQueue rxQueues :=
  ⟨fun _ => rfl, rfl, rfl⟩

/-- A frame that is all zero but for its ethertype, version, header length and protocol. -/
def frame (etherType : U16) : Mbuf where
  dataLen := 60
  data i :=
    if i = 12 then (etherType >>> 8).setWidth 8
    else if i = 13 then etherType.setWidth 8
    else if i = 14 then 0x45
    else if i = 23 then ipprotoUdp
    else 0
  olFlags := 0

/-- A device that has one frame of either type to give and sends everything. -/
def twoFrames (first second : U16) : Nic where
  rxBurst n _ _ :=
    if n = 0 then ⟨[frame first], by simp [maxPktBurst]⟩
    else if n = 1 then ⟨[frame second], by simp [maxPktBurst]⟩
    else ⟨[], by decide⟩
  txBurst _ _ _ n := Fin.last n

/-- The worker of an lcore with the one queue (0,0). -/
def oneQueue : Worker :=
  .start 1 (Vector.replicate maxRxQueuePerLcore ⟨0, 0⟩) (fun _ => 0) (fun _ => frame 0)

/-- At any point of any run, with whatever queues on ports below `RTE_MAX_ETHPORTS`: stores
are inside the tables, a receive finds the tables empty, nothing is handed over twice, and
each port sends in order. -/
theorem mainLoop_orderly {nRxQueue : Nat} {rxQueues : Vector LcoreRxQueue maxRxQueuePerLcore}
    {txQueueIds : U8 → U16} {mbufs : Ptr → Mbuf} {es : List Event}
    (emitted : (mainLoop nic).Emitted (.start nRxQueue rxQueues txQueueIds mbufs) es) :
    Orderly es := by
  obtain ⟨all, w', runs, begins⟩ := mainLoop_runs (Worker.start_serving ..) emitted
  have polls := runs.polls
  obtain ⟨n, numbers⟩ := polls.received
  have distinct : (received es).Nodup := by
    have whole : (received all).Nodup := by
      rw [numbers]
      exact List.nodup_range'
    exact whole.sublist (begins.flatMap Event.received).sublist
  have covered := polls.covered begins
  obtain ⟨handed, perm, inside⟩ := covered.handed
  exact ⟨fun e he => (covered.inTable e he).1, fun e he => (covered.inTable e he).2,
    perm.nodup_iff.mp (distinct.sublist inside), covered.inOrder⟩

/-- A device that has two full bursts to give and sends no more than 30 packets at once. -/
def fullBursts : Nic where
  rxBurst n _ _ :=
    if n < 2 then ⟨List.replicate maxPktBurst (frame rteEtherTypeIpv4), by simp⟩
    else ⟨[], by decide⟩
  txBurst _ _ _ n := ⟨min n 30, by omega⟩

/-- Each burst fills the table of port 0, which is sent; the last two packets are dropped. -/
theorem fullBursts_orderly :
    let es := ((mainLoop fullBursts).run 33 oneQueue).events
    Orderly es ∧ handedOver es = List.range' 1 64 ∧
      acceptedOn 0 es = List.range' 1 30 ++ List.range' 33 30 :=
  ⟨mainLoop_orderly ⟨33, List.prefix_rfl⟩, by decide +kernel, by decide +kernel⟩

/-! ## What is never handed over -/

def Event.receives : Event → Bool
  | .rxBurst .. => true
  | _ => false

/-- The bursts of a run, each with what happens until the next receive. -/
def batches : List Event → List (List (Mbuf × Ptr) × List Event)
  | [] => []
  | .rxBurst _ _ _ burst :: es => (burst, es.takeWhile fun e => !e.receives) :: batches es
  | _ :: es => batches es

/-- Every buffer of a burst is handed over before the next receive. -/
def NoLeak (es : List Event) : Prop :=
  ∀ b ∈ (batches es).dropLast, ∀ f ∈ b.1, f.2 ∈ handedOver b.2

theorem Event.Sends.receives {port : U8} {e : Event} (h : e.Sends port) : e.receives = false := by
  cases e with
  | rxBurst => exact h.elim
  | _ => rfl

theorem batches_sends {port : U8} {es : List Event} (h : ∀ e ∈ es, e.Sends port) (fs : List Event) :
    batches (es ++ fs) = batches fs ∧
      (es ++ fs).takeWhile (fun e => !e.receives) = es ++ fs.takeWhile fun e => !e.receives := by
  induction es with
  | nil => exact ⟨rfl, rfl⟩
  | cons e es ih =>
    obtain ⟨first, others⟩ := List.forall_mem_cons.mp h
    obtain ⟨same, grows⟩ := ih others
    constructor
    · cases e with
      | rxBurst => exact first.elim
      | _ => exact same
    · rw [List.cons_append, List.takeWhile_cons, first.receives, grows]
      rfl

/-- Of a batch that is over, the IPv4 frames have been handed over and no others. -/
def Settled (b : List (Mbuf × Ptr) × List Event) : Prop :=
  (b.1.map Prod.snd).Nodup ∧
    (handedOver b.2).Perm ((b.1.filter fun f => f.1.Ipv4).map Prod.snd)

theorem Polled.settled {first : Ptr} {port : U8} {burst : List (Mbuf × Ptr)} {rest : List Event}
    (h : Polled first port burst rest) : Settled (burst, rest) := by
  refine ⟨?_, h.handed⟩
  change (burst.map Prod.snd).Nodup
  rw [h.fresh]
  exact List.nodup_range'

/-- A run goes on with a receive after each poll. -/
theorem Polls.opens {first last : Ptr} {all es : List Event} (h : Polls first all last)
    (cut : es <+: all) : es.takeWhile (fun e => !e.receives) = [] := by
  cases h with
  | nil => rw [List.prefix_nil.mp cut]; rfl
  | poll =>
    rcases List.prefix_cons_iff.mp cut with rfl | ⟨part, rfl, _⟩
    · rfl
    · rfl

/-- What holds of each poll holds of the batches that are over. -/
theorem PollRuns.batches {P : List (Mbuf × Ptr) × List Event → Prop}
    (each : ∀ {w : Worker} {q burst rest exited w'}, w.Idle → (Udp.poll nic q).Returns w
      (.rxBurst q.portId q.queueId (fun _ => 0) burst :: rest) exited w' → P (burst, rest))
    {w w' : Worker} {all es : List Event} (h : PollRuns nic w all w') (cut : es <+: all) :
    ∀ b ∈ (batches es).dropLast, P b := by
  induction h generalizing es with
  | nil =>
    rw [List.prefix_nil.mp cut]
    intro b hb
    cases hb
  | @poll w q es₁ exited w₁ fs w' idle run others ih =>
    obtain ⟨burst, rest, _, _, run', polled, _⟩ := poll_returns nic idle q
    obtain ⟨rfl, _, rfl⟩ := run.unique run'
    rcases cut_of_prefix cut with early | ⟨c, rfl, begins⟩
    · -- a batch that is not over is the last one
      rcases List.prefix_cons_iff.mp early with rfl | ⟨part, rfl, inside⟩
      · intro b hb
        cases hb
      · have sends : ∀ e ∈ part, e.Sends q.portId := fun e he => polled.sends e (inside.subset he)
        have none := (batches_sends sends []).1
        rw [List.append_nil] at none
        rw [Udp.batches, none]
        intro b hb
        cases hb
    · obtain ⟨after, whole⟩ := batches_sends polled.sends c
      rw [List.cons_append, Udp.batches, after, whole, others.polls.opens begins, List.append_nil]
      cases further : Udp.batches c with
      | nil =>
        intro b hb
        cases hb
      | cons next later =>
        rw [List.dropLast_cons_cons, ← further, List.forall_mem_cons]
        exact ⟨each idle run, ih begins⟩

/-- A batch that is not over is the beginning of one of which it holds. -/
theorem PollRuns.begins {P : List (Mbuf × Ptr) × List Event → Prop}
    (each : ∀ {w : Worker} {q burst rest exited w'}, w.Idle → (Udp.poll nic q).Returns w
      (.rxBurst q.portId q.queueId (fun _ => 0) burst :: rest) exited w' → P (burst, rest))
    {w w' : Worker} {all es : List Event} (h : PollRuns nic w all w') (cut : es <+: all) :
    ∀ b ∈ Udp.batches es, ∃ rest, b.2 <+: rest ∧ P (b.1, rest) := by
  induction h generalizing es with
  | nil =>
    rw [List.prefix_nil.mp cut]
    exact List.forall_mem_nil _
  | @poll w q es₁ exited w₁ fs w' idle run others ih =>
    obtain ⟨burst, rest, _, _, run', polled, _⟩ := poll_returns nic idle q
    obtain ⟨rfl, _, rfl⟩ := run.unique run'
    rcases cut_of_prefix cut with early | ⟨c, rfl, begins⟩
    · rcases List.prefix_cons_iff.mp early with rfl | ⟨part, rfl, inside⟩
      · exact List.forall_mem_nil _
      · have sends : ∀ e ∈ part, e.Sends q.portId := fun e he => polled.sends e (inside.subset he)
        obtain ⟨none, whole⟩ := batches_sends sends []
        rw [List.takeWhile_nil, List.append_nil] at whole
        rw [List.append_nil] at none
        rw [Udp.batches, none, whole]
        exact List.forall_mem_cons.mpr ⟨⟨rest, inside, each idle run⟩, List.forall_mem_nil _⟩
    · obtain ⟨after, whole⟩ := batches_sends polled.sends c
      rw [List.cons_append, Udp.batches, after, whole, others.polls.opens begins, List.append_nil]
      exact List.forall_mem_cons.mpr ⟨⟨rest, List.prefix_rfl, each idle run⟩, ih begins⟩

/-- Each poll of a run is one that `poll_returns` describes. -/
theorem poll_settled {w w' : Worker} {q : LcoreRxQueue} {burst : List (Mbuf × Ptr)}
    {rest : List Event} {exited : Bool} (idle : w.Idle) (run : (poll nic q).Returns w
      (.rxBurst q.portId q.queueId (fun _ => 0) burst :: rest) exited w') :
    Settled (burst, rest) := by
  obtain ⟨_, _, _, _, run', polled, _⟩ := poll_returns nic idle q
  cases (run.unique run').1
  exact polled.settled

theorem Settled.noLeak_iff {b : List (Mbuf × Ptr) × List Event} (h : Settled b) :
    (∀ f ∈ b.1, f.2 ∈ handedOver b.2) ↔ ∀ f ∈ b.1, f.1.Ipv4 := by
  obtain ⟨distinct, handed⟩ := h
  constructor
  · intro all f hf
    obtain ⟨f', kept, same⟩ := List.mem_map.mp (handed.mem_iff.mp (all f hf))
    obtain ⟨hf', ipv4⟩ := List.mem_filter.mp kept
    rw [List.inj_on_of_nodup_map distinct hf hf' same.symm]
    exact of_decide_eq_true ipv4
  · intro all f hf
    apply handed.mem_iff.mpr
    exact List.mem_map_of_mem (List.mem_filter.mpr ⟨hf, decide_eq_true (all f hf)⟩)

/-- At any point of any run, with whatever queues on ports below `RTE_MAX_ETHPORTS`, nothing
has leaked exactly when every frame of the bursts before the last one has IPv4 as its own
ethertype. -/
theorem mainLoop_noLeak_iff {nRxQueue : Nat}
    {rxQueues : Vector LcoreRxQueue maxRxQueuePerLcore} {txQueueIds : U8 → U16}
    {mbufs : Ptr → Mbuf} {es : List Event}
    (emitted : (mainLoop nic).Emitted (.start nRxQueue rxQueues txQueueIds mbufs) es) :
    NoLeak es ↔ ∀ b ∈ (batches es).dropLast, ∀ f ∈ b.1, f.1.Ipv4 := by
  obtain ⟨all, w', runs, begins⟩ := mainLoop_runs (Worker.start_serving ..) emitted
  have settled := runs.batches poll_settled begins
  constructor
  · intro none b hb
    exact (settled b hb).noLeak_iff.mp (none b hb)
  · intro ipv4 b hb
    exact (settled b hb).noLeak_iff.mpr (ipv4 b hb)

/-- Two UDP packets, both sent. -/
theorem twoFrames_noLeak :
    NoLeak ((mainLoop (twoFrames rteEtherTypeIpv4 rteEtherTypeIpv4)).run 3 oneQueue).events :=
  (mainLoop_noLeak_iff ⟨3, List.prefix_rfl⟩).mpr (by decide)

/-- An ARP frame comes before the second receive and is forgotten. -/
theorem arp_leaks : ∃ es, (mainLoop (twoFrames 0x0806 rteEtherTypeIpv4)).Emitted oneQueue es ∧
    ¬ NoLeak es := by
  refine ⟨_, ⟨3, List.prefix_rfl⟩, ?_⟩
  unfold NoLeak
  decide

end Udp
