import Buster.Lib.Ownership
import Buster.Udp.Stream

/-!
# Buffers given away

The worker owns a buffer from the burst that brings it until it is handed over.
It uses none that it does not own, and what it still owns between polls are the
frames that the main loop has passed over.
-/

namespace Udp

open Imp.Prog Ownership

variable {nic : Nic}

/-- The buffers an event is about, those of a receive apart. -/
def Event.uses : Event → List Ptr
  | .read pkt _ _ => [pkt]
  | .write pkt _ _ => [pkt]
  | .rxBurst .. => []
  | .storeTable _ _ pkt => [pkt]
  | .txBurst _ _ pkts _ => pkts
  | .free pkt => [pkt]

theorem Event.handedOver_uses (e : Event) : e.handedOver ⊆ e.uses := by
  cases e with
  | txBurst _ _ pkts rv => exact List.take_subset rv pkts
  | free => exact fun _ => id
  | _ => exact List.nil_subset _

/-- A receive gives buffers, the device and the pool take them. -/
def buffers : Discipline Event Ptr where
  gains := Event.received
  uses := Event.uses
  loses := Event.handedOver
  loses_used := Event.handedOver_uses

def those (pkts : List Ptr) : Set Ptr := {p | p ∈ pkts}

theorem those_append (ps qs : List Ptr) : those (ps ++ qs) = those ps ∪ those qs := by
  ext p
  exact List.mem_append

theorem Event.received_arrivals (e : Event) : e.received = e.arrivals.map Arrival.pkt := by
  cases e with
  | rxBurst port _ _ burst =>
    change burst.map Prod.snd = (burst.map _).map Arrival.pkt
    rw [List.map_map]
    rfl
  | _ => rfl

theorem received_arrived (es : List Event) : received es = (arrived es).map Arrival.pkt := by
  rw [received, arrived, List.map_flatMap]
  exact List.flatMap_congr fun e _ => e.received_arrivals

/-- Without an arrival no buffer is gained. -/
theorem gains_none {es : List Event} (quiet : arrived es = []) (p : Ptr) :
    ∀ e ∈ es, p ∉ buffers.gains e := by
  intro e he gained
  have none := List.flatMap_eq_nil_iff.mp quiet e he
  change p ∈ e.received at gained
  rw [e.received_arrivals, none] at gained
  cases gained

/-! ## Sending -/

section sending
variable {w w₁ w' : Worker} {es : List Event} {port : U8} {u : Unit} {pkt : Ptr}
  {waiting waiting' : List Ptr} {n n' : Nat}

theorem owns_frees {pkts : List Ptr} (distinct : pkts.Nodup) :
    buffers.Owns (those pkts) (pkts.map Event.free) ∅ := by
  induction pkts with
  | nil => exact ⟨trivial, Set.empty_subset _⟩
  | cons pkt pkts ih =>
    obtain ⟨new, distinct⟩ := List.nodup_cons.mp distinct
    have left : those pkts ⊆ buffers.after (those (pkt :: pkts)) (.free pkt) := by
      intro p hp
      refine .inl ⟨List.mem_cons_of_mem _ hp, fun same => ?_⟩
      rw [List.mem_singleton.mp same] at hp
      exact new hp
    exact .cons (List.forall_mem_singleton.mpr List.mem_cons_self)
      ((ih distinct).mono left Set.Subset.rfl)

theorem owns_burst {pkts : List Ptr} (distinct : pkts.Nodup) (queueid : U16) (rv : Nat) :
    buffers.Owns (those pkts)
      (.txBurst port queueid pkts rv :: (pkts.drop rv).map Event.free) ∅ := by
  have left : those (pkts.drop rv) ⊆
      buffers.after (those pkts) (.txBurst port queueid pkts rv) := by
    intro p hp
    refine .inl ⟨List.mem_of_mem_drop hp, fun taken => ?_⟩
    have apart := distinct
    rw [← List.take_append_drop rv pkts] at apart
    exact (List.nodup_append.mp apart).2.2 p taken p hp rfl
  have rest := owns_frees (distinct.sublist (List.drop_sublist rv pkts))
  exact .cons (fun _ => id) (rest.mono left Set.Subset.rfl)

theorem sendBurst_owns {pkts : List Ptr} (fits : n ≤ maxPktBurst)
    (holds : (w.conf.txMbufs port).mTable.toList.take n = pkts) (distinct : pkts.Nodup)
    (run : (sendBurst nic n port).Returns w es u w') : buffers.Owns (those pkts) es ∅ := by
  obtain ⟨rv, run'⟩ := sendBurst_events nic fits port w
  obtain ⟨rfl, _, _⟩ := run.unique run'
  rw [holds]
  exact owns_burst distinct _ rv

theorem sendOne_owns (h : Pending w port waiting) (distinct : (waiting ++ [pkt]).Nodup)
    (run : (sendOne nic pkt port).Returns w es u w') (h' : Pending w' port waiting') :
    buffers.Owns (those (waiting ++ [pkt])) es (those waiting') ∧
      waiting'.Sublist (waiting ++ [pkt]) := by
  obtain ⟨_, _, _, run', pending, _, _, _, handed, _⟩ := sendOne_returns nic h pkt
  obtain ⟨rfl, _, rfl⟩ := run.unique run'
  obtain rfl := pending.unique h'
  refine ⟨?_, handed ▸ List.sublist_append_right ..⟩
  obtain ⟨_, rfl, run₁⟩ := (get_returns w).rest run
  obtain ⟨fs, rfl, run₂⟩ := (emit_returns _ w).rest run₁
  obtain ⟨fs, rfl, run₃⟩ := (modify_returns _ w).rest run₂
  have stored : buffers.Owns (those (waiting ++ [pkt]))
      [.storeTable port (w.conf.txMbufs port).len pkt] (those (waiting ++ [pkt])) :=
    .steady (List.forall_mem_singleton.mpr ⟨List.forall_mem_singleton.mpr
      (List.mem_append_right _ (List.mem_singleton_self pkt)), rfl⟩)
  refine stored.append ?_
  by_cases full : (w.conf.txMbufs port).len + 1 = maxPktBurst
  · rw [if_pos full] at run₃
    obtain ⟨gs, _, w₁, hs, flushed, last, rfl⟩ := returns_bind.mp run₃
    obtain ⟨rfl, rfl⟩ := returns_modify.mp last
    have emptied := h'.len
    rw [Worker.setLen_self] at emptied
    rw [List.length_eq_zero_iff.mp emptied.symm, List.append_nil]
    have all : maxPktBurst = waiting.length + 1 := by rw [← h.len]; exact full.symm
    refine (sendBurst_owns (Nat.le_refl _) ?_ distinct flushed).mono Set.Subset.rfl
      fun _ => List.not_mem_nil.elim
    have entered := h.entered pkt
    rw [← all] at entered
    rw [Worker.setTable_self]
    exact entered
  · rw [if_neg full] at run₃
    obtain ⟨rfl, _⟩ := returns_modify.mp run₃
    change [] ++ _ = _ at handed
    rw [← handed]
    exact .nil _

theorem Event.Accesses.steady {e : Event} {own : Set Ptr} (h : e.Accesses pkt) (mine : pkt ∈ own) :
    (∀ p ∈ buffers.uses e, p ∈ own) ∧ buffers.loses e = [] := by
  cases e with
  | read p | write p =>
    obtain rfl : p = pkt := h
    exact ⟨List.forall_mem_singleton.mpr mine, rfl⟩
  | _ => exact h.elim

/-- What the main loop does with one packet, while others wait. -/
theorem Handling.owns {n₁ : Nat} (one : Handling nic port pkt w n es n₁ w₁)
    (h : Pending w port waiting) (distinct : (waiting ++ [pkt]).Nodup)
    (h' : Pending w₁ port waiting') :
    buffers.Owns (those (waiting ++ [pkt])) es (those waiting') ∧
      waiting'.Sublist (waiting ++ [pkt]) := by
  have mine : pkt ∈ those (waiting ++ [pkt]) :=
    List.mem_append_right _ (List.mem_singleton_self pkt)
  have looked {fs : List Event} (looks : ∀ e ∈ fs, e.Accesses pkt) :
      buffers.Owns (those (waiting ++ [pkt])) fs (those (waiting ++ [pkt])) :=
    .steady fun e he => (looks e he).steady mine
  cases one with
  | passed =>
    obtain rfl := h.unique h'
    have reads : ∀ e ∈ [Event.read pkt 12 2], e.Accesses pkt :=
      List.forall_mem_singleton.mpr (accesses_read pkt 12 2)
    exact ⟨(looked reads).mono Set.Subset.rfl fun p => List.mem_append_left _,
      List.sublist_append_left ..⟩
  | freed _ _ looks =>
    obtain rfl := h.unique h'
    refine ⟨(looked looks).append ?_, List.sublist_append_left ..⟩
    have apart : ∀ p ∈ those waiting, p ∉ those [pkt] ∧
        ∀ e ∈ [Event.free pkt], p ∉ buffers.gains e := by
      intro p hp
      exact ⟨fun same => (List.nodup_append.mp distinct).2.2 p hp p same rfl, gains_none rfl p⟩
    have freed := (owns_frees (List.nodup_singleton pkt)).frame apart
    rw [Set.empty_union, Set.union_comm, ← those_append] at freed
    exact freed
  | sent _ looks run =>
    have same : Pending (w.setMbuf pkt (w.mbufs pkt).reply) port waiting := h.congr rfl
    obtain ⟨owns, part⟩ := sendOne_owns same distinct run h'
    exact ⟨(looked looks).append owns, part⟩

theorem handle_owns {pkts : List Ptr} (h : Pending w port waiting)
    (distinct : (waiting ++ pkts).Nodup) (run : (handle nic port pkts n).Returns w es n' w')
    (h' : Pending w' port waiting') :
    buffers.Owns (those (waiting ++ pkts)) es (those waiting') ∧
      waiting'.Sublist (waiting ++ pkts) := by
  induction pkts generalizing w waiting n es with
  | nil =>
    obtain ⟨rfl, _, rfl⟩ := returns_pure.mp run
    rw [h.unique h', List.append_nil]
    exact ⟨.nil _, .refl _⟩
  | cons pkt pkts ih =>
    obtain ⟨own, others, n₁, w₁, rfl, one, rest⟩ := handle_split run
    obtain ⟨waiting₁, answering⟩ := one.answering h
    have whole : waiting ++ pkt :: pkts = waiting ++ [pkt] ++ pkts := by simp
    rw [whole] at distinct ⊢
    obtain ⟨first, later, apart⟩ := List.nodup_append.mp distinct
    obtain ⟨owns, part⟩ := one.owns h first answering.pending
    have aside : ∀ p ∈ those pkts, p ∉ those (waiting ++ [pkt]) ∧
        ∀ e ∈ own, p ∉ buffers.gains e := by
      intro p hp
      exact ⟨fun mine => apart p mine p hp rfl, gains_none answering.quiet p⟩
    have framed := owns.frame aside
    rw [← those_append, ← those_append] at framed
    have fewer := part.append_right pkts
    obtain ⟨owns', part'⟩ := ih answering.pending (distinct.sublist fewer) rest
    exact ⟨framed.append owns', part'.trans fewer⟩

end sending

/-! ## A run -/

section runs
variable {w w' : Worker} {es : List Event} {q : LcoreRxQueue} {exited : Bool}

theorem owns_received (port queue : U8) (lens : U8 → Nat) (burst : List (Mbuf × Ptr)) :
    buffers.Owns ∅ [.rxBurst port queue lens burst] (those (burst.map Prod.snd)) :=
  .cons (List.forall_mem_nil _) (.mono (.nil _) (fun _ hp => .inr hp) Set.Subset.rfl)

theorem flush_owns {port : U8} {waiting : List Ptr} {u : Unit} (h : Pending w port waiting)
    (distinct : waiting.Nodup) (run : (flush nic port).Returns w es u w') :
    buffers.Owns (those waiting) es ∅ := by
  obtain ⟨fs, rfl, run₁⟩ := (get_returns w).rest run
  obtain ⟨gs, _, w₁, hs, burst, last, rfl⟩ := returns_bind.mp run₁
  obtain ⟨rfl, _⟩ := returns_modify.mp last
  have table := h.table
  rw [← h.len] at table
  have fits : (w.conf.txMbufs port).len ≤ maxPktBurst := by
    rw [h.len]
    exact Nat.le_of_lt h.inside
  rw [List.append_nil]
  exact sendBurst_owns fits table distinct burst

/-- From the receive to the flush. -/
theorem poll_owns (idle : w.Idle) (run : (poll nic q).Returns w es exited w') :
    buffers.Owns ∅ es ∅ := by
  have rx := rx_returns nic w idle q
  obtain ⟨fs, rfl, run₁⟩ := rx.rest run
  generalize (nic.rxBurst w.rxCalls q.portId q.queueId).val = ms at run₁ ⊢
  let pkts := (ms.zipIdx w.next).map Prod.snd
  have distinct : pkts.Nodup := by
    change ((ms.zipIdx w.next).map Prod.snd).Nodup
    rw [List.zipIdx_map_snd]
    exact List.nodup_range'
  refine (owns_received ..).append ?_
  split at run₁
  · obtain ⟨rfl, _⟩ := returns_pure.mp run₁
    exact ⟨trivial, Set.empty_subset _⟩
  · obtain ⟨es₁, n, w₁, es₂, handled, run₂, rfl⟩ := returns_bind.mp run₁
    have idle₁ : (w.receive ms).Idle := idle
    have none : Pending (w.receive ms) q.portId [] := pending_idle idle₁ q.portId
    obtain ⟨waiting, answering⟩ := handle_answers none distinct handled
    obtain ⟨owns, part⟩ := handle_owns none distinct handled answering.pending
    refine owns.append ?_
    split at run₂
    · obtain ⟨gs, _, w₂, hs, flushed, last, rfl⟩ := returns_bind.mp run₂
      obtain ⟨rfl, _⟩ := returns_pure.mp last
      rw [List.append_nil]
      exact flush_owns answering.pending (distinct.sublist part) flushed
    · obtain ⟨rfl, _⟩ := returns_pure.mp run₂
      exact ⟨trivial, Set.empty_subset _⟩

theorem PollRuns.owns (h : PollRuns nic w es w') : buffers.Owns ∅ es ∅ := by
  induction h with
  | nil => exact .nil ∅
  | poll idle run _ ih => exact (poll_owns idle run).append ih

/-- What comes in, comes in once. -/
theorem Polls.fresh {first last : Ptr} {all : List Event} (h : Polls first all last)
    (cut : es <+: all) : buffers.Fresh ∅ es where
  once := by
    obtain ⟨n, numbers⟩ := h.received
    have whole : (Udp.received all).Nodup := by
      rw [numbers]
      exact List.nodup_range'
    exact whole.sublist (cut.flatMap Event.received).sublist
  new _ _ := Set.notMem_empty _

/-- Whole polls hand over the IPv4 frames that have come. -/
theorem PollRuns.handed (h : PollRuns nic w es w') :
    (handedOver es).Perm (((arrived es).filter fun a => a.frame.Ipv4).map Arrival.pkt) := by
  induction h with
  | nil => exact .refl _
  | @poll w q es₁ exited w₁ fs w' idle run _ ih =>
    obtain ⟨burst, rest, _, _, run', polled, _⟩ := poll_returns nic idle q
    obtain ⟨rfl, _, rfl⟩ := run.unique run'
    have first : ((arrived (.rxBurst q.portId q.queueId (fun _ => 0) burst :: rest)).filter
        fun a => a.frame.Ipv4).map Arrival.pkt = (burst.filter fun f => f.1.Ipv4).map Prod.snd := by
      rw [arrived, List.flatMap_cons, ← arrived, arrived_sends polled.sends, List.append_nil]
      change ((burst.map _).filter _).map _ = _
      rw [List.filter_map, List.map_map]
      rfl
    rw [arrived_append, List.filter_append, List.map_append, first, handedOver,
      List.flatMap_append, ← handedOver, ← handedOver]
    exact polled.handed.append ih

end runs

/-- The worker uses a buffer only from the burst that brings it until it hands it
over, at any point of any run, with whatever queues on ports below
`RTE_MAX_ETHPORTS`; and after any number of rounds it owns exactly the frames
that do not have IPv4 as their own ethertype. -/
theorem mainLoop_owns (nic : Nic) (nRxQueue : Nat)
    (rxQueues : Vector LcoreRxQueue maxRxQueuePerLcore) (txQueueIds : U8 → U16)
    (mbufs : Ptr → Mbuf) :
    let start := Worker.start nRxQueue rxQueues txQueueIds mbufs
    (∀ es, (mainLoop nic).Emitted start es → buffers.Respects ∅ es ∧
      es.Pairwise fun e e' => ∀ p ∈ e.handedOver, p ∉ e'.uses) ∧
    ∀ k es w', Steps (serveRound nic) k () start es () w' → ∀ p,
      p ∈ buffers.owned ∅ es ↔ ∃ a ∈ arrived es, a.pkt = p ∧ ¬ a.frame.Ipv4 := by
  intro start
  have serving : start.Serving nRxQueue rxQueues := Worker.start_serving ..
  constructor
  · intro es emitted
    obtain ⟨all, w', runs, begins⟩ := mainLoop_runs serving emitted
    have safe := runs.owns.respects.cut begins
    exact ⟨safe, safe.pairwise (runs.polls.fresh begins)⟩
  · intro k es w' rounds p
    have runs := (steps_run serving rounds).1
    have fresh := runs.polls.fresh List.prefix_rfl
    have distinct : ((arrived es).map Arrival.pkt).Nodup := by
      rw [← received_arrived]
      exact fresh.once
    have gained : p ∈ es.flatMap buffers.gains ↔ ∃ a ∈ arrived es, a.pkt = p := by
      change p ∈ received es ↔ _
      rw [received_arrived, List.mem_map]
    have lost : p ∈ es.flatMap buffers.loses ↔ ∃ a ∈ arrived es, a.frame.Ipv4 ∧ a.pkt = p := by
      change p ∈ handedOver es ↔ _
      rw [runs.handed.mem_iff, List.mem_map]
      simp only [List.mem_filter, decide_eq_true_eq, and_assoc]
    rw [runs.owns.respects.owned_iff fresh, gained, lost]
    constructor
    · rintro ⟨none | ⟨a, ha, rfl⟩, kept⟩
      · exact none.elim
      · exact ⟨a, ha, rfl, fun ipv4 => kept ⟨a, ha, ipv4, rfl⟩⟩
    · rintro ⟨a, ha, rfl, other⟩
      refine ⟨.inr ⟨a, ha, rfl⟩, ?_⟩
      rintro ⟨a', ha', ipv4, same⟩
      rw [List.inj_on_of_nodup_map distinct ha' ha same] at ipv4
      exact other ipv4

/-- The ARP frame is the worker's for good. -/
theorem twoFrames_owns :
    let nic := twoFrames 0x0806 rteEtherTypeIpv4
    ∃ es w', Steps (serveRound nic) 2 () oneQueue es () w' ∧ 1 ∈ buffers.owned ∅ es ∧
      2 ∉ buffers.owned ∅ es := by
  intro nic
  let first := (serveRound nic ()).run 0 oneQueue
  have run₁ : (serveRound nic ()).Returns oneQueue first.events (.inl ()) first.state :=
    returns_of_value (by decide)
  let second := (serveRound nic ()).run 1 first.state
  have run₂ : (serveRound nic ()).Returns first.state second.events (.inl ()) second.state :=
    returns_of_value (by decide)
  have rounds : Steps (serveRound nic) 2 () oneQueue ([] ++ first.events ++ second.events) ()
      second.state := by
    have none : Steps (serveRound nic) 0 () oneQueue [] () oneQueue := ⟨rfl, rfl, rfl⟩
    exact (none.snoc run₁).snoc run₂
  have owned := (mainLoop_owns nic ..).2 2 _ _ rounds
  have judged : (arrived ([] ++ first.events ++ second.events)).map
      (fun a => (a.pkt, decide a.frame.Ipv4)) = [(1, false), (2, true)] := by decide
  refine ⟨_, _, rounds, (owned 1).mpr ?_, fun mine => ?_⟩
  · obtain ⟨a, ha, same⟩ := List.mem_map.mp (judged ▸ List.mem_cons_self)
    obtain ⟨number, other⟩ := Prod.mk.inj same
    exact ⟨a, ha, number, of_decide_eq_false other⟩
  · obtain ⟨a, ha, same, other⟩ := (owned 2).mp mine
    have listed := List.mem_map_of_mem (f := fun a => (a.pkt, decide a.frame.Ipv4)) ha
    rw [judged, same, decide_eq_false other] at listed
    revert listed
    decide

end Udp
