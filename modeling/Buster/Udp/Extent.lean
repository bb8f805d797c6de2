import Buster.Udp.Answer
import Buster.Udp.Dispatch

/-!
# Short frames

No length is looked at, so a frame must be as long as the headers that are read
and written in it.
-/

namespace Udp

open Imp.Prog

variable {nic : Nic}

/-- How long the headers are that the frame announces. -/
def Mbuf.announced (m : Mbuf) : Nat :=
  if m.ethType ≠ rteEtherTypeIpv4 then m.l2Len
  else m.l2Len + max 20 (m.hdrLen m.l2Len) + if m.data (m.l2Len + 9) = ipprotoUdp then 8 else 0

/-- How long a frame must be for the echo: up to the protocol if it is IPv4 but not
UDP, and then the UDP header behind the options, or behind 20 bytes. -/
def Mbuf.needed (m : Mbuf) : Nat :=
  if m.ethType ≠ rteEtherTypeIpv4 then m.l2Len
  else if m.data (m.l2Len + 9) ≠ ipprotoUdp then m.l2Len + 10
  else m.l2Len + max 20 (m.hdrLen m.l2Len) + 8

/-- The same for the main loop, that looks no further than the ethertype of some. -/
def Mbuf.polledNeeded (m : Mbuf) : Nat := if m.Ipv4 then m.needed else 14

theorem needed_le_iff (m : Mbuf) (k : Nat) :
    m.needed ≤ k ↔ m.span ≤ k ∧ (m.Accepted → m.announced ≤ k) := by
  unfold Mbuf.needed Mbuf.span Mbuf.announced Mbuf.Accepted
  rw [hdrLen_turned]
  by_cases ipv4 : m.ethType = rteEtherTypeIpv4
  · by_cases udp : m.data (m.l2Len + 9) = ipprotoUdp
    · simp only [ipv4, udp, ne_eq, not_true_eq_false, if_false, if_true, and_self, true_imp_iff]
      omega
    · simp [ipv4, udp]
  · simp [ipv4]

theorem polledNeeded_le_iff (m : Mbuf) (k : Nat) : m.polledNeeded ≤ k ↔
    m.polledSpan ≤ k ∧ (m.Ipv4 ∧ m.Accepted → m.announced ≤ k) := by
  unfold Mbuf.polledNeeded Mbuf.polledSpan
  by_cases ipv4 : m.Ipv4
  · rw [if_pos ipv4, if_pos ipv4, needed_le_iff]
    simp [ipv4]
  · rw [if_neg ipv4, if_neg ipv4]
    simp [ipv4]

/-! ## One echo -/

/-- Nothing past the data is touched, and what is too short for its headers is not echoed. -/
structure EchoedSafely (pkt : Ptr) (m : Mbuf) (es : List Event) (echoed : Bool) : Prop where
  inside : ∀ e ∈ es, ∀ i, e.Touches pkt i → i < m.dataLen
  short : m.dataLen < m.announced → echoed = false

theorem echoedSafely_iff {w w' : Worker} {pkt : Ptr} {es : List Event} {echoed : Bool}
    (run : (echoSingleUdpPacket pkt).Returns w es echoed w') :
    EchoedSafely pkt (w.mbufs pkt) es echoed ↔
      (w.mbufs pkt).needed ≤ (w.mbufs pkt).dataLen := by
  obtain ⟨_, run'⟩ := echo_returns w pkt
  obtain ⟨rfl, rfl, _⟩ := run.unique run'
  rw [needed_le_iff, ← echo_reach run (w.mbufs pkt).dataLen]
  constructor
  · rintro ⟨inside, short⟩
    exact ⟨inside, fun accepted =>
      Nat.le_of_not_lt fun tooShort => of_decide_eq_false (short tooShort) accepted⟩
  · rintro ⟨inside, long⟩
    exact ⟨inside, fun tooShort =>
      decide_eq_false fun accepted => Nat.not_lt.mpr (long accepted) tooShort⟩

/-! ## Every burst -/

/-- Between a burst and the next receive, only data of its frames is touched, and what
is too short for its headers is not queued. -/
structure HandledSafely (b : List (Mbuf × Ptr) × List Event) : Prop where
  inside : ∀ e ∈ b.2, ∀ pkt i, e.Touches pkt i → ∃ f ∈ b.1, f.2 = pkt ∧ i < f.1.dataLen
  short : ∀ f ∈ b.1, f.1.dataLen < f.1.announced → f.2 ∉ queued b.2

/-- Every frame of the burst is as long as it must be. -/
def LongEnough (burst : List (Mbuf × Ptr)) : Prop := ∀ f ∈ burst, f.1.polledNeeded ≤ f.1.dataLen

instance (burst : List (Mbuf × Ptr)) : Decidable (LongEnough burst) :=
  inferInstanceAs (Decidable (∀ f ∈ _, _))

theorem poll_safely {w w' : Worker} {q : LcoreRxQueue} {burst : List (Mbuf × Ptr)}
    {rest : List Event} {exited : Bool} (idle : w.Idle) (run : (poll nic q).Returns w
      (.rxBurst q.portId q.queueId (fun _ => 0) burst :: rest) exited w') :
    HandledSafely (burst, rest) ↔ LongEnough burst := by
  obtain ⟨reaches, apart⟩ := poll_reach run
  have queues := poll_queued run
  have distinct := (poll_settled idle run).1
  constructor
  · rintro ⟨inside, short⟩ f hf
    rw [polledNeeded_le_iff, ← reaches f hf]
    constructor
    · intro e he i touches
      obtain ⟨g, hg, same, below⟩ := inside e he f.2 i touches
      rwa [List.inj_on_of_nodup_map distinct hg hf same] at below
    · intro echoed
      exact Nat.le_of_not_lt fun tooShort => short f hf tooShort ((queues f hf).mpr echoed)
  · intro long
    have both (f : Mbuf × Ptr) (hf : f ∈ burst) := (polledNeeded_le_iff _ _).mp (long f hf)
    constructor
    · intro e he pkt i touches
      have mine : pkt ∈ burst.map Prod.snd :=
        by_contra fun other => apart pkt other e he i touches
      obtain ⟨f, hf, rfl⟩ := List.mem_map.mp mine
      exact ⟨f, hf, rfl, (reaches f hf _).mpr (both f hf).1 e he i touches⟩
    · intro f hf tooShort isQueued
      exact Nat.not_lt.mpr ((both f hf).2 ((queues f hf).mp isQueued)) tooShort

theorem HandledSafely.begins {burst : List (Mbuf × Ptr)} {es fs : List Event}
    (h : HandledSafely (burst, fs)) (cut : es <+: fs) : HandledSafely (burst, es) where
  inside e he := h.inside e (cut.subset he)
  short f hf tooShort isQueued := h.short f hf tooShort ((cut.filterMap _).subset isQueued)

/-- At any point of any run, with whatever queues on ports below `RTE_MAX_ETHPORTS`, a burst
is handled safely when its frames are long enough, and only then once it is done with. The
same goes for a single echo. -/
theorem shortFrames_safe_iff {nRxQueue : Nat}
    {rxQueues : Vector LcoreRxQueue maxRxQueuePerLcore} {txQueueIds : U8 → U16}
    {mbufs : Ptr → Mbuf} {es : List Event}
    (emitted : (mainLoop nic).Emitted (.start nRxQueue rxQueues txQueueIds mbufs) es) :
    (∀ b ∈ batches es, LongEnough b.1 → HandledSafely b) ∧
      (∀ b ∈ (batches es).dropLast, HandledSafely b → LongEnough b.1) ∧
      ∀ (w : Worker) (pkt : Ptr), ∃ fs echoed w',
        (echoSingleUdpPacket pkt).Returns w fs echoed w' ∧
          (EchoedSafely pkt (w.mbufs pkt) fs echoed ↔
            (w.mbufs pkt).needed ≤ (w.mbufs pkt).dataLen) := by
  obtain ⟨all, w', runs, begins⟩ := mainLoop_runs (Worker.start_serving ..) emitted
  have safely := runs.begins (P := fun b => HandledSafely b ↔ LongEnough b.1) poll_safely begins
  have over' := runs.batches (P := fun b => HandledSafely b ↔ LongEnough b.1) poll_safely begins
  refine ⟨?_, fun b hb => (over' b hb).mp, ?_⟩
  · rintro ⟨burst, part⟩ hb long
    obtain ⟨rest, cut, iff⟩ := safely _ hb
    exact (iff.mpr long).begins cut
  · intro w pkt
    obtain ⟨fs, run⟩ := echo_returns w pkt
    exact ⟨fs, _, _, run, echoedSafely_iff run⟩

/-- Two UDP packets of 60 bytes. -/
theorem twoFrames_handledSafely :
    ∃ es, (mainLoop (twoFrames rteEtherTypeIpv4 rteEtherTypeIpv4)).Emitted oneQueue es ∧
      batches es ≠ [] ∧ ∀ b ∈ batches es, HandledSafely b := by
  let run := (mainLoop (twoFrames rteEtherTypeIpv4 rteEtherTypeIpv4)).run 3 oneQueue
  have long : ∀ b ∈ batches run.events, LongEnough b.1 := by decide
  refine ⟨run.events, ⟨3, List.prefix_rfl⟩, by decide, ?_⟩
  intro b hb
  exact (shortFrames_safe_iff ⟨3, List.prefix_rfl⟩).1 b hb (long b hb)

/-- A UDP packet that announces 40 bytes of options and ends in the middle of them. -/
def cutFrame : Mbuf where
  dataLen := 60
  data i :=
    if i = 12 then 0x08
    else if i = 14 then 0x4f
    else if i = 23 then ipprotoUdp
    else 0
  olFlags := 0

/-- A device that gives the one packet. -/
def oneCut : Nic where
  rxBurst n _ _ :=
    if n = 0 then ⟨[cutFrame], by simp [maxPktBurst]⟩
    else ⟨[], Nat.zero_le maxPktBurst⟩
  txBurst _ _ _ n := Fin.last n

/-- It is echoed. -/
theorem cutFrame_unsafe : ∃ es, (mainLoop oneCut).Emitted oneQueue es ∧
    ∃ b ∈ batches es, ¬ HandledSafely b := by
  have echoed : ∃ b ∈ batches ((mainLoop oneCut).run 3 oneQueue).events,
      ∃ f ∈ b.1, f.1.dataLen < f.1.announced ∧ f.2 ∈ queued b.2 := by decide
  obtain ⟨b, hb, f, hf, tooShort, isQueued⟩ := echoed
  exact ⟨_, ⟨3, List.prefix_rfl⟩, b, hb, fun safely => safely.short f hf tooShort isQueued⟩

end Udp
