import Mathlib.Data.Nat.Find
import Buster.Udp.Stream

/-!
# When each queue is polled

The main loop goes round its queues, one receive a queue, until a burst is
empty. Which queue a receive is for, whether there is such a receive at all, and
whether the process ever exits is decided by the bursts alone.
-/

namespace Udp

open Imp.Prog

variable {nic : Nic}

def Event.polls : Event → Option LcoreRxQueue
  | .rxBurst port queue _ _ => some ⟨port, queue⟩
  | _ => none

/-- The queues that were polled, in order. -/
def polledQueues (es : List Event) : List LcoreRxQueue := es.filterMap Event.polls

/-- The queue of receive number `i`. -/
def queueAt (qs : List LcoreRxQueue) (i : Nat) : LcoreRxQueue := qs.getD (i % qs.length) ⟨0, 0⟩

/-- The burst of receive number `i`. -/
def burstAt (nic : Nic) (qs : List LcoreRxQueue) (i : Nat) : List Mbuf :=
  (nic.rxBurst i (queueAt qs i).portId (queueAt qs i).queueId).val

theorem polledQueues_append (es fs : List Event) :
    polledQueues (es ++ fs) = polledQueues es ++ polledQueues fs := List.filterMap_append

theorem poll_polls {w w' : Worker} {q : LcoreRxQueue} {es : List Event} {exited : Bool}
    (idle : w.Idle) (run : (poll nic q).Returns w es exited w') : polledQueues es = [q] := by
  obtain ⟨burst, rest, _, _, run', polled, _⟩ := poll_returns nic idle q
  obtain ⟨rfl, _, _⟩ := run.unique run'
  have none : polledQueues rest = [] := by
    refine List.filterMap_eq_nil_iff.mpr fun e he => ?_
    have sends := polled.sends e he
    cases e with
    | rxBurst => exact sends.elim
    | _ => rfl
  change q :: polledQueues rest = [q]
  rw [none]

/-- Polls of the queues whose turn it is. Only the last burst may be empty, and
is if this ended the process. -/
structure Scheduled (nic : Nic) (qs : List LcoreRxQueue) (w : Worker) (es : List Event)
    (exited : Bool) (w' : Worker) : Prop where
  order : polledQueues es = (List.range' w.rxCalls (polledQueues es).length).map (queueAt qs)
  count : w'.rxCalls = w.rxCalls + (polledQueues es).length
  some : ∀ i, w.rxCalls ≤ i → i + 1 < w'.rxCalls → burstAt nic qs i ≠ []
  last : exited = true → ∃ i, w.rxCalls ≤ i ∧ w'.rxCalls = i + 1 ∧ burstAt nic qs i = []
  going : exited = false → ∀ i, w.rxCalls ≤ i → i < w'.rxCalls → burstAt nic qs i ≠ []

section scheduled
variable {qs : List LcoreRxQueue} {w w₁ w' : Worker} {es fs : List Event} {exited : Bool}

theorem scheduled_nil (nic : Nic) (qs : List LcoreRxQueue) (w : Worker) :
    Scheduled nic qs w [] false w where
  order := rfl
  count := rfl
  some i low high := by omega
  last h := by cases h
  going _ i low high := by omega

theorem Scheduled.append (h : Scheduled nic qs w es false w₁)
    (h' : Scheduled nic qs w₁ fs exited w') : Scheduled nic qs w (es ++ fs) exited w' where
  order := by
    rw [polledQueues_append, List.length_append, ← List.range'_append_1, List.map_append,
      ← h.order, ← h.count, ← h'.order]
  count := by rw [h'.count, h.count, polledQueues_append, List.length_append, Nat.add_assoc]
  some i low high := by
    by_cases early : i < w₁.rxCalls
    · exact h.going rfl i low early
    · exact h'.some i (by omega) high
  last ended := by
    obtain ⟨i, low, here⟩ := h'.last ended
    exact ⟨i, by rw [h.count] at low; omega, here⟩
  going goes i low high := by
    by_cases early : i < w₁.rxCalls
    · exact h.going rfl i low early
    · exact h'.going goes i (by omega) high

theorem poll_scheduled {q : LcoreRxQueue} (idle : w.Idle)
    (turn : queueAt qs w.rxCalls = q) (run : (poll nic q).Returns w es exited w') :
    Scheduled nic qs w es exited w' := by
  have streamed := poll_streamed idle run
  have one := poll_polls idle run
  have burst : burstAt nic qs w.rxCalls =
      (nic.rxBurst w.rxCalls q.portId q.queueId).val := by rw [burstAt, turn]
  have calls := streamed.calls
  have exits := streamed.exits
  rw [← burst] at exits
  constructor
  case order =>
    rw [one, ← turn]
    rfl
  case count =>
    rw [one, calls]
    rfl
  case some =>
    intro i low high
    omega
  case last =>
    intro ended
    rw [exits] at ended
    exact ⟨w.rxCalls, Nat.le_refl _, calls, of_decide_eq_true ended⟩
  case going =>
    intro goes i low high
    obtain rfl : i = w.rxCalls := by omega
    rw [exits] at goes
    exact of_decide_eq_false goes

/-- The last `d` queues, when it is the turn of the first of them. -/
theorem pollAll_scheduled {n j d : Nat} {queues : Vector LcoreRxQueue maxRxQueuePerLcore}
    (h : w.Serving n queues) (turn : 0 < d → w.rxCalls % qs.length = j)
    (left : qs.length = j + d) (run : (pollAll nic (qs.drop j)).Returns w es exited w') :
    Scheduled nic qs w es exited w' ∧ w'.rxCalls ≤ w.rxCalls + d ∧
      (exited = false → w'.rxCalls = w.rxCalls + d) := by
  induction d generalizing w es j with
  | zero =>
    rw [List.drop_eq_nil_of_le (by omega)] at run
    obtain ⟨rfl, rfl, rfl⟩ := returns_pure.mp run
    exact ⟨scheduled_nil nic qs w', Nat.le_refl _, fun _ => rfl⟩
  | succ d ih =>
    have inside : j < qs.length := by omega
    have now := turn (Nat.succ_pos d)
    have here : queueAt qs w.rxCalls = qs[j] := by
      rw [queueAt, now, List.getD_eq_getElem _ _ inside]
    rw [List.drop_eq_getElem_cons inside] at run
    obtain ⟨es₁, stopped, w₁, es₂, polled, rest, rfl⟩ := returns_bind.mp run
    have first := poll_scheduled h.idle here polled
    obtain ⟨_, _, _, _, polled', _, idle, _, count, queues'⟩ := poll_returns nic h.idle qs[j]
    obtain ⟨rfl, _, rfl⟩ := polled.unique polled'
    have serving : w₁.Serving n queues := ⟨idle, count.trans h.count, queues'.trans h.queues⟩
    have calls : w₁.rxCalls = w.rxCalls + 1 := (poll_streamed h.idle polled).calls
    cases stopped with
    | true =>
      obtain ⟨rfl, rfl, rfl⟩ := returns_pure.mp rest
      rw [List.append_nil]
      exact ⟨first, by omega, fun goes => by cases goes⟩
    | false =>
      have next (more : 0 < d) : w₁.rxCalls % qs.length = j + 1 := by
        rw [calls, Nat.add_mod, now, Nat.mod_eq_of_lt (show 1 < qs.length by omega),
          Nat.mod_eq_of_lt (show j + 1 < qs.length by omega)]
      obtain ⟨others, few, after⟩ := ih serving next (by omega) rest
      refine ⟨first.append others, by omega, fun goes => ?_⟩
      rw [after goes, calls]
      omega

/-! ## Rounds -/

theorem Worker.Serving.polled {n : Nat} {queues : Vector LcoreRxQueue maxRxQueuePerLcore}
    (h : w.Serving n queues) : w.conf.polled = queues.toList.take n := by
  rw [LcoreConf.polled, h.count, h.queues]

variable (nic) in
theorem serveRound_scheduled {n c : Nat} {queues : Vector LcoreRxQueue maxRxQueuePerLcore}
    (h : w.Serving n queues) (polled : queues.toList.take n = qs)
    (turn : w.rxCalls = qs.length * c) :
    ∃ es r w', (serveRound nic ()).Returns w es r w' ∧ w'.Serving n queues ∧
      Scheduled nic qs w es (decide (r = .inr .exited)) w' ∧
      w'.rxCalls ≤ qs.length * (c + 1) ∧
      (r = .inl () ∧ w'.rxCalls = qs.length * (c + 1) ∨ r = .inr .exited) := by
  obtain ⟨es, exited, w₁, run, _, serving⟩ := pollAll_returns nic h w.conf.polled
  have start : 0 < qs.length → w.rxCalls % qs.length = 0 := fun _ => by
    rw [turn, Nat.mul_mod_right]
  have all : qs.length * (c + 1) = w.rxCalls + qs.length := by rw [turn, Nat.mul_succ]
  have polls : (pollAll nic qs).Returns w es exited w₁ := by
    rw [← polled, ← h.polled]
    exact run
  obtain ⟨scheduled, few, after⟩ := pollAll_scheduled h start (Nat.zero_add _).symm polls
  cases exited with
  | true =>
    refine ⟨[] ++ (es ++ []), .inr .exited, w₁,
      (get_returns w).bind (run.bind (pure_returns _ w₁)), serving, ?_, all ▸ few, .inr rfl⟩
    rw [List.append_nil]
    exact scheduled
  | false =>
    refine ⟨[] ++ (es ++ []), .inl (), w₁,
      (get_returns w).bind (run.bind (pure_returns _ w₁)), serving, ?_, all ▸ few,
      .inl ⟨rfl, all ▸ after rfl⟩⟩
    rw [List.append_nil]
    exact scheduled

section rounds
variable {n : Nat} {queues : Vector LcoreRxQueue maxRxQueuePerLcore}

theorem steps_scheduled {k c : Nat} (h : w.Serving n queues) (polled : queues.toList.take n = qs)
    (turn : w.rxCalls = qs.length * c) (rounds : Steps (serveRound nic) k () w es () w') :
    Scheduled nic qs w es false w' ∧ w'.Serving n queues ∧ w'.rxCalls = qs.length * (c + k) := by
  induction k generalizing w es c with
  | zero =>
    obtain ⟨rfl, _, rfl⟩ := rounds
    exact ⟨scheduled_nil nic qs w', h, turn⟩
  | succ k ih =>
    obtain ⟨es₁, _, w₁, es₂, first, later, rfl⟩ := rounds
    obtain ⟨_, r, _, run, serving, scheduled, _, result⟩ :=
      serveRound_scheduled nic h polled turn
    obtain ⟨rfl, rfl, rfl⟩ := first.unique run
    rcases result with ⟨_, calls⟩ | exited
    · obtain ⟨others, serving', calls'⟩ := ih serving calls later
      exact ⟨scheduled.append others, serving', by rw [calls']; congr 1; omega⟩
    · cases exited

variable (nic) in
/-- As long as no burst is empty, there is another round. -/
theorem steps_of_some {k : Nat} (h : w.Serving n queues) (polled : queues.toList.take n = qs)
    (turn : w.rxCalls = 0) (some : ∀ i < qs.length * k, burstAt nic qs i ≠ []) :
    ∃ es w', Steps (serveRound nic) k () w es () w' := by
  induction k with
  | zero => exact ⟨[], w, rfl, rfl, rfl⟩
  | succ k ih =>
    have fewer : qs.length * k ≤ qs.length * (k + 1) := Nat.mul_le_mul_left _ (Nat.le_succ k)
    obtain ⟨es, w₁, rounds⟩ := ih fun i hi => some i (Nat.lt_of_lt_of_le hi fewer)
    have start : w.rxCalls = qs.length * 0 := turn
    obtain ⟨_, serving, calls⟩ := steps_scheduled h polled start rounds
    obtain ⟨fs, r, w', run, _, scheduled, few, ⟨rfl, _⟩ | rfl⟩ :=
      serveRound_scheduled nic serving polled calls
    · exact ⟨_, w', rounds.snoc run⟩
    · obtain ⟨i, _, last, empty⟩ := scheduled.last rfl
      rw [Nat.zero_add] at few
      exact absurd empty (some i (by omega))

/-- What has been emitted at any point begins a number of polls, in order. -/
theorem loop_scheduled (h : w.Serving n queues) (polled : queues.toList.take n = qs)
    (turn : w.rxCalls = 0) (emitted : (loop (serveRound nic) ()).Emitted w es) :
    ∃ all exited w', Scheduled nic qs w all exited w' ∧ es <+: all := by
  obtain ⟨k, es₁, _, w₁, es₂, rounds, part, rfl⟩ := loop_emitted emitted
  have start : w.rxCalls = qs.length * 0 := turn
  obtain ⟨scheduled, serving, calls⟩ := steps_scheduled h polled start rounds
  obtain ⟨fs, r, w', run, _, more, _, _⟩ :=
    serveRound_scheduled nic serving polled calls
  exact ⟨es₁ ++ fs, _, w', scheduled.append more,
    (List.prefix_append_right_inj _).mpr (run.continues part)⟩

/-- The rounds up to a receive that is made, and the round of that receive. -/
theorem round_of (h : w.Serving n queues) (polled : queues.toList.take n = qs)
    (some : 0 < qs.length) (turn : w.rxCalls = 0) {i : Nat}
    (before : ∀ j < i, burstAt nic qs j ≠ []) :
    ∃ k es w₁ fs r w', Steps (serveRound nic) k () w es () w₁ ∧
      (serveRound nic ()).Returns w₁ fs r w' ∧
      Scheduled nic qs w (es ++ fs) (decide (r = .inr .exited)) w' ∧ i < w'.rxCalls ∧
      (r = .inl () ∨ r = .inr .exited) := by
  have whole : qs.length * (i / qs.length) ≤ i := Nat.mul_div_le i _
  obtain ⟨es, w₁, rounds⟩ := steps_of_some nic (k := i / qs.length) h polled turn
    fun j hj => before j (by omega)
  have start : w.rxCalls = qs.length * 0 := turn
  obtain ⟨scheduled, serving, calls⟩ := steps_scheduled h polled start rounds
  obtain ⟨fs, r, w', run, _, more, _, result⟩ :=
    serveRound_scheduled nic serving polled calls
  refine ⟨_, es, w₁, fs, r, w', rounds, run, scheduled.append more, ?_, result.imp_left And.left⟩
  rcases result with ⟨_, after⟩ | rfl
  · rw [after, Nat.zero_add]
    exact Nat.lt_mul_div_succ i some
  · obtain ⟨j, _, last, empty⟩ := more.last rfl
    by_contra early
    exact before j (by omega) empty

/-- The receives that are made. -/
theorem loop_receives (h : w.Serving n queues) (polled : queues.toList.take n = qs)
    (some : 0 < qs.length) (turn : w.rxCalls = 0) (i : Nat) :
    (∃ es, (loop (serveRound nic) ()).Emitted w es ∧ i < (polledQueues es).length) ↔
      ∀ j < i, burstAt nic qs j ≠ [] := by
  constructor
  · rintro ⟨es, emitted, more⟩ j early
    obtain ⟨all, _, w', scheduled, begun⟩ := loop_scheduled h polled turn emitted
    have few : (polledQueues es).length ≤ (polledQueues all).length :=
      (begun.filterMap Event.polls).length_le
    have count := scheduled.count
    exact scheduled.some j (by omega) (by omega)
  · intro before
    obtain ⟨k, es, w₁, fs, r, w', rounds, run, scheduled, here, result⟩ :=
      round_of h polled some turn before
    refine ⟨es ++ fs, ?_, ?_⟩
    · rcases result with rfl | rfl
      · exact (rounds.snoc run).emitted
      · exact (rounds.returns (returns_loop.mpr (.inl run))).emitted
    · have count := scheduled.count
      omega

/-- The process exits at the first empty burst. -/
theorem loop_ends_iff (h : w.Serving n queues) (polled : queues.toList.take n = qs)
    (some : 0 < qs.length) (turn : w.rxCalls = 0) :
    (loop (serveRound nic) ()).Ends w ↔ ∃ i, burstAt nic qs i = [] := by
  constructor
  · rintro ⟨es, stop, w', run⟩
    obtain ⟨k, es₁, _, w₁, es₂, rounds, last, rfl⟩ := loop_returns_iff.mp run
    obtain ⟨_, serving, calls⟩ := steps_scheduled h polled (c := 0) turn rounds
    obtain ⟨_, _, _, run', _, scheduled, _, ⟨rfl, _⟩ | rfl⟩ :=
      serveRound_scheduled nic serving polled calls
    · cases (last.unique run').2.1
    · obtain ⟨i, _, _, empty⟩ := scheduled.last rfl
      exact ⟨i, empty⟩
  · intro empty
    let i := Nat.find empty
    obtain ⟨k, es, w₁, fs, r, w', rounds, run, scheduled, here, result⟩ :=
      round_of h polled some turn (i := i) fun j hj => Nat.find_min empty hj
    rcases result with rfl | rfl
    · exact absurd (Nat.find_spec empty) (scheduled.going (by simp) i (by omega) here)
    · exact (rounds.returns (returns_loop.mpr (.inl run))).ends

end rounds

variable (nic) in
/-- Where there are queues, the main loop is its rounds. -/
theorem mainLoop_loops (mapped : w.conf.nRxQueue ≠ 0) :
    (∀ es, (mainLoop nic).Emitted w es ↔ (loop (serveRound nic) ()).Emitted w es) ∧
      ((mainLoop nic).Ends w ↔ (loop (serveRound nic) ()).Ends w) := by
  have served : mainLoop nic = (Imp.Prog.get >>= fun w => if w.conf.nRxQueue = 0 then
      pure .returned else loop (serveRound nic) ()) := rfl
  constructor
  · intro es
    rw [served, (get_returns w).emitted_bind, if_neg mapped]
    constructor
    · rintro (early | ⟨more, emitted, rfl⟩)
      · rw [List.prefix_nil.mp early]
        exact ⟨0, List.nil_prefix⟩
      · exact emitted
    · exact fun emitted => .inr ⟨es, emitted, rfl⟩
  · rw [served, (get_returns w).ends_bind, if_neg mapped]

end scheduled

theorem Scheduled.begun {qs : List LcoreRxQueue} {w w' : Worker} {es early : List Event}
    {exited : Bool} (h : Scheduled nic qs w es exited w') (turn : w.rxCalls = 0)
    (cut : early <+: es) :
    polledQueues early = (List.range (polledQueues early).length).map (queueAt qs) := by
  have pre : polledQueues early <+: polledQueues es := cut.filterMap _
  have few := pre.length_le
  have first := List.prefix_iff_eq_take.mp pre
  rw [h.order, turn, ← List.map_take, ← List.range_eq_range', List.take_range,
    Nat.min_eq_left few] at first
  exact first

variable (nic) in
/-- The schedule of a worker with queues, from its first receive on. -/
theorem mainLoop_scheduled {n : Nat} {queues : Vector LcoreRxQueue maxRxQueuePerLcore} {w : Worker}
    (serving : w.Serving n queues) (turn : w.rxCalls = 0) (mapped : n ≠ 0) :
    let qs := w.conf.polled
    (∀ es, (mainLoop nic).Emitted w es →
      polledQueues es = (List.range (polledQueues es).length).map (queueAt qs)) ∧
    (∀ i, (∃ es, (mainLoop nic).Emitted w es ∧ i < (polledQueues es).length) ↔
      ∀ j < i, burstAt nic qs j ≠ []) ∧
    ((mainLoop nic).Ends w ↔ ∃ i, burstAt nic qs i = []) := by
  intro qs
  have polled : queues.toList.take n = qs := serving.polled.symm
  have some : 0 < qs.length := by
    rw [← polled, List.length_take, Vector.length_toList]
    exact Nat.lt_min.mpr ⟨Nat.pos_of_ne_zero mapped, by decide⟩
  obtain ⟨emits, ends⟩ := mainLoop_loops nic (w := w) (by rwa [serving.count])
  refine ⟨?_, ?_, ?_⟩
  · intro es emitted
    obtain ⟨all, _, _, scheduled, begun⟩ :=
      loop_scheduled serving polled turn ((emits es).mp emitted)
    exact scheduled.begun turn begun
  · intro i
    simp only [emits]
    exact loop_receives serving polled some turn i
  · exact ends.trans (loop_ends_iff serving polled some turn)

/-- The polls of a worker with queues are decided by the bursts. Receive number
`i` is for queue `i` modulo their number; it is made exactly when none of the
bursts before was empty; and the process exits exactly when some burst is. The
ports of the queues are below `RTE_MAX_ETHPORTS`. -/
theorem mainLoop_schedule (nic : Nic) {nRxQueue : Nat}
    (rxQueues : Vector LcoreRxQueue maxRxQueuePerLcore) (txQueueIds : U8 → U16)
    (mbufs : Ptr → Mbuf) (mapped : nRxQueue ≠ 0) :
    let start := Worker.start nRxQueue rxQueues txQueueIds mbufs
    let qs := start.conf.polled
    (∀ es, (mainLoop nic).Emitted start es →
      polledQueues es = (List.range (polledQueues es).length).map (queueAt qs)) ∧
    (∀ i, (∃ es, (mainLoop nic).Emitted start es ∧ i < (polledQueues es).length) ↔
      ∀ j < i, burstAt nic qs j ≠ []) ∧
    ((mainLoop nic).Ends start ↔ ∃ i, burstAt nic qs i = []) :=
  mainLoop_scheduled _ (Worker.start_serving ..) rfl mapped

/-- The burst of receive number 2 is the first that is empty. -/
theorem twoFrames_schedule :
    let nic := twoFrames rteEtherTypeIpv4 rteEtherTypeIpv4
    (mainLoop nic).Ends oneQueue ∧ (∃ es, (mainLoop nic).Emitted oneQueue es ∧
      2 < (polledQueues es).length) ∧ ¬ ∃ es, (mainLoop nic).Emitted oneQueue es ∧
      3 < (polledQueues es).length := by
  intro nic
  have empty : burstAt nic oneQueue.conf.polled 2 = [] := by decide
  obtain ⟨_, made, exits⟩ := mainLoop_schedule nic (Vector.replicate maxRxQueuePerLcore ⟨0, 0⟩)
    (fun _ => 0) (fun _ => frame 0) (show 1 ≠ 0 by decide)
  refine ⟨exits.mpr ⟨2, empty⟩, (made 2).mpr ?_, fun third => (made 3).mp third 2 (by decide) empty⟩
  intro j before
  obtain rfl | rfl : j = 0 ∨ j = 1 := by omega
  · exact List.cons_ne_nil _ _
  · exact List.cons_ne_nil _ _

end Udp
