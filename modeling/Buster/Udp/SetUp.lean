import Buster.Udp.Startup

/-!
# What is set up for the main loop

`main_loop` polls whatever the mapping gives to the lcore it runs on, and sends on
the transmit queue that is noted for the port. After a start some of this may never
have been set up.
-/

namespace Udp

open Imp.Prog

/-- The queue is set up with a pool made before, its port is configured and
started, and so is the transmit queue that goes with it. -/
structure SetUp (calls : List Call) (conf : LcoreConf) (q : LcoreRxQueue) : Prop where
  rx : ∃ before socket pool after, calls =
    before ++ .rxQueueSetup q.portId q.queueId socket (some pool) :: after ∧
      .mempoolCreate pool ∈ before
  configured : .devConfigure q.portId 1 1 ∈ calls
  started : .devStart q.portId ∈ calls
  tx : ∃ socket, .txQueueSetup q.portId (conf.txQueueIds q.portId) socket ∈ calls

/-- The stages of a launch that gets through. -/
structure Launched (l : Launch) (es : List Call) (s' : Setup)
    (mapping ports rx others : List Call) : Prop where
  calls : es = mapping ++ (ports ++ (rx ++ others))
  within : l.WithinTables
  mapping : ∀ c ∈ mapping, c.NoQueue
  polled : ∀ lcore : Fin myRteMaxLcore, (s'.lcoreConf lcore).polled = mappedTo lcore l.lcoreParams
  zero : ∀ lcore port, (s'.lcoreConf lcore).txQueueIds port = 0
  devConfigure : ∀ port ∈ (portIds l).filter (portEnabled l), .devConfigure port 1 1 ∈ ports
  txQueues : l.rteLcoreIsEnabled 1 = true → ∀ port ∈ (portIds l).filter (portEnabled l),
    .txQueueSetup port 0 (socketForLcore l 1) ∈ ports
  txOnly : ∀ port queue socket, .txQueueSetup port queue socket ∈ ports →
    l.rteLcoreIsEnabled 1 = true
  noRx : ∀ port queue socket pool, .rxQueueSetup port queue socket pool ∉ ports
  rxOnly : ∀ c ∈ rx, c.NoQueue ∨ ∃ q ∈ mappedTo 0 l.lcoreParams, ∃ pool,
    c = .rxQueueSetup q.portId q.queueId (socketForLcore l 0) pool
  rx : ∀ q ∈ mappedTo 0 l.lcoreParams, ∃ pool,
    .rxQueueSetup q.portId q.queueId (socketForLcore l 0) (some pool) ∈ rx ∧
      .mempoolCreate pool ∈ ports
  up : ∀ q ∈ mappedTo 0 l.lcoreParams, q.portId ∈ (portIds l).filter (portEnabled l)
  started : ∀ port ∈ (portIds l).filter (portEnabled l), .devStart port ∈ others
  others : ∀ c ∈ others, c.NoQueue

theorem initNics_passes {l : Launch} {es : List Call} {u : Unit} {s' : Setup}
    (run : Passes (initNics l) .initial es u s') :
    ∃ mapping ports rx others, Launched l es s' mapping ports rx others := by
  have starts := initNics_through.mp run.through
  obtain ⟨_, _, s₀, es₁, checked, run₁, rfl⟩ := passes_bind.mp run
  obtain ⟨rfl, rfl, _⟩ := checkLcoreParams_passes checked
  obtain ⟨mapping, _, s₁, es₂, entered, run₂, rfl⟩ := passes_bind.mp run₁
  obtain ⟨mapped, _⟩ := initLcores_passes entered
  split at run₂
  · exact (passes_failure run₂).elim
  obtain ⟨ports, _, s₂, es₃, opened, run₃, rfl⟩ := passes_bind.mp run₂
  have up := configurePorts_passes opened
  obtain ⟨rx, _, s₃, es₄, queues, run₄, rfl⟩ := passes_bind.mp run₃
  obtain ⟨rfl, rxOnly, rxAll⟩ := initRxQueues_passes queues
  obtain ⟨starting, _, s₄, links, begun, waited, rfl⟩ := passes_bind.mp run₄
  obtain ⟨rfl, started, quiet⟩ := startPorts_passes begun
  obtain ⟨rfl, quiet'⟩ := checkPortLinkStatus_passes waited
  have polled (lcore : Fin myRteMaxLcore) :
      (s'.lcoreConf lcore).polled = mappedTo lcore l.lcoreParams := by
    rw [up.polled, mapped.polled]
    rfl
  have queues₀ : (s'.lcoreConf 0).polled = mappedTo 0 l.lcoreParams := polled 0
  refine ⟨mapping, ports, rx, starting ++ links, ?_⟩
  constructor
  case calls => rfl
  case within => exact starts.within
  case mapping => exact mapped.calls
  case polled => exact polled
  case zero =>
    intro lcore port
    apply up.zero
    rw [mapped.txQueueIds]
    rfl
  case devConfigure => exact up.devConfigure
  case txQueues => exact up.txQueues
  case txOnly => exact up.txOnly
  case noRx => exact up.noRx
  case rxOnly => exact queues₀ ▸ rxOnly
  case rx =>
    intro q hq
    have first := starts.first hq
    obtain ⟨entry, named, called⟩ := (rxAll first).setUp q (queues₀ ▸ hq)
    -- the pool of lcore 0 was there before the queues
    obtain ⟨entry', named', there⟩ :=
      up.filled (List.ne_nil_of_mem (starts.has q hq).1) 0 (by decide) first
    obtain rfl : entry' = entry := Fin.ext (named' ▸ named)
    obtain ⟨pool, here⟩ := Option.ne_none_iff_exists'.mp there
    refine ⟨pool, here ▸ called, ?_⟩
    rcases up.pooled.made entry' pool here with before | made
    · rw [mapped.pools] at before
      cases before
    · exact made
  case up => exact fun q hq => (starts.has q hq).1
  case started => exact fun port hp => List.mem_append_left _ (started port hp)
  case others => exact List.forall_mem_append.mpr ⟨quiet, quiet'⟩

theorem Launched.txOnly_all {l : Launch} {es mapping ports rx others : List Call} {s' : Setup}
    (h : Launched l es s' mapping ports rx others) {port : U8} {queue : U16} {socket : U8}
    (hc : .txQueueSetup port queue socket ∈ es) : l.rteLcoreIsEnabled 1 = true := by
  rw [h.calls] at hc
  simp only [List.mem_append] at hc
  rcases hc with hc | hc | hc | hc
  · exact (h.mapping _ hc).elim
  · exact h.txOnly _ _ _ hc
  · rcases h.rxOnly _ hc with quiet | ⟨_, _, _, same⟩
    · exact quiet.elim
    · cases same
  · exact (h.others _ hc).elim

theorem Launched.rxOnly_all {l : Launch} {es mapping ports rx others : List Call} {s' : Setup}
    (h : Launched l es s' mapping ports rx others) {q : LcoreRxQueue} {socket : U8}
    {pool : Option Mempool} (hc : .rxQueueSetup q.portId q.queueId socket pool ∈ es) :
    q ∈ mappedTo 0 l.lcoreParams := by
  rw [h.calls] at hc
  simp only [List.mem_append] at hc
  rcases hc with hc | hc | hc | hc
  · exact (h.mapping _ hc).elim
  · exact (h.noRx _ _ _ _ hc).elim
  · rcases h.rxOnly _ hc with quiet | ⟨q', hq, _, same⟩
    · exact quiet.elim
    · cases q with | mk portId queueId =>
      cases q' with | mk portId' queueId' =>
      cases same
      exact hq
  · exact (h.others _ hc).elim

/-- A queue of lcore 0 is set up, its transmit queue if lcore 1 is there. -/
theorem Launched.setUp {l : Launch} {es mapping ports rx others : List Call} {s' : Setup}
    (h : Launched l es s' mapping ports rx others) (second : l.rteLcoreIsEnabled 1 = true)
    {q : LcoreRxQueue} (hq : q ∈ mappedTo 0 l.lcoreParams) (main : Fin myRteMaxLcore) :
    SetUp es (s'.lcoreConf main) q := by
  have port := h.up q hq
  constructor
  case rx =>
    obtain ⟨pool, called, made⟩ := h.rx q hq
    obtain ⟨before, after, split⟩ := List.append_of_mem called
    refine ⟨mapping ++ (ports ++ before), socketForLcore l 0, pool, after ++ others, ?_, ?_⟩
    · rw [h.calls, split]
      simp
    · exact List.mem_append_right _ (List.mem_append_left _ made)
  case configured =>
    rw [h.calls]
    exact List.mem_append_right _ (List.mem_append_left _ (h.devConfigure _ port))
  case started =>
    rw [h.calls]
    exact List.mem_append_right _ (List.mem_append_right _ (List.mem_append_right _
      (h.started _ port)))
  case tx =>
    refine ⟨socketForLcore l 1, ?_⟩
    rw [h.zero, h.calls]
    exact List.mem_append_right _ (List.mem_append_left _ (h.txQueues second _ port))

/-- The server is up, and everything that its main loop uses on this lcore is set up. -/
def AllSetUp (main : Nat) (calls : List Call) (r : Option Unit) (s' : Setup) : Prop :=
  r = some () ∧ ∃ inside : main < myRteMaxLcore, ∀ q ∈ (s'.lcoreConf ⟨main, inside⟩).polled,
    SetUp calls (s'.lcoreConf ⟨main, inside⟩) q

/-- What the queues of the main lcore have to be like. -/
def Launch.Covers (l : Launch) (main : Nat) : Prop :=
  mappedTo main l.lcoreParams = [] ∨ l.rteLcoreIsEnabled 1 = true ∧
    ∀ q ∈ mappedTo main l.lcoreParams, q ∈ mappedTo 0 l.lcoreParams

/-- In a run that does not exit while it is inside its tables, everything the main loop
uses is set up exactly when the tables have an entry for all lcores and sockets that
are used, and the main loop polls nothing, or lcore 1 is enabled and all it polls is
also mapped to lcore 0. -/
theorem initNics_setUp_iff {l : Launch} {es : List Call} {r : Option Unit} {s' : Setup}
    (run : (initNics l).run.Returns .initial es r s')
    (noExit : (∀ c ∈ es, c.Inside) → r ≠ none) (main : Nat) :
    AllSetUp main es r s' ↔ l.WithinTables ∧ main < myRteMaxLcore ∧ l.Covers main := by
  constructor
  · rintro ⟨rfl, inside, all⟩
    obtain ⟨mapping, ports, rx, others, launched⟩ := initNics_passes run
    refine ⟨launched.within, inside, ?_⟩
    rw [launched.polled] at all
    by_cases none : mappedTo main l.lcoreParams = []
    · exact .inl none
    · obtain ⟨q, hq⟩ := List.exists_mem_of_ne_nil _ none
      obtain ⟨socket, tx⟩ := (all q hq).tx
      refine .inr ⟨launched.txOnly_all tx, ?_⟩
      intro q hq
      obtain ⟨before, socket, pool, after, calls, _⟩ := (all q hq).rx
      apply launched.rxOnly_all
      rw [calls]
      exact List.mem_append_right _ List.mem_cons_self
  · rintro ⟨within, inside, covers⟩
    obtain ⟨u, rfl⟩ := Option.ne_none_iff_exists'.mp (noExit (initNics_inside within run))
    obtain ⟨mapping, ports, rx, others, launched⟩ := initNics_passes run
    refine ⟨rfl, inside, ?_⟩
    rw [launched.polled]
    intro q hq
    rcases covers with none | ⟨second, both⟩
    · rw [none] at hq
      cases hq
    · exact launched.setUp second (both q hq) _

theorem twoLcores_setUp :
    let out := (initNics (onePort (· < 2) 2)).run.run 0 .initial
    AllSetUp 0 out.events (some ()) out.state := by
  intro out
  have run : Passes (initNics (onePort (· < 2) 2)) .initial out.events () out.state :=
    Passes.of_run (by decide)
  refine (initNics_setUp_iff run (fun _ => Option.some_ne_none _) 0).mpr
    ⟨⟨by decide, fun _ => ?_, by decide⟩, by decide, .inr (by decide)⟩
  exact fun _ _ _ => Nat.zero_lt_succ _

/-- With lcore 0 alone no transmit queue is set up. -/
theorem oneLcore_not_setUp : ∃ es s', Passes (initNics (onePort (· = 0) 1)) .initial es () s' ∧
    ∃ q ∈ (s'.lcoreConf 0).polled, ¬ SetUp es (s'.lcoreConf 0) q := by
  let out := (initNics (onePort (· = 0) 1)).run.run 0 .initial
  have run : Passes (initNics (onePort (· = 0) 1)) .initial out.events () out.state :=
    Passes.of_run (by decide)
  refine ⟨out.events, out.state, run, ⟨0, 0⟩, by decide, ?_⟩
  intro setUp
  obtain ⟨socket, tx⟩ := setUp.tx
  obtain ⟨_, _, _, _, launched⟩ := initNics_passes run
  exact absurd (launched.txOnly_all tx) (by decide)

end Udp
