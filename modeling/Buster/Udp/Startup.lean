import Buster.Udp.Lcores

/-!
# When the server starts

`init_nics` gets through, or the process exits, or it leaves its tables, which is
the end of a run here. Which of these depends on the mapping, the lcores and their
sockets, the ports that there are and the mask, and on nothing that a device
answers: the links are waited for, for a while.
-/

namespace Udp

open Imp.Prog

variable {l : Launch} {s s' : Setup} {es : List Call}

/-! ## The mapping -/

theorem checkLcoreParams_through {ps : List LcoreParams} :
    Through (checkLcoreParams l ps) s ↔
      ∀ p ∈ ps, p.queueId.toNat < maxRxQueuePerPort ∧
        l.rteLcoreIsEnabled p.lcoreId.toNat = true := by
  induction ps with
  | nil => exact iff_of_true (through_pure () s) (List.forall_mem_nil _)
  | cons p ps ih =>
    rw [List.forall_mem_cons, checkLcoreParams]
    by_cases many : maxRxQueuePerPort ≤ p.queueId.toNat
    · rw [if_pos many]
      exact iff_of_false (not_through_failure s) fun h => Nat.not_le.mpr h.1.1 many
    · rw [if_neg many]
      cases enabled : l.rteLcoreIsEnabled p.lcoreId.toNat with
      | false =>
        rw [if_pos rfl]
        exact iff_of_false (not_through_failure s) fun h => Bool.false_ne_true h.1.2
      | true =>
        rw [if_neg (by simp), ih]
        exact (and_iff_right ⟨Nat.not_le.mp many, rfl⟩).symm

theorem through_call {α : Type} {c : Call} {f : Unit → Init α} :
    Through (call c >>= f) s ↔ Through (f ()) s :=
  (passes_lift.mpr (emit_returns c s)).through_bind

theorem through_getSetup {α : Type} {f : Setup → Init α} :
    Through (getSetup >>= f) s ↔ Through (f s) s :=
  (passes_lift.mpr (get_returns s)).through_bind

theorem through_setSetup {α : Type} {g : Setup → Setup} {f : Unit → Init α} :
    Through (setSetup g >>= f) s ↔ Through (f ()) (g s) :=
  (passes_lift.mpr (modify_returns g s)).through_bind

theorem through_access {α : Type} {n i : Nat} {c : Call} {f : Fin n → Init α} :
    Through (access c i >>= f) s ↔ ∃ inside : i < n, Through (f ⟨i, inside⟩) s := by
  constructor
  · rintro ⟨_, _, _, run⟩
    obtain ⟨inside, _, _, rest⟩ := passes_access.mp run
    exact ⟨inside, rest.through⟩
  · rintro ⟨inside, rest⟩
    exact (access_passes c inside).through_bind.mpr rest

theorem initLcores_through {before ps : List LcoreParams} (entered : Entered s before) :
    Through (initLcores ps) s ↔
      HasRoom (before ++ ps) ∧ ∀ p ∈ ps, p.lcoreId.toNat < myRteMaxLcore := by
  induction ps generalizing before s with
  | nil =>
    rw [List.append_nil]
    exact iff_of_true (through_pure () s) ⟨entered.room, List.forall_mem_nil _⟩
  | cons p ps ih =>
    rw [initLcores, through_access, List.forall_mem_cons]
    by_cases inside : p.lcoreId.toNat < myRteMaxLcore
    · rw [exists_prop_of_true inside, and_iff_right inside, through_getSetup]
      split
      · rename_i full
        refine iff_of_false (not_through_failure s) fun h => ?_
        have room := h.1
        rw [List.append_cons] at room
        have many := room.of_append p.lcoreId.toNat
        rw [length_mappedTo_snoc, if_pos rfl, ← entered.counts ⟨_, inside⟩] at many
        omega
      · rename_i room
        rw [through_call, through_setSetup, ih (entered.add rfl (Nat.not_le.mp room)),
          List.append_assoc]
        rfl
    · exact iff_of_false (fun h => inside h.choose) fun h => inside h.2.1

/-! ## The ports -/

/-- The sockets of the enabled lcores that have a configuration have pools. -/
def Launch.Pools (l : Launch) : Prop :=
  ∀ lcore < myRteMaxLcore, l.rteLcoreIsEnabled lcore = true →
    (socketForLcore l lcore).toNat < numSockets

theorem initPacketBuffers_through (num : U32) {lcores : List Nat}
    (pools : ∀ lcore ∈ lcores, l.rteLcoreIsEnabled lcore = true →
      (socketForLcore l lcore).toNat < numSockets) :
    Through (initPacketBuffers l num lcores) s := by
  induction lcores generalizing s with
  | nil => exact through_pure () s
  | cons lcore lcores ih =>
    obtain ⟨first, others⟩ := List.forall_mem_cons.mp pools
    rw [initPacketBuffers]
    split
    · exact ih others
    · rename_i enabled
      refine through_access.mpr ⟨first (by simpa using enabled), through_getSetup.mpr ?_⟩
      split
      · rw [through_call, through_setSetup]
        exact ih others
      · exact ih others

theorem initTxQueueForPort_through {port : U8} (configured : s.configured port = some (1, 1)) :
    Through (initTxQueueForPort l port (List.range' 1 (myRteMaxLcore - 1)) 0) s := by
  change Through (initTxQueueForPort l port [1] 0) s
  rw [initTxQueueForPort]
  split
  · exact through_pure () s
  · have asked : Passes (rteEthTxQueueSetup port 0 (socketForLcore l 1)) s
        [.txQueueSetup port 0 (socketForLcore l 1)] true s := by
      refine passes_call.mpr ⟨[], rfl, passes_getSetup.mpr ?_⟩
      rw [configured]
      exact passes_pure.mpr ⟨rfl, rfl, rfl⟩
    rw [asked.through_bind, if_pos rfl, through_access]
    exact ⟨by decide, through_setSetup.mpr (through_pure () _)⟩

/-- A port is configured with one queue each way, and the others stay as they are. -/
theorem configurePort_configured {port : U8} {u : Unit}
    (run : Passes (configurePort l port) s es u s') :
    s'.configured = Function.update s.configured port (some (1, 1)) := by
  obtain ⟨es₁, rfl, run₁⟩ := passes_call.mp run
  rw [passes_setSetup] at run₁
  obtain ⟨es₂, _, s₂, es₃, buffers, queues, rfl⟩ := passes_bind.mp run₁
  rw [(initTxQueueForPort_passes queues).configured, (initPacketBuffers_passes buffers).2.2.1]

theorem configurePort_through (pools : l.Pools) (port : U8) : Through (configurePort l port) s := by
  rw [configurePort, through_call, through_setSetup]
  obtain ⟨es, _, s₁, run⟩ := initPacketBuffers_through (l := l)
    (s := { s with configured := Function.update s.configured port (some (1, 1)) })
    (numMbuf (BitVec.ofNat 32 l.nPorts) 1 1 l.rteLcoreCount)
    fun lcore below => pools lcore (List.mem_range.mp below)
  rw [run.through_bind]
  apply initTxQueueForPort_through
  rw [(initPacketBuffers_passes run).2.2.1]
  exact Function.update_self ..

/-- The enabled ports end up with one queue each way. -/
theorem configurePorts_configured {ports : List U8}
    (pools : ports.filter (portEnabled l) ≠ [] → l.Pools) :
    ∃ es s', Passes (configurePorts l ports) s es () s' ∧ ∀ port, s'.configured port =
      if port ∈ ports.filter (portEnabled l) then some (1, 1) else s.configured port := by
  induction ports generalizing s with
  | nil => exact ⟨[], s, passes_pure.mpr ⟨rfl, rfl, rfl⟩, fun _ => rfl⟩
  | cons port ports ih =>
    rw [configurePorts]
    by_cases enabled : portEnabled l port
    · rw [List.filter_cons_of_pos enabled] at pools
      have fits := pools (List.cons_ne_nil _ _)
      obtain ⟨es₁, _, s₁, first⟩ := configurePort_through (s := s) fits port
      obtain ⟨es₂, s₂, rest, configured⟩ := ih (s := s₁) fun _ => fits
      rw [if_pos enabled]
      refine ⟨es₁ ++ es₂, s₂, passes_bind.mpr ⟨es₁, _, s₁, es₂, first, rest, rfl⟩, ?_⟩
      intro p
      rw [configured, configurePort_configured first, List.filter_cons_of_pos enabled]
      by_cases mine : p = port
      · subst mine
        rw [Function.update_self, ite_self, if_pos List.mem_cons_self]
      · rw [Function.update_of_ne mine]
        exact if_congr (by simp [mine]) rfl rfl
    · rw [List.filter_cons_of_neg enabled] at pools
      obtain ⟨es₂, s₂, rest, configured⟩ := ih (s := s) pools
      rw [if_neg enabled, List.filter_cons_of_neg enabled]
      exact ⟨es₂, s₂, rest, configured⟩

/-! ## The receive queues -/

/-- The port is one that comes up, and the queue is its only one. -/
def Launch.Has (l : Launch) (q : LcoreRxQueue) : Prop :=
  q.portId ∈ (portIds l).filter (portEnabled l) ∧ q.queueId = 0

theorem setupRxQueues_through {socket : U8} {qs : List LcoreRxQueue} :
    Through (setupRxQueues socket qs) s ↔ ∀ q ∈ qs, socket.toNat < numSockets ∧
      (s.configured q.portId).any fun n => q.queueId.toNat < n.1 := by
  induction qs with
  | nil => exact iff_of_true (through_pure () s) (List.forall_mem_nil _)
  | cons q qs ih =>
    rw [setupRxQueues, through_access, List.forall_mem_cons]
    by_cases inside : socket.toNat < numSockets
    · rw [exists_prop_of_true inside, through_getSetup]
      let pool := s.pktmbufPool ⟨socket.toNat, inside⟩
      have asked : Passes (rteEthRxQueueSetup q.portId q.queueId socket pool) s
          [.rxQueueSetup q.portId q.queueId socket pool]
          ((s.configured q.portId).any fun n => q.queueId.toNat < n.1) s :=
        passes_call.mpr ⟨[], rfl, passes_getSetup.mpr (passes_pure.mpr ⟨rfl, rfl, rfl⟩)⟩
      rw [asked.through_bind]
      by_cases there : (s.configured q.portId).any fun n => q.queueId.toNat < n.1
      · rw [if_pos there, ih]
        exact (and_iff_right ⟨inside, there⟩).symm
      · rw [if_neg there]
        exact iff_of_false (not_through_failure s) fun h => there h.1.2
    · exact iff_of_false (fun h => inside h.choose) fun h => inside h.1.1

theorem initRxQueues_through : Through (initRxQueues l (List.range 1)) s ↔
    (l.rteLcoreIsEnabled 0 = true → ∀ q ∈ (s.lcoreConf 0).polled,
      (socketForLcore l 0).toNat < numSockets ∧
        (s.configured q.portId).any fun n => q.queueId.toNat < n.1) := by
  change Through (initRxQueues l [0]) s ↔ _
  rw [initRxQueues]
  cases enabled : l.rteLcoreIsEnabled 0 with
  | false =>
    rw [if_pos rfl]
    exact iff_of_true (through_pure () s) fun h => absurd h Bool.false_ne_true
  | true =>
    have first : (0 : Nat) < myRteMaxLcore := by decide
    rw [if_neg (by simp), through_access, exists_prop_of_true first, through_getSetup,
      through_bind, imp_iff_right rfl]
    refine Iff.trans ?_ setupRxQueues_through
    constructor
    · rintro ⟨es, _, s', run, _⟩
      exact run.through
    · rintro ⟨es, u, s', run⟩
      exact ⟨es, u, s', run, through_pure () s'⟩

/-! ## The links -/

/-- Whether the enabled ports are up in a round of waiting. -/
def Launch.allUp (l : Launch) (count : Nat) : Bool :=
  (portIds l).all fun port => !portEnabled l port || l.linkStatus count port

/-- How many rounds find a port down before one finds all up. -/
def Launch.waits (l : Launch) (counts : List Nat) : Nat :=
  (counts.takeWhile fun count => !l.allUp count).length

theorem startPorts_through (ports : List U8) : Through (startPorts l ports) s := by
  induction ports with
  | nil => exact through_pure () s
  | cons port ports ih =>
    rw [startPorts]
    split
    · rw [through_call, through_call]
      exact ih
    · exact ih

theorem allPortsUp_looks (count : Nat) (ports : List U8) :
    ∃ es, Passes (allPortsUp l count ports) s es
      (ports.all fun port => !portEnabled l port || l.linkStatus count port) s ∧
      es.count .delay = 0 ∧ ∀ c ∈ es, c.Inside := by
  induction ports with
  | nil => exact ⟨[], passes_pure.mpr ⟨rfl, rfl, rfl⟩, rfl, List.forall_mem_nil _⟩
  | cons port ports ih =>
    obtain ⟨es, run, quiet, inside⟩ := ih
    rw [allPortsUp, List.all_cons]
    cases enabled : portEnabled l port with
    | false =>
      rw [if_neg Bool.false_ne_true]
      exact ⟨es, run, quiet, inside⟩
    | true =>
      rw [if_pos rfl]
      cases up : l.linkStatus count port with
      | false =>
        exact ⟨[.linkGet port], passes_call.mpr ⟨[], rfl, passes_pure.mpr ⟨rfl, rfl, rfl⟩⟩, rfl,
          List.forall_mem_singleton.mpr trivial⟩
      | true =>
        exact ⟨.linkGet port :: es, passes_call.mpr ⟨es, rfl, run⟩, quiet,
          List.forall_mem_cons.mpr ⟨trivial, inside⟩⟩

theorem checkPortLinkStatus_waits (counts : List Nat) :
    ∃ es, Passes (checkPortLinkStatus l counts) s es () s ∧ es.count .delay = l.waits counts ∧
      ∀ c ∈ es, c.Inside := by
  induction counts with
  | nil => exact ⟨[], passes_pure.mpr ⟨rfl, rfl, rfl⟩, rfl, List.forall_mem_nil _⟩
  | cons count counts ih =>
    obtain ⟨es₁, looks, quiet, inside₁⟩ := allPortsUp_looks (l := l) (s := s) count (portIds l)
    obtain ⟨es₂, rest, waits, inside₂⟩ := ih
    change Passes _ s es₁ (l.allUp count) s at looks
    rw [checkPortLinkStatus]
    cases up : l.allUp count with
    | true =>
      rw [up] at looks
      refine ⟨es₁ ++ [], passes_bind.mpr ⟨es₁, true, s, [], looks, ?_, rfl⟩, ?_, ?_⟩
      · exact passes_pure.mpr ⟨rfl, rfl, rfl⟩
      · simp [quiet, Launch.waits, up]
      · rwa [List.append_nil]
    | false =>
      rw [up] at looks
      refine ⟨es₁ ++ .delay :: es₂, passes_bind.mpr ⟨es₁, false, s, _, looks, ?_, rfl⟩, ?_, ?_⟩
      · exact passes_call.mpr ⟨es₂, rfl, rest⟩
      · simp [quiet, waits, Launch.waits, up]
      · exact List.forall_mem_append.mpr ⟨inside₁, List.forall_mem_cons.mpr ⟨trivial, inside₂⟩⟩

/-! ## The start as a whole -/

/-- No packet is in a transmit buffer. -/
def Setup.Drained (s : Setup) : Prop := ∀ lcore port, ((s.lcoreConf lcore).txMbufs port).len = 0

theorem Setup.Drained.setConf (h : s.Drained) (lcore : Fin myRteMaxLcore) {c : LcoreConf}
    (same : c.txMbufs = (s.lcoreConf lcore).txMbufs) : (s.setConf lcore c).Drained := by
  intro other port
  by_cases mine : other = lcore
  · rw [mine, Setup.setConf_self, same]
    exact h lcore port
  · rw [Setup.setConf_of_ne s c mine]
    exact h other port

/-- It comes to an end; nothing is waited for, and nothing is sent. Where `within` holds
the tables are not left. -/
def Quiet {α : Type} (within : Prop) (x : Init α) : Prop :=
  x.run.Completes Setup.Drained fun c => c ≠ .delay ∧ (within → c.Inside)

section quiet
variable {α : Type} {within : Prop}

theorem quiet_call {c : Call} {f : Unit → Init α} (h : c ≠ .delay) (inside : within → c.Inside)
    (hf : Quiet within (f ())) : Quiet within (call c >>= f) := by
  have one : Quiet within (call c) := Completes.lift (completes_emit ⟨h, inside⟩)
  exact one.then fun _ => hf

theorem quiet_access {n i : Nat} {c : Call} {f : Fin n → Init α} (h : c ≠ .delay)
    (inside : within → c.Inside) (hf : ∀ entry, Quiet within (f entry)) :
    Quiet within (access c i >>= f) := by
  have one : Quiet within (access c i : Init (Fin n)) := by
    refine quiet_call h inside ?_
    split
    · exact completes_through _
    · exact completes_exit
  exact one.then hf

theorem quiet_getSetup {f : Setup → Init α} (hf : ∀ s, Quiet within (f s)) :
    Quiet within (getSetup >>= f) :=
  (Completes.lift completes_get).then hf

theorem quiet_setSetup {g : Setup → Setup} {f : Unit → Init α}
    (keeps : ∀ s, s.Drained → (g s).Drained) (hf : Quiet within (f ())) :
    Quiet within (setSetup g >>= f) := by
  have one : Quiet within (setSetup g) := Completes.lift (completes_modify keeps)
  exact one.then fun _ => hf

theorem quiet_checkLcoreParams (ps : List LcoreParams) :
    Quiet within (checkLcoreParams l ps) := by
  induction ps with
  | nil => exact completes_through ()
  | cons p ps ih =>
    rw [checkLcoreParams]
    split
    · exact completes_exit
    split
    · exact completes_exit
    · exact ih

theorem quiet_initLcores {ps : List LcoreParams}
    (lcores : within → ∀ p ∈ ps, p.lcoreId.toNat < myRteMaxLcore) :
    Quiet within (initLcores ps) := by
  induction ps with
  | nil => exact completes_through ()
  | cons p ps ih =>
    refine quiet_access (by simp) (fun h => lcores h p List.mem_cons_self) fun entry => ?_
    refine quiet_getSetup fun s => ?_
    split
    · exact completes_exit
    · rename_i room
      refine quiet_call (by simp) (fun _ => ⟨entry.isLt, Nat.not_le.mp room⟩) ?_
      exact quiet_setSetup (fun _ h => h.setConf _ rfl)
        (ih fun h q hq => lcores h q (List.mem_cons_of_mem _ hq))

theorem quiet_initPacketBuffers (num : U32) {lcores : List Nat}
    (pools : within → ∀ lcore ∈ lcores, l.rteLcoreIsEnabled lcore = true →
      (socketForLcore l lcore).toNat < numSockets) :
    Quiet within (initPacketBuffers l num lcores) := by
  induction lcores with
  | nil => exact completes_through ()
  | cons lcore lcores ih =>
    have rest := ih fun h other member => pools h other (List.mem_cons_of_mem _ member)
    rw [initPacketBuffers]
    split
    · exact rest
    · rename_i enabled
      refine quiet_access (by simp) (fun h => pools h lcore List.mem_cons_self (by simpa using
        enabled)) fun entry => quiet_getSetup fun s => ?_
      split
      · exact quiet_call (by simp) (fun _ => trivial) (quiet_setSetup (fun _ h => h) rest)
      · exact rest

theorem quiet_initTxQueueForPort (port : U8) {lcores : List Nat} (queue : U16)
    (below : ∀ lcore ∈ lcores, lcore < myRteMaxLcore) :
    Quiet within (initTxQueueForPort l port lcores queue) := by
  induction lcores generalizing queue with
  | nil => exact completes_through ()
  | cons lcore lcores ih =>
    obtain ⟨first, others⟩ := List.forall_mem_cons.mp below
    rw [initTxQueueForPort]
    split
    · exact ih queue others
    · have asked : Quiet within (rteEthTxQueueSetup port queue (socketForLcore l lcore)) :=
        quiet_call (by simp) (fun _ => trivial) (quiet_getSetup fun _ => completes_through _)
      apply asked.then
      intro ok
      split
      · exact quiet_access (by simp) (fun _ => first) fun entry =>
          quiet_setSetup (fun _ h => h.setConf _ rfl) (ih _ others)
      · exact completes_exit

theorem quiet_configurePorts {ports : List U8}
    (pools : within → ports.filter (portEnabled l) ≠ [] → l.Pools) :
    Quiet within (configurePorts l ports) := by
  induction ports with
  | nil => exact completes_through ()
  | cons port ports ih =>
    rw [configurePorts]
    split
    · rename_i enabled
      rw [List.filter_cons_of_pos enabled] at pools
      have fits (h : within) : l.Pools := pools h (List.cons_ne_nil _ _)
      have one : Quiet within (configurePort l port) := by
        refine quiet_call (by simp) (fun _ => trivial) (quiet_setSetup (fun _ h => h) ?_)
        refine (quiet_initPacketBuffers _ fun h lcore below => ?_).then fun _ => ?_
        · exact fits h lcore (List.mem_range.mp below)
        · exact quiet_initTxQueueForPort _ _ (by decide)
      exact one.then fun _ => ih fun h _ => fits h
    · rename_i disabled
      rw [List.filter_cons_of_neg disabled] at pools
      exact ih pools

theorem quiet_setupRxQueues {socket : U8} {qs : List LcoreRxQueue}
    (pool : within → qs ≠ [] → socket.toNat < numSockets) :
    Quiet within (setupRxQueues socket qs) := by
  induction qs with
  | nil => exact completes_through ()
  | cons q qs ih =>
    have fits (h : within) : socket.toNat < numSockets := pool h (List.cons_ne_nil _ _)
    refine quiet_access (by simp) fits fun entry => quiet_getSetup fun s => ?_
    have asked : Quiet within
        (rteEthRxQueueSetup q.portId q.queueId socket (s.pktmbufPool entry)) :=
      quiet_call (by simp) (fun _ => trivial) (quiet_getSetup fun _ => completes_through _)
    apply asked.then
    intro ok
    split
    · exact ih fun h _ => fits h
    · exact completes_exit

theorem quiet_initRxQueues : Quiet False (initRxQueues l (List.range 1)) := by
  change Quiet False (initRxQueues l [0])
  rw [initRxQueues]
  split
  · exact completes_through ()
  · exact quiet_access (by simp) False.elim fun entry => quiet_getSetup fun s =>
      (quiet_setupRxQueues False.elim).then fun _ => completes_through ()

theorem quiet_startPorts (ports : List U8) : Quiet within (startPorts l ports) := by
  induction ports with
  | nil => exact completes_through ()
  | cons port ports ih =>
    rw [startPorts]
    split
    · exact quiet_call (by simp) (fun _ => trivial) (quiet_call (by simp) (fun _ => trivial) ih)
    · exact ih

theorem Quiet.returned {x : Init α} {r : Option α} (h : Quiet within x) (drained : s.Drained)
    (run : x.run.Returns s es r s') :
    s'.Drained ∧ es.count .delay = 0 ∧ (within → ∀ c ∈ es, c.Inside) := by
  obtain ⟨_, _, _, run', kept, shown⟩ := h s drained
  obtain ⟨rfl, _, rfl⟩ := run.unique run'
  exact ⟨kept, List.count_eq_zero.mpr fun hc => (shown _ hc).1 rfl,
    fun holds c hc => (shown c hc).2 holds⟩

end quiet

/-- The lcores of the mapping have configurations, and the sockets that are used have
pools. -/
structure Launch.WithinTables (l : Launch) : Prop where
  lcores : ∀ p ∈ l.lcoreParams, p.lcoreId.toNat < myRteMaxLcore
  pools : (portIds l).filter (portEnabled l) ≠ [] → l.Pools
  rxPool : mappedTo 0 l.lcoreParams ≠ [] → (socketForLcore l 0).toNat < numSockets

/-- What a launch has to be like for the server to start. -/
structure Launch.Starts (l : Launch) : Prop where
  accepted : ∀ p ∈ l.lcoreParams,
    p.queueId.toNat < maxRxQueuePerPort ∧ l.rteLcoreIsEnabled p.lcoreId.toNat = true
  within : l.WithinTables
  room : HasRoom l.lcoreParams
  some : l.nPorts ≠ 0
  has : ∀ q ∈ mappedTo 0 l.lcoreParams, l.Has q

theorem ports_any {l : Launch} {q : LcoreRxQueue} {configured : Option (Nat × Nat)}
    (h : configured = if q.portId ∈ (portIds l).filter (portEnabled l) then some (1, 1) else none) :
    (configured.any fun n => q.queueId.toNat < n.1) = true ↔ l.Has q := by
  rw [h, Launch.Has]
  split
  · rename_i up
    rw [and_iff_right up, BitVec.toNat_eq]
    simp
  · rename_i down
    simp [down]

/-- Once the mapping is entered, the queues of lcore 0 decide. -/
theorem portsUp_through (mapped : Mapped l.lcoreParams .initial es s)
    (pools : (portIds l).filter (portEnabled l) ≠ [] → l.Pools) :
    Through (configurePorts l (portIds l) >>= fun _ => initRxQueues l (List.range 1) >>= fun _ =>
      startPorts l (portIds l) >>= fun _ => checkPortLinkStatus l (List.range 91)) s ↔
    (l.rteLcoreIsEnabled 0 = true → ∀ q ∈ mappedTo 0 l.lcoreParams,
      (socketForLcore l 0).toNat < numSockets ∧ l.Has q) := by
  obtain ⟨_, s₁, opened, configured⟩ := configurePorts_configured (s := s) pools
  have polled : (s₁.lcoreConf 0).polled = mappedTo 0 l.lcoreParams := by
    rw [(configurePorts_passes opened).polled, mapped.polled]
    rfl
  rw [opened.through_bind, through_bind_always, initRxQueues_through, polled]
  · refine imp_congr_right fun _ => forall₂_congr fun q _ => and_congr_right fun _ => ports_any ?_
    rw [configured, mapped.configured]
    rfl
  · intro _ s₂
    obtain ⟨_, _, s₃, started⟩ := startPorts_through (l := l) (s := s₂) (portIds l)
    obtain ⟨_, waited, _⟩ := checkPortLinkStatus_waits (l := l) (s := s₃) (List.range 91)
    exact started.through_bind.mpr waited.through

/-- The lcore of an accepted entry is enabled. -/
theorem first_enabled (accepted : ∀ p ∈ l.lcoreParams, l.rteLcoreIsEnabled p.lcoreId.toNat = true)
    {q : LcoreRxQueue} (hq : q ∈ mappedTo 0 l.lcoreParams) : l.rteLcoreIsEnabled 0 = true := by
  obtain ⟨p, hp, _⟩ := List.mem_map.mp hq
  obtain ⟨member, lcore⟩ := List.mem_filter.mp hp
  have enabled := accepted p member
  rwa [of_decide_eq_true lcore] at enabled

theorem initNics_through : Through (initNics l) .initial ↔ l.Starts := by
  constructor
  · intro through
    obtain ⟨_, _, _, checked, through₁⟩ := through_bind.mp through
    obtain ⟨_, rfl, _⟩ := checkLcoreParams_passes checked
    obtain ⟨_, _, s₁, entered, through₂⟩ := through_bind.mp through₁
    obtain ⟨mapped, lcores⟩ := initLcores_passes entered
    have accepted := checkLcoreParams_through.mp checked.through
    split at through₂
    · exact (not_through_failure s₁ through₂).elim
    rename_i some
    -- a pool that was found or made is in the table
    have pools : (portIds l).filter (portEnabled l) ≠ [] → l.Pools := by
      intro up lcore below enabled
      obtain ⟨_, _, _, opened, _⟩ := through_bind.mp through₂
      obtain ⟨entry, named, _⟩ := (configurePorts_passes opened).filled up lcore below enabled
      exact named ▸ entry.isLt
    have queues (q : LcoreRxQueue) (hq : q ∈ mappedTo 0 l.lcoreParams) :
        (socketForLcore l 0).toNat < numSockets ∧ l.Has q := by
      have first := first_enabled (fun p hp => (accepted p hp).2) hq
      exact (portsUp_through mapped pools).mp through₂ first q hq
    refine ⟨accepted, ⟨lcores, pools, ?_⟩, ?_, some, fun q hq => (queues q hq).2⟩
    · intro some
      obtain ⟨q, hq⟩ := List.exists_mem_of_ne_nil _ some
      exact (queues q hq).1
    · exact ((initLcores_through entered_initial).mp entered.through).1
  · rintro ⟨accepted, within, room, some, has⟩
    obtain ⟨_, _, _, checked⟩ := checkLcoreParams_through.mpr accepted
    obtain ⟨_, rfl, _⟩ := checkLcoreParams_passes checked
    obtain ⟨_, _, s₁, entered⟩ :=
      (initLcores_through entered_initial).mpr ⟨room, within.lcores⟩
    refine checked.through_bind.mpr (entered.through_bind.mpr ?_)
    rw [if_neg some]
    refine (portsUp_through (initLcores_passes entered).1 within.pools).mpr fun _ q hq => ?_
    exact ⟨within.rxPool (List.ne_nil_of_mem hq), has q hq⟩

/-- A queue of lcore 0 is there only if the lcore is enabled. -/
theorem Launch.Starts.first (h : l.Starts) {q : LcoreRxQueue}
    (hq : q ∈ mappedTo 0 l.lcoreParams) : l.rteLcoreIsEnabled 0 = true :=
  first_enabled (fun p hp => (h.accepted p hp).2) hq

theorem drained_initial : Setup.initial.Drained := fun _ _ => rfl

/-- After a start the transmit buffers are empty; only the links were waited for. -/
theorem initNics_waits {u : Unit} (run : Passes (initNics l) .initial es u s') :
    s'.Drained ∧ es.count .delay = l.waits (List.range 91) := by
  obtain ⟨_, _, s₀, es₁, first, run₁, rfl⟩ := passes_bind.mp run
  obtain ⟨rfl, rfl, _⟩ := checkLcoreParams_passes first
  obtain ⟨es₂, _, s₁, es₃, entered, run₂, rfl⟩ := passes_bind.mp run₁
  split at run₂
  · exact (passes_failure run₂).elim
  obtain ⟨es₄, _, s₂, es₅, opened, run₃, rfl⟩ := passes_bind.mp run₂
  obtain ⟨es₆, _, s₃, es₇, queues, run₄, rfl⟩ := passes_bind.mp run₃
  obtain ⟨es₈, _, s₄, es₉, started, waited, rfl⟩ := passes_bind.mp run₄
  obtain ⟨_, run', waits, _⟩ := checkPortLinkStatus_waits (l := l) (s := s₄) (List.range 91)
  obtain ⟨rfl, _, rfl⟩ := waited.unique run'
  obtain ⟨drained₁, none₁, _⟩ := (quiet_initLcores False.elim).returned drained_initial entered
  obtain ⟨drained₂, none₂, _⟩ := (quiet_configurePorts False.elim).returned drained₁ opened
  obtain ⟨drained₃, none₃, _⟩ := quiet_initRxQueues.returned drained₂ queues
  have starts : Quiet False (startPorts l (portIds l)) := quiet_startPorts _
  obtain ⟨drained₄, none₄, _⟩ := starts.returned drained₃ started
  refine ⟨drained₄, ?_⟩
  rw [List.nil_append, List.count_append, List.count_append, List.count_append, List.count_append,
    none₁, none₂, none₃, none₄, waits]
  omega

/-- `init_nics` comes to an end. -/
theorem initNics_returns (l : Launch) : ∃ es r s', (initNics l).run.Returns .initial es r s' := by
  let all (_ : Call) : Prop := True
  have quiet {x : Init Unit} (h : Quiet False x) : x.run.Completes Setup.Drained all :=
    h.weaken fun _ _ => trivial
  have waited : (checkPortLinkStatus l (List.range 91)).run.Completes Setup.Drained all := by
    intro s drained
    obtain ⟨es, run, _⟩ := checkPortLinkStatus_waits (l := l) (s := s) (List.range 91)
    exact ⟨es, some (), s, run, drained, fun _ _ => trivial⟩
  have start : (initNics l).run.Completes Setup.Drained all := by
    apply (quiet (quiet_checkLcoreParams _)).then
    intro _
    apply (quiet (quiet_initLcores False.elim)).then
    intro _
    split
    · exact completes_exit
    · exact (quiet (quiet_configurePorts False.elim)).then fun _ =>
        (quiet quiet_initRxQueues).then fun _ => (quiet (quiet_startPorts _)).then fun _ => waited
  obtain ⟨es, r, s', run, _⟩ := start .initial drained_initial
  exact ⟨es, r, s', run⟩

/-- `init_nics` gets through inside its tables just when the mapping is accepted, its
lcores and the sockets that are used have entries in the tables, no lcore has too many
queues, there are ports, and lcore 0 has only queues 0 of enabled ones. The
links do not matter: it waits until all are up in one round, or 91 times. -/
theorem initNics_starts (l : Launch) :
    (Through (initNics l) .initial ↔ l.Starts) ∧
      ∀ es u s', Passes (initNics l) .initial es u s' →
        es.count .delay = l.waits (List.range 91) ∧ l.waits (List.range 91) ≤ 91 := by
  refine ⟨initNics_through, fun es u s' run => ⟨(initNics_waits run).2, ?_⟩⟩
  exact Nat.le_trans (List.takeWhile_prefix _).length_le (Nat.le_of_eq List.length_range)

/-- The mask is 0 where no option sets it, and the default mapping needs port 0. -/
theorem noMask_not_started :
    ¬ Through (initNics { onePort (· < 2) 2 with enabledPortsMask := 0 }) .initial := by
  intro through
  have starts := (initNics_starts _).1.mp through
  exact absurd (starts.has ⟨0, 0⟩ (by decide)).1 (by decide)

/-! ## The tables -/

theorem Quiet.inside {α : Type} {x : Init α} {r : Option α} (h : Quiet True x)
    (drained : s.Drained) (run : x.run.Returns s es r s') : ∀ c ∈ es, c.Inside :=
  (h.returned drained run).2.2 trivial

theorem initRxQueues_inside {r : Option Unit} (drained : s.Drained)
    (pool : (s.lcoreConf 0).polled ≠ [] → (socketForLcore l 0).toNat < numSockets)
    (run : (initRxQueues l (List.range 1)).run.Returns s es r s') : ∀ c ∈ es, c.Inside := by
  change (initRxQueues l [0]).run.Returns s es r s' at run
  rw [initRxQueues] at run
  split at run
  · obtain ⟨rfl, _⟩ := returns_pure.mp run
    exact List.forall_mem_nil _
  · have first : (0 : Nat) < myRteMaxLcore := by decide
    have looked : Passes getSetup s [] s s := passes_lift.mpr (get_returns s)
    obtain ⟨_, rfl, run₁⟩ := (access_passes _ first).rest run
    obtain ⟨_, rfl, run₂⟩ := looked.rest run₁
    have queues : Quiet True (setupRxQueues (socketForLcore l 0) (s.lcoreConf 0).polled >>=
        fun _ => initRxQueues l []) :=
      (quiet_setupRxQueues fun _ => pool).then fun _ => completes_through ()
    exact List.forall_mem_cons.mpr ⟨first, queues.inside drained run₂⟩

/-- A launch that is within the tables leaves none of them, whether it gets through or not. -/
theorem initNics_inside {r : Option Unit} (within : l.WithinTables)
    (run : (initNics l).run.Returns .initial es r s') : ∀ c ∈ es, c.Inside := by
  refine forall_mem_bind run ((quiet_checkLcoreParams _).inside drained_initial) ?_
  intro _ _ _ _ checked run₁
  obtain ⟨_, rfl, _⟩ := checkLcoreParams_passes checked
  have entering : Quiet True (initLcores l.lcoreParams) := quiet_initLcores fun _ => within.lcores
  refine forall_mem_bind run₁ (entering.inside drained_initial) ?_
  intro _ _ s₁ _ entered run₂
  have mapped := (initLcores_passes entered).1
  have drained₁ := (entering.returned drained_initial entered).1
  split at run₂
  · obtain ⟨rfl, _⟩ := returns_pure.mp run₂
    exact List.forall_mem_nil _
  have opening : Quiet True (configurePorts l (portIds l)) :=
    quiet_configurePorts fun _ => within.pools
  refine forall_mem_bind run₂ (opening.inside drained₁) ?_
  intro _ _ s₂ _ opened run₃
  have polled : (s₂.lcoreConf 0).polled = mappedTo 0 l.lcoreParams := by
    rw [(configurePorts_passes opened).polled, mapped.polled]
    rfl
  have drained₂ := (opening.returned drained₁ opened).1
  refine forall_mem_bind run₃ (initRxQueues_inside drained₂ (polled ▸ within.rxPool)) ?_
  intro _ _ s₃ _ queues run₄
  have drained₃ := (quiet_initRxQueues.returned drained₂ queues).1
  refine forall_mem_bind run₄ ((quiet_startPorts _).inside drained₃) ?_
  intro _ _ s₄ _ _ waited
  obtain ⟨_, run', _, inside⟩ := checkPortLinkStatus_waits (l := l) (s := s₄) (List.range 91)
  obtain ⟨rfl, _⟩ := waited.unique run'
  exact inside

end Udp
