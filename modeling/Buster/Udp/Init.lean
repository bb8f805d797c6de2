import Mathlib.Algebra.GroupWithZero.Nat
import Buster.Lib.Exit
import Buster.Udp.Server

/-!
# Bringing the server up

`init_nics` checks the mapping of receive queues to lcores, enters it into the
lcores' configurations, and sets up ports, packet buffers and queues. Only
transmit queues of lcores from 1 on and receive queues of lcore 0 are set up.
Which entries of the tables of lcores and pools are accessed is part of a run,
and a run is over where it leaves one of them.
-/

namespace Udp

open Imp Imp.Prog

def maxRxQueuePerPort : Nat := 128
def myRteMaxLcore : Nat := 2
def numSockets : Nat := 8
def rteMaxEthports : Nat := 32
def rxDescDefault : U32 := 128
def txDescDefault : U32 := 512
def mempoolCacheSize : U32 := 256

structure LcoreParams where
  portId : U8
  queueId : U8
  lcoreId : U8
  deriving DecidableEq

/-- What the server is started with: its command line, and what the EAL reports. -/
structure Launch where
  numaOn : Bool
  enabledPortsMask : U32
  lcoreParams : List LcoreParams
  rteLcoreIsEnabled : Nat → Bool
  rteLcoreToSocketId : Nat → U32
  rteLcoreCount : U32
  /-- `rte_eth_dev_count_avail` -/
  nPorts : Nat
  nPorts_le : nPorts ≤ rteMaxEthports
  /-- The link of a port when it is asked for in a round of waiting. -/
  linkStatus : Nat → U8 → Bool

/-- A pool is known by what it was created with. -/
structure Mempool where
  socketId : U8
  numMbuf : U32
  deriving DecidableEq

instance : NeZero myRteMaxLcore := ⟨Nat.succ_ne_zero 1⟩

structure Setup where
  lcoreConf : Fin myRteMaxLcore → LcoreConf
  pktmbufPool : Fin numSockets → Option Mempool
  /-- The receive and transmit queues that a port is configured with. -/
  configured : U8 → Option (Nat × Nat)

def Setup.initial : Setup where
  lcoreConf _ := ⟨0, Vector.replicate maxRxQueuePerLcore ⟨0, 0⟩, fun _ => 0, fun _ => .empty⟩
  pktmbufPool _ := none
  configured _ := none

inductive Call where
  | lcoreConf (lcore : Nat)
  | rxQueues (lcore slot : Nat)
  | pktmbufPool (socket : U8)
  | devConfigure (port : U8) (nRxQueue nTxQueue : Nat)
  | mempoolCreate (pool : Mempool)
  | txQueueSetup (port : U8) (queue : U16) (socket : U8)
  | rxQueueSetup (port queue socket : U8) (pool : Option Mempool)
  | promiscuousEnable (port : U8)
  | devStart (port : U8)
  | linkGet (port : U8)
  | delay
  deriving DecidableEq

/-- The tables are accessed inside their bounds. -/
def Call.Inside : Call → Prop
  | .lcoreConf lcore => lcore < myRteMaxLcore
  | .rxQueues lcore slot => lcore < myRteMaxLcore ∧ slot < maxRxQueuePerLcore
  | .pktmbufPool socket => socket.toNat < numSockets
  | _ => True

instance : DecidablePred Call.Inside := fun c => by
  cases c <;> unfold Call.Inside <;> infer_instance

abbrev Init := OptionT (Prog Call Setup)

/-- `DIE` and `rte_exit`. -/
def die {α : Type} : Init α := failure

def getSetup : Init Setup := OptionT.lift get

def setSetup (f : Setup → Setup) : Init Unit := OptionT.lift (modify f)

def call (c : Call) : Init Unit := OptionT.lift (emit c)

/-- An access to entry `i` of a table. Past its end nothing is known of what follows,
and the run is over. -/
def access {n : Nat} (c : Call) (i : Nat) : Init (Fin n) := do
  call c
  if inside : i < n then return ⟨i, inside⟩ else failure

abbrev lcoreEntry (lcore : Nat) : Init (Fin myRteMaxLcore) := access (.lcoreConf lcore) lcore

abbrev poolEntry (socket : U8) : Init (Fin numSockets) :=
  access (.pktmbufPool socket) socket.toNat

variable (l : Launch)

def socketForLcore (lcore : Nat) : U8 :=
  if l.numaOn then (l.rteLcoreToSocketId lcore).setWidth 8 else 0

/-! ## The mapping -/

def checkLcoreParams : List LcoreParams → Init Unit
  | [] => pure ()
  | p :: ps => do
    if maxRxQueuePerPort ≤ p.queueId.toNat then
      die
    else if l.rteLcoreIsEnabled p.lcoreId.toNat = false then
      die
    else
      checkLcoreParams ps

def LcoreConf.addQueue (c : LcoreConf) (q : LcoreRxQueue) : LcoreConf :=
  { c with rxQueues := c.rxQueues.setIfInBounds c.nRxQueue q, nRxQueue := c.nRxQueue + 1 }

def Setup.setConf (s : Setup) (lcore : Fin myRteMaxLcore) (c : LcoreConf) : Setup :=
  { s with lcoreConf := Function.update s.lcoreConf lcore c }

@[simp] theorem Setup.setConf_self (s : Setup) (lcore : Fin myRteMaxLcore)
    (c : LcoreConf) : (s.setConf lcore c).lcoreConf lcore = c := Function.update_self ..

theorem Setup.setConf_of_ne (s : Setup) {lcore other : Fin myRteMaxLcore} (c : LcoreConf)
    (h : other ≠ lcore) : (s.setConf lcore c).lcoreConf other = s.lcoreConf other :=
  Function.update_of_ne h ..

def initLcores : List LcoreParams → Init Unit
  | [] => pure ()
  | p :: ps => do
    let lcore ← lcoreEntry p.lcoreId.toNat
    let s ← getSetup
    if maxRxQueuePerLcore ≤ (s.lcoreConf lcore).nRxQueue then
      die
    else
      call (.rxQueues lcore (s.lcoreConf lcore).nRxQueue)
      setSetup fun s => s.setConf lcore ((s.lcoreConf lcore).addQueue ⟨p.portId, p.queueId⟩)
      initLcores ps

/-! ## The ports -/

/-- `NUM_MBUF` -/
def numMbuf (ports rx tx lcores : U32) : U32 :=
  let needed := ports * rx * rxDescDefault + ports * lcores * 32 + ports * tx * txDescDefault +
    lcores * mempoolCacheSize
  if needed > 8192 then needed else 8192

def Setup.setPool (s : Setup) (socket : Fin numSockets) (pool : Mempool) : Setup :=
  { s with pktmbufPool := Function.update s.pktmbufPool socket (some pool) }

def initPacketBuffers (num : U32) : List Nat → Init Unit
  | [] => pure ()
  | lcore :: lcores => do
    if l.rteLcoreIsEnabled lcore = false then
      initPacketBuffers num lcores
    else
      let socketId := socketForLcore l lcore
      let socket ← poolEntry socketId
      let s ← getSetup
      if s.pktmbufPool socket = none then
        call (.mempoolCreate ⟨socketId, num⟩)
        setSetup fun s => s.setPool socket ⟨socketId, num⟩
        initPacketBuffers num lcores
      else
        initPacketBuffers num lcores

/-- Fails for a port that is not configured and for a queue past the configured ones. -/
def rteEthTxQueueSetup (port : U8) (queue : U16) (socket : U8) : Init Bool := do
  call (.txQueueSetup port queue socket)
  let s ← getSetup
  return (s.configured port).any fun n => queue.toNat < n.2

def Setup.setTxQueueId (s : Setup) (lcore : Fin myRteMaxLcore) (port : U8) (queue : U16) : Setup :=
  s.setConf lcore { s.lcoreConf lcore with
    txQueueIds := Function.update (s.lcoreConf lcore).txQueueIds port queue }

def initTxQueueForPort (port : U8) : List Nat → U16 → Init Unit
  | [], _ => pure ()
  | lcore :: lcores, queue => do
    if l.rteLcoreIsEnabled lcore = false then
      initTxQueueForPort port lcores queue
    else
      let ok ← rteEthTxQueueSetup port queue (socketForLcore l lcore)
      if ok then
        let conf ← lcoreEntry lcore
        setSetup fun s => s.setTxQueueId conf port queue
        initTxQueueForPort port lcores (queue + 1)
      else
        die

/-- The bit of the port in the mask. -/
def portEnabled (port : U8) : Bool := l.enabledPortsMask &&& (1 <<< port.toNat) ≠ 0

def portIds : List U8 := (List.range l.nPorts).map (BitVec.ofNat 8)

/-- One port, with a single queue in each direction whatever the mapping says. -/
def configurePort (port : U8) : Init Unit := do
  call (.devConfigure port 1 1)
  setSetup fun s => { s with configured := Function.update s.configured port (some (1, 1)) }
  initPacketBuffers l (numMbuf (BitVec.ofNat 32 l.nPorts) 1 1 l.rteLcoreCount)
    (List.range myRteMaxLcore)
  initTxQueueForPort l port (List.range' 1 (myRteMaxLcore - 1)) 0

def configurePorts : List U8 → Init Unit
  | [] => pure ()
  | port :: ports => do
    if portEnabled l port then
      configurePort l port
      configurePorts ports
    else
      configurePorts ports

def rteEthRxQueueSetup (port queue socket : U8) (pool : Option Mempool) : Init Bool := do
  call (.rxQueueSetup port queue socket pool)
  let s ← getSetup
  return (s.configured port).any fun n => queue.toNat < n.1

def setupRxQueues (socket : U8) : List LcoreRxQueue → Init Unit
  | [] => pure ()
  | q :: qs => do
    let pool ← poolEntry socket
    let s ← getSetup
    let ok ← rteEthRxQueueSetup q.portId q.queueId socket (s.pktmbufPool pool)
    if ok then
      setupRxQueues socket qs
    else
      die

/-- The range of lcores ends before 1. -/
def initRxQueues : List Nat → Init Unit
  | [] => pure ()
  | lcore :: lcores => do
    if l.rteLcoreIsEnabled lcore = false then
      initRxQueues lcores
    else
      let conf ← lcoreEntry lcore
      let s ← getSetup
      setupRxQueues (socketForLcore l lcore) (s.lcoreConf conf).polled
      initRxQueues lcores

def startPorts : List U8 → Init Unit
  | [] => pure ()
  | port :: ports => do
    if portEnabled l port then
      call (.promiscuousEnable port)
      call (.devStart port)
      startPorts ports
    else
      startPorts ports

/-- Whether all ports are up, as far as the loop over them looks. -/
def allPortsUp (count : Nat) : List U8 → Init Bool
  | [] => pure true
  | port :: ports => do
    if portEnabled l port then
      call (.linkGet port)
      if l.linkStatus count port then allPortsUp count ports else return false
    else
      allPortsUp count ports

def checkPortLinkStatus : List Nat → Init Unit
  | [] => pure ()
  | count :: counts => do
    let up ← allPortsUp l count (portIds l)
    if up then
      return ()
    else
      call .delay
      checkPortLinkStatus counts

def initNics : Init Unit := do
  checkLcoreParams l l.lcoreParams
  initLcores l.lcoreParams
  if l.nPorts = 0 then
    die
  else
    configurePorts l (portIds l)
    initRxQueues l (List.range 1)
    startPorts l (portIds l)
    checkPortLinkStatus l (List.range 91)

/-! ## What each step does when it gets through -/

section steps
variable {l} {s s' : Setup} {es : List Call}

section peel
variable {α : Type} {a : α}

theorem passes_call {c : Call} {f : Unit → Init α} :
    Passes (call c >>= f) s es a s' ↔ ∃ rest, es = c :: rest ∧ Passes (f ()) s rest a s' := by
  rw [passes_bind]
  constructor
  · rintro ⟨_, _, _, rest, first, run, rfl⟩
    rw [call, passes_lift, returns_emit] at first
    obtain ⟨rfl, rfl⟩ := first
    exact ⟨rest, rfl, run⟩
  · rintro ⟨rest, rfl, run⟩
    exact ⟨[c], (), s, rest, passes_lift.mpr (emit_returns c s), run, rfl⟩

theorem access_passes {n i : Nat} (c : Call) (inside : i < n) :
    Passes (access c i) s [c] (⟨i, inside⟩ : Fin n) s := by
  rw [access, passes_call, dif_pos inside]
  exact ⟨[], rfl, passes_pure.mpr ⟨rfl, rfl, rfl⟩⟩

theorem access_exits {n i : Nat} (c : Call) (outside : ¬ i < n) :
    (access c i : Init (Fin n)).run.Returns s [c] none s := by
  have called : Passes (call c) s [c] () s := passes_lift.mpr (emit_returns c s)
  rw [access, dif_neg outside, ← List.append_nil [c], OptionT.run_bind, Option.elimM]
  exact called.bind (pure_returns none s)

theorem passes_access {n i : Nat} {c : Call} {f : Fin n → Init α} :
    Passes (access c i >>= f) s es a s' ↔
      ∃ (inside : i < n) (rest : _), es = c :: rest ∧ Passes (f ⟨i, inside⟩) s rest a s' := by
  by_cases inside : i < n
  · have first : Passes (access c i) s [c] (⟨i, inside⟩ : Fin n) s := access_passes c inside
    constructor
    · intro run
      obtain ⟨rest, split, run'⟩ := first.rest run
      exact ⟨inside, rest, split, run'⟩
    · rintro ⟨_, rest, rfl, run⟩
      exact passes_bind.mpr ⟨[c], _, s, rest, first, run, rfl⟩
  · constructor
    · intro run
      cases (Returns.unique run (exits_bind (access_exits c inside))).2.1
    · rintro ⟨within, _⟩
      exact absurd within inside

theorem passes_getSetup {f : Setup → Init α} :
    Passes (getSetup >>= f) s es a s' ↔ Passes (f s) s es a s' := by
  rw [passes_bind]
  constructor
  · rintro ⟨_, _, _, rest, first, run, rfl⟩
    rw [getSetup, passes_lift, returns_get] at first
    obtain ⟨rfl, rfl, rfl⟩ := first
    exact run
  · intro run
    exact ⟨[], s, s, es, passes_lift.mpr (get_returns s), run, rfl⟩

theorem passes_setSetup {g : Setup → Setup} {f : Unit → Init α} :
    Passes (setSetup g >>= f) s es a s' ↔ Passes (f ()) (g s) es a s' := by
  rw [passes_bind]
  constructor
  · rintro ⟨_, _, _, rest, first, run, rfl⟩
    rw [setSetup, passes_lift, returns_modify] at first
    obtain ⟨rfl, rfl⟩ := first
    exact run
  · intro run
    exact ⟨[], (), g s, es, passes_lift.mpr (modify_returns g s), run, rfl⟩

end peel

theorem checkLcoreParams_passes {ps : List LcoreParams} {u : Unit}
    (run : Passes (checkLcoreParams l ps) s es u s') :
    es = [] ∧ s' = s ∧ ∀ p ∈ ps, l.rteLcoreIsEnabled p.lcoreId.toNat = true := by
  induction ps with
  | nil =>
    obtain ⟨rfl, _, rfl⟩ := passes_pure.mp run
    exact ⟨rfl, rfl, List.forall_mem_nil _⟩
  | cons p ps ih =>
    rw [checkLcoreParams] at run
    split at run
    · exact (passes_failure run).elim
    split at run
    · exact (passes_failure run).elim
    · rename_i enabled
      obtain ⟨rfl, rfl, others⟩ := ih run
      exact ⟨rfl, rfl, List.forall_mem_cons.mpr ⟨by simpa using enabled, others⟩⟩

/-- The queues that a mapping gives to an lcore. -/
def mappedTo (lcore : Nat) (ps : List LcoreParams) : List LcoreRxQueue :=
  (ps.filter fun p => p.lcoreId.toNat = lcore).map fun p => ⟨p.portId, p.queueId⟩

/-- A call that sets up no queue. -/
def Call.NoQueue : Call → Prop
  | .txQueueSetup .. => False
  | .rxQueueSetup .. => False
  | _ => True

theorem addQueue_polled {c : LcoreConf} (room : c.nRxQueue < maxRxQueuePerLcore)
    (q : LcoreRxQueue) : (c.addQueue q).polled = c.polled ++ [q] := by
  have inside : c.nRxQueue < c.rxQueues.toList.length := by
    rw [Vector.length_toList]
    exact room
  rw [LcoreConf.polled, LcoreConf.addQueue, Vector.toList_setIfInBounds, take_set_succ inside]
  rfl

/-- Only the queues of the lcores change. -/
structure Mapped (ps : List LcoreParams) (s : Setup) (es : List Call) (s' : Setup) : Prop where
  polled : ∀ lcore : Fin myRteMaxLcore,
    (s'.lcoreConf lcore).polled = (s.lcoreConf lcore).polled ++ mappedTo lcore ps
  txQueueIds : ∀ lcore, (s'.lcoreConf lcore).txQueueIds = (s.lcoreConf lcore).txQueueIds
  pools : s'.pktmbufPool = s.pktmbufPool
  configured : s'.configured = s.configured
  calls : ∀ c ∈ es, c.NoQueue

theorem mapped_nil : Mapped [] s [] s where
  polled _ := (List.append_nil _).symm
  txQueueIds _ := rfl
  pools := rfl
  configured := rfl
  calls := List.forall_mem_nil _

/-- An entry goes behind the queues that its lcore has. -/
theorem Mapped.cons {p : LcoreParams} {ps : List LcoreParams} {entry : Fin myRteMaxLcore}
    (named : p.lcoreId.toNat = entry)
    (room : (s.lcoreConf entry).nRxQueue < maxRxQueuePerLcore) (slot : Nat)
    (rest : Mapped ps (s.setConf entry
      ((s.lcoreConf entry).addQueue ⟨p.portId, p.queueId⟩)) es s') :
    Mapped (p :: ps) s (.lcoreConf entry :: .rxQueues entry slot :: es) s' := by
  have entered := addQueue_polled room ⟨p.portId, p.queueId⟩
  constructor
  case polled =>
    intro lcore
    rw [rest.polled]
    by_cases mine : lcore = entry
    · subst mine
      simp only [Setup.setConf_self, entered, mappedTo, List.filter_cons, named, decide_true,
        if_true, List.map_cons, List.append_assoc, List.singleton_append]
    · have other : entry.val ≠ lcore.val := fun same => mine (Fin.ext same.symm)
      rw [Setup.setConf_of_ne s _ mine]
      simp [mappedTo, named, other]
  case txQueueIds =>
    intro lcore
    rw [rest.txQueueIds]
    by_cases mine : lcore = entry
    · subst mine
      rw [Setup.setConf_self]
      rfl
    · rw [Setup.setConf_of_ne s _ mine]
  case pools => exact rest.pools
  case configured => exact rest.configured
  case calls =>
    exact List.forall_mem_cons.mpr ⟨trivial, List.forall_mem_cons.mpr ⟨trivial, rest.calls⟩⟩

/-- An entry is the end for an lcore that has no configuration and for one that is full,
and is entered for any other. -/
theorem initLcores_cases {p : LcoreParams} {ps : List LcoreParams} {r : Option Unit}
    (run : (initLcores (p :: ps)).run.Returns s es r s') :
    (myRteMaxLcore ≤ p.lcoreId.toNat ∧ es = [.lcoreConf p.lcoreId.toNat] ∧ r = none) ∨
    ∃ entry : Fin myRteMaxLcore, p.lcoreId.toNat = entry ∧
      let conf := s.lcoreConf entry
      (maxRxQueuePerLcore ≤ conf.nRxQueue ∧ es = [.lcoreConf entry] ∧ r = none ∨
        conf.nRxQueue < maxRxQueuePerLcore ∧ ∃ rest,
          es = .lcoreConf entry :: .rxQueues entry conf.nRxQueue :: rest ∧
          (initLcores ps).run.Returns (s.setConf entry (conf.addQueue ⟨p.portId, p.queueId⟩))
            rest r s') := by
  have called (c : Call) : Passes (call c) s [c] () s := passes_lift.mpr (emit_returns c s)
  have looked : Passes getSetup s [] s s := passes_lift.mpr (get_returns s)
  have stored (f : Setup → Setup) : Passes (setSetup f) s [] () (f s) :=
    passes_lift.mpr (modify_returns f s)
  by_cases inside : p.lcoreId.toNat < myRteMaxLcore
  · obtain ⟨more, rfl, run₁⟩ := (access_passes _ inside).rest run
    obtain ⟨more, rfl, run₂⟩ := looked.rest run₁
    refine .inr ⟨⟨p.lcoreId.toNat, inside⟩, rfl, ?_⟩
    split at run₂
    · rename_i full
      obtain ⟨rfl, stopped, _⟩ := returns_pure.mp run₂
      exact .inl ⟨full, rfl, stopped⟩
    · rename_i room
      obtain ⟨more, rfl, run₃⟩ := (called _).rest run₂
      obtain ⟨more, rfl, run₄⟩ := (stored _).rest run₃
      exact .inr ⟨Nat.lt_of_not_le room, more, rfl, run₄⟩
  · obtain ⟨rfl, stopped, _⟩ := run.unique (exits_bind (access_exits _ inside))
    exact .inl ⟨Nat.le_of_not_lt inside, rfl, stopped⟩

theorem initLcores_passes {ps : List LcoreParams} {u : Unit}
    (run : Passes (initLcores ps) s es u s') :
    Mapped ps s es s' ∧ ∀ p ∈ ps, p.lcoreId.toNat < myRteMaxLcore := by
  induction ps generalizing s es with
  | nil =>
    obtain ⟨rfl, _, rfl⟩ := passes_pure.mp run
    exact ⟨mapped_nil, List.forall_mem_nil _⟩
  | cons p ps ih =>
    rcases initLcores_cases run with
      ⟨_, _, stopped⟩ | ⟨entry, named, ⟨_, _, stopped⟩ | ⟨room, rest, rfl, run₁⟩⟩
    · cases stopped
    · cases stopped
    · obtain ⟨mapped, others⟩ := ih run₁
      exact ⟨mapped.cons named room _, List.forall_mem_cons.mpr ⟨named ▸ entry.isLt, others⟩⟩

/-- Pools are created where there is none, and never lost. -/
structure Pooled (s : Setup) (es : List Call) (s' : Setup) : Prop where
  made : ∀ socket pool, s'.pktmbufPool socket = some pool →
    s.pktmbufPool socket = some pool ∨ .mempoolCreate pool ∈ es
  kept : ∀ socket, s.pktmbufPool socket ≠ none → s'.pktmbufPool socket ≠ none

theorem Pooled.of_eq (h : s'.pktmbufPool = s.pktmbufPool) : Pooled s es s' where
  made _ _ here := .inl (h ▸ here)
  kept _ there := h ▸ there

theorem Pooled.append {s₁ : Setup} {fs : List Call} (h : Pooled s es s₁) (h' : Pooled s₁ fs s') :
    Pooled s (es ++ fs) s' where
  made socket pool here := by
    rcases h'.made socket pool here with before | made
    · rcases h.made socket pool before with earlier | made
      · exact .inl earlier
      · exact .inr (List.mem_append_left _ made)
    · exact .inr (List.mem_append_right _ made)
  kept socket there := h'.kept socket (h.kept socket there)

/-- Creating the pool of a socket that has none. -/
theorem Pooled.create {entry : Fin numSockets} (missing : s.pktmbufPool entry = none)
    (pool : Mempool) : Pooled s [.mempoolCreate pool] (s.setPool entry pool) := by
  constructor
  · intro socket made here
    dsimp only [Setup.setPool] at here
    by_cases mine : socket = entry
    · rw [mine, Function.update_self] at here
      cases here
      exact .inr (List.mem_singleton_self _)
    · rw [Function.update_of_ne mine] at here
      exact .inl here
  · intro socket there
    have other : socket ≠ entry := by
      rintro rfl
      exact there missing
    dsimp only [Setup.setPool]
    rwa [Function.update_of_ne other]

/-- The socket has an entry in the table of the pools, and a pool in it. -/
def Setup.HasPool (s : Setup) (socket : U8) : Prop :=
  ∃ entry : Fin numSockets, socket.toNat = entry ∧ s.pktmbufPool entry ≠ none

theorem Pooled.hasPool (h : Pooled s es s') {socket : U8} (there : s.HasPool socket) :
    s'.HasPool socket := by
  obtain ⟨entry, named, some⟩ := there
  exact ⟨entry, named, h.kept entry some⟩

theorem initPacketBuffers_passes {num : U32} {lcores : List Nat} {u : Unit}
    (run : Passes (initPacketBuffers l num lcores) s es u s') :
    Pooled s es s' ∧ s'.lcoreConf = s.lcoreConf ∧ s'.configured = s.configured ∧
      (∀ c ∈ es, c.NoQueue) ∧
      ∀ lcore ∈ lcores, l.rteLcoreIsEnabled lcore = true → s'.HasPool (socketForLcore l lcore) := by
  induction lcores generalizing s es with
  | nil =>
    obtain ⟨rfl, _, rfl⟩ := passes_pure.mp run
    exact ⟨.of_eq rfl, rfl, rfl, List.forall_mem_nil _, List.forall_mem_nil _⟩
  | cons lcore lcores ih =>
    rw [initPacketBuffers] at run
    split at run
    · rename_i disabled
      obtain ⟨pooled, conf, configured, calls, filled⟩ := ih run
      refine ⟨pooled, conf, configured, calls, List.forall_mem_cons.mpr ⟨?_, filled⟩⟩
      intro enabled
      rw [disabled] at enabled
      cases enabled
    obtain ⟨inside, looked, rfl, run₁⟩ := passes_access.mp run
    let entry : Fin numSockets := ⟨(socketForLcore l lcore).toNat, inside⟩
    have access : Pooled s [.pktmbufPool (socketForLcore l lcore)] s := .of_eq rfl
    rw [passes_getSetup] at run₁
    split at run₁
    · rename_i missing
      obtain ⟨rest, rfl, run₂⟩ := passes_call.mp run₁
      rw [passes_setSetup] at run₂
      obtain ⟨pooled, conf, configured, calls, filled⟩ := ih run₂
      have first := access.append (.create missing ⟨socketForLcore l lcore, num⟩)
      refine ⟨first.append pooled, conf, configured,
        List.forall_mem_cons.mpr ⟨trivial, List.forall_mem_cons.mpr ⟨trivial, calls⟩⟩,
        List.forall_mem_cons.mpr ⟨fun _ => pooled.hasPool ⟨entry, rfl, ?_⟩, filled⟩⟩
      simp [Setup.setPool, entry]
    · rename_i there
      obtain ⟨pooled, conf, configured, calls, filled⟩ := ih run₁
      exact ⟨access.append pooled, conf, configured, List.forall_mem_cons.mpr ⟨trivial, calls⟩,
        List.forall_mem_cons.mpr ⟨fun _ => pooled.hasPool ⟨entry, rfl, there⟩, filled⟩⟩

theorem setTxQueueId_polled (s : Setup) (lcore : Fin myRteMaxLcore) (port : U8) (queue : U16)
    (other : Fin myRteMaxLcore) :
    ((s.setTxQueueId lcore port queue).lcoreConf other).polled = (s.lcoreConf other).polled := by
  by_cases mine : other = lcore
  · rw [mine, Setup.setTxQueueId, Setup.setConf_self]
    rfl
  · rw [Setup.setTxQueueId, Setup.setConf_of_ne s _ mine]

theorem setTxQueueId_zero (s : Setup) (lcore : Fin myRteMaxLcore) (port : U8)
    {other : Fin myRteMaxLcore} {p : U8} (zero : (s.lcoreConf other).txQueueIds p = 0) :
    ((s.setTxQueueId lcore port 0).lcoreConf other).txQueueIds p = 0 := by
  by_cases mine : other = lcore
  · subst mine
    rw [Setup.setTxQueueId, Setup.setConf_self]
    by_cases here : p = port
    · rw [here]
      exact Function.update_self ..
    · exact (Function.update_of_ne here ..).trans zero
  · rw [Setup.setTxQueueId, Setup.setConf_of_ne s _ mine]
    exact zero

/-- The one transmit queue of a port is that of lcore 1. -/
structure TxUp (l : Launch) (port : U8) (s : Setup) (es : List Call) (s' : Setup) : Prop where
  polled : ∀ lcore, (s'.lcoreConf lcore).polled = (s.lcoreConf lcore).polled
  zero : ∀ lcore p, (s.lcoreConf lcore).txQueueIds p = 0 → (s'.lcoreConf lcore).txQueueIds p = 0
  pools : s'.pktmbufPool = s.pktmbufPool
  configured : s'.configured = s.configured
  setUp : l.rteLcoreIsEnabled 1 = true → .txQueueSetup port 0 (socketForLcore l 1) ∈ es
  only : ∀ c ∈ es, c.NoQueue ∨
    c = .txQueueSetup port 0 (socketForLcore l 1) ∧ l.rteLcoreIsEnabled 1 = true

theorem initTxQueueForPort_passes {port : U8} {u : Unit}
    (run : Passes (initTxQueueForPort l port (List.range' 1 (myRteMaxLcore - 1)) 0) s es u s') :
    TxUp l port s es s' := by
  change Passes (initTxQueueForPort l port [1] 0) s es u s' at run
  rw [initTxQueueForPort] at run
  cases enabled : l.rteLcoreIsEnabled 1 with
  | false =>
    rw [if_pos enabled] at run
    obtain ⟨rfl, _, rfl⟩ := passes_pure.mp run
    constructor
    case polled => exact fun _ => rfl
    case zero => exact fun _ _ h => h
    case pools => rfl
    case configured => rfl
    case setUp =>
      intro h
      rw [enabled] at h
      cases h
    case only =>
      intro c hc
      cases hc
  | true =>
    rw [if_neg (by rw [enabled]; decide)] at run
    obtain ⟨_, ok, s₁, _, setup, run₁, rfl⟩ := passes_bind.mp run
    obtain ⟨_, rfl, run₂⟩ := passes_call.mp setup
    rw [passes_getSetup] at run₂
    obtain ⟨rfl, rfl, rfl⟩ := passes_pure.mp run₂
    split at run₁
    · obtain ⟨inside, _, rfl, run₃⟩ := passes_access.mp run₁
      rw [passes_setSetup] at run₃
      obtain ⟨rfl, _, rfl⟩ := passes_pure.mp run₃
      constructor
      case polled => exact setTxQueueId_polled _ ⟨1, inside⟩ port 0
      case zero => exact fun _ _ => setTxQueueId_zero _ ⟨1, inside⟩ port
      case pools => rfl
      case configured => rfl
      case setUp => exact fun _ => List.mem_cons_self
      case only =>
        intro c hc
        rcases List.mem_cons.mp hc with rfl | hc
        · exact .inr ⟨rfl, enabled⟩
        · exact .inl (List.mem_singleton.mp hc ▸ trivial)
    · exact (passes_failure run₁).elim

/-- What configuring some ports does, once it gets through. -/
structure PortsUp (l : Launch) (ports : List U8) (s : Setup) (es : List Call) (s' : Setup) :
    Prop where
  polled : ∀ lcore, (s'.lcoreConf lcore).polled = (s.lcoreConf lcore).polled
  zero : ∀ lcore port, (s.lcoreConf lcore).txQueueIds port = 0 →
    (s'.lcoreConf lcore).txQueueIds port = 0
  configured : ∀ port, s'.configured port ≠ none → s.configured port ≠ none ∨ port ∈ ports
  devConfigure : ∀ port ∈ ports, .devConfigure port 1 1 ∈ es
  pooled : Pooled s es s'
  filled : ports ≠ [] → ∀ lcore < myRteMaxLcore, l.rteLcoreIsEnabled lcore = true →
    s'.HasPool (socketForLcore l lcore)
  txQueues : l.rteLcoreIsEnabled 1 = true → ∀ port ∈ ports,
    .txQueueSetup port 0 (socketForLcore l 1) ∈ es
  txOnly : ∀ port queue socket, .txQueueSetup port queue socket ∈ es → l.rteLcoreIsEnabled 1 = true
  noRx : ∀ port queue socket pool, .rxQueueSetup port queue socket pool ∉ es

theorem PortsUp.nil : PortsUp l [] s [] s where
  polled _ := rfl
  zero _ _ h := h
  configured _ h := .inl h
  devConfigure _ h := by cases h
  pooled := .of_eq rfl
  filled h := absurd rfl h
  txQueues _ _ h := by cases h
  txOnly _ _ _ h := by cases h
  noRx _ _ _ _ h := by cases h

theorem PortsUp.append {ps qs : List U8} {s₁ : Setup} {fs : List Call} (h : PortsUp l ps s es s₁)
    (h' : PortsUp l qs s₁ fs s') : PortsUp l (ps ++ qs) s (es ++ fs) s' := by
  constructor
  case polled => exact fun lcore => (h'.polled lcore).trans (h.polled lcore)
  case zero => exact fun lcore port start => h'.zero lcore port (h.zero lcore port start)
  case configured =>
    intro port there
    rcases h'.configured port there with before | mine
    · rcases h.configured port before with earlier | mine
      · exact .inl earlier
      · exact .inr (List.mem_append_left _ mine)
    · exact .inr (List.mem_append_right _ mine)
  case devConfigure =>
    intro port hp
    rcases List.mem_append.mp hp with hp | hp
    · exact List.mem_append_left _ (h.devConfigure port hp)
    · exact List.mem_append_right _ (h'.devConfigure port hp)
  case pooled => exact h.pooled.append h'.pooled
  case filled =>
    intro some lcore below enabled
    by_cases first : ps = []
    · rw [first, List.nil_append] at some
      exact h'.filled some lcore below enabled
    · exact h'.pooled.hasPool (h.filled first lcore below enabled)
  case txQueues =>
    intro enabled port hp
    rcases List.mem_append.mp hp with hp | hp
    · exact List.mem_append_left _ (h.txQueues enabled port hp)
    · exact List.mem_append_right _ (h'.txQueues enabled port hp)
  case txOnly =>
    intro port queue socket hc
    rcases List.mem_append.mp hc with hc | hc
    · exact h.txOnly port queue socket hc
    · exact h'.txOnly port queue socket hc
  case noRx =>
    intro port queue socket pool hc
    rcases List.mem_append.mp hc with hc | hc
    · exact h.noRx port queue socket pool hc
    · exact h'.noRx port queue socket pool hc

theorem configurePort_passes {port : U8} {u : Unit}
    (run : Passes (configurePort l port) s es u s') : PortsUp l [port] s es s' := by
  obtain ⟨es₁, rfl, run₁⟩ := passes_call.mp run
  rw [passes_setSetup] at run₁
  obtain ⟨es₂, _, s₂, es₃, buffers, queues, rfl⟩ := passes_bind.mp run₁
  obtain ⟨pooled, conf, configured, calls, filled⟩ := initPacketBuffers_passes buffers
  have tx := initTxQueueForPort_passes queues
  let s₁ : Setup := { s with configured := Function.update s.configured port (some (1, 1)) }
  constructor
  case polled =>
    intro lcore
    rw [tx.polled, conf]
  case zero =>
    intro lcore p start
    exact tx.zero lcore p (by rwa [conf])
  case configured =>
    intro p there
    rw [tx.configured, configured] at there
    by_cases mine : p = port
    · exact .inr (List.mem_singleton.mpr mine)
    · have before : s₁.configured p = s.configured p := Function.update_of_ne mine ..
      exact .inl (before ▸ there)
  case devConfigure =>
    intro p hp
    rw [List.mem_singleton.mp hp]
    exact List.mem_cons_self
  case pooled =>
    have first : Pooled s [.devConfigure port 1 1] s₁ := .of_eq rfl
    exact first.append (pooled.append (.of_eq tx.pools))
  case filled =>
    intro _ lcore below enabled
    have pools : Pooled s₂ es₃ s' := .of_eq tx.pools
    exact pools.hasPool (filled lcore (List.mem_range.mpr below) enabled)
  case txQueues =>
    intro enabled p hp
    rw [List.mem_singleton.mp hp]
    exact List.mem_cons_of_mem _ (List.mem_append_right _ (tx.setUp enabled))
  case txOnly =>
    intro p queue socket hc
    rcases List.mem_append.mp ((List.mem_cons.mp hc).resolve_left (by simp)) with hc | hc
    · exact (calls _ hc).elim
    · rcases tx.only _ hc with quiet | ⟨_, second⟩
      · exact quiet.elim
      · exact second
  case noRx =>
    intro p queue socket pool hc
    rcases List.mem_append.mp ((List.mem_cons.mp hc).resolve_left (by simp)) with hc | hc
    · exact (calls _ hc).elim
    · rcases tx.only _ hc with quiet | ⟨same, _⟩
      · exact quiet.elim
      · cases same

theorem configurePorts_passes {ports : List U8} {u : Unit}
    (run : Passes (configurePorts l ports) s es u s') :
    PortsUp l (ports.filter (portEnabled l)) s es s' := by
  induction ports generalizing s es with
  | nil =>
    obtain ⟨rfl, _, rfl⟩ := passes_pure.mp run
    exact .nil
  | cons port ports ih =>
    rw [configurePorts] at run
    split at run
    · rename_i enabled
      obtain ⟨es₁, _, s₁, es₂, first, rest, rfl⟩ := passes_bind.mp run
      rw [List.filter_cons_of_pos enabled]
      exact (configurePort_passes first).append (ih rest)
    · rename_i disabled
      rw [List.filter_cons_of_neg disabled]
      exact ih run

/-- What setting up receive queues with the pools that there are does. -/
structure RxUp (socket : U8) (qs : List LcoreRxQueue) (s : Setup) (es : List Call) : Prop where
  setUp : ∀ q ∈ qs, ∃ entry : Fin numSockets, socket.toNat = entry ∧
    .rxQueueSetup q.portId q.queueId socket (s.pktmbufPool entry) ∈ es
  only : ∀ c ∈ es, c.NoQueue ∨
    ∃ q ∈ qs, ∃ pool, c = .rxQueueSetup q.portId q.queueId socket pool
  configured : ∀ q ∈ qs, s.configured q.portId ≠ none

theorem setupRxQueues_passes {socket : U8} {qs : List LcoreRxQueue} {u : Unit}
    (run : Passes (setupRxQueues socket qs) s es u s') : RxUp socket qs s es ∧ s' = s := by
  induction qs generalizing es with
  | nil =>
    obtain ⟨rfl, _, rfl⟩ := passes_pure.mp run
    exact ⟨⟨List.forall_mem_nil _, List.forall_mem_nil _, List.forall_mem_nil _⟩, rfl⟩
  | cons q qs ih =>
    rw [setupRxQueues] at run
    obtain ⟨inside, _, rfl, run₁⟩ := passes_access.mp run
    rw [passes_getSetup] at run₁
    obtain ⟨_, ok, s₁, rest, setup, run₂, rfl⟩ := passes_bind.mp run₁
    obtain ⟨_, rfl, run₃⟩ := passes_call.mp setup
    rw [passes_getSetup] at run₃
    obtain ⟨rfl, rfl, rfl⟩ := passes_pure.mp run₃
    split at run₂
    · rename_i ok
      obtain ⟨up, rfl⟩ := ih run₂
      refine ⟨⟨?_, ?_, List.forall_mem_cons.mpr ⟨?_, up.configured⟩⟩, rfl⟩
      · refine List.forall_mem_cons.mpr ⟨⟨_, rfl, List.mem_cons_of_mem _ List.mem_cons_self⟩, ?_⟩
        intro q' hq'
        obtain ⟨entry, named, made⟩ := up.setUp q' hq'
        exact ⟨entry, named, List.mem_cons_of_mem _ (List.mem_cons_of_mem _ made)⟩
      · refine List.forall_mem_cons.mpr ⟨.inl trivial, List.forall_mem_cons.mpr ⟨?_, ?_⟩⟩
        · exact .inr ⟨q, List.mem_cons_self, _, rfl⟩
        · intro c hc
          rcases up.only c hc with quiet | ⟨q', hq', called⟩
          · exact .inl quiet
          · exact .inr ⟨q', List.mem_cons_of_mem _ hq', called⟩
      · intro missing
        rw [missing] at ok
        cases ok
    · exact (passes_failure run₂).elim

/-- Only lcore 0 is in the range. -/
theorem initRxQueues_passes {u : Unit} (run : Passes (initRxQueues l (List.range 1)) s es u s') :
    s' = s ∧ (∀ c ∈ es, c.NoQueue ∨ ∃ q ∈ (s.lcoreConf 0).polled, ∃ pool,
        c = .rxQueueSetup q.portId q.queueId (socketForLcore l 0) pool) ∧
      (l.rteLcoreIsEnabled 0 = true → RxUp (socketForLcore l 0) (s.lcoreConf 0).polled s es) := by
  change Passes (initRxQueues l [0]) s es u s' at run
  rw [initRxQueues] at run
  split at run
  · rename_i disabled
    obtain ⟨rfl, _, rfl⟩ := passes_pure.mp run
    refine ⟨rfl, List.forall_mem_nil _, ?_⟩
    intro enabled
    rw [disabled] at enabled
    cases enabled
  · obtain ⟨_, _, rfl, run₁⟩ := passes_access.mp run
    rw [passes_getSetup] at run₁
    obtain ⟨es₁, _, s₁, _, queues, last, rfl⟩ := passes_bind.mp run₁
    obtain ⟨up, unchanged⟩ := setupRxQueues_passes queues
    obtain ⟨rfl, _, rfl⟩ := passes_pure.mp last
    rw [List.append_nil]
    have only : ∀ c ∈ Call.lcoreConf 0 :: es₁, c.NoQueue ∨ ∃ q ∈ (s.lcoreConf 0).polled, ∃ pool,
        c = .rxQueueSetup q.portId q.queueId (socketForLcore l 0) pool :=
      List.forall_mem_cons.mpr ⟨.inl trivial, up.only⟩
    refine ⟨unchanged, only, fun _ => ⟨?_, only, up.configured⟩⟩
    intro q hq
    obtain ⟨entry, named, made⟩ := up.setUp q hq
    exact ⟨entry, named, List.mem_cons_of_mem _ made⟩

theorem startPorts_passes {ports : List U8} {u : Unit}
    (run : Passes (startPorts l ports) s es u s') :
    s' = s ∧ (∀ port ∈ ports.filter (portEnabled l), .devStart port ∈ es) ∧
      ∀ c ∈ es, c.NoQueue := by
  induction ports generalizing es with
  | nil =>
    obtain ⟨rfl, _, rfl⟩ := passes_pure.mp run
    exact ⟨rfl, List.forall_mem_nil _, List.forall_mem_nil _⟩
  | cons port ports ih =>
    rw [startPorts] at run
    split at run
    · rename_i enabled
      obtain ⟨_, rfl, run₁⟩ := passes_call.mp run
      obtain ⟨rest, rfl, run₂⟩ := passes_call.mp run₁
      obtain ⟨rfl, started, quiet⟩ := ih run₂
      rw [List.filter_cons_of_pos enabled]
      refine ⟨rfl, List.forall_mem_cons.mpr ⟨?_, ?_⟩, ?_⟩
      · exact List.mem_cons_of_mem _ List.mem_cons_self
      · exact fun p hp => List.mem_cons_of_mem _ (List.mem_cons_of_mem _ (started p hp))
      · exact List.forall_mem_cons.mpr ⟨trivial, List.forall_mem_cons.mpr ⟨trivial, quiet⟩⟩
    · rename_i disabled
      rw [List.filter_cons_of_neg disabled]
      exact ih run

theorem allPortsUp_passes {count : Nat} {ports : List U8} {up : Bool}
    (run : Passes (allPortsUp l count ports) s es up s') : s' = s ∧ ∀ c ∈ es, c.NoQueue := by
  induction ports generalizing es with
  | nil =>
    obtain ⟨rfl, _, rfl⟩ := passes_pure.mp run
    exact ⟨rfl, List.forall_mem_nil _⟩
  | cons port ports ih =>
    rw [allPortsUp] at run
    split at run
    · obtain ⟨rest, rfl, run₁⟩ := passes_call.mp run
      split at run₁
      · obtain ⟨rfl, quiet⟩ := ih run₁
        exact ⟨rfl, List.forall_mem_cons.mpr ⟨trivial, quiet⟩⟩
      · obtain ⟨rfl, _, rfl⟩ := passes_pure.mp run₁
        exact ⟨rfl, List.forall_mem_singleton.mpr trivial⟩
    · exact ih run

theorem checkPortLinkStatus_passes {counts : List Nat} {u : Unit}
    (run : Passes (checkPortLinkStatus l counts) s es u s') : s' = s ∧ ∀ c ∈ es, c.NoQueue := by
  induction counts generalizing s es with
  | nil =>
    obtain ⟨rfl, _, rfl⟩ := passes_pure.mp run
    exact ⟨rfl, List.forall_mem_nil _⟩
  | cons count counts ih =>
    obtain ⟨es₁, up, s₁, es₂, looked, run₁, rfl⟩ := passes_bind.mp run
    obtain ⟨rfl, quiet⟩ := allPortsUp_passes looked
    split at run₁
    · obtain ⟨rfl, _, rfl⟩ := passes_pure.mp run₁
      rw [List.append_nil]
      exact ⟨rfl, quiet⟩
    · obtain ⟨rest, rfl, run₂⟩ := passes_call.mp run₁
      obtain ⟨rfl, quiet'⟩ := ih run₂
      exact ⟨rfl, List.forall_mem_append.mpr ⟨quiet, List.forall_mem_cons.mpr ⟨trivial, quiet'⟩⟩⟩

end steps

/-- One port with its queue on lcore 0. -/
def onePort (enabled : Nat → Bool) (count : U32) : Launch where
  numaOn := false
  enabledPortsMask := 1
  lcoreParams := [⟨0, 0, 0⟩]
  rteLcoreIsEnabled := enabled
  rteLcoreToSocketId _ := 0
  rteLcoreCount := count
  nPorts := 1
  nPorts_le := by decide
  linkStatus _ _ := true

end Udp
