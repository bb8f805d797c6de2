import Buster.Lib.Zoom
import Buster.Udp.Args
import Buster.Udp.HandOver
import Buster.Udp.Schedule
import Buster.Udp.SetUp

/-!
# The server as a whole

`main` has the EAL take its options off the command line, reads its own, brings
the devices up and serves the queues of the lcore it runs on. Each stage works
on its part of the variables. The devices answer every burst, whether the queue
was set up or not, so what is said of serving is for hosts where it was.
-/

namespace Udp

open Imp Imp.Prog CString

/-- What the server runs on, and what it is called with. -/
structure Host where
  /-- What `rte_eal_init` leaves of the command line, unless it fails. -/
  rteEalInit : Option (Getopt.Word × List CString)
  posixlyCorrect : Bool
  rteLcoreId : Nat
  rteLcoreIsEnabled : Nat → Bool
  rteLcoreToSocketId : Nat → U32
  rteLcoreCount : U32
  nPorts : Nat
  nPorts_le : nPorts ≤ rteMaxEthports
  linkStatus : Nat → U8 → Bool
  nic : Nic

def Host.launch (h : Host) (o : Options) : Launch where
  numaOn := o.numaOn
  enabledPortsMask := o.enabledPortsMask
  lcoreParams := o.mapping
  rteLcoreIsEnabled := h.rteLcoreIsEnabled
  rteLcoreToSocketId := h.rteLcoreToSocketId
  rteLcoreCount := h.rteLcoreCount
  nPorts := h.nPorts
  nPorts_le := h.nPorts_le
  linkStatus := h.linkStatus

/-- The variables of the process and the packet buffers. -/
structure Process where
  options : Options
  setup : Setup
  mbufs : Ptr → Mbuf
  next : Ptr
  rxCalls : Nat
  txCalls : Nat

def Process.initial (mbufs : Ptr → Mbuf) : Process where
  options := .initial
  setup := .initial
  mbufs := mbufs
  next := null + 1
  rxCalls := 0
  txCalls := 0

def optionsPart : Part Process Options := ⟨Process.options, fun o p => { p with options := o }⟩

def setupPart : Part Process Setup := ⟨Process.setup, fun s p => { p with setup := s }⟩

/-- A worker has the configuration of its lcore. -/
def workerPart (lcore : Fin myRteMaxLcore) : Part Process Worker where
  view p := ⟨p.setup.lcoreConf lcore, p.mbufs, p.next, p.rxCalls, p.txCalls⟩
  put w p := { p with
    setup := p.setup.setConf lcore w.conf
    mbufs := w.mbufs
    next := w.next
    rxCalls := w.rxCalls
    txCalls := w.txCalls }

inductive Action where
  | store (s : Store)
  | call (c : Call)
  | event (e : Event)

/-- `EXIT_SUCCESS` and `EXIT_FAILURE`. A run that leaves its tables has failed. -/
inductive Status where
  | success
  | failure
  deriving DecidableEq

/-- From `main_loop` on. -/
def serve (h : Host) : Prog Action Process Status := do
  if inside : h.rteLcoreId < myRteMaxLcore then
    match ← zoom (workerPart ⟨h.rteLcoreId, inside⟩) Action.event (mainLoop h.nic) with
    | .returned => return .success
    | .exited => return .failure
  else
    return .failure

/-- From `init_nics` on. -/
def bringUp (h : Host) : Prog Action Process Status := do
  let p ← get
  match ← zoom setupPart Action.call (initNics (h.launch p.options)).run with
  | none => return .failure
  | some _ => serve h

def main (h : Host) : Prog Action Process Status := do
  match h.rteEalInit with
  | none => return .failure
  | some (prgname, argv) =>
    match ← zoom optionsPart Action.store
        (parseArgs prgname h.posixlyCorrect (argv.map CString.chars)) with
    | .error _ => return .failure
    | .ok _ => bringUp h

/-! ## The stages -/

def Action.served : Action → Option Event
  | .event e => some e
  | _ => none

/-- What the main loop does. -/
def served (as : List Action) : List Event := as.filterMap Action.served

theorem served_append (as bs : List Action) : served (as ++ bs) = served as ++ served bs :=
  List.filterMap_append

theorem served_events (es : List Event) : served (es.map Action.event) = es := by
  rw [served, List.filterMap_map]
  exact List.filterMap_some

theorem served_stores (es : List Store) : served (es.map Action.store) = [] := by
  rw [served, List.filterMap_map]
  exact List.filterMap_eq_nil_iff.mpr fun _ _ => rfl

theorem served_calls (es : List Call) : served (es.map Action.call) = [] := by
  rw [served, List.filterMap_map]
  exact List.filterMap_eq_nil_iff.mpr fun _ _ => rfl

/-- The requests of the command line. -/
def Host.requests (h : Host) : List Request :=
  match h.rteEalInit with
  | none => []
  | some (_, argv) => Udp.requests h.posixlyCorrect (argv.map CString.chars)

/-- The variables once every request is met. -/
def Host.options (h : Host) : Options := h.requests.foldl Options.meet .initial

/-- The queues that the main loop has to serve. -/
def Host.queues (h : Host) : List LcoreRxQueue := mappedTo h.rteLcoreId h.options.mapping

/-- The lcores and sockets have entries in the tables, the one that `main` runs on
included, and the queues that it has to serve are set up (`Launch.Covers`). -/
structure Host.Sound (h : Host) : Prop where
  within : (h.launch h.options).WithinTables
  inside : h.rteLcoreId < myRteMaxLcore
  covers : (h.launch h.options).Covers h.rteLcoreId

/-- The command line is in order and the devices come up. -/
structure Host.Starts (h : Host) : Prop where
  eal : h.rteEalInit ≠ none
  options : ∀ r ∈ h.requests, ¬ r.Refused
  devices : (h.launch h.options).Starts

/-- A worker that is ready to serve these queues. -/
structure Worker.Ready (qs : List LcoreRxQueue) (w : Worker) : Prop where
  idle : w.Idle
  polled : w.conf.polled = qs
  unmapped : w.conf.nRxQueue = 0 ↔ qs = []
  first : w.next = null + 1
  turn : w.rxCalls = 0

section stages
variable {h : Host} {mbufs : Ptr → Mbuf} (inside : h.rteLcoreId < myRteMaxLcore)

/-- After a start the worker of any lcore is ready. -/
theorem ready_of_start {l : Launch} {es : List Call} {u : Unit} {s' : Setup} {p : Process}
    (run : Passes (initNics l) .initial es u s') (lcore : Fin myRteMaxLcore) (setup : p.setup = s')
    (first : p.next = null + 1) (turn : p.rxCalls = 0) :
    ((workerPart lcore).view p).Ready (mappedTo lcore l.lcoreParams) := by
  obtain ⟨_, _, _, _, launched⟩ := initNics_passes run
  subst setup
  constructor
  case idle => exact fun port => (initNics_waits run).1 lcore port
  case polled => exact launched.polled lcore
  case unmapped =>
    rw [← launched.polled lcore]
    change (p.setup.lcoreConf lcore).nRxQueue = 0 ↔ (p.setup.lcoreConf lcore).polled = []
    rw [LcoreConf.polled, List.take_eq_nil_iff, or_iff_left]
    intro none
    have room := congrArg List.length none
    rw [Vector.length_toList] at room
    cases room
  case first => exact first
  case turn => exact turn

/-- What a stage comes to: an exit before anything is served, or the main loop. -/
def Comes (x : Prog Action Process Status) (p : Process) (ok : Prop) : Prop :=
  (¬ ok ∧ ∃ as p', x.Returns p as .failure p' ∧ served as = []) ∨
    (ok ∧ ∃ as p', Leads x p as (serve h) p' ∧ served as = [] ∧
      ((workerPart ⟨h.rteLcoreId, inside⟩).view p').Ready h.queues)

theorem bringUp_comes {p : Process} (options : p.options = h.options)
    (setup : p.setup = .initial) (first : p.next = null + 1) (turn : p.rxCalls = 0) :
    Comes inside (bringUp h) p (h.launch h.options).Starts := by
  obtain ⟨es, r, s', run⟩ := initNics_returns (h.launch h.options)
  have up : (initNics (h.launch p.options)).run.Returns (setupPart.view p) es r s' := by
    have same : setupPart.view p = .initial := setup
    rw [options, same]
    exact run
  have got := (get_returns p).leads (f := fun p => do
    match ← zoom setupPart Action.call (initNics (h.launch p.options)).run with
    | none => return Status.failure
    | some _ => serve h)
  cases r with
  | none =>
    refine .inl ⟨fun starts => ?_, _, _,
      got.returns.mpr ⟨_, rfl, (up.zoom Action.call).bind (pure_returns _ _)⟩, ?_⟩
    · obtain ⟨_, _, _, passes⟩ := initNics_through.mpr starts
      cases (Returns.unique run passes).2.1
    · rw [List.nil_append, List.append_nil, served_calls]
  | some u =>
    have passes : Passes (initNics (h.launch h.options)) .initial es u s' := run
    refine .inr ⟨initNics_through.mp passes.through, _, _,
      got.trans (up.zoom Action.call).leads, ?_, ?_⟩
    · rw [List.nil_append, served_calls]
    · exact ready_of_start passes ⟨h.rteLcoreId, inside⟩ rfl first turn

/-- Either the process exits before it serves, or it comes to the main loop. -/
theorem main_comes (mbufs : Ptr → Mbuf) : Comes inside (main h) (.initial mbufs) h.Starts := by
  cases eal : h.rteEalInit with
  | none =>
    refine .inl ⟨fun starts => starts.eal eal, [], .initial mbufs, ?_, rfl⟩
    rw [main, eal]
    exact pure_returns _ _
  | some line =>
    obtain ⟨prgname, argv⟩ := line
    have asked : h.requests = Udp.requests h.posixlyCorrect (argv.map CString.chars) := by
      rw [Host.requests, eal]
    have staged : main h = (zoom optionsPart Action.store
        (parseArgs prgname h.posixlyCorrect (argv.map CString.chars)) >>= fun r => match r with
      | .error _ => pure Status.failure
      | .ok _ => bringUp h) := by rw [main, eal]
    rw [staged]
    rcases parseArgs_returns prgname h.posixlyCorrect argv .initial with
      ⟨met, stores, run⟩ | ⟨printed, stores, o', fails, run⟩
    · rw [← asked] at met run
      let p : Process := { Process.initial mbufs with options := h.options }
      have parsed : (zoom optionsPart Action.store
          (parseArgs prgname h.posixlyCorrect (argv.map CString.chars))).Returns
          (.initial mbufs) (stores.map Action.store) _ p := run.zoom Action.store
      have starts_iff : h.Starts ↔ (h.launch h.options).Starts :=
        ⟨Host.Starts.devices, fun devices => ⟨by rw [eal]; exact Option.some_ne_none _, met,
          devices⟩⟩
      rw [starts_iff]
      rcases bringUp_comes inside (p := p) rfl rfl rfl rfl with
        ⟨fails, as, p', exits, none⟩ | ⟨starts, as, p', leads, none, ready⟩
      · refine .inl ⟨fails, _, p', parsed.bind exits, ?_⟩
        rw [served_append, served_stores, none]
        rfl
      · refine .inr ⟨starts, _, p', parsed.leads.trans leads, ?_, ready⟩
        rw [served_append, served_stores, none]
        rfl
    · refine .inl ⟨fun starts => ?_, _, _,
        (run.zoom Action.store).bind (pure_returns _ _), ?_⟩
      · obtain ⟨r, hr, refused⟩ := fails.refused
        exact starts.options r (asked ▸ hr) refused
      · rw [List.append_nil, served_stores]

end stages

/-! ## Serving -/

section serving
variable {h : Host} {p : Process} {w : Worker} {qs : List LcoreRxQueue}
  (inside : h.rteLcoreId < myRteMaxLcore)

theorem serve_emitted {as : List Action} :
    (serve h).Emitted p as ↔
      ∃ es, (mainLoop h.nic).Emitted ((workerPart ⟨h.rteLcoreId, inside⟩).view p) es ∧
        as = es.map Action.event := by
  rw [← emitted_zoom, serve, dif_pos inside, emitted_bind]
  constructor
  · rintro (early | ⟨as₁, stop, p', as₂, run, last, rfl⟩)
    · exact early
    · have quiet : as₂ = [] := by
        cases stop with
        | returned => exact List.prefix_nil.mp ((pure_returns Status.success p').continues last)
        | exited => exact List.prefix_nil.mp ((pure_returns Status.failure p').continues last)
      rw [quiet, List.append_nil]
      exact run.emitted
  · exact .inl

theorem serve_stops {as : List Action} {r : Status} {p' : Process}
    (run : (serve h).Returns p as r p') :
    ∃ es stop w', (mainLoop h.nic).Returns ((workerPart ⟨h.rteLcoreId, inside⟩).view p) es stop
      w' ∧ (r = .success ↔ stop = .returned) := by
  rw [serve, dif_pos inside] at run
  obtain ⟨_, stop, _, _, looped, last, rfl⟩ := returns_bind.mp run
  obtain ⟨es, w', run', _⟩ := returns_zoom.mp looped
  refine ⟨es, stop, w', run', ?_⟩
  cases stop with
  | returned => exact iff_of_true (returns_pure.mp last).2.1 rfl
  | exited =>
    rw [(returns_pure.mp last).2.1]
    decide

theorem serve_ends : (serve h).Ends p ↔
    (mainLoop h.nic).Ends ((workerPart ⟨h.rteLcoreId, inside⟩).view p) := by
  rw [← ends_zoom, serve, dif_pos inside]
  apply ends_bind
  intro stop p'
  cases stop with
  | returned => exact (pure_returns _ p').ends
  | exited => exact (pure_returns _ p').ends

theorem serve_success {es : List Event} {w' : Worker}
    (run : (mainLoop h.nic).Returns ((workerPart ⟨h.rteLcoreId, inside⟩).view p) es .returned
      w') : ∃ as p', (serve h).Returns p as .success p' := by
  rw [serve, dif_pos inside]
  exact ⟨_, _, (run.zoom Action.event).bind (pure_returns _ _)⟩

include inside in
/-- A run of the server that starts is one of its main loop. -/
theorem main_reduces (starts : h.Starts) (mbufs : Ptr → Mbuf) :
    ∃ w : Worker, w.Ready h.queues ∧
      (∀ as, (main h).Emitted (.initial mbufs) as → (mainLoop h.nic).Emitted w (served as)) ∧
      (∀ es, (mainLoop h.nic).Emitted w es →
        ∃ as, (main h).Emitted (.initial mbufs) as ∧ served as = es) ∧
      ((∃ as p, (main h).Returns (.initial mbufs) as .success p) ↔
        ∃ es w', (mainLoop h.nic).Returns w es .returned w') ∧
      ((main h).Ends (.initial mbufs) ↔ (mainLoop h.nic).Ends w) := by
  rcases main_comes inside mbufs with ⟨fails, _⟩ | ⟨_, as, p, leads, none, ready⟩
  · exact absurd starts fails
  refine ⟨_, ready, ?_, ?_, ?_, leads.ends.trans (serve_ends inside)⟩
  · intro bs emitted
    rcases leads.emitted.mp emitted with early | ⟨cs, rfl, emitted'⟩
    · have begun := early.filterMap Action.served
      change served bs <+: served as at begun
      rw [none] at begun
      rw [List.prefix_nil.mp begun]
      exact ⟨0, List.nil_prefix⟩
    · obtain ⟨es, run, rfl⟩ := (serve_emitted inside).mp emitted'
      rwa [served_append, none, served_events]
  · intro es emitted
    refine ⟨as ++ es.map Action.event,
      leads.emitted.mpr (.inr ⟨_, rfl, (serve_emitted inside).mpr ⟨es, emitted, rfl⟩⟩), ?_⟩
    rw [served_append, none, served_events]
    rfl
  · constructor
    · rintro ⟨bs, p', run⟩
      obtain ⟨cs, _, rest⟩ := leads.returns.mp run
      obtain ⟨es, stop, w', run', same⟩ := serve_stops inside rest
      rw [same.mp rfl] at run'
      exact ⟨es, w', run'⟩
    · rintro ⟨es, w', run⟩
      obtain ⟨cs, p', rest⟩ := serve_success inside run
      exact ⟨as ++ cs, p', leads.returns.mpr ⟨cs, rfl, rest⟩⟩

theorem Worker.Ready.serving (ready : w.Ready qs) :
    w.Serving w.conf.nRxQueue w.conf.rxQueues := ⟨ready.idle, rfl, rfl⟩

variable {nic : Nic}

variable (nic) in
theorem mainLoop_unmapped (unmapped : w.conf.nRxQueue = 0) :
    (mainLoop nic).Returns w [] .returned w := by
  apply (get_returns w).bind
  rw [if_pos unmapped]
  exact pure_returns _ w

/-- With queues to serve it never returns. -/
theorem mainLoop_mapped {es : List Event} {w' : Worker} (mapped : w.conf.nRxQueue ≠ 0)
    (run : (mainLoop nic).Returns w es .returned w') : False := by
  obtain ⟨_, _, run₁⟩ := (get_returns w).rest run
  rw [if_neg mapped] at run₁
  obtain ⟨_, _, _, _, _, _, last, _⟩ := loop_returns_iff.mp run₁
  obtain ⟨_, _, last₁⟩ := (get_returns _).rest last
  obtain ⟨_, exited, _, _, _, last₂, _⟩ := returns_bind.mp last₁
  cases exited with
  | true => cases (returns_pure.mp last₂).2.1
  | false => cases (returns_pure.mp last₂).2.1

/-- At any point, of a worker with queues or without. -/
theorem mainLoop_serves {es : List Event} (ready : w.Ready qs)
    (emitted : (mainLoop nic).Emitted w es) :
    polledQueues es = (List.range (polledQueues es).length).map (queueAt qs) ∧
      offered es <+: answered (arrived es) ∧ buffers.Respects ∅ es := by
  obtain ⟨all, w', runs, begins⟩ := mainLoop_runs ready.serving emitted
  refine ⟨?_, runs.offers begins, runs.owns.respects.cut begins⟩
  by_cases unmapped : w.conf.nRxQueue = 0
  · rw [List.prefix_nil.mp ((mainLoop_unmapped nic unmapped).continues emitted)]
    rfl
  · have scheduled := (mainLoop_scheduled nic ready.serving ready.turn unmapped).1 es emitted
    rwa [ready.polled] at scheduled

variable (nic) in
/-- How far it comes, and whether it ends. -/
theorem mainLoop_reaches (ready : w.Ready qs) :
    (∀ i, (∃ es, (mainLoop nic).Emitted w es ∧ i < (polledQueues es).length) ↔
      qs ≠ [] ∧ ∀ j < i, burstAt nic qs j ≠ []) ∧
    ((∃ es w', (mainLoop nic).Returns w es .returned w') ↔ qs = []) ∧
    ((mainLoop nic).Ends w ↔ (qs ≠ [] → ∃ i, burstAt nic qs i = [])) := by
  by_cases unmapped : w.conf.nRxQueue = 0
  · have none := ready.unmapped.mp unmapped
    have run := mainLoop_unmapped nic unmapped
    refine ⟨fun i => iff_of_false ?_ fun h => h.1 none, iff_of_true ⟨[], w, run⟩ none,
      iff_of_true run.ends fun some => absurd none some⟩
    rintro ⟨es, emitted, more⟩
    rw [List.prefix_nil.mp (run.continues emitted)] at more
    exact Nat.not_lt_zero i more
  · have some : qs ≠ [] := mt ready.unmapped.mpr unmapped
    obtain ⟨_, made, ends⟩ := mainLoop_scheduled nic ready.serving ready.turn unmapped
    rw [ready.polled] at made ends
    refine ⟨fun i => (made i).trans (and_iff_right some).symm,
      iff_of_false (fun ⟨_, _, run⟩ => mainLoop_mapped unmapped run) some, ?_⟩
    rw [ends]
    exact (imp_iff_right some).symm

end serving

/-- The server from its command line on, for a host whose lcores and sockets have entries
in the tables and whose queues to serve are set up. It serves just when the EAL starts, no
option is refused and the devices come up. At any point it has polled the queues
that the mapping in force gives to its lcore, in turn, and no others; what it
has offered are the first answers to what has arrived; and it used no buffer
that it had not got or had given away. It comes to receive number `i` unless
an earlier burst is empty, and goes on for ever unless one is or there is no
queue for it. The devices may answer a burst in any way. -/
theorem main_serves (h : Host) (sound : h.Sound) (mbufs : Ptr → Mbuf) :
    let start := Process.initial mbufs
    let qs := h.queues
    (∀ as, (main h).Emitted start as →
      polledQueues (served as) = (List.range (polledQueues (served as)).length).map (queueAt qs) ∧
        offered (served as) <+: answered (arrived (served as)) ∧
        buffers.Respects ∅ (served as)) ∧
    (∀ i, (∃ as, (main h).Emitted start as ∧ i < (polledQueues (served as)).length) ↔
      h.Starts ∧ qs ≠ [] ∧ ∀ j < i, burstAt h.nic qs j ≠ []) ∧
    ((∃ as p, (main h).Returns start as .success p) ↔ h.Starts ∧ qs = []) ∧
    ((main h).Ends start ↔ h.Starts → qs ≠ [] → ∃ i, burstAt h.nic qs i = []) := by
  intro start qs
  by_cases starts : h.Starts
  · obtain ⟨w, ready, here, there, success, ends⟩ := main_reduces sound.inside starts mbufs
    obtain ⟨made, unmapped, ended⟩ := mainLoop_reaches h.nic ready
    refine ⟨fun as emitted => mainLoop_serves ready (here as emitted), fun i => ?_, ?_, ?_⟩
    · rw [and_iff_right starts, ← made i]
      constructor
      · rintro ⟨as, emitted, more⟩
        exact ⟨served as, here as emitted, more⟩
      · rintro ⟨es, emitted, more⟩
        obtain ⟨as, emitted', rfl⟩ := there es emitted
        exact ⟨as, emitted', more⟩
    · rw [success, unmapped]
      exact (and_iff_right starts).symm
    · rw [ends, ended]
      exact (imp_iff_right starts).symm
  · rcases main_comes sound.inside mbufs with ⟨_, all, p, run, none⟩ | ⟨here, _⟩
    · have nothing {as : List Action} (emitted : (main h).Emitted start as) : served as = [] := by
        have begun := (run.continues emitted).filterMap Action.served
        change served as <+: served all at begun
        rw [none] at begun
        exact List.prefix_nil.mp begun
      refine ⟨fun as emitted => ?_, fun i => iff_of_false ?_ fun h => starts h.1,
        iff_of_false ?_ fun h => starts h.1, iff_of_true run.ends fun h => absurd h starts⟩
      · rw [nothing emitted]
        exact ⟨rfl, List.prefix_rfl, trivial⟩
      · rintro ⟨as, emitted, more⟩
        rw [nothing emitted] at more
        exact Nat.not_lt_zero i more
      · rintro ⟨as, p', run'⟩
        cases (run.unique run').2.1
    · exact absurd here starts

theorem one_le_maxEthports : 1 ≤ rteMaxEthports := by decide

/-- Port 0 enabled and two frames to come, with `main` on this lcore. -/
def twoLcores (lcore : Nat) : Host where
  rteEalInit := some ("udp_server".toList, [⟨"-p1".toList, by decide⟩])
  posixlyCorrect := false
  rteLcoreId := lcore
  rteLcoreIsEnabled n := n.blt 2
  rteLcoreToSocketId _ := 0
  rteLcoreCount := 2
  nPorts := 1
  nPorts_le := one_le_maxEthports
  linkStatus _ _ := true
  nic := twoFrames rteEtherTypeIpv4 rteEtherTypeIpv4

theorem twoLcores_starts (lcore : Nat) : (twoLcores lcore).Starts where
  eal := Option.some_ne_none _
  options := by
    have one : (twoLcores lcore).requests = [.portmask "1".toList] := rfl
    rw [one]
    exact List.forall_mem_singleton.mpr (show ¬ parsePortmask "1".toList = 0 by decide)
  devices := by
    let l := (twoLcores 0).launch (twoLcores 0).options
    have up : ((initNics l).run.run 0 .initial).value = some (some ()) := by decide
    exact initNics_through.mp (Passes.of_run up).through

theorem twoLcores_sound {lcore : Nat} (below : lcore < 2) : (twoLcores lcore).Sound where
  within := (twoLcores_starts lcore).devices.within
  inside := below
  covers := by
    obtain rfl | rfl : lcore = 0 ∨ lcore = 1 := by omega
    · exact .inr (by decide)
    · exact .inl (by decide)

/-- On lcore 0 the third burst is the last one; lcore 1 has no queue. -/
theorem twoLcores_serve :
    (main (twoLcores 0)).Ends (.initial fun _ => frame 0) ∧
      (∃ as, (main (twoLcores 0)).Emitted (.initial fun _ => frame 0) as ∧
        2 < (polledQueues (served as)).length) ∧
      ∃ as p, (main (twoLcores 1)).Returns (.initial fun _ => frame 0) as .success p := by
  let mbufs : Ptr → Mbuf := fun _ => frame 0
  obtain ⟨_, made, _, ends⟩ := main_serves (twoLcores 0) (twoLcores_sound (by decide)) mbufs
  obtain ⟨_, _, success, _⟩ := main_serves (twoLcores 1) (twoLcores_sound (by decide)) mbufs
  refine ⟨ends.mpr fun _ _ => ⟨2, by decide⟩, (made 2).mpr ⟨twoLcores_starts 0, by decide, ?_⟩,
    success.mpr ⟨twoLcores_starts 1, by decide⟩⟩
  intro j before
  obtain rfl | rfl : j = 0 ∨ j = 1 := by omega
  · decide
  · decide

end Udp
