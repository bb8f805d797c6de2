import Buster.Balance
import Buster.ConfSpace
import Buster.Lib.Ownership

/-!
# What a load reads

Memory is there once it is mapped, and the rings of an IOMMU are there once it
is opened: where its registers say, and of the length they give. `Within` says
of any part of a load that it touches nothing else, as long as what it meets is
`Sound`. Nothing is unmapped before the end, so what is there stays there.
-/

namespace Buster

open Imp.Prog Ownership

/-- The `n` bytes at `a`. -/
def bytesAt (a : U64) (n : Nat) : List U64 := (List.range n).map fun i => a + BitVec.ofNat 64 i

/-- The bytes of a ring, as `phys_to_virt` makes them visible in the direct map. -/
def RingKind.bytes (k : RingKind) (m : Machine) (mmio : U64) : List U64 :=
  bytesAt (m.physToVirt (k.baseReg m mmio &&& getMask 12 51)) (16 * 2 ^ k.lenCode m mmio)

/-- The bytes that are there from this event on: those of a mapping, and those of
the rings of an IOMMU that is opened. -/
def Event.granted (m : Machine) : Event → List U64
  | .ioremap _ size va => if va = 0 then [] else bytesAt va size
  | .bustOpen mmio => if mmio = 0 then [] else comTbl.bytes m mmio ++ eventLog.bytes m mmio
  | _ => []

def Event.touched : Event → List U64
  | .load a n => bytesAt a n
  | _ => []

def Event.Unmaps : Event → Prop
  | .iounmap _ => True
  | _ => False

/-- Unmapping is left out, and said of apart. -/
def memory (m : Machine) : Discipline Event U64 where
  gains := Event.granted m
  uses := Event.touched
  loses _ := []
  loses_used _ := List.nil_subset _

def LogCall.bytes (c : LogCall) : List U64 := bytesAt c.start (c.limit.toNat - c.start.toNat)

/-- Where the code takes a pointer of the ring to be, counted from the start of the ring. -/
def RingKind.offset (k : RingKind) (m : Machine) (mmio ptr : U64) : Nat :=
  (k.tblBaseV m mmio + ptr - m.physToVirt (k.baseReg m mmio &&& getMask 12 51)).toNat

/-- The head is a page or more into the ring, at most a page ahead of the tail, and
the tail is not past the end. -/
structure RingKind.Placed (k : RingKind) (m : Machine) (mmio : U64) : Prop where
  page : 4096 ≤ k.offset m mmio (k.headPtr m mmio)
  order : k.offset m mmio (k.headPtr m mmio) ≤ k.offset m mmio (k.tailPtr m mmio) + 4096
  room : k.offset m mmio (k.tailPtr m mmio) ≤ 16 * 2 ^ k.lenCode m mmio

/-- What is not the module's doing: where a configuration space is mapped, the
pointers that the second walk adds up come to a last one inside it; a dump does
not hang; and the pointers of a ring that is dumped are where they can be. -/
def Event.Sound (m : Machine) : Event → Prop
  | .ioremap _ size va => size = 4096 → va ≠ 0 →
    StopsBy m.mem va (4096 - 12) (firstCap m.mem va).toNat
  | .logRange start limit msg => (m.call (start, limit, msg)).Fits
  | .bustOpen mmio => mmio ≠ 0 → ∀ k ∈ [comTbl, eventLog],
    (m.call (k.window m mmio)).refusal = none → k.Placed m mmio
  | _ => True

/-- Whatever there is besides `own`, the events touch nothing that is not there,
as far as they are sound. -/
def Within (m : Machine) (own : Set U64) (es : List Event) : Prop :=
  ∀ early, early <+: es → (∀ e ∈ early, e.Sound m) → (memory m).Respects own early

/-- At every point the program has been within what there is. -/
abbrev Stays {α : Type} (m : Machine) (own : Set U64) (p : Kernel α) : Prop :=
  p.Follows (fun _ es _ => Within m own es) fun _ es => Within m own es

/-! ## Bytes -/

theorem mem_bytesAt {a b : U64} {n : Nat} (short : n ≤ 2 ^ 64) :
    b ∈ bytesAt a n ↔ (b - a).toNat < n := by
  unfold bytesAt
  rw [List.mem_map]
  constructor
  · rintro ⟨i, hi, rfl⟩
    have := List.mem_range.mp hi
    bv_omega
  · intro inside
    exact ⟨(b - a).toNat, List.mem_range.mpr inside, by bv_omega⟩

/-- The bytes of a read in a configuration space. -/
theorem bytesAt_inSpace {confSpace a : U64} {n : Nat} (h : InSpace confSpace a n) :
    ∀ b ∈ bytesAt a n, b ∈ bytesAt confSpace 4096 := by
  unfold InSpace at h
  intro b hb
  rw [mem_bytesAt (by omega)] at hb
  rw [mem_bytesAt (by decide)]
  bv_omega

/-- The bytes of a read between two addresses. -/
theorem bytesAt_inside {start limit a b : U64} {n : Nat} (h : (Event.load a n).Inside start limit)
    (hb : b ∈ bytesAt a n) : b ∈ bytesAt start (limit.toNat - start.toNat) := by
  have top := limit.isLt
  obtain ⟨above, below⟩ := h
  rw [mem_bytesAt (by omega)] at hb
  rw [mem_bytesAt (by omega)]
  bv_omega

/-- The bytes of a window in a larger piece of memory, wherever that is. -/
theorem bytesAt_part {base start limit b : U64} {n : Nat} (short : n ≤ 2 ^ 64)
    (order : (start - base).toNat ≤ (limit - base).toNat) (below : (limit - base).toNat ≤ n)
    (hb : b ∈ bytesAt start (limit.toNat - start.toNat)) : b ∈ bytesAt base n := by
  have top := limit.isLt
  rw [mem_bytesAt (by omega)] at hb
  rw [mem_bytesAt short]
  bv_omega

/-- The window of a ring is a part of it. -/
theorem RingKind.Placed.contains {k : RingKind} {m : Machine} {mmio : U64}
    (h : k.Placed m mmio) : ∀ b ∈ (m.call (k.window m mmio)).bytes, b ∈ k.bytes m mmio := by
  obtain ⟨page, order, room⟩ := h
  have few : k.lenCode m mmio ≤ 15 := by
    unfold RingKind.lenCode
    omega
  have short : 2 ^ k.lenCode m mmio ≤ 2 ^ 15 := Nat.pow_le_pow_right (by decide) few
  -- the window begins a page before the head
  have start (a base : U64) (page : 4096 ≤ (a - base).toNat) :
      (a - 16 * 256 - base).toNat + 4096 = (a - base).toNat := by bv_omega
  refine fun b hb => bytesAt_part (by omega) ?_ room hb
  exact Nat.le_of_add_le_add_right ((start _ _ page).trans_le order)

/-! ## What is there stays there -/

variable {m : Machine} {own : Set U64}

theorem owned_stays (own : Set U64) (es : List Event) : own ⊆ (memory m).owned own es :=
  fun _ mine => Discipline.owned_of_kept mine fun _ _ => List.not_mem_nil

/-- What an event has granted is there. -/
theorem granted_owned {e : Event} {es : List Event} (he : e ∈ es) :
    ∀ b ∈ e.granted m, b ∈ (memory m).owned own es := by
  intro b hb
  obtain ⟨before, after, rfl⟩ := List.append_of_mem he
  rw [Discipline.owned_append]
  exact owned_stays _ after (.inr hb)

/-- A mapping other than NULL is there once it has been made. -/
theorem mapping_owned {es : List Event} {addr va : U64} {size : Nat}
    (made : .ioremap addr size va ∈ es) (nonnull : va ≠ 0) :
    ∀ b ∈ bytesAt va size, b ∈ (memory m).owned own es := by
  intro b hb
  apply granted_owned made
  rwa [Event.granted, if_neg nonnull]

theorem Within.append {es fs : List Event} (h : Within m own es)
    (rest : (∀ e ∈ es, e.Sound m) → Within m ((memory m).owned own es) fs) :
    Within m own (es ++ fs) := by
  intro early pre sound
  rcases cut_of_prefix pre with inside | ⟨late, rfl, beyond⟩
  · exact h early inside sound
  · obtain ⟨first, later⟩ := List.forall_mem_append.mp sound
    exact Discipline.respects_append.mpr
      ⟨h es List.prefix_rfl first, rest first late beyond later⟩

theorem Within.mono {more : Set U64} {es : List Event} (h : Within m own es)
    (grows : own ⊆ more) : Within m more es :=
  fun early pre sound => (h early pre sound).mono grows

theorem within_nil : Within m own [] := by
  intro early pre _
  rw [List.prefix_nil.mp pre]
  trivial

theorem within_composes (m : Machine) (own : Set U64) :
    Composes (fun (_ : Globals) es (_ : Globals) => Within m own es)
      fun (_ : Globals) es => Within m own es where
  nil _ := within_nil
  append h h' := h.append fun _ => h'.mono (owned_stays own _)
  cut h pre early begins := h early (begins.trans pre)
  later h h' := h.append fun _ => h'.mono (owned_stays own _)

/-- What is granted in the first part is there in the second, which matters only
when the first has been sound. -/
theorem stays_bind {α β : Type} {p : Kernel α} {f : α → Kernel β} (h : Stays m own p)
    (hf : ∀ {g es a g'}, p.Returns g es a g' → (∀ e ∈ es, e.Sound m) →
      Stays m ((memory m).owned own es) (f a)) : Stays m own (p >>= f) where
  returned := by
    intro g es b g'' run
    obtain ⟨es₁, a, g', es₂, first, rest, rfl⟩ := returns_bind.mp run
    exact (h.returned first).append fun sound => (hf first sound).returned rest
  begun := by
    intro g es emitted
    rcases emitted_bind.mp emitted with early | ⟨es₁, a, g', es₂, first, later, rfl⟩
    · exact h.begun early
    · exact (h.returned first).append fun sound => (hf first sound).begun later

/-- An event that touches only what is there. -/
def Event.Touches (own : Set U64) (e : Event) : Prop := ∀ b ∈ e.touched, b ∈ own

theorem within_of_touches {es : List Event} (h : ∀ e ∈ es, e.Touches own) : Within m own es := by
  intro early pre _
  exact (Discipline.Owns.steady (d := memory m) fun e he => ⟨h e (pre.subset he), rfl⟩).respects

theorem stays_of_confined {α : Type} {p : Kernel α} {shown : Event → Prop}
    (h : p.Confined (fun _ => True) shown) (touches : ∀ e, shown e → e.Touches own) :
    Stays m own p :=
  (within_composes m own).of_confined (fun _ => trivial) (fun _ => h) fun _ all =>
    within_of_touches fun e he => touches e (all e he)

theorem stays_emit {e : Event} (h : e.Touches own) : Stays m own (emit e) :=
  (within_composes m own).emit fun _ => within_of_touches (List.forall_mem_singleton.mpr h)

theorem stays_printk (line : Text) : Stays m own (printk line) := stays_emit (List.forall_mem_nil _)

/-- Nothing is asked of what comes after an event that is not sound. -/
theorem stays_of_unsound {α : Type} {e : Event} {p : Kernel α} (touches : e.Touches own)
    (unsound : ¬ e.Sound m) : Stays m own (emit e >>= fun _ => p) := by
  refine stays_bind (stays_emit touches) fun {g es _ g'} run sound => ?_
  obtain ⟨rfl, _⟩ := returns_emit.mp run
  exact absurd (sound e List.mem_cons_self) unsound

theorem Event.Maps.touches {e : Event} (h : e.Maps) : e.Touches own := by
  cases e with
  | load => exact h.elim
  | _ => exact List.forall_mem_nil _

theorem stays_getMapping (addr : U64) (size : Nat) : Stays m own (getMapping m addr size) :=
  stays_of_confined (confined_getMapping m addr size) fun _ => Event.Maps.touches

/-! ## Dumps -/

/-- A dump of memory that is there, or one that is refused. One that hangs is
not sound from its call on. -/
theorem stays_logRange {start limit : U64} {msg : Text}
    (mine : (m.call (start, limit, msg)).refusal = none →
      ∀ b ∈ (m.call (start, limit, msg)).bytes, b ∈ own) :
    Stays m own (logRange m start limit msg) := by
  let c := m.call (start, limit, msg)
  by_cases fits : c.Fits
  · apply (within_composes m own).of_returns
    intro g
    cases turned : c.refusal with
    | some err =>
      refine ⟨_, (), g, LogCall.refused_returns turned g, within_of_touches ?_⟩
      exact List.forall_mem_cons.mpr ⟨List.forall_mem_nil _,
        List.forall_mem_singleton.mpr (List.forall_mem_nil _)⟩
    | none =>
      obtain ⟨es, g', run, inside⟩ := fits.reads_inside g
      refine ⟨es, (), g', run, within_of_touches fun e he => ?_⟩
      have here := inside e he
      cases e with
      | load a n => exact fun b hb => mine turned b (bytesAt_inside here hb)
      | _ => exact List.forall_mem_nil _
  · obtain ⟨rest, split, _⟩ := logRange_split (m := m) start limit msg
    rw [split]
    exact stays_of_unsound (List.forall_mem_nil _) fits

/-! ## The registers of an IOMMU -/

section registers
variable {mmio : U64}

/-- Registers are at small offsets. -/
theorem stays_load64 (mine : ∀ b ∈ bytesAt mmio (512 * 1024), b ∈ own) {off : U64}
    (small : off.toNat + 8 ≤ 512 * 1024) : Stays m own (load64 m (mmio + off)) := by
  refine (within_composes m own).bind (stays_emit ?_) fun _ => (within_composes m own).pure _
  intro b hb
  change b ∈ bytesAt (mmio + off) 8 at hb
  rw [mem_bytesAt (by decide)] at hb
  apply mine
  rw [mem_bytesAt (by decide)]
  bv_omega

/-- A dump of a part of a ring that is there. -/
theorem stays_dumpRing (mine : ∀ b ∈ bytesAt mmio (512 * 1024), b ∈ own) {k : RingKind}
    (known : k ∈ [comTbl, eventLog])
    (placed : (m.call (k.window m mmio)).refusal = none → k.Placed m mmio)
    (ring : ∀ b ∈ k.bytes m mmio, b ∈ own) : Stays m own (dumpRing m k mmio) := by
  have comp := within_composes m own
  have offsets : k.baseOff.toNat + 8 ≤ 512 * 1024 ∧ k.tailOff.toNat + 8 ≤ 512 * 1024 ∧
      k.headOff.toNat + 8 ≤ 512 * 1024 := by
    simp only [List.mem_cons, List.not_mem_nil, or_false] at known
    rcases known with rfl | rfl <;> decide
  have range : Stays m own (ringRange m k mmio) := by
    refine comp.bind (stays_load64 mine offsets.1) fun _ => ?_
    refine comp.bind (stays_printk _) fun _ => comp.bind (stays_printk _) fun _ => ?_
    refine comp.bind (stays_load64 mine offsets.2.1) fun _ => ?_
    exact comp.bind (stays_load64 mine offsets.2.2) fun _ => comp.pure _
  refine comp.bind_returned range fun {g es r g'} run => ?_
  obtain ⟨es', g₁, run', _⟩ := ringRange_returns (m := m) k mmio g
  obtain ⟨_, rfl, _⟩ := run.unique run'
  exact stays_logRange fun taken b hb => ring b ((placed taken).contains b hb)

theorem stays_bustOpen (mine : mmio ≠ 0 → ∀ b ∈ bytesAt mmio (512 * 1024), b ∈ own) :
    Stays m own (bustOpen m mmio) := by
  refine stays_bind (stays_emit (List.forall_mem_nil _)) fun {g es _ g'} run sound => ?_
  obtain ⟨rfl, _⟩ := returns_emit.mp run
  have comp := within_composes m ((memory m).owned own [.bustOpen mmio])
  split
  · exact comp.pure _
  · rename_i nonnull
    have placed := sound _ List.mem_cons_self nonnull
    have com : comTbl ∈ [comTbl, eventLog] := List.mem_cons_self
    have event : eventLog ∈ [comTbl, eventLog] := List.mem_cons_of_mem _ List.mem_cons_self
    have still : ∀ b ∈ bytesAt mmio (512 * 1024), b ∈ (memory m).owned own [.bustOpen mmio] :=
      fun b hb => owned_stays own _ (mine nonnull b hb)
    have rings : ∀ b ∈ comTbl.bytes m mmio ++ eventLog.bytes m mmio,
        b ∈ (memory m).owned own [.bustOpen mmio] := by
      intro b hb
      apply granted_owned List.mem_cons_self
      rwa [Event.granted, if_neg nonnull]
    obtain ⟨first, second⟩ := List.forall_mem_append.mp rings
    exact comp.bind (stays_dumpRing still com (placed _ com) first) fun _ =>
      stays_dumpRing still event (placed _ event) second

end registers

/-! ## The walks -/

section walks
variable {confSpace : U64}

theorem touches_inSpace (space : ∀ b ∈ bytesAt confSpace 4096, b ∈ own) {e : Event}
    (h : e.InSpace confSpace) : e.Touches own := by
  cases e with
  | load a n => exact fun b hb => space b (bytesAt_inSpace h b hb)
  | _ => exact List.forall_mem_nil _

theorem stays_load32 (space : ∀ b ∈ bytesAt confSpace 4096, b ∈ own) {a : U64}
    (h : InSpace confSpace a 4) : Stays m own (load32 m a) :=
  stays_of_confined (inSpace_load32 h) fun _ => touches_inSpace space

theorem getMapping_maps {addr va : U64} {size : Nat} {g g' : Globals} {es : List Event}
    (run : (getMapping m addr size).Returns g es va g') (nonnull : va ≠ 0) :
    .ioremap addr size va ∈ es := by
  by_cases pass : g.idx ≤ nVaddr
  · obtain ⟨rfl, rfl, _⟩ := run.unique (getMapping_returns m addr size pass)
    exact List.mem_cons_self ..
  · obtain ⟨_, null, _⟩ := run.unique (getMapping_refused m addr size (by omega))
    exact absurd null nonnull

/-- The first four pages of a register block. -/
theorem stays_regs {va : U64} (mine : ∀ b ∈ bytesAt va (512 * 1024), b ∈ own) :
    Stays m own (logRange m va (va + 4 * 4096) "IOMMU BASE".toList) := by
  apply stays_logRange
  intro _ b hb
  have few : (va + 4 * 4096 - va).toNat ≤ 512 * 1024 := by bv_omega
  have order : (va - va).toNat ≤ (va + 4 * 4096 - va).toNat := by bv_omega
  exact mine b (bytesAt_part (by decide) order few hb)

theorem stays_getIommuRegs (space : ∀ b ∈ bytesAt confSpace 4096, b ∈ own) {k : Nat}
    (room : k ≤ 4096 - 12) : Stays m own (getIommuRegs m (blockAt confSpace k)) := by
  have comp := within_composes m own
  have four : (4 : U64).toNat = 4 := rfl
  have eight : (8 : U64).toNat = 8 := rfl
  refine comp.bind (stays_emit (List.forall_mem_nil _)) fun _ => ?_
  refine comp.bind (stays_load32 space (inSpace_block (by omega))) fun _ => ?_
  refine comp.bind (stays_load32 space (inSpace_block (by omega))) fun _ => ?_
  dsimp only
  split
  · exact comp.bind (stays_printk _) fun _ => comp.pure _
  split
  · exact comp.pure _
  refine stays_bind (stays_getMapping _ _) fun {g es va g'} mapped _ => ?_
  have comp := within_composes m ((memory m).owned own es)
  refine comp.bind (stays_printk _) fun _ => ?_
  split
  · exact comp.bind (stays_printk _) fun _ => comp.pure _
  · rename_i nonnull
    have mine : ∀ b ∈ bytesAt va (512 * 1024), b ∈ (memory m).owned own es :=
      mapping_owned (getMapping_maps mapped nonnull) nonnull
    exact comp.bind (stays_regs mine) fun _ => comp.pure _

/-- The registers that `get_iommu_regs` comes back with have been mapped. -/
theorem getIommuRegs_maps {capPtr mmio : U64} {g g' : Globals} {es : List Event}
    (run : (getIommuRegs m capPtr).Returns g es mmio g') (nonnull : mmio ≠ 0) :
    ∃ addr, .ioremap addr (512 * 1024) mmio ∈ es := by
  have null {p : Kernel Unit} {g g' : Globals} {es : List Event} :
      ¬ (p >>= fun _ => pure 0).Returns g es mmio g' := by
    intro run
    obtain ⟨_, _, _, _, _, last, _⟩ := returns_bind.mp run
    exact nonnull (returns_pure.mp last).2.1
  obtain ⟨_, rfl, run₁⟩ := (emit_returns _ g).rest run
  obtain ⟨_, rfl, run₂⟩ := (load32_returns m _ g).rest run₁
  obtain ⟨_, rfl, run₃⟩ := (load32_returns m _ g).rest run₂
  dsimp only at run₃
  split at run₃
  · exact absurd run₃ null
  split at run₃
  · exact absurd (returns_pure.mp run₃).2.1 nonnull
  obtain ⟨es₁, va, g₁, es₂, mapped, run₄, rfl⟩ := returns_bind.mp run₃
  obtain ⟨_, rfl, run₅⟩ := (printk_returns _ g₁).rest run₄
  split at run₅
  · exact absurd run₅ null
  · obtain ⟨_, _, _, _, _, last, _⟩ := returns_bind.mp run₅
    obtain ⟨_, rfl, _⟩ := returns_pure.mp last
    obtain ⟨addr, made⟩ : ∃ addr, .ioremap addr (512 * 1024) mmio ∈ es₁ :=
      ⟨_, getMapping_maps mapped nonnull⟩
    refine ⟨addr, List.mem_append_right _ (List.mem_append_right _ (List.mem_append_right _ ?_))⟩
    exact List.mem_append_left _ made

theorem stays_visit (space : ∀ b ∈ bytesAt confSpace 4096, b ∈ own) {k : Nat}
    (room : k ≤ 4096 - 12) (seen : Seen) : Stays m own (visit m seen (blockAt confSpace k)) := by
  refine stays_bind (stays_getIommuRegs space room) fun {g es mmio g'} run _ => ?_
  have comp := within_composes m ((memory m).owned own es)
  split
  · exact comp.pure _
  · refine comp.bind (stays_emit (List.forall_mem_nil _)) fun _ => ?_
    refine comp.bind (stays_bustOpen fun nonnull => ?_) fun _ => comp.pure _
    obtain ⟨addr, made⟩ := getIommuRegs_maps run nonnull
    exact mapping_owned made nonnull

theorem stays_visitRound (space : ∀ b ∈ bytesAt confSpace 4096, b ∈ own) {k : Nat}
    (room : k + (pointerAt m.mem confSpace k).toNat ≤ 4096 - 12) (seen : Seen) :
    Stays m own (visitRound m ⟨blockAt confSpace k, seen⟩) := by
  have comp := within_composes m own
  have one : (1 : U64).toNat = 1 := rfl
  refine comp.bind_returned (stays_load32 space (inSpace_block (by omega)))
    fun {g es next g'} loaded => ?_
  obtain ⟨_, rfl, _⟩ := returns_load32.mp loaded
  simp only [load32_low, setWidth_setWidth]
  have moved : nextBlock m.mem (blockAt confSpace k) = _ := nextBlock_at m.mem k
  unfold nextBlock at moved
  rw [moved]
  refine comp.bind (stays_visit space room seen) fun _ => ?_
  split
  · exact comp.pure _
  · exact comp.pure _

/-- One round after the other, up to the last pointer. -/
theorem stays_visitLoop (space : ∀ b ∈ bytesAt confSpace 4096, b ∈ own) {k : Nat}
    (stops : StopsBy m.mem confSpace (4096 - 12) k) (seen : Seen) :
    Stays m own (loop (visitRound m) ⟨blockAt confSpace k, seen⟩) := by
  induction stops generalizing seen with
  | last ends room =>
    apply (within_composes m own).loop_round (stays_visitRound space room seen)
    intro g es w g' run
    obtain ⟨_, _, _, _, result⟩ := visitRound_cases run
    rw [if_pos ends] at result
    cases result
  | more goes rest ih =>
    apply (within_composes m own).loop_round (stays_visitRound space rest.le seen)
    intro g es w g' run
    obtain ⟨_, seen', _, _, result⟩ := visitRound_cases run
    rw [if_neg goes, nextBlock_at] at result
    cases result
    exact ih seen'

theorem stays_dumpCaps (bus dev func : U32)
    (space : confSpace ≠ 0 → ∀ b ∈ bytesAt confSpace 4096, b ∈ own) :
    Stays m own (dumpCaps m bus dev func confSpace) := by
  by_cases null : confSpace = 0
  · unfold dumpCaps
    rw [if_pos null]
    exact (within_composes m own).bind (stays_printk _) fun _ => (within_composes m own).pure _
  · exact stays_of_confined (inSpace_dumpCaps bus dev func) fun _ => touches_inSpace (space null)

theorem mapConf_maps {bus dev func : U32} {conf : U64} {g g' : Globals} {es : List Event}
    (run : (mapConf m bus dev func).Returns g es conf g') (nonnull : conf ≠ 0) :
    .ioremap (confAddr bus dev func) 4096 conf ∈ es := by
  obtain ⟨es₁, va, g₁, es₂, mapped, rest, rfl⟩ := returns_bind.mp run
  obtain ⟨_, rfl, last⟩ := (printk_returns _ g₁).rest rest
  obtain ⟨_, rfl, _⟩ := returns_pure.mp last
  exact List.mem_append_left _ (getMapping_maps mapped nonnull)

theorem stays_getCapSpace (bus : U32) : Stays m own (getCapSpace m bus 0 2) := by
  have conf : Stays m own (mapConf m bus 0 2) :=
    (within_composes m own).bind (stays_getMapping _ _) fun _ =>
      (within_composes m own).bind (stays_printk _) fun _ => (within_composes m own).pure _
  refine stays_bind conf fun {g es confSpace g'} run _ => ?_
  exact stays_dumpCaps bus 0 2 fun nonnull => mapping_owned (mapConf_maps run nonnull) nonnull

/-- The space that `get_cap_space` has walked has been mapped. -/
theorem getCapSpace_maps {bus : U32} {capPtr : U64} {g g' : Globals} {es : List Event}
    (run : (getCapSpace m bus 0 2).Returns g es capPtr g') (nonnull : capPtr ≠ 0) :
    let confSpace := m.mapped g.idx (confAddr bus 0 2) 4096
    confSpace ≠ 0 ∧ .ioremap (confAddr bus 0 2) 4096 confSpace ∈ es := by
  intro confSpace
  have there : confSpace ≠ 0 := by
    intro null
    have value : capPtr = if confSpace = 0 then 0 else _ := getCapSpace_value run
    rw [if_pos null] at value
    exact nonnull value
  refine ⟨there, ?_⟩
  obtain ⟨es₁, conf, g₁, es₂, first, rest, rfl⟩ := returns_bind.mp run
  obtain ⟨es', g'', ends, _⟩ := mapConf_ends m bus 0 2 g
  obtain ⟨_, rfl, _⟩ := first.unique ends
  exact List.mem_append_left _ (mapConf_maps first there)

theorem stays_scanBus (seen : Seen) (bus : U32) : Stays m own (scanBus m seen bus) := by
  refine stays_bind (stays_getCapSpace bus) fun {g es capPtr g'} run sound => ?_
  have comp := within_composes m ((memory m).owned own es)
  split
  · exact comp.bind (stays_printk _) fun _ => comp.pure _
  · rename_i nonnull
    obtain ⟨there, made⟩ := getCapSpace_maps run nonnull
    have space : ∀ b ∈ bytesAt (m.mapped g.idx (confAddr bus 0 2) 4096) 4096,
        b ∈ (memory m).owned own es := mapping_owned made there
    have stops : StopsBy m.mem (m.mapped g.idx (confAddr bus 0 2) 4096) (4096 - 12) _ :=
      sound _ made rfl there
    rw [getCapSpace_block run nonnull]
    refine comp.bind (stays_visit space (firstCap_small _ _) seen) fun seen => ?_
    exact stays_visitLoop space stops seen

theorem stays_scanAll (buses : List U32) (seen : Seen) : Stays m own (scanAll m buses seen) := by
  induction buses generalizing seen with
  | nil => exact (within_composes m own).pure _
  | cons bus buses ih => exact (within_composes m own).bind (stays_scanBus seen bus) ih

end walks

/-! ## A whole load -/

/-- Taking the mappings away reads nothing. -/
theorem freeall_untouched {g : Globals} {es : List Event}
    (emitted : (freeall >>= fun _ => (pure (-1) : Kernel Int)).Emitted g es) :
    ∀ e ∈ es, e.touched = [] := by
  have begins := ((freeall_returns g).bind (pure_returns (-1 : Int) g)).continues emitted
  intro e he
  have all := begins.subset he
  rw [List.append_nil] at all
  rcases List.mem_cons.mp all with rfl | all
  · rfl
  · obtain ⟨va, _, rfl⟩ := List.mem_map.mp all
    rfl

/-- Nothing is unmapped while the buses are scanned. -/
theorem scanAll_keeps {buses : List U32} {seen : Seen} {g : Globals} {es : List Event}
    (emitted : (scanAll m buses seen).Emitted g es) : ∀ e ∈ es, ¬ e.Unmaps := by
  obtain ⟨all, g', ledger, begins⟩ := (ledger_parts.scanAll buses seen).begun emitted
  intro e he unmaps
  cases e with
  | iounmap va =>
    have gone : va ∈ unmapped all := List.mem_filterMap.mpr ⟨_, begins.subset he, rfl⟩
    rw [ledger.keeps] at gone
    exact List.not_mem_nil gone
  | _ => exact unmaps

/-- At every point of a load that has been sound so far, whether it ends or not,
all that has been read was part of a mapping made before or of a ring of an IOMMU
opened before, and none of it was read after something had been unmapped. -/
theorem busterIni_reads_owned {es : List Event} (emitted : (busterIni m).Emitted .initial es)
    (sound : ∀ e ∈ es, e.Sound m) :
    (memory m).Respects ∅ es ∧ es.Pairwise fun e e' => e.Unmaps → e'.touched = [] := by
  have scans : Stays m ∅ (scanAll m busnums .initial) := stays_scanAll busnums .initial
  have before {es fs : List Event} (keeps : ∀ e ∈ es, ¬ e.Unmaps) :
      ∀ e ∈ es, ∀ e' ∈ fs, e.Unmaps → e'.touched = [] :=
    fun e he _ _ unmaps => absurd unmaps (keeps e he)
  rcases emitted_bind.mp emitted with early | ⟨es₁, seen, g₁, es₂, scanned, later, rfl⟩
  · exact ⟨scans.begun early es List.prefix_rfl sound,
      List.pairwise_of_forall_mem_list (before (scanAll_keeps early))⟩
  · have last := freeall_untouched later
    have keeps := scanAll_keeps scanned.emitted
    have frees {own : Set U64} : Within m own es₂ := by
      apply within_of_touches
      intro e he
      rw [Event.Touches, last e he]
      exact List.forall_mem_nil _
    constructor
    · have whole := (scans.returned scanned).append fun _ => frees
      exact whole _ List.prefix_rfl sound
    · refine List.pairwise_append.mpr ⟨?_, ?_, before keeps⟩
      · exact List.pairwise_of_forall_mem_list (before keeps)
      · exact List.pairwise_of_forall_mem_list fun _ _ e' he' _ => last e' he'

/-! ## A load that reads a ring -/

/-- A mapping is what `ioremap` answers, and what is opened is what `get_iommu_regs` gives. -/
def Event.Answered (m : Machine) : Event → Prop
  | .ioremap addr size va => ∃ n, va = m.ioremap n addr size
  | .bustOpen mmio => ∃ n capPtr, mmio = decoded m n capPtr
  | _ => True

theorem Event.Dump.answered {e : Event} (h : e.Dump) : e.Answered m := by
  cases e with
  | ioremap => exact h.elim
  | bustOpen => exact h.elim
  | _ => trivial

theorem answered_printk (line : Text) :
    (printk line).Confined (fun _ => True) (Event.Answered m) := confined_emit trivial

theorem answered_getMapping (addr : U64) (size : Nat) :
    (getMapping m addr size).Confined (fun _ => True) (Event.Answered m) := by
  refine confined_get.bind fun g => ?_
  split
  · exact confined_pure _
  · exact (confined_emit ⟨g.idx, rfl⟩).bind fun _ => (confined_emit trivial).bind fun _ =>
      Confined.bind (confined_modify fun _ _ => trivial) fun _ => confined_pure _

theorem answered_getCapSpace (bus dev func : U32) :
    (getCapSpace m bus dev func).Confined (fun _ => True) (Event.Answered m) := by
  have conf : (mapConf m bus dev func).Confined (fun _ => True) (Event.Answered m) :=
    (answered_getMapping _ _).bind fun _ => (answered_printk _).bind fun _ => confined_pure _
  exact conf.bind fun confSpace => (confined_dumpCaps (fun _ _ => trivial) bus dev func
    confSpace).weaken fun _ => Event.Dump.answered

theorem answered_getIommuRegs (capPtr : U64) :
    (getIommuRegs m capPtr).Confined (fun _ => True) (Event.Answered m) := by
  have loads (a : U64) : (load32 m a).Confined (fun _ => True) (Event.Answered m) :=
    (confined_load32 a).weaken fun _ h => h.dump.answered
  refine (confined_emit trivial).bind fun _ => (loads _).bind fun low => (loads _).bind
    fun high => ?_
  dsimp only
  split
  · exact (answered_printk _).bind fun _ => confined_pure _
  split
  · exact confined_pure _
  refine (answered_getMapping _ _).bind fun mmioBase => (answered_printk _).bind fun _ => ?_
  split
  · exact (answered_printk _).bind fun _ => confined_pure _
  · refine Confined.bind ?_ fun _ => confined_pure _
    exact (confined_logRange (fun _ _ => trivial) _ _ _).weaken fun _ h => h.dump.answered

theorem answered_parts : ScanParts m (fun _ es _ => ∀ e ∈ es, Event.Answered m e)
    fun _ es => ∀ e ∈ es, Event.Answered m e := by
  have comp : Composes (fun (_ : Globals) es (_ : Globals) => ∀ e ∈ es, Event.Answered m e)
      fun (_ : Globals) es => ∀ e ∈ es, Event.Answered m e :=
    { nil := fun _ => List.forall_mem_nil _
      append := fun h h' => List.forall_mem_append.mpr ⟨h, h'⟩
      cut := fun h pre e he => h e (pre.subset he)
      later := fun h h' => List.forall_mem_append.mpr ⟨h, h'⟩ }
  have follows {α : Type} {p : Kernel α}
      (h : p.Confined (fun _ => True) (Event.Answered m)) :
      p.Follows (fun _ es _ => ∀ e ∈ es, Event.Answered m e)
        fun _ es => ∀ e ∈ es, Event.Answered m e :=
    comp.of_confined (fun _ => trivial) (fun _ => h) fun _ => id
  refine ⟨comp, fun bus => follows (answered_getCapSpace bus 0 2), follows (answered_printk _),
    fun a => follows ?_, fun capPtr => follows (answered_getIommuRegs capPtr),
    fun _ => follows (confined_emit trivial), fun n capPtr => follows ?_⟩
  · exact (confined_load32 a).weaken fun _ h => h.dump.answered
  · obtain ⟨rest, split, dumps⟩ := bustOpen_split (m := m) (decoded m n capPtr)
    rw [split]
    exact (confined_emit ⟨n, capPtr, rfl⟩).bind fun _ =>
      (dumps _ fun _ _ => trivial).weaken fun _ h => h.dump.answered

/-- One bus answers as in `oneIommu`. Wherever the registers are mapped, they
name two rings of 8 KiB, each with two entries pending from its second page on. -/
def twoRings : Machine where
  mem a :=
    let reg := a % 0x100000
    if a < 0x1000000 then oneIommu.mem a
    else if reg = 0x0f ∨ reg = 0x17 then 0x09
    else if reg = 0x12 ∨ reg = 0x2001 ∨ reg = 0x2009 ∨ reg = 0x2011 ∨ reg = 0x2019 then 0x10
    else if reg = 0x2008 ∨ reg = 0x2018 then 0x20
    else 0
  ioremap n addr size :=
    if size = 4096 then if addr = confAddr 0 0 2 ∧ n = 0 then 0x10000 else 0
    else if n ≤ nVaddr then 0x1000000 + BitVec.ofNat 64 (0x100000 * n)
    else 0
  physToVirt p := p + 0xffff888000000000

theorem twoRings_unmapped {bus : U32} (other : bus = 0x40 ∨ bus = 0x80 ∨ bus = 0xc0) (n : Nat) :
    twoRings.mapped n (confAddr bus 0 2) 4096 = 0 := by
  have outside : confAddr bus 0 2 ≠ confAddr 0 0 2 := by
    rcases other with rfl | rfl | rfl <;> decide
  have refused : twoRings.ioremap n (confAddr bus 0 2) 4096 = 0 := by
    dsimp only [twoRings]
    rw [if_pos rfl, if_neg fun both => outside both.1]
  rw [Machine.mapped, refused, ite_self]

theorem twoRings_lists : Lists twoRings.mem 0x10000 [0x40] [0x10040, 0x10040] :=
  ⟨.cons (by decide) .nil, .inr ⟨by decide, [0x10040], by decide, .last (by decide)⟩⟩

theorem twoRings_tour : Tours twoRings busnums .start
    (capRange 0x10000 0x40 :: capRange 0x10000 0 ::
      (Tour.start.mapped.allRanges twoRings [0x10040, 0x10040] ++ []))
    (Tour.start.mapped.all twoRings [0x10040, 0x10040]).mapped.mapped.mapped := by
  have space : Tour.start.space twoRings 0 = 0x10000 := by decide
  have some : Tour.start.space twoRings 0 ≠ 0 := by
    rw [space]
    decide
  have first := Tours.present some
    (space.symm ▸ twoRings_lists) (.absent (twoRings_unmapped (.inl rfl) _)
      (.absent (twoRings_unmapped (.inr (.inl rfl)) _)
        (.absent (twoRings_unmapped (.inr (.inr rfl)) _) .nil)))
  rwa [space] at first

/-- The registers of `twoRings`, as call number `i` maps them. -/
def twoRingsRegs (i : Nat) : U64 := 0x1000000 + BitVec.ofNat 64 (0x100000 * i)

theorem twoRings_placed {i : Nat} (hi : i < 51) {k : RingKind} (known : k ∈ [comTbl, eventLog]) :
    k.Placed twoRings (twoRingsRegs i) := by
  have all : ∀ i < 51, ∀ k ∈ [comTbl, eventLog],
      k.offset twoRings (twoRingsRegs i) (k.headPtr twoRings (twoRingsRegs i)) = 4096 ∧
      k.offset twoRings (twoRingsRegs i) (k.tailPtr twoRings (twoRingsRegs i)) = 4128 ∧
      k.lenCode twoRings (twoRingsRegs i) = 9 := by
    decide +kernel
  obtain ⟨head, tail, length⟩ := all i hi k known
  constructor
  · exact head.ge
  · rw [head, tail]
    decide
  · rw [tail, length]
    decide

theorem busterIni_answered {es : List Event} {r : Int} {g g' : Globals}
    (run : (busterIni m).Returns g es r g') : ∀ e ∈ es, e.Answered m := by
  obtain ⟨es₁, seen, g₁, es₂, scanned, freed, rfl⟩ := busterIni_cases run
  obtain ⟨rfl, _⟩ := freed.unique (freeall_returns g₁)
  have scan := (answered_parts.scanAll busnums .initial).returned scanned
  refine List.forall_mem_append.mpr ⟨scan, List.forall_mem_cons.mpr ⟨trivial, ?_⟩⟩
  intro e he
  obtain ⟨va, _, rfl⟩ := List.mem_map.mp he
  trivial

theorem twoRings_sound {es : List Event} {r : Int} {g' : Globals}
    (run : (busterIni twoRings).Returns .initial es r g') : ∀ e ∈ es, e.Sound twoRings := by
  have answered := busterIni_answered run
  have dumped := ((busterIni_tours twoRings).2 es r g' run _).mp ⟨_, twoRings_tour⟩
  have fit : ∀ w ∈ ranges es, (twoRings.call w).Fits := by
    rw [dumped]
    decide +kernel
  intro e he
  have origin := answered e he
  cases e with
  | ioremap addr size va =>
    obtain ⟨n, rfl⟩ := origin
    rintro rfl nonnull
    have space : twoRings.ioremap n addr 4096 = 0x10000 := by
      dsimp only [twoRings] at nonnull ⊢
      rw [if_pos rfl] at nonnull ⊢
      exact if_pos (by_contra fun other => nonnull (if_neg other))
    rw [space]
    exact .last (by decide) (by decide)
  | logRange start limit msg =>
    exact fit _ (List.mem_filterMap.mpr ⟨_, he, rfl⟩)
  | bustOpen mmio =>
    obtain ⟨n, capPtr, rfl⟩ := origin
    intro nonnull
    unfold decoded Machine.mapped at nonnull ⊢
    split at nonnull
    · rename_i named
      rw [if_pos named]
      split at nonnull
      · rename_i pass
        rw [if_pos pass]
        have regs : twoRings.ioremap n (baseAddr twoRings.mem capPtr) (512 * 1024) =
            twoRingsRegs n := if_pos pass
        rw [regs]
        exact fun k known _ => twoRings_placed (Nat.lt_succ_of_le pass) known
      · exact absurd rfl nonnull
    · exact absurd rfl nonnull
  | _ => trivial

/-- The load is sound throughout, and it reads the command buffer. -/
theorem twoRings_reads_owned : ∃ es r g', (busterIni twoRings).Returns .initial es r g' ∧
    (∀ e ∈ es, e.Sound twoRings) ∧
    (∃ w ∈ ranges es, w.2.2 = comTbl.msg ∧ (twoRings.call w).refusal = none) ∧
    (memory twoRings).Respects ∅ es ∧ es.Pairwise fun e e' => e.Unmaps → e'.touched = [] := by
  obtain ⟨es, r, g', run⟩ :=
    (busterIni_tours twoRings).1.mpr ⟨_, _, twoRings_tour, by decide +kernel⟩
  have dumped := ((busterIni_tours twoRings).2 es r g' run _).mp ⟨_, twoRings_tour⟩
  have sound := twoRings_sound run
  refine ⟨es, r, g', run, sound, ⟨comTbl.window twoRings 0x1100000, ?_, rfl, by decide⟩,
    busterIni_reads_owned run.emitted sound⟩
  rw [dumped]
  decide +kernel

end Buster
