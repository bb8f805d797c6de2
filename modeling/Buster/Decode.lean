import Buster.Capability
import Buster.Iommu
import Buster.Reads

/-!
# What becomes of a block

`get_iommu_regs` makes a mapping of registers of a block, or NULL, and dumps the
first pages of them; `bust_open` dumps a window of each ring. All of these
ranges are made of quad words. So a visit to a block ends unless it dumps a range
that the block loop never leaves.
-/

namespace Buster

open Imp.Prog

/-- The block is enabled and has a base. -/
def NamesBase (mem : Mem) (capPtr : U64) : Prop :=
  mem.load32 (capPtr + 4) &&& 0x1 ≠ 0 ∧ baseAddr mem capPtr ≠ 0

instance (mem : Mem) (capPtr : U64) : Decidable (NamesBase mem capPtr) :=
  inferInstanceAs (Decidable (_ ∧ _))

/-- What `get_iommu_regs` gives for a block, when call number `n` is the next to `get_mapping`. -/
def decoded (m : Machine) (n : Nat) (capPtr : U64) : U64 :=
  if NamesBase m.mem capPtr then m.mapped n (baseAddr m.mem capPtr) (512 * 1024) else 0

def afterVisit (m : Machine) (n : Nat) (capPtr : U64) : Nat :=
  if NamesBase m.mem capPtr then nextCall n else n

variable {m : Machine}

/-- Everything that dumps keeps the number of the next call. -/
theorem plain_logRange (n : Nat) (start limit : U64) (msg : Text) :
    (logRange m start limit msg).Confined (fun g => g.idx = n) Event.Plain :=
  (confined_logRange (fun _ h => h) start limit msg).weaken fun _ h => h.dump.plain

theorem getIommuRegs_spec {capPtr mmio : U64} {g g' : Globals} {es : List Event}
    (run : (getIommuRegs m capPtr).Returns g es mmio g') :
    mmio = decoded m g.idx capPtr ∧ g'.idx = afterVisit m g.idx capPtr ∧
      ∃ rest, es = .getIommuRegs capPtr :: rest ∧ ∀ e ∈ rest, e.Plain := by
  obtain ⟨es₁, split, run₁⟩ := (emit_returns _ g).rest run
  obtain ⟨es₂, rfl, run₂⟩ := (load32_returns m _ g).rest run₁
  obtain ⟨es₃, rfl, run₃⟩ := (load32_returns m _ g).rest run₂
  suffices rest : mmio = decoded m g.idx capPtr ∧ g'.idx = afterVisit m g.idx capPtr ∧
      ∀ e ∈ es₃, e.Plain by
    obtain ⟨value, calls, plain⟩ := rest
    refine ⟨value, calls, [Event.load (capPtr + 4) 4] ++
      ([Event.load (capPtr + 8) 4] ++ es₃), split, ?_⟩
    simp only [List.forall_mem_append, List.forall_mem_singleton]
    exact ⟨trivial, trivial, plain⟩
  unfold decoded afterVisit
  change Returns (if _ = _ then _ else if baseAddr m.mem capPtr = 0 then _ else _) _ _ _ _ at run₃
  by_cases disabled : m.mem.load32 (capPtr + 4) &&& 0x1 = 0
  · rw [if_pos disabled] at run₃
    obtain ⟨es₄, rfl, run₄⟩ := (printk_returns _ g).rest run₃
    obtain ⟨rfl, rfl, rfl⟩ := returns_pure.mp run₄
    have off : ¬ NamesBase m.mem capPtr := fun h => h.1 disabled
    rw [if_neg off, if_neg off]
    exact ⟨rfl, rfl, List.forall_mem_singleton.mpr trivial⟩
  rw [if_neg disabled] at run₃
  by_cases null : baseAddr m.mem capPtr = 0
  · rw [if_pos null] at run₃
    obtain ⟨rfl, rfl, rfl⟩ := returns_pure.mp run₃
    have off : ¬ NamesBase m.mem capPtr := fun h => h.2 null
    rw [if_neg off, if_neg off]
    exact ⟨rfl, rfl, by intro e he; cases he⟩
  rw [if_neg null] at run₃
  have names : NamesBase m.mem capPtr := ⟨disabled, null⟩
  rw [if_pos names, if_pos names]
  obtain ⟨mapEvents, g₁, mapped, calls, maps⟩ :=
    getMapping_ends m (baseAddr m.mem capPtr) (512 * 1024) g
  obtain ⟨es₄, rfl, run₄⟩ := mapped.rest run₃
  obtain ⟨es₅, rfl, run₅⟩ := (printk_returns _ g₁).rest run₄
  suffices rest : mmio = m.mapped g.idx (baseAddr m.mem capPtr) (512 * 1024) ∧
      g'.idx = g₁.idx ∧ ∀ e ∈ es₅, e.Plain by
    obtain ⟨value, kept, plain⟩ := rest
    refine ⟨value, kept.trans calls, ?_⟩
    simp only [List.forall_mem_append, List.forall_mem_singleton]
    exact ⟨fun e he => (maps e he).plain, trivial, plain⟩
  by_cases failed : m.mapped g.idx (baseAddr m.mem capPtr) (512 * 1024) = 0
  · rw [if_pos failed] at run₅
    obtain ⟨es₆, rfl, run₆⟩ := (printk_returns _ g₁).rest run₅
    obtain ⟨rfl, rfl, rfl⟩ := returns_pure.mp run₆
    exact ⟨failed.symm, rfl, List.forall_mem_singleton.mpr trivial⟩
  · rw [if_neg failed] at run₅
    obtain ⟨es₆, _, g₂, es₇, logged, last, rfl⟩ := returns_bind.mp run₅
    obtain ⟨rfl, rfl, rfl⟩ := returns_pure.mp last
    obtain ⟨kept, plain⟩ := (plain_logRange g₁.idx _ _ _).returns rfl logged
    exact ⟨rfl, kept, by simpa using plain⟩

theorem bustOpen_spec {mmio : U64} {g g' : Globals} {es : List Event}
    (run : (bustOpen m mmio).Returns g es () g') :
    g'.idx = g.idx ∧ ∃ rest, es = .bustOpen mmio :: rest ∧ ∀ e ∈ rest, e.Plain := by
  obtain ⟨dump, split, dumps⟩ := bustOpen_split (m := m) mmio
  rw [split] at run
  obtain ⟨rest, parts, run₁⟩ := (emit_returns _ g).rest run
  obtain ⟨kept, logs⟩ := (dumps (fun g' => g'.idx = g.idx) fun _ h => h).returns rfl run₁
  exact ⟨kept, rest, parts, fun e he => (logs e he).dump.plain⟩

/-- The first capability of the function on a bus, or NULL. -/
def firstBlock (m : Machine) (n : Nat) (bus : U32) : U64 :=
  let confSpace := m.mapped n (confAddr bus 0 2) 4096
  if confSpace = 0 then 0 else confSpace + (firstCap m.mem confSpace).setWidth 64

theorem getCapSpace_spec {bus : U32} {g g' : Globals} {es : List Event} {capPtr : U64}
    (run : (getCapSpace m bus 0 2).Returns g es capPtr g') :
    capPtr = firstBlock m g.idx bus ∧ g'.idx = nextCall g.idx ∧ ∀ e ∈ es, e.Plain := by
  refine ⟨getCapSpace_value run, ?_⟩
  obtain ⟨mapEvents, g₁, mapped, calls, maps⟩ := getMapping_ends m (confAddr bus 0 2) 4096 g
  obtain ⟨es₁, confSpace, g₂, es₂, conf, run₁, rfl⟩ := returns_bind.mp run
  obtain ⟨es₃, rfl, printed⟩ := mapped.rest conf
  obtain ⟨es₄, rfl, last⟩ := (printk_returns _ g₁).rest printed
  obtain ⟨rfl, rfl, rfl⟩ := returns_pure.mp last
  have dumps : (dumpCaps m bus 0 2 (m.mapped g.idx (confAddr bus 0 2) 4096)).Confined
      (fun g => g.idx = g₂.idx) Event.Dump := confined_dumpCaps (fun _ h => h) bus 0 2 _
  obtain ⟨kept, dumped⟩ := dumps.returns rfl run₁
  refine ⟨kept.trans calls, ?_⟩
  simp only [List.forall_mem_append, List.forall_mem_singleton]
  exact ⟨⟨fun e he => (maps e he).plain, trivial, by simp⟩, fun e he => (dumped e he).plain⟩

/-! ## The dumps of a block -/

abbrev Range := U64 × U64 × Text

/-- The call that dumps a range. -/
def Machine.call (m : Machine) : Range → LogCall
  | (start, limit, msg) => ⟨m, start, limit, msg⟩

/-- The dump of a register block, if it was mapped. -/
def regsRange (mmio : U64) : List Range :=
  if mmio = 0 then [] else [(mmio, mmio + 4 * 4096, "IOMMU BASE".toList)]

/-- The dumps of the two rings behind a register block. -/
def ringRanges (m : Machine) (mmio : U64) : List Range :=
  if mmio = 0 then [] else [comTbl.window m mmio, eventLog.window m mmio]

@[simp] theorem ranges_append (es fs : List Event) : ranges (es ++ fs) = ranges es ++ ranges fs :=
  List.filterMap_append

theorem ranges_maps {es : List Event} (h : ∀ e ∈ es, e.Maps) : ranges es = [] :=
  filterMap_hidden (fun _ => Event.Maps.no_range) h

theorem getIommuRegs_ranges {capPtr mmio : U64} {g g' : Globals} {es : List Event}
    (run : (getIommuRegs m capPtr).Returns g es mmio g') : ranges es = regsRange mmio := by
  obtain ⟨es₁, rfl, run₁⟩ := (emit_returns _ g).rest run
  obtain ⟨es₂, rfl, run₂⟩ := (load32_returns m _ g).rest run₁
  obtain ⟨es₃, rfl, run₃⟩ := (load32_returns m _ g).rest run₂
  change ranges es₃ = _
  change Returns (if _ = _ then _ else if baseAddr m.mem capPtr = 0 then _ else _) _ _ _ _ at run₃
  split at run₃
  · obtain ⟨es₄, rfl, run₄⟩ := (printk_returns _ g).rest run₃
    obtain ⟨rfl, rfl, rfl⟩ := returns_pure.mp run₄
    rfl
  split at run₃
  · obtain ⟨rfl, rfl, rfl⟩ := returns_pure.mp run₃
    rfl
  obtain ⟨mapEvents, g₁, mapped, _, maps⟩ :=
    getMapping_ends m (baseAddr m.mem capPtr) (512 * 1024) g
  obtain ⟨es₄, rfl, run₄⟩ := mapped.rest run₃
  obtain ⟨es₅, rfl, run₅⟩ := (printk_returns _ g₁).rest run₄
  rw [ranges_append, ranges_maps maps]
  change ranges es₅ = _
  split at run₅
  · rename_i failed
    obtain ⟨es₆, rfl, run₆⟩ := (printk_returns _ g₁).rest run₅
    obtain ⟨rfl, rfl, rfl⟩ := returns_pure.mp run₆
    rfl
  · rename_i done
    obtain ⟨es₆, _, g₂, es₇, logged, last, rfl⟩ := returns_bind.mp run₅
    obtain ⟨rfl, rfl, rfl⟩ := returns_pure.mp last
    have dumped : ranges es₆ = [_] := ((dumps_logRange _ _ _) g₁).2 _ _ _ logged
    rw [List.append_nil, dumped, regsRange, if_neg done]

theorem bustOpen_ranges {mmio : U64} {g g' : Globals} {es : List Event} {u : Unit}
    (run : (bustOpen m mmio).Returns g es u g') : ranges es = ringRanges m mmio := by
  by_cases null : mmio = 0
  · obtain ⟨es₁, rfl, run₁⟩ := (emit_returns _ g).rest run
    rw [if_pos null] at run₁
    obtain ⟨rfl, _⟩ := returns_pure.mp run₁
    rw [ringRanges, if_pos null]
    rfl
  · have dumped : ranges es = [_, _] := ((dumps_bustOpen null) g).2 _ _ _ run
    rw [dumped, ringRanges, if_neg null]

/-! ## Ranges of quad words -/

theorem capRange_fits (m : Machine) (capPtr : U64) :
    (m.call (capPtr, capPtr + 0x18, "capabilites".toList)).Fits := by
  have few : (capPtr + 0x18).toNat - capPtr.toNat ≤ 24 := by bv_omega
  refine .inr ⟨?_, fun long => ?_⟩
  · dsimp only [Machine.call]
    bv_omega
  · dsimp only [Machine.call] at long
    omega

theorem regs_whole (va : U64) : ((va + 4 * 4096).toNat - va.toNat) % 8 = 0 := by bv_omega

theorem window_whole (k : RingKind) (m : Machine) (mmio : U64) :
    ((k.window m mmio).2.1.toNat - (k.window m mmio).1.toNat) % 8 = 0 := by
  have head := toNat_and_getMask (m.mem.load64 (mmio + k.headOff)) (a := 4) (b := 18) (by decide)
  have tail := toNat_and_getMask (m.mem.load64 (mmio + k.tailOff)) (a := 4) (b := 18) (by decide)
  have page : (16 * 256 : U64).toNat = 4096 := rfl
  rw [RingKind.window, BitVec.toNat_sub, BitVec.toNat_add, BitVec.toNat_add, RingKind.headPtr,
    RingKind.tailPtr, head, tail, page]
  omega

/-! ## Which visits end -/

theorem getIommuRegs_ends_iff (capPtr : U64) (g : Globals) :
    (getIommuRegs m capPtr).Ends g ↔
      ∀ w ∈ regsRange (decoded m g.idx capPtr), (m.call w).Fits := by
  refine (emit_returns _ g).ends_bind.trans ?_
  refine (load32_returns m _ g).ends_bind.trans ?_
  refine (load32_returns m _ g).ends_bind.trans ?_
  change (if _ = _ then _ else if baseAddr m.mem capPtr = 0 then _ else _ : Kernel U64).Ends g ↔ _
  have none (off : ¬ NamesBase m.mem capPtr) :
      ∀ w ∈ regsRange (decoded m g.idx capPtr), (m.call w).Fits := by
    rw [decoded, if_neg off, regsRange, if_pos rfl]
    exact List.forall_mem_nil _
  by_cases disabled : m.mem.load32 (capPtr + 4) &&& 0x1 = 0
  · rw [if_pos disabled]
    refine iff_of_true ?_ (none fun h => h.1 disabled)
    exact (printk_returns _ g).ends_bind.mpr (pure_returns _ g).ends
  rw [if_neg disabled]
  by_cases null : baseAddr m.mem capPtr = 0
  · rw [if_pos null]
    exact iff_of_true (pure_returns _ g).ends (none fun h => h.2 null)
  rw [if_neg null, decoded, if_pos ⟨disabled, null⟩]
  obtain ⟨_, g₁, mapped, _⟩ := getMapping_ends m (baseAddr m.mem capPtr) (512 * 1024) g
  refine mapped.ends_bind.trans ((printk_returns _ g₁).ends_bind.trans ?_)
  unfold regsRange
  by_cases failed : m.mapped g.idx (baseAddr m.mem capPtr) (512 * 1024) = 0
  · rw [if_pos failed, if_pos failed]
    refine iff_of_true ?_ (List.forall_mem_nil _)
    exact (printk_returns _ g₁).ends_bind.mpr (pure_returns _ g₁).ends
  · rw [if_neg failed, if_neg failed, List.forall_mem_singleton]
    refine (ends_bind fun _ g₂ => (pure_returns _ g₂).ends).trans ?_
    exact LogCall.ends_iff (c := m.call (_, _, "IOMMU BASE".toList)) (regs_whole _) g₁

theorem dumpRing_ends_iff (k : RingKind) (mmio : U64) (g : Globals) :
    (dumpRing m k mmio).Ends g ↔ (m.call (k.window m mmio)).Fits := by
  obtain ⟨_, g₁, range, _⟩ := ringRange_returns (m := m) k mmio g
  exact range.ends_bind.trans
    (LogCall.ends_iff (c := m.call (k.window m mmio)) (window_whole k m mmio) g₁)

theorem bustOpen_ends_iff (mmio : U64) (g : Globals) :
    (bustOpen m mmio).Ends g ↔ ∀ w ∈ ringRanges m mmio, (m.call w).Fits := by
  refine (emit_returns _ g).ends_bind.trans ?_
  unfold ringRanges
  by_cases null : mmio = 0
  · rw [if_pos null, if_pos null]
    exact iff_of_true (pure_returns _ g).ends (List.forall_mem_nil _)
  · rw [if_neg null, if_neg null, List.forall_mem_cons, List.forall_mem_singleton]
    constructor
    · rintro ⟨_, _, _, run⟩
      obtain ⟨_, _, g₁, _, first, rest, _⟩ := returns_bind.mp run
      exact ⟨(dumpRing_ends_iff comTbl mmio g).mp first.ends,
        (dumpRing_ends_iff eventLog mmio g₁).mp rest.ends⟩
    · rintro ⟨first, second⟩
      refine (ends_bind fun _ g₁ => ?_).mpr ((dumpRing_ends_iff comTbl mmio g).mpr first)
      exact (dumpRing_ends_iff eventLog mmio g₁).mpr second

/-- What is dumped of these registers, and of the rings behind them, does not hang. -/
def RegsFit (m : Machine) (mmio : U64) : Prop :=
  ∀ w ∈ regsRange mmio ++ ringRanges m mmio, (m.call w).Fits

instance (m : Machine) (mmio : U64) : Decidable (RegsFit m mmio) :=
  inferInstanceAs (Decidable (∀ w ∈ _, _))

/-! ## Where dumps fit -/

/-- Every dump that the program can be seen to begin is of a range that fits. -/
def DumpsFit {α : Type} (m : Machine) (p : Kernel α) (g : Globals) : Prop :=
  ∀ es, p.Emitted g es → ∀ w ∈ ranges es, (m.call w).Fits

/-- Where its dumps fit, the program ends. -/
def Settles {α : Type} (m : Machine) (p : Kernel α) : Prop := ∀ g, DumpsFit m p g → p.Ends g

section fits
variable {α β : Type} {p : Kernel α} {f : α → Kernel β} {g g' : Globals} {es : List Event} {a : α}

theorem DumpsFit.first (h : DumpsFit m (p >>= f) g) : DumpsFit m p g :=
  fun es emitted => h es (emitted_bind.mpr (.inl emitted))

theorem DumpsFit.rest (h : DumpsFit m (p >>= f) g) (run : p.Returns g es a g') :
    DumpsFit m (f a) g' := by
  intro fs emitted w hw
  apply h (es ++ fs) (run.emitted_bind.mpr (.inr ⟨fs, emitted, rfl⟩))
  rw [ranges_append]
  exact List.mem_append_right _ hw

theorem DumpsFit.round {body : β → Kernel (β ⊕ α)} {b : β} (h : DumpsFit m (loop body b) g) :
    DumpsFit m (body b) g := fun es emitted => h es (emitted_loop.mpr (.inl emitted))

theorem DumpsFit.next {body : β → Kernel (β ⊕ α)} {b b' : β} (h : DumpsFit m (loop body b) g)
    (run : (body b).Returns g es (.inl b') g') : DumpsFit m (loop body b') g' := by
  intro fs emitted w hw
  apply h (es ++ fs) (emitted_loop.mpr (.inr ⟨es, b', g', fs, run, emitted, rfl⟩))
  rw [ranges_append]
  exact List.mem_append_right _ hw

theorem settles_of_ends (h : ∀ g, p.Ends g) : Settles m p := fun g _ => h g

theorem settles_emit (e : Event) : Settles m (emit e) :=
  settles_of_ends fun g => (emit_returns e g).ends

theorem settles_pure (a : α) : Settles m (pure a : Kernel α) :=
  settles_of_ends fun g => (pure_returns a g).ends

theorem Settles.bind (h : Settles m p) (hf : ∀ a, Settles m (f a)) : Settles m (p >>= f) := by
  intro g fit
  obtain ⟨es, a, g', run⟩ := h g fit.first
  exact run.ends_bind.mpr (hf a g' (fit.rest run))

theorem settles_logRange (start limit : U64) (msg : Text) :
    Settles m (logRange m start limit msg) := by
  intro g fit
  have fits := fit _ (logRange_called m start limit msg g) (start, limit, msg) List.mem_cons_self
  obtain ⟨es, g', run, _⟩ := fits.reads_inside g
  exact run.ends

theorem settles_load32 (a : U64) : Settles m (load32 m a) :=
  (settles_emit _).bind fun _ => settles_pure _

theorem settles_getIommuRegs (capPtr : U64) : Settles m (getIommuRegs m capPtr) := by
  refine (settles_emit _).bind fun _ => (settles_load32 _).bind fun low =>
    (settles_load32 _).bind fun high => ?_
  dsimp only
  split
  · exact (settles_emit _).bind fun _ => settles_pure _
  split
  · exact settles_pure _
  have mapped (addr : U64) : Settles m (getMapping m addr (512 * 1024)) := by
    apply settles_of_ends
    intro g
    obtain ⟨_, _, run, _⟩ := getMapping_ends m addr (512 * 1024) g
    exact run.ends
  refine (mapped _).bind fun mmioBase => (settles_emit _).bind fun _ => ?_
  split
  · exact (settles_emit _).bind fun _ => settles_pure _
  · exact (settles_logRange _ _ _).bind fun _ => settles_pure _

theorem settles_dumpRing (k : RingKind) (mmio : U64) : Settles m (dumpRing m k mmio) := by
  have range : Settles m (ringRange m k mmio) := by
    apply settles_of_ends
    intro g
    obtain ⟨_, _, run, _⟩ := ringRange_returns (m := m) k mmio g
    exact run.ends
  exact range.bind fun _ => settles_logRange _ _ _

theorem settles_bustOpen (mmio : U64) : Settles m (bustOpen m mmio) := by
  refine (settles_emit _).bind fun _ => ?_
  split
  · exact settles_pure _
  · exact (settles_dumpRing comTbl mmio).bind fun _ => settles_dumpRing eventLog mmio

end fits

/-! ## What dumps fit in any case -/

def Event.Fits (m : Machine) (e : Event) : Prop := ∀ w, e.range = some w → (m.call w).Fits

theorem fits_of_hidden {e : Event} (h : e.range = none) : e.Fits m := by
  intro w dumped
  rw [h] at dumped
  cases dumped

theorem fits_ranges {es : List Event} (h : ∀ e ∈ es, e.Fits m) :
    ∀ w ∈ ranges es, (m.call w).Fits := by
  intro w hw
  obtain ⟨e, he, dumped⟩ := List.mem_filterMap.mp hw
  exact h e he w dumped

theorem fits_quiet {α : Type} {p : Kernel α} (h : p.Confined (fun _ => True) Event.Quiet) :
    p.Confined (fun _ => True) (Event.Fits m) :=
  h.weaken fun _ quiet => fits_of_hidden quiet.no_range

theorem fits_printk (line : Text) : (printk line).Confined (fun _ => True) (Event.Fits m) :=
  confined_emit (fits_of_hidden rfl)

theorem fits_load32 (a : U64) : (load32 m a).Confined (fun _ => True) (Event.Fits m) :=
  fits_quiet (confined_load32 a)

theorem fits_logCap (bus dev func capOff : U32) (capPtr : U64) :
    (logCap m bus dev func capOff capPtr).Confined (fun _ => True) (Event.Fits m) := by
  refine (fits_printk _).bind fun _ => ?_
  obtain ⟨rest, split, qwords⟩ :=
    logRange_split (m := m) capPtr (capPtr + 0x18) "capabilites".toList
  rw [split]
  refine (confined_emit ?_).bind fun _ =>
    fits_quiet ((qwords _ fun _ _ => trivial).weaken fun _ => Event.Qwords.quiet)
  intro w dumped
  cases dumped
  exact capRange_fits m capPtr

/-- The dumps of `get_cap_space` are short. -/
theorem fits_getCapSpace (bus dev func : U32) :
    (getCapSpace m bus dev func).Confined (fun _ => True) (Event.Fits m) := by
  have mapped : (mapConf m bus dev func).Confined (fun _ => True) (Event.Fits m) :=
    ((confined_getMapping m _ _).weaken fun _ maps => fits_of_hidden maps.no_range).bind fun _ =>
      (fits_printk _).bind fun _ => confined_pure _
  refine mapped.bind fun confSpace => ?_
  unfold dumpCaps
  split
  · exact (fits_printk _).bind fun _ => confined_pure _
  · refine (fits_load32 _).bind fun _ => Confined.bind (confined_loop ?_ _) fun w =>
      (fits_logCap _ _ _ _ _).bind fun _ => confined_pure _
    intro w
    unfold capRound
    split
    · exact (fits_logCap _ _ _ _ _).bind fun _ => (fits_load32 _).bind fun _ => confined_pure _
    · exact confined_pure _

end Buster
