import Buster.Lib.Chain
import Buster.Dump
import Buster.Mapping

/-!
# The capability list of a PCI function

`get_cap_space` maps a configuration space and follows the capability list from
the pointer at 0x34, dumping every block and, after the list, the start of the
space.
-/

namespace Buster

open Imp.Prog

/-- `BASE`. The constant fits 32 bits unsigned, and so does the sum made of it. -/
def base : U32 := 0xe0000000

def confAddr (bus dev func : U32) : U64 :=
  (base + (bus <<< 20 ||| dev <<< 15 ||| func <<< 12)).setWidth 64

/-- `"%02x:%02x.%x"`. -/
def location (bus dev func : U32) : Text := hexPad 2 bus ++ ':' :: (hexPad 2 dev ++ '.' :: hex func)

def confLine (bus dev func : U32) (phyAddr vaAddr : U64) : Text :=
  location bus dev func ++ (" -> 0x".toList ++ (hexPad 16 phyAddr ++
    (" -> 0x".toList ++ (hexPad 16 vaAddr ++ ['\n']))))

def capLine (bus dev func capOff : U32) : Text :=
  "capabilites ".toList ++ (location bus dev func ++
    (" + 0x".toList ++ (hexPad 8 capOff ++ ['\n'])))

variable (m : Machine)

def mapConf (bus dev func : U32) : Kernel U64 := do
  let phyAddr := confAddr bus dev func
  let vaAddr ← getMapping m phyAddr 4096
  printk (busterInfo ++ confLine bus dev func phyAddr vaAddr)
  return vaAddr

def logCap (bus dev func capOff : U32) (capPtr : U64) : Kernel Unit := do
  printk (busterInfo ++ capLine bus dev func capOff)
  logRange m capPtr (capPtr + 0x18) "capabilites".toList

/-- `lim_ptr` is always 0x18 past `cap_ptr`. -/
structure CapWalk where
  capOff : U32
  capPtr : U64

def capRound (bus dev func : U32) (confSpace : U64) (w : CapWalk) : Kernel (CapWalk ⊕ CapWalk) := do
  if w.capOff ≠ 0 then
    logCap m bus dev func w.capOff w.capPtr
    let next ← load32 m (w.capPtr + 1)
    let capOff := next &&& 0xff
    return .inl ⟨capOff, confSpace + capOff.setWidth 64⟩
  else
    return .inr w

/-- Everything that `get_cap_space` does once it has tried to map the space. -/
def dumpCaps (bus dev func : U32) (confSpace : U64) : Kernel U64 := do
  if confSpace = 0 then
    printk (busterInfo ++ "CONF VA: NULL\n".toList)
    return 0
  else
    let first ← load32 m (confSpace + 0x34)
    let capOff := first &&& 0xff
    let capPtr := confSpace + capOff.setWidth 64
    let last ← loop (capRound m bus dev func confSpace) ⟨capOff, capPtr⟩
    logCap m bus dev func last.capOff last.capPtr
    return capPtr

/-- The result is NULL when the space is not mapped. -/
def getCapSpace (bus dev func : U32) : Kernel U64 := do
  let confSpace ← mapConf m bus dev func
  dumpCaps m bus dev func confSpace

/-! ## The list in memory -/

/-- The pointer to the next block in the block at an offset. -/
def nextCap (mem : Mem) (confSpace : U64) (o : U8) : U8 := mem (confSpace + o.setWidth 64 + 1)

def firstCap (mem : Mem) (confSpace : U64) : U8 := mem (confSpace + 0x34)

/-- The loop's variables at the block at offset `o`. -/
def CapWalk.at (confSpace : U64) (o : U8) : CapWalk :=
  ⟨o.setWidth 32, confSpace + o.setWidth 64⟩

theorem setWidth_eq_zero {o : U8} : o.setWidth 32 = 0 ↔ o = 0 := by
  constructor
  · intro h
    bv_omega
  · rintro rfl
    rfl

instance : Finite U8 := Finite.of_injective BitVec.toFin fun _ _ => BitVec.eq_of_toFin_eq

theorem setWidth_setWidth (o : U8) : (o.setWidth 32).setWidth 64 = o.setWidth 64 := by
  bv_omega

/-! ## Following it -/

theorem logCap_ends (bus dev func capOff : U32) (capPtr : U64) (g : Globals) :
    (logCap m bus dev func capOff capPtr).Ends g := by
  have whole : ((capPtr + 0x18).toNat - capPtr.toNat) % 8 = 0 := by bv_omega
  have short : 32 ≤ (capPtr + 0x18).toNat - capPtr.toNat → ¬ Wraps capPtr (capPtr + 0x18) := by
    intro long
    bv_omega
  have accepted : checkMsg 0 "capabilites".toList = none := by decide
  obtain ⟨es, u, g', logged⟩ := logRange_ends m g accepted whole short
  exact ⟨_, u, g', (printk_returns _ g).bind logged⟩

theorem capRound_next (bus dev func : U32) (confSpace : U64) {o : U8} (h : o ≠ 0) (g : Globals) :
    ∃ es g', (capRound m bus dev func confSpace (.at confSpace o)).Returns g es
      (.inl (.at confSpace (nextCap m.mem confSpace o))) g' := by
  obtain ⟨es, u, g', logged⟩ :=
    logCap_ends m bus dev func (o.setWidth 32) (confSpace + o.setWidth 64) g
  have going : (CapWalk.at confSpace o).capOff ≠ 0 := fun e => h (setWidth_eq_zero.mp e)
  refine ⟨es ++ ([.load (confSpace + o.setWidth 64 + 1) 4] ++ []), g', ?_⟩
  unfold capRound
  rw [if_pos going]
  refine logged.bind (Returns.bind (returns_load32.mpr ⟨rfl, rfl, rfl⟩) ?_)
  simp only [load32_low, setWidth_setWidth]
  exact pure_returns _ g'

theorem capRound_exit (bus dev func : U32) (confSpace : U64) (g : Globals) :
    (capRound m bus dev func confSpace (.at confSpace 0)).Returns g []
      (.inr (.at confSpace 0)) g := by
  unfold capRound
  rw [if_neg (by simp [CapWalk.at])]
  exact pure_returns _ g

variable {m}

theorem capLoop_ends_of_cells (bus dev func : U32) {confSpace : U64} {o : U8} {os : List U8}
    (h : Chain.Cells (nextCap m.mem confSpace) 0 o os) (g : Globals) :
    ∃ es g', (loop (capRound m bus dev func confSpace) (.at confSpace o)).Returns g es
      (.at confSpace 0) g' := by
  induction h generalizing g with
  | nil => exact ⟨_, _, returns_loop.mpr (.inl (capRound_exit m bus dev func confSpace g))⟩
  | cons ne _ ih =>
    obtain ⟨es₁, g₁, round⟩ := capRound_next m bus dev func confSpace ne g
    obtain ⟨es₂, g₂, rest⟩ := ih g₁
    exact ⟨_, g₂, returns_loop.mpr (.inr ⟨es₁, _, g₁, es₂, round, rest, rfl⟩)⟩

theorem cells_of_capLoop {bus dev func : U32} {confSpace : U64} {o : U8} {g : Globals}
    (h : (loop (capRound m bus dev func confSpace) (.at confSpace o)).Ends g) :
    ∃ os, Chain.Cells (nextCap m.mem confSpace) 0 o os := by
  obtain ⟨es, w, g', run⟩ := h
  refine run.loop_induction (motive := fun b _ _ _ _ => ∀ o, b = .at confSpace o →
    ∃ os, Chain.Cells (nextCap m.mem confSpace) 0 o os) ?_ ?_ o rfl
  · rintro _ g _ _ _ last o rfl
    by_cases ended : o = 0
    · exact ⟨[], ended ▸ .nil⟩
    · obtain ⟨_, _, goes⟩ := capRound_next m bus dev func confSpace ended g
      cases (last.unique goes).2.1
  · rintro _ g _ next _ _ _ _ first ih o rfl
    by_cases ended : o = 0
    · subst ended
      cases (first.unique (capRound_exit m bus dev func confSpace g)).2.1
    · obtain ⟨_, _, goes⟩ := capRound_next m bus dev func confSpace ended g
      obtain ⟨_, same, _⟩ := first.unique goes
      obtain ⟨os, rest⟩ := ih _ (Sum.inl.inj same)
      exact ⟨o :: os, .cons ended rest⟩

/-! ## What it dumps -/

/-- The arguments of the dump of the block at an offset. -/
def capRange (confSpace : U64) (o : U8) : U64 × U64 × Text :=
  (confSpace + o.setWidth 64, confSpace + o.setWidth 64 + 0x18, "capabilites".toList)

theorem dumps_logCap (bus dev func capOff : U32) (capPtr : U64) :
    Dumps (logCap m bus dev func capOff capPtr) [(capPtr, capPtr + 0x18, "capabilites".toList)] :=
  ((confined_printk _).traces fun _ h => h.quiet.no_range).bind fun _ => dumps_logRange _ _ _

theorem dumps_capLoop (bus dev func : U32) {confSpace : U64} {o : U8} {os : List U8}
    (h : Chain.Cells (nextCap m.mem confSpace) 0 o os) :
    Dumps (loop (capRound m bus dev func confSpace) (.at confSpace o))
      (os.map (capRange confSpace)) := by
  induction h with
  | nil =>
    apply Traces.loop_exit (traces_pure _)
    intro g es r g' run
    exact ⟨_, (run.unique (capRound_exit m bus dev func confSpace g)).2.1⟩
  | @cons o os ne _ ih =>
    have going : (CapWalk.at confSpace o).capOff ≠ 0 := fun e => ne (setWidth_eq_zero.mp e)
    have loads : (load32 m (confSpace + o.setWidth 64 + 1)).Traces Event.range [] :=
      (confined_load32 _).traces fun _ => Event.Quiet.no_range
    have round : Dumps (capRound m bus dev func confSpace (.at confSpace o))
        [capRange confSpace o] := by
      unfold capRound
      rw [if_pos going]
      exact Traces.bind (dumps_logCap bus dev func _ _) fun _ => loads.bind fun _ => traces_pure _
    apply Traces.loop_next round ?_ ih
    intro g es r g' run
    obtain ⟨_, _, goes⟩ := capRound_next m bus dev func confSpace ne g
    exact (run.unique goes).2.1

theorem confined_logCap {inv : Globals → Prop}
    (keeps : ∀ g, inv g → inv { g with logId := g.logId + 1 }) (bus dev func capOff : U32)
    (capPtr : U64) : (logCap m bus dev func capOff capPtr).Confined inv Event.Dump :=
  (confined_emit trivial).bind fun _ =>
    (confined_logRange keeps _ _ _).weaken fun _ => Event.Log.dump

theorem confined_dumpCaps {inv : Globals → Prop}
    (keeps : ∀ g, inv g → inv { g with logId := g.logId + 1 }) (bus dev func : U32)
    (confSpace : U64) : (dumpCaps m bus dev func confSpace).Confined inv Event.Dump := by
  have loads (a : U64) : (load32 m a).Confined inv Event.Dump :=
    (confined_load32 a).weaken fun _ => Event.Quiet.dump
  have logs (w : CapWalk) : (logCap m bus dev func w.capOff w.capPtr).Confined inv Event.Dump :=
    confined_logCap keeps bus dev func w.capOff w.capPtr
  unfold dumpCaps
  split
  · exact (confined_emit trivial).bind fun _ => confined_pure _
  · refine (loads _).bind fun _ => Confined.bind (confined_loop ?_ _) fun w =>
      (logs w).bind fun _ => confined_pure _
    intro w
    unfold capRound
    split
    · exact (logs w).bind fun _ => (loads _).bind fun _ => confined_pure _
    · exact confined_pure _

theorem Event.Maps.no_range {e : Event} (h : e.Maps) : e.range = none := by
  cases e with
  | logRange => exact h.elim
  | _ => rfl

theorem mapConf_ends (m : Machine) (bus dev func : U32) (g : Globals) :
    ∃ es g', (mapConf m bus dev func).Returns g es
        (m.mapped g.idx (confAddr bus dev func) 4096) g' ∧ ranges es = [] := by
  obtain ⟨es, g', mapped, _, calls⟩ := getMapping_ends m (confAddr bus dev func) 4096 g
  refine ⟨_, g', mapped.bind (Returns.bind (printk_returns _ g') (pure_returns _ g')), ?_⟩
  rw [ranges, List.filterMap_append, filterMap_hidden (fun _ => Event.Maps.no_range) calls]
  rfl

theorem getCapSpace_ends (m : Machine) (bus dev func : U32) (g : Globals) :
    let confSpace := m.mapped g.idx (confAddr bus dev func) 4096
    (getCapSpace m bus dev func).Ends g ↔ confSpace = 0 ∨
      ∃ os, Chain.Cells (nextCap m.mem confSpace) 0 (firstCap m.mem confSpace) os := by
  intro confSpace
  obtain ⟨es₀, g₀, mapped, _⟩ : ∃ es g', (mapConf m bus dev func).Returns g es confSpace g' ∧
      ranges es = [] := mapConf_ends m bus dev func g
  clear_value confSpace
  have logs (w : CapWalk) (capPtr : U64) (g' : Globals) :
      (logCap m bus dev func w.capOff w.capPtr >>= fun _ => pure capPtr).Ends g' :=
    (ends_bind fun _ g'' => (pure_returns capPtr g'').ends).mpr (logCap_ends m ..)
  unfold getCapSpace
  rw [mapped.ends_bind]
  unfold dumpCaps
  by_cases null : confSpace = 0
  · simp only [null, ↓reduceIte, true_or, iff_true]
    exact (printk_returns _ g₀).ends_bind.mpr (pure_returns _ g₀).ends
  · have first : (load32 m (confSpace + 0x34)).Returns g₀ [.load (confSpace + 0x34) 4]
        (m.mem.load32 (confSpace + 0x34)) g₀ := returns_load32.mpr ⟨rfl, rfl, rfl⟩
    simp only [null, ↓reduceIte, false_or]
    rw [first.ends_bind]
    simp only [load32_low, setWidth_setWidth]
    rw [ends_bind fun w g' => logs w _ g']
    constructor
    · exact cells_of_capLoop
    · rintro ⟨os, cells⟩
      obtain ⟨es, g', run⟩ := capLoop_ends_of_cells bus dev func cells g₀
      exact run.ends

theorem load32_returns (m : Machine) (a : U64) (g : Globals) :
    (load32 m a).Returns g [.load a 4] (m.mem.load32 a) g := returns_load32.mpr ⟨rfl, rfl, rfl⟩

/-- On a list that ends, every block is dumped, then the start of the space. -/
theorem getCapSpace_returns {m : Machine} {bus dev func : U32} {g : Globals} {confSpace : U64}
    (mapped : m.mapped g.idx (confAddr bus dev func) 4096 = confSpace) (nonnull : confSpace ≠ 0)
    {os : List U8}
    (cells : Chain.Cells (nextCap m.mem confSpace) 0 (firstCap m.mem confSpace) os) :
    ∃ es g', (getCapSpace m bus dev func).Returns g es
        (confSpace + (firstCap m.mem confSpace).setWidth 64) g' ∧
      ranges es = os.map (capRange confSpace) ++ [capRange confSpace 0] := by
  obtain ⟨es₀, g₀, conf, none⟩ := mapConf_ends m bus dev func g
  obtain ⟨es₁, g₁, walked⟩ := capLoop_ends_of_cells bus dev func cells g₀
  obtain ⟨es₂, u, g₂, logged⟩ := logCap_ends m bus dev func 0 (confSpace + 0) g₁
  have blocks := ((dumps_capLoop bus dev func cells) g₀).2 _ _ _ walked
  have last := ((dumps_logCap bus dev func 0 (confSpace + 0)) g₁).2 _ _ _ logged
  refine ⟨es₀ ++ ([.load (confSpace + 0x34) 4] ++ (es₁ ++ (es₂ ++ []))), g₂, ?_, ?_⟩
  · unfold getCapSpace
    rw [← mapped] at nonnull
    refine conf.bind ?_
    unfold dumpCaps
    rw [if_neg nonnull, mapped]
    refine (load32_returns m _ g₀).bind ?_
    simp only [load32_low, setWidth_setWidth]
    exact walked.bind (logged.bind (pure_returns _ g₂))
  · simp only [ranges, List.filterMap_append] at none ⊢
    rw [none, blocks, last]
    rfl

theorem getCapSpace_value {m : Machine} {bus dev func : U32} {g g' : Globals} {es : List Event}
    {capPtr : U64} (run : (getCapSpace m bus dev func).Returns g es capPtr g') :
    let confSpace := m.mapped g.idx (confAddr bus dev func) 4096
    capPtr = if confSpace = 0 then 0 else confSpace + (firstCap m.mem confSpace).setWidth 64 := by
  intro confSpace
  obtain ⟨_, conf, g₀, _, first, rest, _⟩ := returns_bind.mp run
  obtain ⟨_, _, mapped, _⟩ := mapConf_ends m bus dev func g
  obtain ⟨_, rfl, _⟩ := first.unique mapped
  change Returns (if confSpace = 0 then _ else _) _ _ _ _ at rest
  split at rest
  · rename_i null
    obtain ⟨_, _, _, _, _, last, _⟩ := returns_bind.mp rest
    rw [if_pos null]
    exact (returns_pure.mp last).2.1
  · rename_i nonnull
    obtain ⟨_, _, _, _, loaded, rest, _⟩ := returns_bind.mp rest
    obtain ⟨_, rfl, _⟩ := returns_load32.mp loaded
    obtain ⟨_, _, _, _, _, rest, _⟩ := returns_bind.mp rest
    obtain ⟨_, _, _, _, _, last, _⟩ := returns_bind.mp rest
    rw [if_neg nonnull, (returns_pure.mp last).2.1, load32_low, setWidth_setWidth]
    rfl

/-- Loading the module hangs exactly when the list of a mapped space runs into
a cycle: some block that it comes to leads back to itself before any pointer 0. -/
theorem getCapSpace_ends_iff (m : Machine) (bus dev func : U32) (g : Globals) :
    let confSpace := m.mapped g.idx (confAddr bus dev func) 4096
    (getCapSpace m bus dev func).Ends g ↔
      confSpace = 0 ∨
        ¬ Chain.MeetsCycle (nextCap m.mem confSpace) 0 (firstCap m.mem confSpace) := by
  intro confSpace
  rw [← Chain.ends_iff]
  exact getCapSpace_ends m bus dev func g

/-- The all-ones space of an absent function: 0xff points to 0xff. -/
theorem getCapSpace_hangs_all_ones :
    ¬ (getCapSpace ⟨fun _ => 0xff, fun _ _ _ => 0xffffc90000000000, id⟩ 0x40 0 2).Ends
      .initial := by
  intro ended
  obtain null | ⟨os, cells⟩ := (getCapSpace_ends ..).mp ended
  · exact absurd null (by decide)
  · have self : Chain.Link (nextCap (fun _ => 0xff) 0xffffc90000000000) 0 0xff 0xff :=
      ⟨by decide, rfl⟩
    exact cells.no_cycle ⟨0xff, .refl, .single self⟩

end Buster
