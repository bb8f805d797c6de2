import Mathlib.Data.List.Perm.Basic
import Buster.LogRange

/-!
# The table of mappings

`get_mapping` enters every address it obtains in the next slot of `vaddrs`,
which `freeall` goes through. The table has `nVaddr` slots; the guard lets one
more call pass.
-/

namespace Buster

open Imp.Prog

/-- The store is seen as an event; past the table it changes nothing else here. -/
def Globals.enter (g : Globals) (ptr : U64) : Globals :=
  { g with vaddrs := g.vaddrs.setIfInBounds g.idx ptr, idx := g.idx + 1 }

/-- Only this function calls `ioremap`, so `idx` also numbers the calls. -/
def getMapping (m : Machine) (addr : U64) (size : Nat) : Kernel U64 := do
  let g ← get
  if g.idx > nVaddr then
    return 0
  else
    let ptr := m.ioremap g.idx addr size
    emit (.ioremap addr size ptr)
    emit (.storeVaddr g.idx)
    modify fun g => g.enter ptr
    return ptr

def iounmapAll : List U64 → Kernel Unit
  | [] => pure ()
  | va :: vas => do
    if va ≠ 0 then
      emit (.iounmap va)
    iounmapAll vas

/-- `dump_file` and `dump_dir` are never set, so no debugfs entry is removed. -/
def freeall : Kernel Unit := do
  printk (busterInfo ++ "freeing all\n".toList)
  let g ← get
  iounmapAll g.vaddrs.toList

/-- A sequence of `get_mapping` calls, given by their addresses and sizes. -/
def mapAll (m : Machine) : List (U64 × Nat) → Kernel Unit
  | [] => pure ()
  | (addr, size) :: calls => do
    let _ ← getMapping m addr size
    mapAll m calls

/-! ## What is to hold of a run -/

/-- The addresses `ioremap` gave out, failures aside. -/
def obtained (es : List Event) : List U64 :=
  (es.filterMap fun | .ioremap _ _ va => some va | _ => none).filter (· ≠ 0)

def unmapped (es : List Event) : List U64 :=
  es.filterMap fun | .iounmap va => some va | _ => none

def Event.InTable : Event → Prop
  | .storeVaddr i => i < nVaddr
  | _ => True

/-- All stores into `vaddrs` are inside it, and what was obtained is unmapped,
each address as often as it was obtained. -/
def WellMapped (es : List Event) : Prop :=
  (∀ e ∈ es, e.InTable) ∧ (unmapped es).Perm (obtained es)

@[simp] theorem obtained_append (es fs : List Event) :
    obtained (es ++ fs) = obtained es ++ obtained fs := by
  simp only [obtained, List.filterMap_append, List.filter_append]

@[simp] theorem unmapped_append (es fs : List Event) :
    unmapped (es ++ fs) = unmapped es ++ unmapped fs := List.filterMap_append

theorem unmapped_iounmaps (vas : List U64) : unmapped (vas.map Event.iounmap) = vas := by
  induction vas with
  | nil => rfl
  | cons va vas ih => exact congrArg (va :: ·) ih

theorem obtained_iounmaps (vas : List U64) : obtained (vas.map Event.iounmap) = [] := by
  induction vas with
  | nil => rfl
  | cons va vas ih => exact ih

theorem getMapping_returns (m : Machine) (addr : U64) (size : Nat) {g : Globals}
    (room : g.idx ≤ nVaddr) :
    let ptr := m.ioremap g.idx addr size
    (getMapping m addr size).Returns g [.ioremap addr size ptr, .storeVaddr g.idx] ptr
      (g.enter ptr) := by
  intro ptr
  have pass : ¬ g.idx > nVaddr := by omega
  refine (get_returns g).bind ?_
  simp only [if_neg pass]
  exact (emit_returns _ g).bind ((emit_returns _ g).bind
    ((modify_returns _ g).bind (pure_returns _ _)))

theorem getMapping_refused (m : Machine) (addr : U64) (size : Nat) {g : Globals}
    (full : nVaddr < g.idx) : (getMapping m addr size).Returns g [] 0 g := by
  refine (get_returns g).bind ?_
  simp only [if_pos full]
  exact pure_returns _ g

/-- What call number `n` of `get_mapping` answers. -/
def Machine.mapped (m : Machine) (n : Nat) (addr : U64) (size : Nat) : U64 :=
  if n ≤ nVaddr then m.ioremap n addr size else 0

def nextCall (n : Nat) : Nat := if n ≤ nVaddr then n + 1 else n

def Event.Maps : Event → Prop
  | .ioremap _ _ _ | .storeVaddr _ => True
  | _ => False

theorem getMapping_ends (m : Machine) (addr : U64) (size : Nat) (g : Globals) :
    ∃ es g', (getMapping m addr size).Returns g es (m.mapped g.idx addr size) g' ∧
      g'.idx = nextCall g.idx ∧ ∀ e ∈ es, e.Maps := by
  unfold Machine.mapped nextCall
  by_cases pass : g.idx ≤ nVaddr
  · rw [if_pos pass, if_pos pass]
    refine ⟨_, _, getMapping_returns m addr size pass, rfl, ?_⟩
    intro e he
    rcases List.mem_pair.mp he with rfl | rfl <;> trivial
  · rw [if_neg pass, if_neg pass]
    exact ⟨[], g, getMapping_refused m addr size (by omega), rfl, by intro e he; cases he⟩

theorem Event.Maps.plain {e : Event} (h : e.Maps) : e.Plain := by
  cases e with
  | getIommuRegs => exact h
  | bustOpen => exact h
  | _ => trivial

theorem confined_getMapping (m : Machine) (addr : U64) (size : Nat) :
    (getMapping m addr size).Confined (fun _ => True) Event.Maps := by
  refine confined_get.bind fun g => ?_
  split
  · exact confined_pure _
  · exact (confined_emit trivial).bind fun _ => (confined_emit trivial).bind fun _ =>
      Confined.bind (confined_modify fun _ _ => trivial) fun _ => confined_pure _

/-! ## Up to the capacity -/

/-- The table holds the results `rs` of the calls so far, in order. -/
def Globals.Holds (g : Globals) (rs : List U64) : Prop :=
  g.idx = rs.length ∧ g.vaddrs.toList = rs ++ List.replicate (nVaddr - rs.length) 0

theorem holds_initial : Globals.initial.Holds [] := ⟨rfl, rfl⟩

theorem Globals.Holds.enter {g : Globals} {rs : List U64} (h : g.Holds rs)
    (room : rs.length < nVaddr) (ptr : U64) : (g.enter ptr).Holds (rs ++ [ptr]) := by
  obtain ⟨count, table⟩ := h
  refine ⟨by simp [Globals.enter, count], ?_⟩
  have free : nVaddr - rs.length = nVaddr - (rs.length + 1) + 1 := by omega
  have entered : (g.enter ptr).vaddrs.toList = g.vaddrs.toList.set rs.length ptr := by
    simp [Globals.enter, count, Vector.toList_setIfInBounds]
  rw [entered, table, List.set_append_right _ _ (Nat.le_refl _), Nat.sub_self, free,
    List.replicate_succ, List.set_cons_zero]
  simp

theorem mapAll_fits (m : Machine) {g : Globals} {rs : List U64} (h : g.Holds rs)
    (calls : List (U64 × Nat)) (fits : rs.length + calls.length ≤ nVaddr) :
    ∃ es g' new, (mapAll m calls).Returns g es () g' ∧ g'.Holds (rs ++ new) ∧
      obtained es = new.filter (· ≠ 0) ∧ unmapped es = [] ∧ ∀ e ∈ es, e.InTable := by
  induction calls generalizing g rs with
  | nil => exact ⟨[], g, [], pure_returns _ g, by simpa using h, rfl, rfl, by simp⟩
  | cons call calls ih =>
    obtain ⟨addr, size⟩ := call
    have room : rs.length < nVaddr := by
      simp only [List.length_cons] at fits
      omega
    let ptr := m.ioremap g.idx addr size
    have mapped := getMapping_returns m addr size (by rw [h.1]; omega : g.idx ≤ nVaddr)
    obtain ⟨es, g', new, rest, holds, gained, none, inside⟩ := ih (h.enter room ptr)
      (by simp only [List.length_append, List.length_cons, List.length_nil] at fits ⊢; omega)
    refine ⟨_, g', ptr :: new, mapped.bind rest, by simpa using holds, ?_, ?_, ?_⟩
    · rw [obtained_append, gained]
      exact (List.filter_append [ptr] new).symm
    · rw [unmapped_append, none]
      rfl
    · intro e he
      rcases List.mem_append.mp he with he | he
      · rcases List.mem_pair.mp he with rfl | rfl
        · trivial
        · exact h.1 ▸ room
      · exact inside e he

theorem iounmapAll_returns (vas : List U64) (g : Globals) :
    (iounmapAll vas).Returns g ((vas.filter (· ≠ 0)).map Event.iounmap) () g := by
  induction vas with
  | nil => exact pure_returns _ g
  | cons va vas ih =>
    unfold iounmapAll
    by_cases null : va = 0
    · simpa [null] using ih
    · have one := (emit_returns (Event.iounmap va) g).bind (f := fun _ => iounmapAll vas) ih
      rw [List.filter_cons_of_pos (by simpa using null)]
      simp only [ne_eq, null, not_false_eq_true, ↓reduceIte]
      exact one

theorem freeall_returns (g : Globals) :
    freeall.Returns g (.printk (busterInfo ++ "freeing all\n".toList) ::
      (g.vaddrs.toList.filter (· ≠ 0)).map Event.iounmap) () g := by
  unfold freeall
  exact (printk_returns _ g).bind ((get_returns g).bind (iounmapAll_returns _ g))

theorem Globals.Holds.nonnull {g : Globals} {rs : List U64} (h : g.Holds rs) :
    g.vaddrs.toList.filter (· ≠ 0) = rs.filter (· ≠ 0) := by
  rw [h.2, List.filter_append]
  simp

/-! ## One call too many -/

theorem mapAll_overruns (m : Machine) (g : Globals) (calls : List (U64 × Nat)) :
    ∃ es g', (mapAll m calls).Returns g es () g' ∧
      (g.idx ≤ nVaddr → nVaddr < g.idx + calls.length → .storeVaddr nVaddr ∈ es) := by
  induction calls generalizing g with
  | nil =>
    refine ⟨[], g, pure_returns _ g, ?_⟩
    intro pass long
    simp only [List.length_nil] at long
    omega
  | cons call calls ih =>
    obtain ⟨addr, size⟩ := call
    by_cases pass : g.idx ≤ nVaddr
    · have mapped := getMapping_returns m addr size pass
      obtain ⟨es, g', rest, overrun⟩ := ih (g.enter (m.ioremap g.idx addr size))
      refine ⟨_, g', mapped.bind rest, ?_⟩
      intro _ long
      by_cases last : g.idx = nVaddr
      · simp [last]
      · have next : (g.enter (m.ioremap g.idx addr size)).idx = g.idx + 1 := rfl
        simp only [List.length_cons] at long
        exact List.mem_append_right _ (overrun (by omega) (by omega))
    · obtain ⟨es, g', rest, _⟩ := ih g
      exact ⟨_, g', (getMapping_refused m addr size (by omega)).bind rest,
        fun pass' => absurd pass' pass⟩

theorem overrun_of_many (m : Machine) (calls : List (U64 × Nat)) (many : nVaddr < calls.length) :
    ∃ es g', (mapAll m calls >>= fun _ => freeall).Returns .initial es () g' ∧
      ¬ WellMapped es := by
  obtain ⟨es, g', mapped, overrun⟩ := mapAll_overruns m .initial calls
  refine ⟨_, _, mapped.bind (freeall_returns g'), ?_⟩
  intro ⟨inside, _⟩
  have stored := overrun (Nat.zero_le _) (by simpa [Globals.initial] using many)
  exact absurd (inside _ (List.mem_append_left _ stored)) (Nat.lt_irrefl nVaddr)

/-- The table serves as many mappings as it has slots. The next call still
passes the guard and stores past the end, and its mapping is never removed. -/
theorem wellMapped_iff (m : Machine) (calls : List (U64 × Nat)) :
    ∃ es g', (mapAll m calls >>= fun _ => freeall).Returns .initial es () g' ∧
      (WellMapped es ↔ calls.length ≤ nVaddr) := by
  by_cases fits : calls.length ≤ nVaddr
  · obtain ⟨es, g', new, mapped, holds, gained, none, inside⟩ :=
      mapAll_fits m holds_initial calls (by simpa using fits)
    refine ⟨_, _, mapped.bind (freeall_returns g'), fun _ => fits, fun _ => ⟨?_, ?_⟩⟩
    · intro e he
      rcases List.mem_append.mp he with he | he
      · exact inside e he
      · rcases List.mem_cons.mp he with rfl | he
        · trivial
        · obtain ⟨va, _, rfl⟩ := List.mem_map.mp he
          trivial
    · have removed (line : Text) (vas : List U64) :
          unmapped (es ++ .printk line :: vas.map Event.iounmap) = vas ∧
            obtained (es ++ .printk line :: vas.map Event.iounmap) = obtained es := by
        have split : es ++ .printk line :: vas.map Event.iounmap =
            es ++ ([.printk line] ++ vas.map Event.iounmap) := rfl
        simp only [split, unmapped_append, obtained_append, unmapped_iounmaps, obtained_iounmaps,
          none]
        exact ⟨rfl, List.append_nil _⟩
      rw [(removed _ _).1, (removed _ _).2, holds.nonnull, List.nil_append, gained]
  · obtain ⟨es, g', run, bad⟩ := overrun_of_many m calls (by omega)
    exact ⟨es, g', run, fun well => absurd well bad, fun few => absurd few fits⟩

theorem overrun_fifty_one :
    ∃ es g', (mapAll ⟨fun _ => 0, fun n _ _ => BitVec.ofNat 64 (4096 * (n + 1)), id⟩
        (List.replicate 51 (0xe0002000, 4096)) >>= fun _ => freeall).Returns .initial es () g' ∧
      ¬ WellMapped es :=
  overrun_of_many _ _ (by decide)

end Buster
