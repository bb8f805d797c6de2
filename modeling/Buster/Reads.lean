import Buster.Framing

/-!
# What `log_range` reads

The loops step by quad words and by blocks. A call stays inside the range that
it is given when the range is made of whole quad words and the block loop can
leave it.
-/

namespace Buster

open Imp.Prog

/-- A load is wholly inside a range. -/
def Event.Inside (start limit : U64) : Event → Prop
  | .load a n => start.toNat ≤ a.toNat ∧ a.toNat + n ≤ limit.toNat
  | _ => True

def ReadsInside (start limit : U64) (es : List Event) : Prop := ∀ e ∈ es, e.Inside start limit

section reads
variable {m : Machine} {g g' : Globals} {es fs : List Event} {start limit ptr : U64}

theorem readsInside_append : ReadsInside start limit (es ++ fs) ↔
    ReadsInside start limit es ∧ ReadsInside start limit fs := List.forall_mem_append

theorem readsInside_cons {e : Event} : ReadsInside start limit (e :: es) ↔
    e.Inside start limit ∧ ReadsInside start limit es := List.forall_mem_cons

theorem inside_load {a : U64} {n : Nat} : (Event.load a n).Inside start limit ↔
    start.toNat ≤ a.toNat ∧ a.toNat + n ≤ limit.toNat := Iff.rfl

theorem readsInside_printk {line : Text} : ReadsInside start limit (.printk line :: es) ↔
    ReadsInside start limit es := readsInside_cons.trans (and_iff_right trivial)

theorem readsInside_nil : ReadsInside start limit [] := List.forall_mem_nil _

/-- A run of quad words that starts in the range is inside as far as it does not pass the end. -/
theorem loadWords_inside {n : Nat} {ws : List U64}
    (run : (loadWords m n ptr).Returns g es ws g') (above : start.toNat ≤ ptr.toNat)
    (below : ptr.toNat ≤ limit.toNat) :
    ReadsInside start limit es ↔ ptr.toNat + 8 * n ≤ limit.toNat := by
  induction n generalizing ptr es ws with
  | zero =>
    obtain ⟨rfl, _⟩ := returns_pure.mp run
    simp [readsInside_nil, below]
  | succ n ih =>
    obtain ⟨_, rfl, run₁⟩ := (load64_returns m ptr g).rest run
    obtain ⟨es₁, ws, g₁, es₂, later, last, rfl⟩ := returns_bind.mp run₁
    obtain ⟨rfl, _, rfl⟩ := returns_pure.mp last
    rw [List.append_nil, List.singleton_append, readsInside_cons]
    by_cases room : ptr.toNat + 8 ≤ limit.toNat
    · have top := limit.isLt
      have next : (ptr + 8).toNat = ptr.toNat + 8 := by bv_omega
      rw [ih later (by omega) (by omega), next]
      rw [and_iff_right (inside_load.mpr ⟨above, room⟩)]
      omega
    · have outside : ¬ (Event.load ptr 8).Inside start limit := fun h => room h.2
      constructor
      · exact fun h => absurd h.1 outside
      · omega

/-- A comparison reads at most the words it compares with, and all of them when they are equal. -/
theorem sameWords_inside {ws : List U64} {same : Bool}
    (run : (sameWords m ws ptr).Returns g es same g') (above : start.toNat ≤ ptr.toNat)
    (below : ptr.toNat ≤ limit.toNat) :
    (ptr.toNat + 8 * ws.length ≤ limit.toNat → ReadsInside start limit es) ∧
      (same = true → ReadsInside start limit es → ptr.toNat + 8 * ws.length ≤ limit.toNat) := by
  induction ws generalizing ptr es with
  | nil =>
    obtain ⟨rfl, _⟩ := returns_pure.mp run
    exact ⟨fun _ => readsInside_nil, fun _ _ => by simpa using below⟩
  | cons w ws ih =>
    obtain ⟨fs, rfl, run₁⟩ := (load64_returns m ptr g).rest run
    have top := limit.isLt
    rw [List.length_cons, List.singleton_append, readsInside_cons]
    by_cases differs : w ≠ m.mem.load64 ptr
    · rw [if_pos differs] at run₁
      obtain ⟨rfl, rfl, _⟩ := returns_pure.mp run₁
      refine ⟨fun room => ⟨⟨above, by omega⟩, readsInside_nil⟩, fun h => ?_⟩
      cases h
    · rw [if_neg differs] at run₁
      constructor
      · intro room
        have next : (ptr + 8).toNat = ptr.toNat + 8 := by bv_omega
        exact ⟨⟨above, by omega⟩, (ih run₁ (by omega) (by omega)).1 (by omega)⟩
      · rintro equal ⟨⟨_, room⟩, rest⟩
        have next : (ptr + 8).toNat = ptr.toNat + 8 := by bv_omega
        have further := (ih run₁ (by omega) (by omega)).2 equal rest
        omega

/-- The loops that go quad word by quad word stay inside when they come out at the end. -/
theorem qwordLoop_inside {line : U64 → U64 → Text} {u : Unit}
    (run : (qwordLoop m line start limit ptr).Returns g es u g') (above : start.toNat ≤ ptr.toNat)
    (below : ptr.toNat ≤ limit.toNat) :
    ReadsInside start limit es ↔ (limit.toNat - ptr.toNat) % 8 = 0 := by
  revert above below
  apply Returns.loop_induction (motive := fun ptr _ es _ _ => start.toNat ≤ ptr.toNat →
    ptr.toNat ≤ limit.toNat → (ReadsInside start limit es ↔ (limit.toNat - ptr.toNat) % 8 = 0))
    _ _ run
  · intro ptr s es u s' last above below
    by_cases more : ptr < limit
    · cases (last.unique (qwordRound_next m more)).2.1
    · obtain ⟨rfl, _⟩ := last.unique (qwordRound_exit m more)
      have reached : limit.toNat ≤ ptr.toNat := by bv_omega
      rw [iff_true_left readsInside_nil]
      omega
  · intro ptr s es₁ next s₁ es₂ u s' round rest above below
    by_cases more : ptr < limit
    · obtain ⟨rfl, same, _⟩ := round.unique (qwordRound_next m more)
      cases same
      have short : ptr.toNat < limit.toNat := by bv_omega
      rw [List.cons_append, List.singleton_append, readsInside_cons, readsInside_printk]
      by_cases room : ptr.toNat + 8 ≤ limit.toNat
      · have top := limit.isLt
        have next : (ptr + 8).toNat = ptr.toNat + 8 := by bv_omega
        rw [rest (by omega) (by omega), next, and_iff_right (inside_load.mpr ⟨above, room⟩)]
        omega
      · have outside : ¬ (Event.load ptr 8).Inside start limit := fun h => room h.2
        rw [iff_false_left (fun h => outside h.1)]
        omega
    · cases (round.unique (qwordRound_exit m more)).2.1

/-- A round of the block loop that goes on is inside when its block is. -/
theorem blockRound_inside {b b' : BlockLoop} (block : b.prevVal.length = 4)
    (run : (blockRound m start limit b).Returns g es (.inl b') g')
    (above : start.toNat ≤ b.ptr.toNat) (below : b.ptr.toNat ≤ limit.toNat) :
    (ReadsInside start limit es ↔ b.ptr.toNat + 32 ≤ limit.toNat) ∧ b.ptr + 4 * 8 ≤ limit ∧
      b'.ptr = b.ptr + 4 * 8 ∧ b'.prevVal.length = 4 := by
  obtain ⟨_, left | equal | differs⟩ := blockRound_cases block run
  · cases left.2.2
  · obtain ⟨inside, compared, same⟩ := equal
    cases same
    have reads := sameWords_inside compared above below
    rw [block] at reads
    exact ⟨⟨reads.2 rfl, reads.1⟩, inside, rfl, block⟩
  · obtain ⟨inside, es₁, text, es₂, next, compared, _, loaded, size, rfl, same⟩ := differs
    cases same
    have first := (sameWords_inside compared above below).1
    have second := loadWords_inside loaded above below
    rw [block] at first
    refine ⟨?_, inside, rfl, size⟩
    rw [readsInside_append, readsInside_printk, second]
    exact ⟨fun h => h.2, fun room => ⟨first room, room⟩⟩

/-- Where the block loop stands while all is well: in the range, and at a block
counted from its start. -/
structure InStep (start limit ptr : U64) : Prop where
  above : start.toNat ≤ ptr.toNat
  below : ptr.toNat ≤ limit.toNat
  phase : ptr.toNat % 32 = start.toNat % 32

/-- A block that the loop takes on ends in the range, unless the range is one
that the loop never leaves. -/
theorem InStep.block_inside (h : InStep start limit ptr) (going : ptr + 4 * 8 ≤ limit)
    (leaves : ¬ Wraps start limit) : ptr.toNat + 32 ≤ limit.toNat := by
  have phase := h.phase
  have below := h.below
  have top := ptr.isLt
  unfold Wraps at leaves
  bv_omega

theorem blockLoop_inside {b last : BlockLoop} (block : b.prevVal.length = 4)
    (run : (blockLoop m start limit b).Returns g es last g') (h : InStep start limit b.ptr)
    (well : ReadsInside start limit es ∨ ¬ Wraps start limit) :
    ReadsInside start limit es ∧ InStep start limit last.ptr ∧ ¬ last.ptr + 4 * 8 ≤ limit := by
  revert block h well
  apply Returns.loop_induction (motive := fun b _ es last _ => b.prevVal.length = 4 →
    InStep start limit b.ptr → (ReadsInside start limit es ∨ ¬ Wraps start limit) →
    ReadsInside start limit es ∧ InStep start limit last.ptr ∧ ¬ last.ptr + 4 * 8 ≤ limit) _ _ run
  · intro b s es last s' round block h _
    obtain ⟨_, left | equal | differs⟩ := blockRound_cases block round
    · obtain ⟨stopped, rfl, same⟩ := left
      cases same
      exact ⟨readsInside_nil, h, stopped⟩
    · cases equal.2.2
    · obtain ⟨_, _, _, _, _, _, _, _, _, _, same⟩ := differs
      cases same
  · intro b s es₁ next s₁ es₂ last s' round rest block h well
    obtain ⟨reads, going, moved, block'⟩ := blockRound_inside block round h.above h.below
    have room : b.ptr.toNat + 32 ≤ limit.toNat := by
      cases well with
      | inl all => exact reads.mp (readsInside_append.mp all).1
      | inr leaves => exact h.block_inside going leaves
    have next : (b.ptr + 4 * 8).toNat = b.ptr.toNat + 32 := by
      have top := limit.isLt
      bv_omega
    have step : InStep start limit (b.ptr + 4 * 8) := by
      have above := h.above
      have phase := h.phase
      constructor
      · omega
      · omega
      · omega
    rw [← moved] at step
    obtain ⟨all, last, stopped⟩ := rest block' step
      (well.imp_left fun all => (readsInside_append.mp all).2)
    exact ⟨readsInside_append.mpr ⟨reads.mpr room, all⟩, last, stopped⟩

theorem logShort_inside {msg : Text} {u : Unit} (ordered : start ≤ limit)
    (run : (logShort m start limit msg).Returns g es u g') :
    ReadsInside start limit es ↔ (limit.toNat - start.toNat) % 8 = 0 := by
  obtain ⟨words, g₁, looped, _, rfl⟩ := logShort_cases run
  have loop := qwordLoop_inside looped (Nat.le_refl _) ordered
  have after : ReadsInside start limit [.printk (busterInfo ++ endLine g.logId)] :=
    readsInside_printk.mpr readsInside_nil
  rw [readsInside_printk, readsInside_append, loop, and_iff_left after]

theorem logBlocks_inside {msg : Text} {u : Unit} (long : start.toNat + 32 ≤ limit.toNat)
    (aligned : start.toNat % 8 = 0) (run : (logBlocks m start limit msg).Returns g es u g') :
    ReadsInside start limit es ↔
      (limit.toNat - start.toNat) % 8 = 0 ∧ ¬ Wraps start limit := by
  obtain ⟨loads, es₁, last, g₁, words, g₂, loaded, _, looped, tail, _, rfl⟩ := logBlocks_cases run
  have top := limit.isLt
  have second : (start + 4 * 8).toNat = start.toNat + 32 := by bv_omega
  have first := (loadWords_inside loaded (Nat.le_refl _) (by omega)).mpr long
  have step : InStep start limit (start + 4 * 8) := by
    constructor
    · omega
    · omega
    · omega
  have blocks := blockLoop_inside (length_readWords ..) looped step
  have after : ReadsInside start limit [.printk (busterInfo ++ endLine g.logId)] :=
    readsInside_printk.mpr readsInside_nil
  rw [readsInside_append, and_iff_right first, readsInside_printk, readsInside_append,
    readsInside_printk, readsInside_append, and_iff_left after]
  constructor
  · rintro ⟨all, rest⟩
    obtain ⟨_, h, stopped⟩ := blocks (.inl all)
    have whole := (qwordLoop_inside tail h.above h.below).mp rest
    have phase := h.phase
    have above := h.above
    have below := h.below
    exact ⟨by omega, blockLoop_leaves (length_readWords ..) looped⟩
  · rintro ⟨whole, leaves⟩
    obtain ⟨all, h, stopped⟩ := blocks (.inr leaves)
    have phase := h.phase
    have above := h.above
    have below := h.below
    exact ⟨all, (qwordLoop_inside tail h.above h.below).mpr (by omega)⟩

/-! ## Whole calls -/

/-- What the checks of a call that goes through have found. -/
theorem LogCall.taken_checks {c : LogCall} (taken : c.refusal = none) :
    c.start ≤ c.limit ∧ (¬ c.limit - c.start < 256 / 8 → c.start.toNat % 8 = 0) := by
  unfold LogCall.refusal at taken
  rw [LogCall.checked taken] at taken
  dsimp only at taken
  split at taken
  · cases taken
  split at taken
  · cases taken
  rename_i ordered
  refine ⟨by bv_omega, ?_⟩
  intro long
  rw [if_neg long] at taken
  split at taken
  · cases taken
  · rename_i whole
    have zero : c.start % 8 = 0 := not_not.mp whole
    clear long ordered
    bv_omega

/-- The call is turned away, or its range is made of quad words and is not one
that the block loop never leaves. -/
def LogCall.Fits (c : LogCall) : Prop :=
  c.refusal ≠ none ∨ ((c.limit.toNat - c.start.toNat) % 8 = 0 ∧
    (32 ≤ c.limit.toNat - c.start.toNat → ¬ Wraps c.start c.limit))

instance (c : LogCall) : Decidable c.Fits := inferInstanceAs (Decidable (_ ∨ _ ∧ (_ → ¬ _)))

theorem LogCall.refused_inside {c : LogCall} {err : Text} (turned : c.refusal = some err) :
    ∃ es, c.run.Returns g es () g ∧ ReadsInside c.start c.limit es :=
  ⟨_, c.refused_returns turned g, readsInside_cons.mpr ⟨trivial,
    readsInside_printk.mpr readsInside_nil⟩⟩

theorem LogCall.taken_inside {c : LogCall} {u : Unit} (taken : c.refusal = none)
    (run : c.run.Returns g es u g') :
    ReadsInside c.start c.limit es ↔ (c.limit.toNat - c.start.toNat) % 8 = 0 ∧
      (32 ≤ c.limit.toNat - c.start.toNat → ¬ Wraps c.start c.limit) := by
  obtain ⟨ordered, aligned⟩ := LogCall.taken_checks taken
  have size : (c.limit - c.start).toNat = c.limit.toNat - c.start.toNat := by bv_omega
  have short_iff : c.limit - c.start < 256 / 8 ↔ c.limit.toNat - c.start.toNat < 32 := by
    rw [BitVec.lt_def, size]
    rfl
  simp only [c.run_eq, taken] at run
  obtain ⟨es₁, rfl, run₁⟩ := (emit_returns _ g).rest run
  have called : (Event.logRange c.start c.limit c.msg).Inside c.start c.limit := trivial
  rw [List.singleton_append, readsInside_cons, and_iff_right called]
  split at run₁
  · rename_i short
    have few : ¬ 32 ≤ c.limit.toNat - c.start.toNat := Nat.not_le.mpr (short_iff.mp short)
    rw [logShort_inside ordered run₁]
    exact (and_iff_left fun long => absurd long few).symm
  · rename_i long
    have many : 32 ≤ c.limit.toNat - c.start.toNat := Nat.not_lt.mp fun h => long (short_iff.mpr h)
    rw [logBlocks_inside (by omega) (aligned long) run₁]
    exact and_congr_right fun _ => ⟨fun leaves _ => leaves, fun leaves => leaves many⟩

theorem LogCall.Fits.reads_inside {c : LogCall} (fits : c.Fits) (g : Globals) :
    ∃ es g', c.run.Returns g es () g' ∧ ReadsInside c.start c.limit es := by
  cases turned : c.refusal with
  | some err =>
    obtain ⟨es, run, inside⟩ := c.refused_inside (g := g) turned
    exact ⟨es, g, run, inside⟩
  | none =>
    have whole := fits.resolve_left (not_not.mpr turned)
    obtain ⟨es, u, g', run⟩ := logRange_ends c.m g (LogCall.checked turned) whole.1 whole.2
    exact ⟨es, g', run, (c.taken_inside turned run).mpr whole⟩

/-- On whole quad words a call ends when the range fits, and not otherwise. -/
theorem LogCall.ends_iff {c : LogCall} (whole : (c.limit.toNat - c.start.toNat) % 8 = 0)
    (g : Globals) : c.run.Ends g ↔ c.Fits := by
  constructor
  · rintro ⟨es, u, g', run⟩
    cases turned : c.refusal with
    | some err => exact .inl (by rw [turned]; exact Option.some_ne_none err)
    | none => exact .inr ⟨whole, LogCall.leaves_of_returns turned run⟩
  · intro fits
    obtain ⟨es, g', run, _⟩ := fits.reads_inside g
    exact run.ends

/-- A call ends and stays inside its range when the range fits, and not otherwise. -/
theorem LogCall.inside_iff (c : LogCall) (g : Globals) :
    (∃ es g', c.run.Returns g es () g' ∧ ReadsInside c.start c.limit es) ↔ c.Fits := by
  constructor
  · rintro ⟨es, g', run, inside⟩
    cases turned : c.refusal with
    | some err => exact .inl (by rw [turned]; exact Option.some_ne_none err)
    | none => exact .inr ((c.taken_inside turned run).mp inside)
  · intro fits
    exact fits.reads_inside g

/-- One byte is asked for, and the eight bytes from there on are read. -/
theorem oneByte_not_inside :
    let c : LogCall := ⟨⟨fun _ => 0, fun _ _ _ => 0, id⟩, 0x1000, 0x1001, "byte".toList⟩
    ¬ ∃ es g', c.run.Returns .initial es () g' ∧ ReadsInside c.start c.limit es := by
  rintro c ⟨es, g', run, inside⟩
  have taken : c.refusal = none := by decide
  have whole := ((c.taken_inside taken run).mp inside).1
  revert whole
  decide

end reads

end Buster
