import Mathlib.Algebra.GroupWithZero.Nat
import Mathlib.Data.List.TakeWhile
import Buster.Dump

/-!
# The offsets `log_range` prints

The block loop places its records correctly, the flush does not: it computes
the offset of the last run of blocks in quad words, not in blocks. So a section
has right offsets only on the short path, or when the loop never gets as far as
printing a record.
-/

namespace Buster

open Imp.Prog

/-- The offset of every record counts the bytes of the records before it. -/
def Placed : Nat → List Record → Prop
  | _, [] => True
  | o, r :: recs => r.offset = o ∧ Placed (o + r.bytes) recs

instance : (o : Nat) → (recs : List Record) → Decidable (Placed o recs)
  | _, [] => isTrue trivial
  | o, r :: recs =>
    have := instDecidablePlaced (o + r.bytes) recs
    inferInstanceAs (Decidable (_ ∧ _))

/-- However far the call has come, the records printed so far are placed. -/
def OffsetsRight (m : Machine) (g : Globals) (start limit : U64) (msg : Text) : Prop :=
  ∀ es, (logRange m start limit msg).Emitted g es → ∃ recs,
    (recordLines (lines es)).mapM parseRecord = some recs ∧ Placed 0 recs

def bytes (recs : List Record) : Nat := (recs.map Record.bytes).sum

@[simp] theorem bytes_nil : bytes [] = 0 := rfl

@[simp] theorem bytes_cons (r : Record) (recs : List Record) :
    bytes (r :: recs) = r.bytes + bytes recs := rfl

@[simp] theorem bytes_append (a b : List Record) : bytes (a ++ b) = bytes a + bytes b := by
  simp [bytes]

theorem placed_append {o : Nat} {a b : List Record} :
    Placed o (a ++ b) ↔ Placed o a ∧ Placed (o + bytes a) b := by
  induction a generalizing o with
  | nil => simp [Placed]
  | cons r a ih => simp only [List.cons_append, Placed, ih, bytes_cons, Nat.add_assoc, and_assoc]

theorem Placed.offset {o : Nat} {a b : List Record} {r : Record} (h : Placed o (a ++ r :: b)) :
    r.offset = o + bytes a := (placed_append.mp h).2.1

theorem bytes_eq (recs : List Record) : bytes recs = 8 * (recs.flatMap Record.expand).length := by
  induction recs with
  | nil => rfl
  | cons r recs ih =>
    have one : r.expand.length = r.count * r.words.length := by
      simp [Record.expand]
    rw [bytes_cons, ih, List.flatMap_cons, List.length_append, one, Nat.mul_add, Record.bytes,
      Nat.mul_left_comm]

/-! ## Prefixes of a section -/

theorem dropWhile_prefix {α : Type} {p : α → Bool} {a b : List α} (h : a <+: b) :
    a.dropWhile p <+: b.dropWhile p := by
  obtain ⟨c, rfl⟩ := h
  induction a with
  | nil => simp
  | cons x a ih =>
    by_cases hx : p x
    · simpa [hx] using ih
    · simp [hx]

theorem takeWhile_prefix_of {α : Type} {p : α → Bool} {a b : List α} (h : a <+: b) :
    a.takeWhile p <+: b.takeWhile p := by
  obtain ⟨c, rfl⟩ := h
  induction a with
  | nil => simp
  | cons x a ih =>
    by_cases hx : p x
    · simpa [hx] using ih
    · simp [hx]

theorem recordLines_prefix {a b : List Text} (h : a <+: b) : recordLines a <+: recordLines b := by
  apply takeWhile_prefix_of
  obtain ⟨c, hc⟩ := dropWhile_prefix (p := fun l => !isFrame "BEGIN." l) h
  rw [← hc, List.drop_append]
  exact List.prefix_append _ _

theorem reads_prefix {ls early : List Text} {recs : List Record}
    (h : List.Forall₂ Reads ls recs) (prior : early <+: ls) :
    ∃ rs, rs <+: recs ∧ List.Forall₂ Reads early rs := by
  refine ⟨recs.take early.length, List.take_prefix _ _, ?_⟩
  rw [List.prefix_iff_eq_take.mp prior, List.length_take, min_eq_left prior.length_le]
  exact List.forall₂_take _ h

theorem Placed.prior {o : Nat} {early recs : List Record} (h : Placed o recs)
    (prior : early <+: recs) : Placed o early := by
  obtain ⟨rest, rfl⟩ := prior
  exact (placed_append.mp h).1

/-- On a call that returns, the records of the finished section decide. -/
theorem offsetsRight_of_returns {m : Machine} {g g' : Globals} {start limit : U64} {msg : Text}
    {es : List Event} {ls : List Text} {recs : List Record}
    (run : (logRange m start limit msg).Returns g es () g')
    (sect : Section g start msg es ls) (reads : List.Forall₂ Reads ls recs) :
    OffsetsRight m g start limit msg ↔ Placed 0 recs := by
  have inner : recordLines (lines es) = ls := by rw [sect, recordLines_section reads]
  constructor
  · intro right
    obtain ⟨rs, read, placed⟩ := right es run.emitted
    rw [inner, mapM_parse reads] at read
    cases read
    exact placed
  · intro placed early emitted
    have prior : lines early <+: lines es := (run.continues emitted).filterMap _
    have prior := recordLines_prefix prior
    rw [inner] at prior
    obtain ⟨rs, hrs, read⟩ := reads_prefix reads prior
    exact ⟨rs, mapM_parse read, placed.prior hrs⟩

/-! ## The short path -/

theorem placed_qwordRecords (mem : Mem) (start : U64) (n : Nat) (ptr : U64)
    (room : (ptr - start).toNat + 8 * n < 2 ^ 64) :
    Placed (ptr - start).toNat (qwordRecords mem start n ptr) := by
  induction n generalizing ptr with
  | zero => trivial
  | succ n ih =>
    have next : (ptr + 8 - start).toNat = (ptr - start).toNat + 8 := by bv_omega
    refine ⟨rfl, ?_⟩
    have rest := ih (ptr + 8) (by omega)
    rw [next] at rest
    exact rest

/-! ## The flush -/

theorem length_of_mem_readBlocks {mem : Mem} {n : Nat} {ptr : U64} {ws : List U64}
    (h : ws ∈ readBlocks mem n ptr) : ws.length = 4 := by
  induction n generalizing ptr with
  | zero => simp [readBlocks] at h
  | succ n ih =>
    rcases List.mem_cons.mp h with rfl | h
    · simp
    · exact ih h

/-- What is known of each record that the block loop or the flush prints. -/
theorem block_of_encoded {mem : Mem} {start : U64} {n : Nat} {recs : List Record} {r : Record}
    {runs : List (Nat × List U64)} (encoded : recs.map Record.run ++ runs =
      RunLength.runs (readWords mem 4 start) 0 (readBlocks mem n (start + 32))) (hr : r ∈ recs) :
    0 < r.count ∧ r.words.length = 4 := by
  have mem_run : r.run ∈ recs.map Record.run ++ runs :=
    List.mem_append_left _ (List.mem_map_of_mem hr)
  rw [encoded] at mem_run
  obtain ⟨pos, value⟩ := RunLength.mem_runs mem_run
  refine ⟨pos, ?_⟩
  rcases value with first | later
  · exact (congrArg List.length first).trans (length_readWords _ _ _)
  · exact length_of_mem_readBlocks later

theorem bytes_of_blocks {recs : List Record} (block : ∀ r ∈ recs, r.words.length = 4) :
    bytes recs = 32 * (RunLength.expand (recs.map Record.run)).length := by
  induction recs with
  | nil => rfl
  | cons r recs ih =>
    have rest := ih fun r hr => block r (List.mem_cons_of_mem _ hr)
    simp only [bytes_cons, rest, Record.bytes, block r List.mem_cons_self, List.map_cons,
      RunLength.expand_cons, Record.run, List.length_append, List.length_replicate]
    omega

/-- The flush never places the last run of blocks. -/
theorem not_placed_flush {mem : Mem} {start limit : U64} {n t : Nat} {blocks tail : List Record}
    {flush : Record} (size : limit.toNat = start.toNat + 32 * (n + 1) + 8 * t)
    (encoded : (blocks ++ [flush]).map Record.run =
      RunLength.runs (readWords mem 4 start) 0 (readBlocks mem n (start + 32)))
    (offset : flush.offset = (limit - start - 8 * BitVec.ofNat 64 flush.count).toNat) :
    ¬ Placed 0 (blocks ++ flush :: tail) := by
  intro placed
  have top := limit.isLt
  have all : (blocks ++ [flush]).map Record.run ++ [] =
      RunLength.runs (readWords mem 4 start) 0 (readBlocks mem n (start + 32)) := by
    rw [encoded, List.append_nil]
  obtain ⟨pos, words⟩ := block_of_encoded (r := flush) all (by simp)
  have total : bytes (blocks ++ [flush]) = 32 * (n + 1) := by
    have all := expand_blocks (t := 0) encoded
    rw [bytes_eq, show blocks ++ [flush] = blocks ++ flush :: qwordRecords mem start 0 _ from rfl,
      all, length_readWords]
    omega
  have split : bytes blocks + 32 * flush.count = 32 * (n + 1) := by
    rw [← total, bytes_append, bytes_cons, bytes_nil, Record.bytes, words]
    omega
  have claimed := placed.offset
  have range : (limit - start).toNat = 32 * (n + 1) + 8 * t := by bv_omega
  have back : (8 * BitVec.ofNat 64 flush.count).toNat = 8 * flush.count := by
    have count : (BitVec.ofNat 64 flush.count).toNat = flush.count := by
      rw [BitVec.toNat_ofNat]
      omega
    have eight : (8 : U64).toNat = 8 := rfl
    rw [BitVec.toNat_mul, count, eight]
    exact Nat.mod_eq_of_lt (by omega)
  have printed : (limit - start - 8 * BitVec.ofNat 64 flush.count).toNat =
      32 * (n + 1) + 8 * t - 8 * flush.count := by
    rw [BitVec.toNat_sub_of_le (by bv_omega), range, back]
  omega

/-! ## The loop that never leaves -/

/-- Every block that the loop can reach is the first one again. -/
def Uniform (mem : Mem) (start : U64) : Prop :=
  ∀ i : Nat, readWords mem 4 (start + BitVec.ofNat 64 (32 * i)) = readWords mem 4 start

@[simp] theorem length_readBlocks (mem : Mem) (n : Nat) (ptr : U64) :
    (readBlocks mem n ptr).length = n := by
  induction n generalizing ptr with
  | zero => rfl
  | succ n ih => simp [readBlocks, ih]

theorem getElem?_readBlocks (mem : Mem) {n j : Nat} (ptr : U64) (h : j < n) :
    (readBlocks mem n ptr)[j]? = some (readWords mem 4 (ptr + BitVec.ofNat 64 (32 * j))) := by
  induction n generalizing ptr j with
  | zero => omega
  | succ n ih =>
    cases j with
    | zero => simp [readBlocks]
    | succ j =>
      have next : ptr + 32 + BitVec.ofNat 64 (32 * j) = ptr + BitVec.ofNat 64 (32 * (j + 1)) := by
        bv_omega
      rw [readBlocks, List.getElem?_cons_succ, ih (ptr + 32) (by omega), next]

/-- A run as long as the address space has blocks makes them all equal. -/
theorem uniform_of_long_run {mem : Mem} {start : U64} {n : Nat}
    {before after : List (Nat × List U64)} {run : Nat × List U64}
    (runs : before ++ run :: after =
      RunLength.runs (readWords mem 4 start) 0 (readBlocks mem n (start + 32)))
    (long : 2 ^ 59 ≤ run.1) : Uniform mem start := by
  have all : RunLength.expand (before ++ run :: after) = readBlocks mem (n + 1) start := by
    rw [runs, RunLength.expand_runs]
    rfl
  have total : (RunLength.expand before).length + run.1 ≤ n + 1 := by
    have sizes := congrArg List.length all
    simp only [RunLength.expand_append, RunLength.expand_cons, List.length_append,
      List.length_replicate, length_readBlocks] at sizes
    omega
  have within (j : Nat) (hj : j < run.1) :
      readWords mem 4 (start + BitVec.ofNat 64 (32 * ((RunLength.expand before).length + j))) =
        run.2 := by
    have value := RunLength.getElem?_expand before run after hj
    rw [all, getElem?_readBlocks mem start (by omega)] at value
    exact Option.some.inj value
  have every (i : Nat) : readWords mem 4 (start + BitVec.ofNat 64 (32 * i)) = run.2 := by
    -- Blocks repeat after 2 ^ 59, so one of them lies inside the run.
    let p := (RunLength.expand before).length
    let j := (i + (2 ^ 59 - p % 2 ^ 59)) % 2 ^ 59
    have inRun : j < run.1 := Nat.lt_of_lt_of_le (Nat.mod_lt _ (by decide)) long
    have same : BitVec.ofNat 64 (32 * i) = BitVec.ofNat 64 (32 * (p + j)) := by
      apply BitVec.eq_of_toNat_eq
      simp only [BitVec.toNat_ofNat]
      omega
    rw [same]
    exact within j inRun
  intro i
  rw [every i, ← every 0]
  simp


theorem wraps_inside {start limit ptr : U64} (wraps : Wraps start limit)
    (phase : ptr.toNat % 32 = start.toNat % 32) : ptr + 4 * 8 ≤ limit := by
  have top := limit.isLt
  obtain ⟨last, phases⟩ := wraps
  bv_omega

theorem phase_of_blocks (start : U64) (i : Nat) :
    (start + BitVec.ofNat 64 (32 * i)).toNat % 32 = start.toNat % 32 := by
  rw [BitVec.toNat_add, BitVec.toNat_ofNat]
  omega

/-- A section whose `END` has not been printed. -/
theorem recordLines_open {logId start : U64} {msg : Text} {ls : List Text} {rs : List Record}
    (h : List.Forall₂ Reads ls rs) :
    recordLines ((busterInfo ++ beginLine logId start msg) :: ls) = ls := by
  have first : isFrame "BEGIN." (busterInfo ++ beginLine logId start msg) = true :=
    isFrame_append _ _
  have inner : ∀ l ∈ ls, (!isFrame "END." l) = true := by
    clear first
    induction h with
    | nil => simp
    | cons hr _ ih => simpa [hr.not_end] using ih
  simp only [recordLines, first, Bool.not_true, Bool.false_eq_true, not_false_eq_true,
    List.dropWhile_cons_of_neg, List.drop_one, List.tail_cons]
  exact List.takeWhile_eq_self_iff.mpr inner

/-- What the rest of a call can be seen to print follows what has been printed. -/
theorem lines_of_emitted {α β : Type} {p : Kernel α} {f : α → Kernel β} {g g' : Globals}
    {es all : List Event} {a : α} {ls : List Text} (h : p.Returns g es a g')
    (rest : ∀ more, (f a).Emitted g' more → lines more <+: ls)
    (emitted : (p >>= f).Emitted g all) : lines all <+: lines es ++ ls := by
  rcases h.emitted_bind.mp emitted with early | ⟨more, later, rfl⟩
  · exact (early.filterMap _).trans (List.prefix_append _ _)
  · rw [lines_append, List.prefix_append_right_inj]
    exact rest more later

section wraps
variable {m : Machine} {g : Globals} {start limit : U64} {msg : Text}

/-- All blocks alike: the pending run grows for ever and no record is printed. -/
theorem right_of_uniform (d : Dumpable start limit msg) (long : 32 ≤ limit.toNat - start.toNat)
    (wraps : Wraps start limit) (uniform : Uniform m.mem start) :
    OffsetsRight m g start limit msg := by
  obtain ⟨es₁, first, silent⟩ := loadWords_returns m (g := g) 4 start
  have hangs := loop_hangs (blockRound m start limit)
    (fun b g' => g' = g ∧ b.prevVal = readWords m.mem 4 start ∧
      ∃ i : Nat, b.ptr = start + BitVec.ofNat 64 (32 * i))
    (fun e => lines [e] = [])
    (by
      rintro ⟨ptr, count, prevVal⟩ g' ⟨rfl, hprev, i, hptr⟩
      simp only at hprev hptr
      have inside : ptr + 4 * 8 ≤ limit :=
        wraps_inside wraps (by rw [hptr]; exact phase_of_blocks start i)
      have same : prevVal = readWords m.mem 4 ptr := by rw [hprev, hptr, uniform i]
      obtain ⟨es, round, quiet⟩ := blockRound_same m (g := g') start count inside same
      refine ⟨es, _, g', round, ⟨rfl, hprev, i + 1, ?_⟩, lines_eq_nil.mp quiet⟩
      rw [hptr]
      bv_omega)
    (b := ⟨start + 4 * 8, 0, readWords m.mem 4 start⟩) (s := g) ⟨rfl, rfl, 1, rfl⟩
  obtain ⟨never, quiet⟩ := hangs
  have shown : ∀ es, (logRange m start limit msg).Emitted g es →
      lines es <+: [busterInfo ++ beginLine g.logId start msg] := by
    rw [logRange_long m d long]
    intro es
    apply lines_of_emitted (emit_returns _ g)
    intro es emitted
    have opened : lines es <+: lines es₁ ++ [busterInfo ++ beginLine g.logId start msg] := by
      apply lines_of_emitted first ?_ emitted
      intro es
      apply lines_of_emitted (get_returns g)
      intro es
      apply lines_of_emitted (printk_returns _ g)
      intro es emitted
      rcases emitted_bind.mp emitted with inside | ⟨es₁, b, g', es₂, returned, _⟩
      · have none := lines_eq_nil.mpr (quiet es inside)
        exact none ▸ List.nil_prefix
      · exact absurd ⟨es₁, b, g', returned⟩ never
    rwa [silent] at opened
  intro es emitted
  have none : recordLines (lines es) = [] := by
    have open_ := recordLines_prefix (shown es emitted)
    rwa [recordLines_open .nil, List.prefix_nil] at open_
  exact ⟨[], by rw [none]; rfl, trivial⟩

/-- Some block differs: a record printed often enough lies past the address
space, where no 64-bit offset reaches. -/
theorem uniform_of_right (d : Dumpable start limit msg) (long : 32 ≤ limit.toNat - start.toNat)
    (wraps : Wraps start limit) (right : OffsetsRight m g start limit msg) :
    Uniform m.mem start := by
  obtain ⟨es₁, first, silent⟩ := loadWords_returns m (g := g) 4 start
  have inside : ∀ i < 2 ^ 61, start + 32 + BitVec.ofNat 64 (32 * i) + 4 * 8 ≤ limit := by
    intro i _
    have later : start + 32 + BitVec.ofNat 64 (32 * i) =
        start + BitVec.ofNat 64 (32 * (i + 1)) := by bv_omega
    rw [later]
    exact wraps_inside wraps (phase_of_blocks start (i + 1))
  obtain ⟨es₂, b, rounds, _, _, _, recs, printed, small, encoded⟩ :=
    blockLoop_steps m (g := g) start limit (2 ^ 61) (start + 32) 0
      (readWords m.mem 4 start) (by simp) (by simp) inside
  have emitted : (logRange m start limit msg).Emitted g ([.logRange start limit msg] ++ (es₁ ++
      ([] ++ ([.printk (busterInfo ++ beginLine g.logId start msg)] ++ es₂)))) := by
    rw [logRange_long m d long]
    refine (emit_returns _ g).emitted_bind.mpr (.inr ⟨_, ?_, rfl⟩)
    refine first.emitted_bind.mpr (.inr ⟨_, ?_, rfl⟩)
    refine (get_returns g).emitted_bind.mpr (.inr ⟨_, ?_, rfl⟩)
    refine (printk_returns _ g).emitted_bind.mpr (.inr ⟨_, ?_, rfl⟩)
    exact emitted_bind.mpr (.inl rounds.emitted)
  obtain ⟨rs, read, placed⟩ := right _ emitted
  have section_ : lines ([.logRange start limit msg] ++ (es₁ ++
      ([] ++ ([.printk (busterInfo ++ beginLine g.logId start msg)] ++ es₂)))) =
      (busterInfo ++ beginLine g.logId start msg) :: lines es₂ := by simp [silent]
  rw [section_, recordLines_open printed, mapM_parse printed] at read
  obtain rfl : recs = rs := Option.some.inj read
  by_contra differ
  have short (before after : List (Nat × List U64)) (run : Nat × List U64)
      (cut : before ++ run :: after = recs.map Record.run ++ [(b.count.toNat + 1, b.prevVal)]) :
      run.1 < 2 ^ 59 := by
    by_contra long
    exact differ (uniform_of_long_run (cut.trans encoded.symm) (by omega))
  have block : ∀ r ∈ recs, r.words.length = 4 := fun r hr =>
    (block_of_encoded encoded.symm hr).2
  have total : bytes recs + 32 * (b.count.toNat + 1) = 32 * (2 ^ 61 + 1) := by
    have blocks := congrArg (fun rs => (RunLength.expand rs).length) encoded
    have none : (RunLength.expand ([] : List (Nat × List U64))).length = 0 := rfl
    have zero : (0 : U64).toNat = 0 := rfl
    simp only [RunLength.expand_runs, RunLength.expand_append, RunLength.expand_cons, none, zero,
      List.length_append, List.length_replicate, length_readBlocks] at blocks
    rw [bytes_of_blocks block]
    omega
  have pending := short (recs.map Record.run) [] _ rfl
  rcases List.eq_nil_or_concat recs with rfl | ⟨front, last, rfl⟩
  · simp only [bytes_nil] at total
    omega
  · rw [List.concat_eq_append] at *
    have count : last.count < 2 ^ 59 :=
      short (front.map Record.run) [(b.count.toNat + 1, b.prevVal)] last.run (by simp)
    have offset : last.offset = 0 + bytes front := placed.offset
    have bound : last.offset < 2 ^ 64 := small last (by simp)
    rw [bytes_append, bytes_cons, bytes_nil, Record.bytes, block last (by simp)] at total
    omega

end wraps

theorem wrong_of_leaves {m : Machine} {g : Globals} {start limit : U64} {msg : Text}
    (d : Dumpable start limit msg) (long : 32 ≤ limit.toNat - start.toNat)
    (leaves : ¬ Wraps start limit) : ¬ OffsetsRight m g start limit msg := by
  obtain ⟨n, t, size, tail⟩ := d.blocks long
  obtain ⟨es, ls, blocks, flush, run, sect, reads, encoded, offset⟩ :=
    logRange_blocks m (g := g) d n t size tail leaves
  rw [offsetsRight_of_returns run sect reads]
  exact not_placed_flush size encoded offset

theorem right_of_short {m : Machine} {g : Globals} {start limit : U64} {msg : Text}
    (d : Dumpable start limit msg) (short : limit.toNat - start.toNat < 32) :
    OffsetsRight m g start limit msg := by
  obtain ⟨es, ls, run, sect, reads⟩ := logRange_short m (g := g) d short
  rw [offsetsRight_of_returns run sect reads]
  have zero : (start - start).toNat = 0 := by simp
  have placed := placed_qwordRecords m.mem start
    ((limit.toNat - start.toNat) / 8) start (by omega)
  rwa [zero] at placed

/-- The offsets of a section are right on the short path, and where the loop
never leaves and finds the same block for ever. Otherwise some record that is
printed stands at another offset than it says. -/
theorem offsets_right_iff {m : Machine} {g : Globals} {start limit : U64} {msg : Text}
    (d : Dumpable start limit msg) :
    OffsetsRight m g start limit msg ↔
      limit.toNat - start.toNat < 32 ∨ (Wraps start limit ∧ Uniform m.mem start) := by
  constructor
  · intro right
    by_cases short : limit.toNat - start.toNat < 32
    · exact .inl short
    · have long : 32 ≤ limit.toNat - start.toNat := by omega
      by_cases wraps : Wraps start limit
      · exact .inr ⟨wraps, uniform_of_right d long wraps right⟩
      · exact absurd right (wrong_of_leaves d long wraps)
  · rintro (short | ⟨wraps, uniform⟩)
    · exact right_of_short d short
    · by_cases short : limit.toNat - start.toNat < 32
      · exact right_of_short d short
      · exact right_of_uniform d (by omega) wraps uniform

/-- Three quad words, at offsets 0, 8 and 16. -/
theorem offsets_right_qword :
    OffsetsRight ⟨fun a => a.setWidth 8, fun _ _ _ => 0, id⟩ .initial 0x1000 0x1018 "dump".toList ↔
      (0x1018 : U64).toNat - (0x1000 : U64).toNat < 32 ∨
        (Wraps 0x1000 0x1018 ∧ Uniform (fun a => a.setWidth 8) 0x1000) :=
  offsets_right_iff ⟨by decide, by decide, by decide, by decide, by decide⟩

/-- Two equal blocks and nothing else: their record says 0x30. -/
theorem offsets_wrong_two_blocks :
    Dumpable 0x1000 0x1040 "dump".toList ∧
      ¬ OffsetsRight ⟨fun _ => 0, fun _ _ _ => 0, id⟩ .initial 0x1000 0x1040 "dump".toList := by
  have d : Dumpable 0x1000 0x1040 "dump".toList :=
    ⟨by decide, by decide, by decide, by decide, by decide⟩
  exact ⟨d, wrong_of_leaves d (by decide) (by decide)⟩

end Buster
