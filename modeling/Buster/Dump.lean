import Mathlib.Data.List.Forall2
import Buster.Record
import Buster.Lib.RunLength

/-!
# What `log_range` prints

The block loop is the run-length encoder of `RunLength.runs`, reading one block
of four quad words a round: `blockLoop_steps` is the invariant that links its
variables and the lines already printed to the blocks read so far. From it
follow the lines of a whole call, and that reading them back gives the memory
of the range.
-/

namespace Buster

open Imp.Prog

/-- The `n` quad words from `ptr` on. -/
def readWords (mem : Mem) : Nat → U64 → List U64
  | 0, _ => []
  | n + 1, ptr => mem.load64 ptr :: readWords mem n (ptr + 8)

/-- The `n` blocks of four quad words from `ptr` on. -/
def readBlocks (mem : Mem) : Nat → U64 → List (List U64)
  | 0, _ => []
  | n + 1, ptr => readWords mem 4 ptr :: readBlocks mem n (ptr + 32)

@[simp] theorem length_readWords (mem : Mem) (n : Nat) (ptr : U64) :
    (readWords mem n ptr).length = n := by
  induction n generalizing ptr with
  | zero => rfl
  | succ n ih => simp [readWords, ih]

theorem readWords_add (mem : Mem) (a b : Nat) (ptr : U64) :
    readWords mem (a + b) ptr =
      readWords mem a ptr ++ readWords mem b (ptr + BitVec.ofNat 64 (8 * a)) := by
  induction a generalizing ptr with
  | zero => simp [readWords]
  | succ a ih =>
    have next : ptr + 8 + BitVec.ofNat 64 (8 * a) = ptr + BitVec.ofNat 64 (8 * (a + 1)) := by
      bv_omega
    rw [show a + 1 + b = a + b + 1 by omega]
    simp only [readWords, ih, next, List.cons_append]

theorem flatten_readBlocks (mem : Mem) (n : Nat) (ptr : U64) :
    (readBlocks mem n ptr).flatten = readWords mem (4 * n) ptr := by
  induction n generalizing ptr with
  | zero => rfl
  | succ n ih =>
    rw [show 4 * (n + 1) = 4 + 4 * n by omega, readWords_add]
    simp only [readBlocks, List.flatten_cons, ih]
    rfl

variable (m : Machine) {g : Globals}

theorem loadWords_returns (n : Nat) (ptr : U64) :
    ∃ es, (loadWords m n ptr).Returns g es (readWords m.mem n ptr) g ∧ lines es = [] := by
  induction n generalizing ptr with
  | zero => exact ⟨[], by simp [loadWords, readWords], rfl⟩
  | succ n ih =>
    obtain ⟨es, h, silent⟩ := ih (ptr + 8)
    refine ⟨.load ptr 8 :: es, ?_, by simpa using silent⟩
    simp only [loadWords, returns_bind, returns_load64, returns_pure]
    exact ⟨_, _, _, es, ⟨rfl, rfl, rfl⟩, ⟨es, _, _, [], h, ⟨rfl, rfl, rfl⟩, by simp⟩, rfl⟩

theorem sameWords_returns (ws : List U64) (ptr : U64) :
    ∃ es, (sameWords m ws ptr).Returns g es (decide (ws = readWords m.mem ws.length ptr)) g ∧
      lines es = [] := by
  induction ws generalizing ptr with
  | nil => exact ⟨[], by simp [sameWords, readWords], rfl⟩
  | cons w ws ih =>
    simp only [sameWords, returns_bind, returns_load64, readWords, List.length_cons]
    by_cases differs : w ≠ m.mem.load64 ptr
    · refine ⟨[.load ptr 8], ⟨_, _, _, [], ⟨rfl, rfl, rfl⟩, ?_, rfl⟩, rfl⟩
      simp [differs]
    · obtain ⟨es, h, silent⟩ := ih (ptr + 8)
      refine ⟨.load ptr 8 :: es, ⟨_, _, _, es, ⟨rfl, rfl, rfl⟩, ?_, rfl⟩, by simpa using silent⟩
      have same : w = m.mem.load64 ptr := not_not.mp differs
      simpa [same] using h

/-! ## The quad-word loops -/

/-- The records of `n` quad words from `ptr` on. -/
def qwordRecords (mem : Mem) (start : U64) : Nat → U64 → List Record
  | 0, _ => []
  | n + 1, ptr => ⟨1, (ptr - start).toNat, [mem.load64 ptr]⟩ :: qwordRecords mem start n (ptr + 8)

theorem expand_qwordRecords (mem : Mem) (start : U64) (n : Nat) (ptr : U64) :
    (qwordRecords mem start n ptr).flatMap Record.expand = readWords mem n ptr := by
  induction n generalizing ptr with
  | zero => rfl
  | succ n ih => simp [qwordRecords, readWords, Record.expand, ih]

theorem qwordRound_next {line : U64 → U64 → Text} {start limit ptr : U64} (h : ptr < limit) :
    (qwordRound m line start limit ptr).Returns g
      [.load ptr 8, .printk (busterInfo ++ snprintf 127 (line (ptr - start) (m.mem.load64 ptr)))]
      (.inl (ptr + 8)) g := by
  unfold qwordRound
  rw [if_pos h]
  exact (load64_returns m ptr g).bind ((printk_returns _ g).bind (pure_returns _ g))

theorem qwordRound_exit {line : U64 → U64 → Text} {start limit ptr : U64} (h : ¬ ptr < limit) :
    (qwordRound m line start limit ptr).Returns g [] (.inr ()) g := by
  unfold qwordRound
  rw [if_neg h]
  exact pure_returns _ g

/-- Started `n` quad words before the limit, the loop prints just these. -/
theorem qwordLoop_returns (start limit : U64) {line : U64 → U64 → Text}
    (reads : ∀ offset value, Reads (busterInfo ++ snprintf 127 (line offset value))
      ⟨1, offset.toNat, [value]⟩) (n : Nat) (ptr : U64) (h : ptr.toNat + 8 * n = limit.toNat) :
    ∃ es, (qwordLoop m line start limit ptr).Returns g es () g ∧
      List.Forall₂ Reads (lines es) (qwordRecords m.mem start n ptr) := by
  induction n generalizing ptr with
  | zero =>
    have stop : ¬ ptr < limit := by bv_omega
    exact ⟨[], returns_loop.mpr (.inl (qwordRound_exit m stop)), .nil⟩
  | succ n ih =>
    have more : ptr < limit := by bv_omega
    obtain ⟨es, rest, printed⟩ := ih (ptr + 8) (by bv_omega)
    refine ⟨_, returns_loop.mpr (.inr ⟨_, _, _, es, qwordRound_next m more, rest, rfl⟩), ?_⟩
    exact .cons (reads _ _) printed

/-! ## The block loop -/

/-- The offset the loop gives a run that ends before `ptr`, as it computes it. -/
def runOffset (start ptr count : U64) : U64 := ptr - start - (count + 1) * 256 / 8

theorem blockRound_same (start count : U64) {limit ptr : U64} {prevVal : List U64}
    (inside : ptr + 4 * 8 ≤ limit) (same : prevVal = readWords m.mem 4 ptr) :
    ∃ es, (blockRound m start limit ⟨ptr, count, prevVal⟩).Returns g es
        (.inl ⟨ptr + 4 * 8, count + 1, prevVal⟩) g ∧ lines es = [] := by
  obtain ⟨es, compared, silent⟩ := sameWords_returns m (g := g) prevVal ptr
  refine ⟨es ++ [], ?_, by simpa using silent⟩
  simp only [blockRound, if_pos inside]
  refine compared.bind ?_
  simp [same]

theorem blockRound_differs (start count : U64) {limit ptr : U64} {prevVal : List U64}
    (inside : ptr + 4 * 8 ≤ limit) (size : prevVal.length = 4) (room : count.toNat + 1 < 2 ^ 64)
    (differs : prevVal ≠ readWords m.mem 4 ptr) :
    ∃ es, (blockRound m start limit ⟨ptr, count, prevVal⟩).Returns g es
        (.inl ⟨ptr + 4 * 8, 0, readWords m.mem 4 ptr⟩) g ∧
      List.Forall₂ Reads (lines es)
        [⟨count.toNat + 1, (runOffset start ptr count).toNat, prevVal⟩] := by
  obtain ⟨es₁, compared, silent₁⟩ := sameWords_returns m (g := g) prevVal ptr
  obtain ⟨es₂, loaded, silent₂⟩ := loadWords_returns m (g := g) 4 ptr
  have next : (count + 1).toNat = count.toNat + 1 := by bv_omega
  let line : Text := if count > 0 then repeatLine (count + 1) (runOffset start ptr count) prevVal
    else singleLine (runOffset start ptr 0) prevVal
  refine ⟨es₁ ++ ([.printk (busterInfo ++ snprintf 127 line)] ++ (es₂ ++ [])), ?_, ?_⟩
  · simp only [blockRound, if_pos inside]
    refine compared.bind ?_
    simp only [size, differs, decide_false, Bool.false_eq_true, ↓reduceIte]
    by_cases repeated : count > 0
    · simp only [line, if_pos repeated]
      exact (printk_returns _ g).bind (loaded.bind (pure_returns _ g))
    · simp only [line, if_neg repeated]
      exact (printk_returns _ g).bind (loaded.bind (pure_returns _ g))
  · have read : Reads (busterInfo ++ snprintf 127 line)
        ⟨count.toNat + 1, (runOffset start ptr count).toNat, prevVal⟩ := by
      by_cases repeated : count > 0
      · simpa only [line, if_pos repeated, next] using
          reads_repeatLine (count + 1) (runOffset start ptr count) size
      · have zero : count = 0 := by bv_omega
        subst zero
        exact reads_singleLine (runOffset start ptr 0) size
    simpa [silent₁, silent₂] using read

theorem blockRound_exit {start limit : U64} {b : BlockLoop} (outside : ¬ b.ptr + 4 * 8 ≤ limit) :
    (blockRound m start limit b).Returns g [] (.inr b) g := by
  simp only [blockRound, if_neg outside]
  exact pure_returns _ g

/-- The run a record of a block stands for. -/
def Record.run (r : Record) : Nat × List U64 := (r.count, r.words)

/-- The printed lines `ls` and the pending run of `b` together encode `blocks`. -/
def Encodes (blocks : List (Nat × List U64)) (ls : List Text) (b : BlockLoop) : Prop :=
  ∃ recs : List Record, List.Forall₂ Reads ls recs ∧ (∀ r ∈ recs, r.offset < 2 ^ 64) ∧
    blocks = recs.map Record.run ++ [(b.count.toNat + 1, b.prevVal)]

/-- The invariant of the block loop over `n` rounds: what is printed and what
is pending encode the run it was started with and the `n` blocks it has read. -/
theorem blockLoop_steps (start limit : U64) (n : Nat) (ptr count : U64) (prevVal : List U64)
    (size : prevVal.length = 4) (room : count.toNat + n < 2 ^ 64)
    (inside : ∀ i < n, ptr + BitVec.ofNat 64 (32 * i) + 4 * 8 ≤ limit) :
    ∃ es b, Steps (blockRound m start limit) n ⟨ptr, count, prevVal⟩ g es b g ∧
      b.ptr = ptr + BitVec.ofNat 64 (32 * n) ∧ b.count.toNat ≤ count.toNat + n ∧
      b.prevVal.length = 4 ∧
      Encodes (RunLength.runs prevVal count.toNat (readBlocks m.mem n ptr)) (lines es) b := by
  induction n generalizing ptr count prevVal with
  | zero =>
    refine ⟨[], ⟨ptr, count, prevVal⟩, ⟨rfl, rfl, rfl⟩, by simp, by simp, size, ?_⟩
    exact ⟨[], .nil, by simp, rfl⟩
  | succ n ih =>
    have here : ptr + 4 * 8 ≤ limit := by simpa using inside 0 (by omega)
    have shift (i : Nat) : ptr + 4 * 8 + BitVec.ofNat 64 (32 * i) =
        ptr + BitVec.ofNat 64 (32 * (i + 1)) := by bv_omega
    have later : ∀ i < n, ptr + 4 * 8 + BitVec.ofNat 64 (32 * i) + 4 * 8 ≤ limit := by
      intro i hi
      rw [shift]
      exact inside (i + 1) (by omega)
    have step : ptr + 4 * 8 = ptr + 32 := rfl
    simp only [readBlocks, RunLength.runs]
    by_cases same : prevVal = readWords m.mem 4 ptr
    · obtain ⟨es₁, round, silent⟩ := blockRound_same m (g := g) start count here same
      have next : (count + 1).toNat = count.toNat + 1 := by bv_omega
      obtain ⟨es₂, b, rounds, at_ptr, pending, block, recs, printed, small, encoded⟩ :=
        ih (ptr + 4 * 8) (count + 1) prevVal size (by omega) later
      refine ⟨es₁ ++ es₂, b, ⟨es₁, _, g, es₂, round, rounds, rfl⟩, by rw [at_ptr, shift],
        by omega, block, recs, by simpa [silent] using printed, small, ?_⟩
      rw [if_pos same, ← encoded, next, step]
    · obtain ⟨es₁, round, first⟩ :=
        blockRound_differs m (g := g) start count here size (by omega) same
      obtain ⟨es₂, b, rounds, at_ptr, pending, block, recs, printed, small, encoded⟩ :=
        ih (ptr + 4 * 8) 0 (readWords m.mem 4 ptr) (by simp) (by simp; omega) later
      refine ⟨es₁ ++ es₂, b, ⟨es₁, _, g, es₂, round, rounds, rfl⟩, by rw [at_ptr, shift],
        by simp at pending; omega, block,
        ⟨count.toNat + 1, (runOffset start ptr count).toNat, prevVal⟩ :: recs, ?_, ?_, ?_⟩
      · rw [lines_append]
        exact List.rel_append first printed
      · intro r hr
        rcases List.mem_cons.mp hr with rfl | hr
        · exact (runOffset start ptr count).isLt
        · exact small r hr
      · rw [if_neg same, List.map_cons, List.cons_append, ← encoded, step]
        rfl

/-! ## A whole call -/

/-- What makes `log_range` print a section, for ranges of whole quad words. -/
structure Dumpable (start limit : U64) (msg : Text) : Prop where
  accepted : checkMsg 0 msg = none
  nonnull : start ≠ 0
  ordered : start ≤ limit
  whole : (limit.toNat - start.toNat) % 8 = 0
  aligned : 32 ≤ limit.toNat - start.toNat → start.toNat % 8 = 0

/-- The block loop never leaves a range that ends within the last 32 bytes of
the address space and no sooner in its 32 bytes than the range starts. -/
def Wraps (start limit : U64) : Prop :=
  2 ^ 64 ≤ limit.toNat + 32 ∧ start.toNat % 32 ≤ limit.toNat % 32

instance (start limit : U64) : Decidable (Wraps start limit) :=
  inferInstanceAs (Decidable (_ ∧ _))

/-- The lines `ls` printed inside the section of a call that left `log_id` one higher. -/
def Section (g : Globals) (start : U64) (msg : Text) (es : List Event) (ls : List Text) : Prop :=
  lines es = (busterInfo ++ beginLine g.logId start msg) :: (ls ++ [busterInfo ++ endLine g.logId])

def Globals.nextLog (g : Globals) : Globals := { g with logId := g.logId + 1 }

theorem blockBytes : (256 / 8 : U64) = 32 := by decide

theorem logRange_short {start limit : U64} {msg : Text} (d : Dumpable start limit msg)
    (short : limit.toNat - start.toNat < 32) :
    ∃ es ls, (logRange m start limit msg).Returns g es () g.nextLog ∧
      Section g start msg es ls ∧
      List.Forall₂ Reads ls
        (qwordRecords m.mem start ((limit.toNat - start.toNat) / 8) start) := by
  have ordered : start.toNat ≤ limit.toNat := d.ordered
  have whole := d.whole
  have small : limit - start < 32 := by bv_omega
  have notOver : ¬ start > limit := by bv_omega
  obtain ⟨es, printed, reads⟩ := qwordLoop_returns m (g := g) start limit reads_shortLine
    ((limit.toNat - start.toNat) / 8) start (by omega)
  refine ⟨[.logRange start limit msg] ++ ([] ++
    ([.printk (busterInfo ++ beginLine g.logId start msg)] ++
      (es ++ ([.printk (busterInfo ++ endLine g.logId)] ++ [])))), lines es, ?_, ?_, reads⟩
  · unfold logRange
    refine (emit_returns _ g).bind ?_
    simp only [d.accepted, d.nonnull, notOver, blockBytes, small, ↓reduceIte]
    unfold logShort
    exact (get_returns g).bind ((printk_returns _ g).bind (printed.bind
      ((printk_returns _ g).bind (modify_returns _ g))))
  · simp [Section]

theorem logRange_long {start limit : U64} {msg : Text} (d : Dumpable start limit msg)
    (long : 32 ≤ limit.toNat - start.toNat) :
    logRange m start limit msg =
      emit (.logRange start limit msg) >>= fun _ => logBlocks m start limit msg := by
  have top := limit.isLt
  have notSmall : ¬ limit - start < 32 := by bv_omega
  have notOver : ¬ start > limit := by bv_omega
  have aligned : start % 8 = 0 := by
    have := d.aligned long
    bv_omega
  unfold logRange
  simp only [d.accepted, d.nonnull, notOver, blockBytes, notSmall, aligned, ne_eq,
    not_true_eq_false, ↓reduceIte]

/-- A long range has `n + 1` whole blocks and `t` more quad words. -/
theorem Dumpable.blocks {start limit : U64} {msg : Text} (d : Dumpable start limit msg)
    (long : 32 ≤ limit.toNat - start.toNat) :
    ∃ n t, limit.toNat = start.toNat + 32 * (n + 1) + 8 * t ∧ t < 4 := by
  have whole := d.whole
  exact ⟨(limit.toNat - start.toNat) / 32 - 1, (limit.toNat - start.toNat) % 32 / 8, by omega,
    by omega⟩

/-- A range of `n + 1` whole blocks and `t` more quad words: the block records
encode the blocks, the last of them is printed by the flush, the tail follows. -/
theorem logRange_blocks {start limit : U64} {msg : Text} (d : Dumpable start limit msg)
    (n t : Nat) (size : limit.toNat = start.toNat + 32 * (n + 1) + 8 * t) (tail : t < 4)
    (leaves : ¬ Wraps start limit) :
    ∃ es ls blocks flush, (logRange m start limit msg).Returns g es () g.nextLog ∧
      Section g start msg es ls ∧
      List.Forall₂ Reads ls (blocks ++ flush ::
        qwordRecords m.mem start t (start + BitVec.ofNat 64 (32 * (n + 1)))) ∧
      (blocks ++ [flush]).map Record.run =
        RunLength.runs (readWords m.mem 4 start) 0 (readBlocks m.mem n (start + 32)) ∧
      flush.offset = (limit - start - 8 * BitVec.ofNat 64 flush.count).toNat := by
  have top := limit.isLt
  obtain ⟨es₁, first, silent⟩ := loadWords_returns m (g := g) 4 start
  have inside : ∀ i < n, start + 32 + BitVec.ofNat 64 (32 * i) + 4 * 8 ≤ limit := by
    intro i hi
    bv_omega
  obtain ⟨es₂, b, rounds, at_ptr, pending, block, recs, printed, small, encoded⟩ :=
    blockLoop_steps m (g := g) start limit n (start + 32) 0
      (readWords m.mem 4 start) (by simp) (by simp; omega) inside
  have end_ptr : b.ptr = start + BitVec.ofNat 64 (32 * (n + 1)) := by
    rw [at_ptr]
    bv_omega
  have outside : ¬ b.ptr + 4 * 8 ≤ limit := by
    have low : start.toNat + 32 * (n + 2) < 2 ^ 64 := by
      unfold Wraps at leaves
      omega
    rw [end_ptr]
    bv_omega
  have looped := rounds.returns (returns_loop.mpr (.inl (blockRound_exit m (g := g) outside)))
  obtain ⟨es₃, last, reads⟩ := qwordLoop_returns m (g := g) start limit reads_tailLine t b.ptr
    (by rw [end_ptr]; bv_omega)
  let flush : Text := repeatLine (b.count + 1) (limit - start - 8 * (b.count + 1)) b.prevVal
  have count : (b.count + 1).toNat = b.count.toNat + 1 := by
    bv_omega
  refine ⟨[.logRange start limit msg] ++ (es₁ ++ ([] ++
      ([.printk (busterInfo ++ beginLine g.logId start msg)] ++ ((es₂ ++ []) ++
        ([.printk (busterInfo ++ snprintf 127 flush)] ++
          (es₃ ++ ([.printk (busterInfo ++ endLine g.logId)] ++ []))))))),
    lines es₂ ++ (busterInfo ++ snprintf 127 flush) :: lines es₃, recs,
    ⟨b.count.toNat + 1, (limit - start - 8 * (b.count + 1)).toNat, b.prevVal⟩, ?_, ?_, ?_, ?_, ?_⟩
  · rw [logRange_long m d (by omega)]
    refine (emit_returns _ g).bind ?_
    unfold logBlocks
    exact first.bind ((get_returns g).bind ((printk_returns _ g).bind (looped.bind
      ((printk_returns _ g).bind (last.bind ((printk_returns _ g).bind (modify_returns _ g)))))))
  · simp [Section, silent]
  · rw [← end_ptr, ← count]
    exact List.rel_append printed (.cons (reads_repeatLine _ _ block) reads)
  · rw [List.map_append]
    exact encoded.symm
  · have e : BitVec.ofNat 64 (b.count.toNat + 1) = b.count + 1 := by bv_omega
    simp only [e]

/-- Whatever it is given, a call on whole quad words returns, unless its block
loop never leaves. -/
theorem logRange_ends (g : Globals) {start limit : U64} {msg : Text}
    (accepted : checkMsg 0 msg = none) (whole : (limit.toNat - start.toNat) % 8 = 0)
    (leaves : 32 ≤ limit.toNat - start.toNat → ¬ Wraps start limit) :
    (logRange m start limit msg).Ends g := by
  have top := limit.isLt
  have refused (line : Text) : (emit (.logRange start limit msg) >>= fun _ =>
      printk (busterInfo ++ line)).Ends g :=
    ⟨_, _, _, (emit_returns _ g).bind (printk_returns _ g)⟩
  by_cases null : start = 0
  · unfold logRange
    simp only [accepted, null, ↓reduceIte] at refused ⊢
    exact refused _
  by_cases crossed : start > limit
  · unfold logRange
    simp only [accepted, null, crossed, ↓reduceIte]
    exact refused _
  have ordered : start ≤ limit := by bv_omega
  by_cases short : limit.toNat - start.toNat < 32
  · have d : Dumpable start limit msg := ⟨accepted, null, ordered, whole, by omega⟩
    obtain ⟨es, _, run, _⟩ := logRange_short m (g := g) d short
    exact ⟨es, _, _, run⟩
  by_cases aligned : start.toNat % 8 = 0
  · have d : Dumpable start limit msg := ⟨accepted, null, ordered, whole, fun _ => aligned⟩
    obtain ⟨n, t, size, tail⟩ := d.blocks (by omega)
    obtain ⟨es, _, _, _, run, _⟩ := logRange_blocks m (g := g) d n t size tail (leaves (by omega))
    exact ⟨es, _, _, run⟩
  · have notSmall : ¬ limit - start < 32 := by bv_omega
    have odd : start % 8 ≠ 0 := by bv_omega
    unfold logRange
    simp only [accepted, null, crossed, blockBytes, notSmall, odd, ne_eq, not_false_eq_true,
      ↓reduceIte]
    exact refused _

/-! ## Reading a section back -/

/-- No two neighbouring records of a whole block carry the same block. -/
def MaximalRuns (recs : List Record) : Prop :=
  recs.IsChain fun a b => a.words.length = 4 → b.words.length = 4 → a.words ≠ b.words

theorem expand_records (recs : List Record) :
    recs.flatMap Record.expand = (RunLength.expand (recs.map Record.run)).flatten := by
  induction recs with
  | nil => rfl
  | cons r recs ih => simp [ih, Record.expand, Record.run]

theorem maximal_qwordRecords (mem : Mem) (start : U64) (n : Nat) (ptr : U64) :
    MaximalRuns (qwordRecords mem start n ptr) := by
  induction n generalizing ptr with
  | zero => exact .nil
  | succ n ih =>
    apply (ih (ptr + 8)).cons
    intro r _ single
    simp at single

theorem head?_qwordRecords {mem : Mem} {start : U64} {n : Nat} {ptr : U64} {r : Record}
    (h : r ∈ (qwordRecords mem start n ptr).head?) : r.words.length = 1 := by
  cases n with
  | zero => simp [qwordRecords] at h
  | succ n =>
    obtain rfl : _ = r := by simpa [qwordRecords] using h
    rfl

/-- The block records of a range and its tail give back the words of the range. -/
theorem expand_blocks {mem : Mem} {start : U64} {n t : Nat} {blocks : List Record} {flush : Record}
    (encoded : (blocks ++ [flush]).map Record.run =
      RunLength.runs (readWords mem 4 start) 0 (readBlocks mem n (start + 32))) :
    (blocks ++ flush :: qwordRecords mem start t (start + BitVec.ofNat 64 (32 * (n + 1)))).flatMap
      Record.expand = readWords mem (4 * (n + 1) + t) start := by
  have split :
      blocks ++ flush :: qwordRecords mem start t (start + BitVec.ofNat 64 (32 * (n + 1))) =
        (blocks ++ [flush]) ++
        qwordRecords mem start t (start + BitVec.ofNat 64 (32 * (n + 1))) := by simp
  have first : start + BitVec.ofNat 64 (8 * 4) = start + 32 := rfl
  have offset : 32 * (n + 1) = 8 * (4 * (n + 1)) := by omega
  rw [split, List.flatMap_append, expand_records, encoded, RunLength.expand_runs,
    expand_qwordRecords, readWords_add, offset, show 4 * (n + 1) = 4 + 4 * n by omega,
    readWords_add, first, ← flatten_readBlocks]
  simp

theorem maximal_blocks {mem : Mem} {start ptr : U64} {n t : Nat} {blocks : List Record}
    {flush : Record}
    (encoded : (blocks ++ [flush]).map Record.run =
      RunLength.runs (readWords mem 4 start) 0 (readBlocks mem n (start + 32))) :
    MaximalRuns (blocks ++ flush :: qwordRecords mem start t ptr) := by
  have runs : ((blocks ++ [flush]).map Record.run).IsChain fun a b => a.2 ≠ b.2 := by
    rw [encoded]
    exact RunLength.maximal_runs _ _ _
  have front : MaximalRuns (blocks ++ [flush]) := by
    rw [List.isChain_map] at runs
    exact runs.imp fun a b differ _ _ => differ
  have split : blocks ++ flush :: qwordRecords mem start t ptr =
      (blocks ++ [flush]) ++ qwordRecords mem start t ptr := by simp
  unfold MaximalRuns
  rw [split, List.isChain_append]
  refine ⟨front, maximal_qwordRecords mem start t ptr, ?_⟩
  intro a _ b hb _ four
  have := head?_qwordRecords hb
  omega

/-- A section loses and duplicates nothing. Read back as text, its records give
the quad words of the range in order; none was cut short; runs are maximal. -/
theorem log_range_lossless {start limit : U64} {msg : Text} (d : Dumpable start limit msg)
    (room : limit.toNat + 32 < 2 ^ 64) :
    ∃ es g' recs, (logRange m start limit msg).Returns g es () g' ∧
      (recordLines (lines es)).mapM parseRecord = some recs ∧
      recs.flatMap Record.expand = readWords m.mem ((limit.toNat - start.toNat) / 8) start ∧
      (∀ line ∈ recordLines (lines es), line.getLast? = some '\n') ∧ MaximalRuns recs := by
  have whole_lines {ls : List Text} {recs : List Record} (h : List.Forall₂ Reads ls recs) :
      ∀ line ∈ ls, line.getLast? = some '\n' := by
    induction h with
    | nil => simp
    | cons first _ ih => simpa [first.1] using ih
  by_cases short : limit.toNat - start.toNat < 32
  · obtain ⟨es, ls, run, sect, reads⟩ := logRange_short m (g := g) d short
    have inner : recordLines (lines es) = ls := by rw [sect, recordLines_section reads]
    refine ⟨es, _, _, run, by rw [inner, mapM_parse reads], expand_qwordRecords .., ?_,
      maximal_qwordRecords ..⟩
    rw [inner]
    exact whole_lines reads
  · have ordered : start.toNat ≤ limit.toNat := d.ordered
    obtain ⟨n, t, size, tail⟩ := d.blocks (by omega)
    have leaves : ¬ Wraps start limit := fun wraps => by
      unfold Wraps at wraps
      omega
    obtain ⟨es, ls, blocks, flush, run, sect, reads, encoded, _⟩ :=
      logRange_blocks m (g := g) d n t size tail leaves
    have inner : recordLines (lines es) = ls := by rw [sect, recordLines_section reads]
    refine ⟨es, _, _, run, by rw [inner, mapM_parse reads], ?_, ?_, maximal_blocks encoded⟩
    · rw [expand_blocks encoded]
      congr 1
      omega
    · rw [inner]
      exact whole_lines reads

/-- Five quad words, one block and a tail of one. -/
theorem lossless_block_and_tail :
    ∃ es g' recs, (logRange ⟨fun a => a.setWidth 8, fun _ _ _ => 0, id⟩ 0x1000 0x1028
        "dump".toList).Returns Globals.initial es () g' ∧
      (recordLines (lines es)).mapM parseRecord = some recs ∧
      recs.flatMap Record.expand = readWords (fun a => a.setWidth 8) 5 0x1000 ∧
      (∀ line ∈ recordLines (lines es), line.getLast? = some '\n') ∧ MaximalRuns recs :=
  log_range_lossless _ ⟨by decide, by decide, by decide, by decide, by decide⟩ (by decide)

end Buster
