import Mathlib.Data.List.TakeWhile
import Buster.Dump

/-!
# The log of many dumps

A reader takes the log one line at a time and knows only the text. Whatever
`log_range` is called with, and in whatever order, the reader finds one section
for each accepted call, with the id, the start and the message of that call.
-/

namespace Buster

open Imp.Prog

/-- What a call is given. The memory is the call's own: the registers it reads
may have changed since the last one. -/
structure LogCall where
  m : Machine
  start : U64
  limit : U64
  msg : Text

def LogCall.run (c : LogCall) : Kernel Unit := logRange c.m c.start c.limit c.msg

/-- The quad words of the range. -/
def LogCall.words (c : LogCall) : List U64 :=
  readWords c.m.mem ((c.limit.toNat - c.start.toNat) / 8) c.start

def logCalls : List LogCall → Kernel Unit
  | [] => pure ()
  | c :: cs => do
    c.run
    logCalls cs

/-- The error a call is turned away with. -/
def LogCall.refusal (c : LogCall) : Option Text :=
  match checkMsg 0 c.msg with
  | some err => some err
  | none =>
    if c.start = 0 then some "err:start is null".toList
    else if c.start > c.limit then some "err:start > limit".toList
    else if c.limit - c.start < 256 / 8 then none
    else if c.start % 8 ≠ 0 then some "err:start not aligned".toList
    else none

def LogCall.accepted (c : LogCall) : Bool := c.refusal.isNone

/-- The lines of a list of calls, from the first call's id to the id after the
last: one error line, or a complete section under the next id. The section of a
range of whole quad words tells them all. -/
inductive Framed : U64 → List LogCall → List Text → U64 → Prop
  | nil (id : U64) : Framed id [] [] id
  | refused {id id' : U64} {c : LogCall} {cs : List LogCall} {ls : List Text} {err : Text}
      (turned : c.refusal = some err) (rest : Framed id cs ls id') :
      Framed id (c :: cs) ((busterInfo ++ err) :: ls) id'
  | accepted {id id' : U64} {c : LogCall} {cs : List LogCall} {ls inner : List Text}
      {recs : List Record} (taken : c.refusal = none) (records : List.Forall₂ Reads inner recs)
      (told : Dumpable c.start c.limit c.msg → recs.flatMap Record.expand = c.words)
      (rest : Framed (id + 1) cs ls id') :
      Framed id (c :: cs) ((busterInfo ++ beginLine id c.start c.msg) ::
        (inner ++ (busterInfo ++ endLine id) :: ls)) id'

/-! ## The reader -/

structure Header where
  id : U64
  start : U64
  msg : Text
  deriving DecidableEq

inductive Line where
  | begin (header : Header)
  | record (r : Record)
  | finish (id : U64)
  | error (text : Text)
  deriving DecidableEq

def parseBegin (line : Text) : Option Header := do
  let body ← (busterInfo ++ "BEGIN.".toList).isPrefixOf? line
  let (id, rest) ← cut '.' body
  let (start, rest) ← cut '.' rest
  let (msg, rest) ← cut '\n' rest
  if rest ≠ [] then none
  return ⟨← parseQword id, ← parseQword start, msg⟩

def parseEnd (line : Text) : Option U64 := do
  let body ← (busterInfo ++ "END.".toList).isPrefixOf? line
  let (id, rest) ← cut '\n' body
  if rest ≠ [] then none
  parseQword id

def parseLine (line : Text) : Option Line :=
  (parseBegin line).map .begin <|> (parseEnd line).map .finish <|>
    (parseRecord line).map .record <|>
    ((busterInfo ++ "err:".toList).isPrefixOf? line).map .error

structure Frame where
  header : Header
  records : List Record
  deriving DecidableEq

/-- The sections read so far, and the one that has not ended yet. -/
structure Reader where
  frames : List Frame
  current : Option Frame

def Reader.next (r : Reader) (line : Text) : Option Reader :=
  match r.current, parseLine line with
  | none, some (.begin h) => some { r with current := some ⟨h, []⟩ }
  | none, some (.error _) => some r
  | some f, some (.record rec) =>
    some { r with current := some { f with records := f.records ++ [rec] } }
  | some f, some (.finish id) => if id = f.header.id then some ⟨r.frames ++ [f], none⟩ else none
  | _, _ => none

/-- The sections of a whole log. -/
def decode (ls : List Text) : Option (List Frame) := do
  let r ← ls.foldlM Reader.next ⟨[], none⟩
  if r.current.isSome then none else some r.frames

/-- What the log says of the accepted calls, ids counting from `first`. -/
def headersFrom (first : Nat) (calls : List LogCall) : List Header :=
  ((calls.filter LogCall.accepted).zipIdx first).map fun (c, k) =>
    ⟨BitVec.ofNat 64 k, c.start, cstr c.msg⟩

/-! ## Reading single lines -/

@[simp] theorem parseQword_hex (x : U64) : parseQword (hex x) = some x := by
  simp [parseQword, hex]

theorem newline_not_mem {i : Nat} {msg : Text} (h : checkMsg i msg = none) : '\n' ∉ cstr msg := by
  induction msg generalizing i with
  | nil => simp [cstr]
  | cons c cs ih =>
    unfold checkMsg at h
    by_cases stop : c = '\x00'
    · simp [cstr, stop]
    · simp only [stop, if_false] at h
      split at h
      · cases h
      · rename_i plain
        split at h
        · cases h
        · have later := ih h
          simp only [not_or] at plain
          simp only [cstr, ne_eq, stop, not_false_eq_true, decide_true, List.takeWhile_cons_of_pos,
            List.mem_cons, not_or]
          exact ⟨fun e => plain.1 e.symm, later⟩

theorem parseLine_begin {id start : U64} {msg : Text} (h : checkMsg 0 msg = none) :
    parseLine (busterInfo ++ beginLine id start msg) = some (.begin ⟨id, start, cstr msg⟩) := by
  have dot {x : U64} : '.' ∉ hex x := not_mem_of_digits (by decide) (hex_digits x)
  have parsed : parseBegin (busterInfo ++ beginLine id start msg) =
      some ⟨id, start, cstr msg⟩ := by
    unfold parseBegin beginLine
    rw [← List.append_assoc, isPrefixOf?_append]
    simp only [Option.bind_eq_bind, Option.bind_some, cut_append dot,
      cut_append (newline_not_mem h)]
    simp
  simp [parseLine, parsed]

theorem isPrefixOf?_append_append (tag a b : Text) :
    (tag ++ a).isPrefixOf? (tag ++ b) = a.isPrefixOf? b := by
  induction tag with
  | nil => rfl
  | cons c tag ih => simpa [List.isPrefixOf?] using ih

/-- A line with another first letter is no frame line. -/
theorem parseBegin_differs {d : Char} (h : 'B' ≠ d) (rest : Text) :
    parseBegin (busterInfo ++ d :: rest) = none := by
  have refused : "BEGIN.".toList.isPrefixOf? (d :: rest) = none := by
    simp [List.isPrefixOf?, h]
  simp only [parseBegin, isPrefixOf?_append_append, refused]
  rfl

theorem parseEnd_differs {d : Char} (h : 'E' ≠ d) (rest : Text) :
    parseEnd (busterInfo ++ d :: rest) = none := by
  have refused : "END.".toList.isPrefixOf? (d :: rest) = none := by
    simp [List.isPrefixOf?, h]
  simp only [parseEnd, isPrefixOf?_append_append, refused]
  rfl

theorem parseLine_end (id : U64) : parseLine (busterInfo ++ endLine id) = some (.finish id) := by
  have newline : '\n' ∉ hex id := not_mem_of_digits (by decide) (hex_digits id)
  have notBegin : parseBegin (busterInfo ++ endLine id) = none :=
    parseBegin_differs (d := 'E') (by decide) _
  have parsed : parseEnd (busterInfo ++ endLine id) = some id := by
    unfold parseEnd endLine
    rw [← List.append_assoc, isPrefixOf?_append]
    simp only [Option.bind_eq_bind, Option.bind_some, cut_append newline]
    simp
  simp [parseLine, notBegin, parsed]

theorem cut_eq_none {c : Char} {t : Text} (h : c ∉ t) : cut c t = none := by
  have all : t.dropWhile (· ≠ c) = [] := by
    rw [List.dropWhile_eq_nil_iff]
    intro x hx
    simpa using fun e : x = c => h (e ▸ hx)
  simp only [cut, all]

/-- What reads as a record starts with a digit, or with the `x` after the count. -/
theorem Reads.head {line : Text} {r : Record} (h : Reads line r) :
    ∃ d rest, line = busterInfo ++ d :: rest ∧ (d = 'x' ∨ Hex.IsDigit d) := by
  have parsed := h.2
  have tagged : ∃ body, line = busterInfo ++ body := by
    unfold parseRecord at parsed
    cases found : busterInfo.isPrefixOf? line with
    | none => simp [found] at parsed
    | some body => exact ⟨body, (List.isPrefixOf?_eq_some_iff_append_eq.mp found).symm⟩
  obtain ⟨body, rfl⟩ := tagged
  cases body with
  | nil =>
    have empty : cut 'x' ([] : Text) = none := rfl
    simp only [parseRecord, isPrefixOf?_append, Option.bind_eq_bind, Option.bind_some, empty,
      Option.bind_none, reduceCtorEq] at parsed
  | cons d rest =>
    refine ⟨d, rest, rfl, ?_⟩
    by_contra other
    rw [not_or] at other
    cases (parse_nondigit other.1 other.2 rest).symm.trans parsed

theorem Reads.parseLine {line : Text} {r : Record} (h : Reads line r) :
    parseLine line = some (.record r) := by
  obtain ⟨d, rest, rfl, digit⟩ := h.head
  have notB : 'B' ≠ d := by
    rintro rfl
    revert digit
    decide
  have notE : 'E' ≠ d := by
    rintro rfl
    revert digit
    decide
  simp [Buster.parseLine, parseBegin_differs notB, parseEnd_differs notE, h.2]

/-! ## The lines of one call -/

theorem checkMsg_error {i : Nat} {msg err : Text} (h : checkMsg i msg = some err) :
    err = "err:msg has special chars".toList ∨ err = "err:msg too long".toList := by
  induction msg generalizing i with
  | nil => cases h
  | cons c cs ih =>
    unfold checkMsg at h
    split at h
    · cases h
    split at h
    · exact .inl (Option.some.inj h).symm
    split at h
    · exact .inr (Option.some.inj h).symm
    · exact ih h

theorem parseLine_error {text : Text} (h : 'x' ∉ text) :
    parseLine (busterInfo ++ ("err:".toList ++ text)) = some (.error text) := by
  have notBegin : parseBegin (busterInfo ++ ("err:".toList ++ text)) = none :=
    parseBegin_differs (d := 'e') (by decide) _
  have notEnd : parseEnd (busterInfo ++ ("err:".toList ++ text)) = none :=
    parseEnd_differs (d := 'e') (by decide) _
  have uncounted : cut 'x' ("err:".toList ++ text) = none := by
    apply cut_eq_none
    simpa using h
  have notRecord : parseRecord (busterInfo ++ ("err:".toList ++ text)) = none := by
    simp only [parseRecord, isPrefixOf?_append, Option.bind_eq_bind, Option.bind_some, uncounted,
      Option.bind_none]
  simp only [parseLine, notBegin, notEnd, notRecord, isPrefixOf?_append_append, isPrefixOf?_append]
  rfl

/-- Every error text starts alike, and none has the `x` of a record. -/
theorem LogCall.refusal_text {c : LogCall} {err : Text} (h : c.refusal = some err) :
    ∃ text, err = "err:".toList ++ text ∧ 'x' ∉ text := by
  have split (t : String) (plain : 'x' ∉ t.toList) (e : err = ("err:" ++ t).toList) :
      ∃ text, err = "err:".toList ++ text ∧ 'x' ∉ text :=
    ⟨t.toList, by rw [e, String.toList_append], plain⟩
  unfold LogCall.refusal at h
  cases checked : checkMsg 0 c.msg with
  | some e =>
    obtain rfl : e = err := by simpa [checked] using h
    cases checkMsg_error checked with
    | inl special => exact split "msg has special chars" (by decide) special
    | inr long => exact split "msg too long" (by decide) long
  | none =>
    simp only [checked] at h
    split at h
    · exact split "start is null" (by decide) (Option.some.inj h).symm
    split at h
    · exact split "start > limit" (by decide) (Option.some.inj h).symm
    split at h
    · cases h
    split at h
    · exact split "start not aligned" (by decide) (Option.some.inj h).symm
    · cases h

section call
variable {m : Machine} {g g' : Globals} {es : List Event}

/-- Lines that read as records. -/
def Records (ls : List Text) : Prop := ∃ recs, List.Forall₂ Reads ls recs

theorem Records.append {a b : List Text} (ha : Records a) (hb : Records b) : Records (a ++ b) := by
  obtain ⟨as, ha⟩ := ha
  obtain ⟨bs, hb⟩ := hb
  exact ⟨as ++ bs, List.rel_append ha hb⟩

theorem records_nil : Records [] := ⟨[], .nil⟩

theorem Reads.records {line : Text} {r : Record} (h : Reads line r) : Records [line] :=
  ⟨[r], .cons h .nil⟩

theorem qwordLoop_records {line : U64 → U64 → Text}
    (reads : ∀ offset value, Reads (busterInfo ++ snprintf 127 (line offset value))
      ⟨1, offset.toNat, [value]⟩) {start limit ptr : U64} {u : Unit}
    (run : (qwordLoop m line start limit ptr).Returns g es u g') : g' = g ∧ Records (lines es) := by
  apply Returns.loop_induction (motive := fun _ s es _ s' => s' = s ∧ Records (lines es)) _ _ run
  · intro ptr s es u s' last
    by_cases more : ptr < limit
    · cases (last.unique (qwordRound_next m more)).2.1
    · obtain ⟨rfl, _, rfl⟩ := last.unique (qwordRound_exit m more)
      exact ⟨rfl, records_nil⟩
  · intro ptr s es₁ next s₁ es₂ u s' round rest
    by_cases more : ptr < limit
    · obtain ⟨rfl, _, rfl⟩ := round.unique (qwordRound_next m more)
      refine ⟨rest.1, ?_⟩
      rw [lines_append]
      exact (reads _ _).records.append rest.2
    · cases (round.unique (qwordRound_exit m more)).2.1

/-- What a round of the block loop can do: leave, compare equal, or print the
run and read the block again. -/
theorem blockRound_cases {start limit : U64} {b : BlockLoop} {r : BlockLoop ⊕ BlockLoop}
    (block : b.prevVal.length = 4) (run : (blockRound m start limit b).Returns g es r g') :
    g' = g ∧
      ((¬ b.ptr + 4 * 8 ≤ limit ∧ es = [] ∧ r = .inr b) ∨
        (b.ptr + 4 * 8 ≤ limit ∧ (sameWords m b.prevVal b.ptr).Returns g es true g ∧
          r = .inl ⟨b.ptr + 4 * 8, b.count + 1, b.prevVal⟩) ∨
        (b.ptr + 4 * 8 ≤ limit ∧ ∃ es₁ text es₂ next,
          (sameWords m b.prevVal b.ptr).Returns g es₁ false g ∧ Records [busterInfo ++ text] ∧
          (loadWords m 4 b.ptr).Returns g es₂ next g ∧ next.length = 4 ∧
          es = es₁ ++ .printk (busterInfo ++ text) :: es₂ ∧
          r = .inl ⟨b.ptr + 4 * 8, 0, next⟩)) := by
  by_cases inside : b.ptr + 4 * 8 ≤ limit
  · obtain ⟨ptr, count, prevVal⟩ := b
    simp only [blockRound, if_pos inside] at run
    obtain ⟨es₁, compared, _⟩ := sameWords_returns m (g := g) prevVal ptr
    obtain ⟨more, rfl, run₁⟩ := compared.rest run
    cases same : decide (prevVal = readWords m.mem prevVal.length ptr) with
    | true =>
      simp only [same, if_true, returns_pure] at run₁ compared
      obtain ⟨rfl, rfl, rfl⟩ := run₁
      rw [List.append_nil]
      exact ⟨rfl, .inr (.inl ⟨inside, compared, rfl⟩)⟩
    | false =>
      obtain ⟨es₂, loaded, _⟩ := loadWords_returns m (g := g) 4 ptr
      have line : ∃ text, Records [busterInfo ++ text] ∧
          (printk (busterInfo ++ text) >>= fun _ => loadWords m 4 ptr >>= fun next =>
            (pure (.inl ⟨ptr + 4 * 8, 0, next⟩) : Kernel (BlockLoop ⊕ BlockLoop))).Returns
              g more r g' := by
        simp only [same, Bool.false_eq_true, if_false] at run₁
        split at run₁
        · exact ⟨_, (reads_repeatLine _ _ block).records, run₁⟩
        · exact ⟨_, (reads_singleLine _ block).records, run₁⟩
      obtain ⟨text, reads, run₂⟩ := line
      obtain ⟨_, rfl, run₃⟩ := (printk_returns _ g).rest run₂
      obtain ⟨_, rfl, run₄⟩ := loaded.rest run₃
      obtain ⟨rfl, rfl, rfl⟩ := returns_pure.mp run₄
      rw [same] at compared
      refine ⟨rfl, .inr (.inr ⟨inside, es₁, text, es₂, _, compared, reads, loaded,
        length_readWords .., by simp, rfl⟩)⟩
  · obtain ⟨rfl, rfl, rfl⟩ := run.unique (blockRound_exit m inside)
    exact ⟨rfl, .inl ⟨inside, rfl, rfl⟩⟩

theorem blockRound_records {start limit : U64} {b : BlockLoop} {r : BlockLoop ⊕ BlockLoop}
    (block : b.prevVal.length = 4) (run : (blockRound m start limit b).Returns g es r g') :
    g' = g ∧ Records (lines es) ∧ ∀ b', r = .inl b' ∨ r = .inr b' → b'.prevVal.length = 4 := by
  obtain ⟨same, left | equal | differs⟩ := blockRound_cases block run
  · obtain ⟨_, rfl, rfl⟩ := left
    refine ⟨same, records_nil, ?_⟩
    rintro b' (h | h) <;> cases h
    exact block
  · obtain ⟨_, compared, rfl⟩ := equal
    obtain ⟨_, run', silent⟩ := sameWords_returns m (g := g) b.prevVal b.ptr
    obtain ⟨rfl, _⟩ := compared.unique run'
    refine ⟨same, silent ▸ records_nil, ?_⟩
    rintro b' (h | h) <;> cases h
    exact block
  · obtain ⟨_, es₁, text, es₂, next, compared, reads, loaded, size, rfl, rfl⟩ := differs
    obtain ⟨_, run₁, silent₁⟩ := sameWords_returns m (g := g) b.prevVal b.ptr
    obtain ⟨_, run₂, silent₂⟩ := loadWords_returns m (g := g) 4 b.ptr
    obtain ⟨rfl, _⟩ := compared.unique run₁
    obtain ⟨rfl, _⟩ := loaded.unique run₂
    refine ⟨same, by simpa [silent₁, silent₂] using reads, ?_⟩
    rintro b' (h | h) <;> cases h
    exact size

theorem blockLoop_records {start limit : U64} {b last : BlockLoop} (block : b.prevVal.length = 4)
    (run : (blockLoop m start limit b).Returns g es last g') :
    g' = g ∧ Records (lines es) ∧ last.prevVal.length = 4 := by
  revert block
  apply Returns.loop_induction (motive := fun b s es last s' => b.prevVal.length = 4 →
    s' = s ∧ Records (lines es) ∧ last.prevVal.length = 4) _ _ run
  · intro b s es last s' round block
    obtain ⟨same, printed, kept⟩ := blockRound_records block round
    exact ⟨same, printed, kept last (.inr rfl)⟩
  · intro b s es₁ next s₁ es₂ last s' round rest block
    obtain ⟨rfl, printed, kept⟩ := blockRound_records block round
    obtain ⟨same, printed', kept'⟩ := rest (kept next (.inl rfl))
    refine ⟨same, ?_, kept'⟩
    rw [lines_append]
    exact printed.append printed'

/-- The loop moves on by whole blocks until none is left before the limit. -/
theorem blockLoop_stops {start limit : U64} {b last : BlockLoop} (block : b.prevVal.length = 4)
    (run : (blockLoop m start limit b).Returns g es last g') :
    last.ptr.toNat % 32 = b.ptr.toNat % 32 ∧ ¬ last.ptr + 4 * 8 ≤ limit := by
  revert block
  apply Returns.loop_induction (motive := fun b _ _ last _ => b.prevVal.length = 4 →
    last.ptr.toNat % 32 = b.ptr.toNat % 32 ∧ ¬ last.ptr + 4 * 8 ≤ limit) _ _ run
  · intro b s es last s' round block
    obtain ⟨_, left | equal | differs⟩ := blockRound_cases block round
    · obtain ⟨stopped, _, same⟩ := left
      cases same
      exact ⟨rfl, stopped⟩
    · cases equal.2.2
    · obtain ⟨_, _, _, _, _, _, _, _, _, _, same⟩ := differs
      cases same
  · intro b s es₁ next s₁ es₂ last s' round rest block
    have kept := (blockRound_records block round).2.2 next (.inl rfl)
    have moved : next.ptr = b.ptr + 4 * 8 := by
      obtain ⟨_, left | equal | differs⟩ := blockRound_cases block round
      · cases left.2.2
      · cases equal.2.2
        rfl
      · obtain ⟨_, _, _, _, _, _, _, _, _, _, same⟩ := differs
        cases same
        rfl
    obtain ⟨phase, stopped⟩ := rest kept
    refine ⟨?_, stopped⟩
    rw [phase, moved]
    bv_omega

/-- It only comes out of ranges that can be left. -/
theorem blockLoop_leaves {start limit count : U64} {prevVal : List U64} {last : BlockLoop}
    (block : prevVal.length = 4)
    (run : (blockLoop m start limit ⟨start + 4 * 8, count, prevVal⟩).Returns g es last g') :
    ¬ Wraps start limit := by
  obtain ⟨phase, stopped⟩ := blockLoop_stops block run
  have first : (start + 4 * 8).toNat % 32 = start.toNat % 32 := by bv_omega
  rintro ⟨high, offset⟩
  dsimp only at phase
  have below := last.ptr.isLt
  bv_omega

/-- The short path prints its quad words between the two lines. -/
theorem logShort_cases {start limit : U64} {msg : Text} {u : Unit}
    (run : (logShort m start limit msg).Returns g es u g') : ∃ words g₁,
      (qwordLoop m shortLine start limit start).Returns g words () g₁ ∧ g' = g₁.nextLog ∧
      es = .printk (busterInfo ++ beginLine g.logId start msg) ::
        (words ++ [.printk (busterInfo ++ endLine g.logId)]) := by
  unfold logShort at run
  obtain ⟨_, rfl, run₁⟩ := (get_returns g).rest run
  obtain ⟨_, rfl, run₂⟩ := (printk_returns _ g).rest run₁
  obtain ⟨words, _, g₁, _, looped, run₃, rfl⟩ := returns_bind.mp run₂
  obtain ⟨_, rfl, run₄⟩ := (printk_returns _ g₁).rest run₃
  obtain ⟨rfl, rfl⟩ := returns_modify.mp run₄
  exact ⟨words, g₁, looped, rfl, rfl⟩

/-- The other path reads the first block, and between the two lines it prints
the blocks, the run that is left over and the quad words behind it. -/
theorem logBlocks_cases {start limit : U64} {msg : Text} {u : Unit}
    (run : (logBlocks m start limit msg).Returns g es u g') : ∃ loads blocks last g₁ words g₂,
      (loadWords m 4 start).Returns g loads (readWords m.mem 4 start) g ∧ lines loads = [] ∧
      (blockLoop m start limit ⟨start + 4 * 8, 0, readWords m.mem 4 start⟩).Returns
        g blocks last g₁ ∧
      (qwordLoop m tailLine start limit last.ptr).Returns g₁ words () g₂ ∧ g' = g₂.nextLog ∧
      es = loads ++ .printk (busterInfo ++ beginLine g.logId start msg) ::
        (blocks ++ .printk (busterInfo ++ snprintf 127 (repeatLine (last.count + 1)
            (limit - start - 8 * (last.count + 1)) last.prevVal)) ::
          (words ++ [.printk (busterInfo ++ endLine g.logId)])) := by
  unfold logBlocks at run
  obtain ⟨loads, loaded, silent⟩ := loadWords_returns m (g := g) 4 start
  obtain ⟨_, rfl, run₁⟩ := loaded.rest run
  obtain ⟨_, rfl, run₂⟩ := (get_returns g).rest run₁
  obtain ⟨_, rfl, run₃⟩ := (printk_returns _ g).rest run₂
  obtain ⟨blocks, last, g₁, _, looped, run₄, rfl⟩ := returns_bind.mp run₃
  obtain ⟨_, rfl, run₅⟩ := (printk_returns _ g₁).rest run₄
  obtain ⟨words, _, g₂, _, tail, run₆, rfl⟩ := returns_bind.mp run₅
  obtain ⟨_, rfl, run₇⟩ := (printk_returns _ g₂).rest run₆
  obtain ⟨rfl, rfl⟩ := returns_modify.mp run₇
  exact ⟨loads, blocks, last, g₁, words, g₂, loaded, silent, looped, tail, rfl, rfl⟩

/-- What the two paths that print a section have in common. -/
def SectionOf (g g' : Globals) (start : U64) (msg : Text) (es : List Event) : Prop :=
  g' = g.nextLog ∧ ∃ ls, Section g start msg es ls ∧ Records ls

theorem logShort_section {start limit : U64} {msg : Text} {u : Unit}
    (run : (logShort m start limit msg).Returns g es u g') : SectionOf g g' start msg es := by
  obtain ⟨words, g₁, looped, rfl, rfl⟩ := logShort_cases run
  obtain ⟨rfl, records⟩ := qwordLoop_records reads_shortLine looped
  exact ⟨rfl, lines words, by simp [Section], records⟩

theorem logBlocks_section {start limit : U64} {msg : Text} {u : Unit}
    (run : (logBlocks m start limit msg).Returns g es u g') : SectionOf g g' start msg es := by
  obtain ⟨loads, blocks, last, g₁, words, g₂, _, silent, looped, tail, rfl, rfl⟩ :=
    logBlocks_cases run
  obtain ⟨rfl, records, block⟩ := blockLoop_records (length_readWords ..) looped
  obtain ⟨rfl, records'⟩ := qwordLoop_records reads_tailLine tail
  have flush := (reads_repeatLine (last.count + 1) (limit - start - 8 * (last.count + 1))
    block).records
  refine ⟨rfl, _, ?_, records.append (flush.append records')⟩
  simp [Section, silent]

/-- The checks decide first, then the length picks one of the two paths. -/
theorem LogCall.run_eq (c : LogCall) : c.run =
    emit (.logRange c.start c.limit c.msg) >>= fun _ =>
      match c.refusal with
      | some err => printk (busterInfo ++ err)
      | none => if c.limit - c.start < 256 / 8 then logShort c.m c.start c.limit c.msg
        else logBlocks c.m c.start c.limit c.msg := by
  unfold LogCall.run LogCall.refusal logRange
  cases checkMsg 0 c.msg with
  | some err => rfl
  | none =>
    by_cases null : c.start = 0
    · simp only [if_pos null]
    by_cases crossed : c.start > c.limit
    · simp only [if_neg null, if_pos crossed]
    by_cases short : c.limit - c.start < 256 / 8
    · simp only [if_neg null, if_neg crossed, if_pos short]
    by_cases odd : c.start % 8 ≠ 0
    · simp only [if_neg null, if_neg crossed, if_neg short, if_pos odd]
    · simp only [if_neg null, if_neg crossed, if_neg short, if_neg odd]

theorem LogCall.refused_returns {c : LogCall} {err : Text} (turned : c.refusal = some err)
    (g : Globals) : c.run.Returns g
      [.logRange c.start c.limit c.msg, .printk (busterInfo ++ err)] () g := by
  simp only [c.run_eq, turned]
  exact (emit_returns _ g).bind (printk_returns _ g)

theorem LogCall.accepted_run {c : LogCall} {u : Unit} (taken : c.refusal = none)
    (run : c.run.Returns g es u g') : SectionOf g g' c.start c.msg es := by
  simp only [c.run_eq, taken] at run
  obtain ⟨es₁, rfl, run₁⟩ := (emit_returns _ g).rest run
  have printed : SectionOf g g' c.start c.msg es₁ := by
    split at run₁
    · exact logShort_section run₁
    · exact logBlocks_section run₁
  exact printed

/-- A call that comes back has left its block loop. -/
theorem LogCall.leaves_of_returns {c : LogCall} {u : Unit} (taken : c.refusal = none)
    (run : c.run.Returns g es u g') (long : 32 ≤ c.limit.toNat - c.start.toNat) :
    ¬ Wraps c.start c.limit := by
  simp only [c.run_eq, taken] at run
  obtain ⟨_, _, run₁⟩ := (emit_returns _ g).rest run
  have notSmall : ¬ c.limit - c.start < 256 / 8 := by
    rw [blockBytes]
    bv_omega
  rw [if_neg notSmall] at run₁
  obtain ⟨_, _, last, _, _, _, _, _, looped, _⟩ := logBlocks_cases run₁
  exact blockLoop_leaves (length_readWords ..) looped

/-- The lines and the records of a section that `log_range` prints. -/
theorem LogCall.section_of_dumpable {c : LogCall} (d : Dumpable c.start c.limit c.msg)
    (leaves : 32 ≤ c.limit.toNat - c.start.toNat → ¬ Wraps c.start c.limit) (g : Globals) :
    ∃ es ls recs, c.run.Returns g es () g.nextLog ∧ Section g c.start c.msg es ls ∧
      List.Forall₂ Reads ls recs ∧ recs.flatMap Record.expand = c.words := by
  by_cases short : c.limit.toNat - c.start.toNat < 32
  · obtain ⟨es, ls, run, sect, reads⟩ := logRange_short c.m (g := g) d short
    exact ⟨es, ls, _, run, sect, reads, expand_qwordRecords ..⟩
  · have ordered : c.start.toNat ≤ c.limit.toNat := d.ordered
    obtain ⟨n, t, size, tail⟩ := d.blocks (by omega)
    obtain ⟨es, ls, blocks, flush, run, sect, reads, encoded, _⟩ :=
      logRange_blocks c.m (g := g) d n t size tail (leaves (by omega))
    refine ⟨es, ls, _, run, sect, reads, ?_⟩
    rw [expand_blocks encoded, LogCall.words]
    congr 1
    omega

/-- The section of a call that comes back. -/
theorem LogCall.told_run {c : LogCall} {u : Unit} (taken : c.refusal = none)
    (run : c.run.Returns g es u g') : g' = g.nextLog ∧ ∃ ls recs,
      Section g c.start c.msg es ls ∧ List.Forall₂ Reads ls recs ∧
      (Dumpable c.start c.limit c.msg → recs.flatMap Record.expand = c.words) := by
  by_cases d : Dumpable c.start c.limit c.msg
  · obtain ⟨es', ls, recs, run', sect, reads, told⟩ :=
      LogCall.section_of_dumpable d (LogCall.leaves_of_returns taken run) g
    obtain ⟨rfl, _, rfl⟩ := run.unique run'
    exact ⟨rfl, ls, recs, sect, reads, fun _ => told⟩
  · obtain ⟨next, ls, sect, recs, reads⟩ := LogCall.accepted_run taken run
    exact ⟨next, ls, recs, sect, reads, fun d' => absurd d' d⟩

end call

/-! ## The whole log -/

theorem logCalls_framed {calls : List LogCall} {g g' : Globals} {es : List Event} {u : Unit}
    (run : (logCalls calls).Returns g es u g') : Framed g.logId calls (lines es) g'.logId := by
  induction calls generalizing g es with
  | nil =>
    obtain ⟨rfl, _, rfl⟩ := returns_pure.mp run
    exact .nil _
  | cons c cs ih =>
    obtain ⟨es₁, _, g₁, es₂, first, rest, rfl⟩ := returns_bind.mp run
    have later := ih rest
    rw [lines_append]
    cases turned : c.refusal with
    | some err =>
      obtain ⟨rfl, _, rfl⟩ := first.unique (c.refused_returns turned g)
      exact .refused turned later
    | none =>
      obtain ⟨rfl, ls, recs, printed, records, told⟩ := c.told_run turned first
      rw [printed, List.cons_append, List.append_assoc]
      exact .accepted turned records told later

theorem logCalls_ends {calls : List LogCall} (h : ∀ c ∈ calls, ∀ g, c.run.Ends g) (g : Globals) :
    (logCalls calls).Ends g := by
  induction calls generalizing g with
  | nil => exact (pure_returns () g).ends
  | cons c cs ih =>
    have rest : ∀ g, (logCalls cs).Ends g := ih fun c hc => h c (List.mem_cons_of_mem _ hc)
    exact (ends_bind fun _ => rest).mpr (h c List.mem_cons_self g)

theorem LogCall.checked {c : LogCall} (taken : c.refusal = none) : checkMsg 0 c.msg = none := by
  unfold LogCall.refusal at taken
  cases checked : checkMsg 0 c.msg with
  | none => rfl
  | some err => simp [checked] at taken

theorem foldlM_records {frames : List Frame} {h : Header} {inner : List Text}
    {rs recs : List Record} (records : List.Forall₂ Reads inner recs) :
    inner.foldlM Reader.next ⟨frames, some ⟨h, rs⟩⟩ = some ⟨frames, some ⟨h, rs ++ recs⟩⟩ := by
  induction records generalizing rs with
  | nil => simp
  | cons first _ ih => simp [Reader.next, first.parseLine, ih]

/-- The reader takes a framed log apart, a section at a time. -/
theorem Framed.decoded {id id' : U64} {calls : List LogCall} {ls : List Text}
    (framed : Framed id calls ls id') (frames : List Frame) (k : Nat)
    (hk : id = BitVec.ofNat 64 k) :
    ∃ more, ls.foldlM Reader.next ⟨frames, none⟩ = some ⟨frames ++ more, none⟩ ∧
      more.map Frame.header = headersFrom k calls := by
  induction framed generalizing frames k with
  | nil => exact ⟨[], by simp, rfl⟩
  | @refused id id' c cs ls err turned _ ih =>
    obtain ⟨more, read, headers⟩ := ih frames k hk
    obtain ⟨text, rfl, plain⟩ := LogCall.refusal_text turned
    refine ⟨more, ?_, ?_⟩
    · simp only [List.foldlM_cons, Reader.next, parseLine_error plain, Option.bind_eq_bind,
        Option.bind_some, read]
    · simp [headersFrom, LogCall.accepted, turned, headers]
  | @accepted id id' c cs ls inner recs taken records _ _ ih =>
    let frame : Frame := ⟨⟨id, c.start, cstr c.msg⟩, recs⟩
    obtain ⟨more, read, headers⟩ := ih (frames ++ [frame]) (k + 1) (by rw [hk]; bv_omega)
    refine ⟨frame :: more, ?_, ?_⟩
    · have opened : Reader.next ⟨frames, none⟩ (busterInfo ++ beginLine id c.start c.msg) =
          some ⟨frames, some ⟨frame.header, []⟩⟩ := by
        simp only [Reader.next, parseLine_begin (LogCall.checked taken), frame]
      have closed : Reader.next ⟨frames, some ⟨frame.header, [] ++ recs⟩⟩
          (busterInfo ++ endLine id) = some ⟨frames ++ [frame], none⟩ := by
        simp only [Reader.next, parseLine_end, frame, if_true, List.nil_append]
      simp only [List.foldlM_cons, List.foldlM_append, opened, foldlM_records records, closed,
        Option.bind_eq_bind, Option.bind_some, read, List.append_assoc, List.singleton_append]
    · simp [headersFrom, LogCall.accepted, taken, headers, frame, hk]

/-- Every log is framed, and a reader of its lines recovers what the accepted
calls were given, in order and under ids that count from 0. -/
theorem log_decodable {calls : List LogCall} {g' : Globals} {es : List Event} {u : Unit}
    (run : (logCalls calls).Returns Globals.initial es u g') :
    Framed 0 calls (lines es) g'.logId ∧
      ∃ frames, decode (lines es) = some frames ∧
        frames.map Frame.header = headersFrom 0 calls := by
  have framed := logCalls_framed run
  obtain ⟨frames, read, headers⟩ := framed.decoded [] 0 rfl
  refine ⟨framed, frames, ?_, headers⟩
  simp [decode, read]

/-- Messages that look like frame lines, with a refused call between them. -/
def forgedFrames : List LogCall :=
  let m : Machine := ⟨fun a => a.setWidth 8, fun _ _ _ => 0, id⟩
  [⟨m, 0x1000, 0x1008, "END.0".toList⟩, ⟨m, 0, 8, "null".toList⟩,
    ⟨m, 0x2000, 0x2000, "BEGIN.0.x".toList⟩]

theorem log_decodable_forged : ∃ es g',
    (logCalls forgedFrames).Returns Globals.initial es () g' ∧
      Framed 0 forgedFrames (lines es) g'.logId ∧
      ∃ frames, decode (lines es) = some frames ∧
        frames.map Frame.header = headersFrom 0 forgedFrames := by
  have ends : ∀ c ∈ forgedFrames, ∀ g, c.run.Ends g := by
    intro c hc g
    simp only [forgedFrames, List.mem_cons, List.not_mem_nil, or_false] at hc
    obtain rfl | rfl | rfl := hc
    · exact logRange_ends _ g (by decide) (by decide) (by decide)
    · exact logRange_ends _ g (by decide) (by decide) (by decide)
    · exact logRange_ends _ g (by decide) (by decide) (by decide)
  obtain ⟨es, u, g', run⟩ := logCalls_ends ends Globals.initial
  exact ⟨es, g', run, log_decodable run⟩

end Buster
