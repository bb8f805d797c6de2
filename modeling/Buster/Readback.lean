import Buster.Unique

/-!
# Reading a whole load back

Loading the module prints more than sections: what it maps, what it finds in
registers, and what it gives up on. A reader of the log steps over these lines,
since none of them reads as part of a section, and recovers the content of
every dump. It can do so at any moment, also of a load that never ends.
-/

namespace Buster

open Imp.Prog

/-! ## The reader -/

/-- Outside a section, a line that means nothing is stepped over. -/
def Reader.skim (r : Reader) (line : Text) : Option Reader :=
  match r.current, parseLine line with
  | none, none => some r
  | _, _ => r.next line

/-- What the reader knows after the lines of a log, or of the beginning of one. -/
def skimAll (ls : List Text) : Option Reader := ls.foldlM Reader.skim ⟨[], none⟩

/-- The sections of a whole log. -/
def readLog (ls : List Text) : Option (List Frame) := do
  let r ← skimAll ls
  if r.current.isSome then none else some r.frames

/-- What a section says, its runs written out. -/
def Frame.content (f : Frame) : Header × List U64 := (f.header, f.records.flatMap Record.expand)

/-- What the accepted ones of some dumps should be read back as. -/
def contentsFrom (first : Nat) (calls : List LogCall) : List (Header × List U64) :=
  ((calls.filter LogCall.accepted).zipIdx first).map fun (c, k) =>
    (⟨BitVec.ofNat 64 k, c.start, cstr c.msg⟩, c.words)

/-! ## Lines that mean nothing -/

/-- The text begins like a number and goes on like none, and it is no frame line. -/
def Stray (text : Text) : Prop :=
  ∃ digits c rest, text = digits ++ c :: rest ∧ (∀ d ∈ digits, Hex.IsDigit d) ∧
    ¬ Hex.IsDigit c ∧ c ∉ ['x', 'B', 'E'] ∧ (digits = ['e'] → c ≠ 'r')

theorem Stray.of_start {text rest : Text} (digits : Text) (c : Char)
    (start : text = digits ++ c :: rest)
    (strays : (digits.all fun d => (Hex.digitValue d).isSome) = true ∧ ¬ Hex.IsDigit c ∧
      c ∉ ['x', 'B', 'E'] ∧ (digits = ['e'] → c ≠ 'r')) : Stray text :=
  ⟨digits, c, rest, start, Hex.isDigit_of_all strays.1, strays.2⟩

theorem parseRecord_garbled {digits : Text} {c : Char} (rest : Text) (plain : 'x' ∉ digits)
    (hx : c ≠ 'x') (hc : ¬ Hex.IsDigit c) :
    parseRecord (busterInfo ++ (digits ++ c :: rest)) = none := by
  unfold parseRecord
  simp only [isPrefixOf?_append, Option.bind_eq_bind, Option.bind_some]
  cases found : cut 'x' (digits ++ c :: rest) with
  | none => rfl
  | some p =>
    have before : ∀ d ∈ digits, decide (d ≠ 'x') = true := by
      intro d hd
      simpa using fun e : d = 'x' => plain (e ▸ hd)
    have count : p.1 = digits ++ c :: rest.takeWhile (· ≠ 'x') := by
      unfold cut at found
      split at found
      · cases found
      · cases found
        rw [List.takeWhile_append_of_pos before]
        simp [hx]
    have bad : Hex.value p.1 = none := by rw [count, Hex.value_garbled hc]
    simp [bad]

theorem Stray.parseLine {text : Text} (h : Stray text) : parseLine (busterInfo ++ text) = none := by
  obtain ⟨digits, c, rest, rfl, digit, hc, frame, err⟩ := h
  simp only [List.mem_cons, List.not_mem_nil, or_false, not_or] at frame
  obtain ⟨hx, hB, hE⟩ := frame
  have notRecord := parseRecord_garbled rest (not_mem_of_digits (by decide) digit) hx hc
  have notError : "err:".toList.isPrefixOf? (digits ++ c :: rest) = none := by
    cases digits with
    | nil =>
      have : 'e' ≠ c := fun e => hc (e ▸ by decide)
      simp [List.isPrefixOf?, this]
    | cons d ds =>
      by_cases e : 'e' = d
      · cases ds with
        | nil => simp [List.isPrefixOf?, Ne.symm (err (by rw [← e]))]
        | cons d' ds =>
          have : 'r' ≠ d' := by
            rintro rfl
            exact absurd (digit 'r' (by simp)) (by decide)
          simp [List.isPrefixOf?, this]
      · simp [List.isPrefixOf?, e]
  have head : ∃ d more, digits ++ c :: rest = d :: more ∧ 'B' ≠ d ∧ 'E' ≠ d := by
    cases digits with
    | nil => exact ⟨c, rest, rfl, Ne.symm hB, Ne.symm hE⟩
    | cons d ds =>
      have first := digit d List.mem_cons_self
      refine ⟨d, ds ++ c :: rest, rfl, ?_, ?_⟩
      · rintro rfl
        exact absurd first (by decide)
      · rintro rfl
        exact absurd first (by decide)
  obtain ⟨d, more, same, notB, notE⟩ := head
  have noBegin : parseBegin (busterInfo ++ (digits ++ c :: rest)) = none := by
    rw [same]
    exact parseBegin_differs notB more
  have noEnd : parseEnd (busterInfo ++ (digits ++ c :: rest)) = none := by
    rw [same]
    exact parseEnd_differs notE more
  simp only [Buster.parseLine, noBegin, noEnd, notRecord, isPrefixOf?_append_append, notError]
  rfl

/-! ## What a load logs -/

/-- Neither printed nor a dump. -/
def Event.Silent : Event → Prop
  | .printk _ | .logRange _ _ _ => False
  | _ => True

/-- Events that leave a log which can be read back, from one `log_id` to another. -/
inductive Logs (m : Machine) : U64 → List Event → U64 → Prop
  | nil (id : U64) : Logs m id [] id
  | silent {id id' : U64} {e : Event} {es : List Event} (quiet : e.Silent)
      (rest : Logs m id es id') : Logs m id (e :: es) id'
  | stray {id id' : U64} {text : Text} {es : List Event} (means : Stray text)
      (rest : Logs m id es id') : Logs m id (.printk (busterInfo ++ text) :: es) id'
  | refused {id id' start limit : U64} {msg err : Text} {es : List Event}
      (turned : (m.call (start, limit, msg)).refusal = some err) (rest : Logs m id es id') :
      Logs m id (.logRange start limit msg :: .printk (busterInfo ++ err) :: es) id'
  | dumped {id id' start limit : U64} {msg : Text} {body es : List Event} {inner : List Text}
      {recs : List Record} (taken : (m.call (start, limit, msg)).refusal = none)
      (single : ranges body = [])
      (printed : lines body = (busterInfo ++ beginLine id start msg) ::
        (inner ++ [busterInfo ++ endLine id]))
      (records : List.Forall₂ Reads inner recs)
      (whole : recs.flatMap Record.expand = (m.call (start, limit, msg)).words)
      (rest : Logs m (id + 1) es id') : Logs m id (.logRange start limit msg :: (body ++ es)) id'

theorem Logs.append {m : Machine} {id id' id'' : U64} {es fs : List Event} (h : Logs m id es id')
    (h' : Logs m id' fs id'') : Logs m id (es ++ fs) id'' := by
  induction h with
  | nil => exact h'
  | silent quiet _ ih => exact .silent quiet (ih h')
  | stray means _ ih => exact .stray means (ih h')
  | refused turned _ ih => exact .refused turned (ih h')
  | dumped taken single printed records whole _ ih =>
    rw [List.cons_append, List.append_assoc]
    exact .dumped taken single printed records whole (ih h')

def Logged (m : Machine) (g : Globals) (es : List Event) (g' : Globals) : Prop :=
  Logs m g.logId es g'.logId

/-! ## Reading it -/

section reading
variable {m : Machine} {id id' : U64} {es : List Event} {frames : List Frame} {k : Nat}

theorem Event.Silent.lines {e : Event} (h : e.Silent) (es : List Event) :
    lines (e :: es) = lines es := by
  cases e with
  | printk => exact h.elim
  | _ => rfl

theorem Event.Silent.ranges {e : Event} (h : e.Silent) (es : List Event) :
    ranges (e :: es) = ranges es := by
  cases e with
  | logRange => exact h.elim
  | _ => rfl

theorem skim_stray {text : Text} (h : Stray text) (frames : List Frame) :
    Reader.skim ⟨frames, none⟩ (busterInfo ++ text) = some ⟨frames, none⟩ := by
  simp only [Reader.skim, h.parseLine]

theorem skim_refused {c : LogCall} {err : Text} (turned : c.refusal = some err)
    (frames : List Frame) :
    Reader.skim ⟨frames, none⟩ (busterInfo ++ err) = some ⟨frames, none⟩ := by
  obtain ⟨text, rfl, plain⟩ := LogCall.refusal_text turned
  simp only [Reader.skim, Reader.next, parseLine_error plain]

/-- Inside a section, the reader that skips lines is no more lenient. -/
theorem skim_inside (frames : List Frame) (f : Frame) (line : Text) :
    Reader.skim ⟨frames, some f⟩ line = Reader.next ⟨frames, some f⟩ line := rfl

theorem skim_begin {c : LogCall} (taken : c.refusal = none) (frames : List Frame) (id : U64) :
    Reader.skim ⟨frames, none⟩ (busterInfo ++ beginLine id c.start c.msg) =
      some ⟨frames, some ⟨⟨id, c.start, cstr c.msg⟩, []⟩⟩ := by
  simp only [Reader.skim, Reader.next, parseLine_begin (LogCall.checked taken)]

theorem skim_records {h : Header} {inner : List Text} {rs recs : List Record}
    (records : List.Forall₂ Reads inner recs) :
    inner.foldlM Reader.skim ⟨frames, some ⟨h, rs⟩⟩ = some ⟨frames, some ⟨h, rs ++ recs⟩⟩ := by
  induction records generalizing rs with
  | nil => simp
  | cons first _ ih => simp [skim_inside, Reader.next, first.parseLine, ih]

theorem skim_end (frames : List Frame) (f : Frame) :
    Reader.skim ⟨frames, some f⟩ (busterInfo ++ endLine f.header.id) =
      some ⟨frames ++ [f], none⟩ := by
  simp only [skim_inside, Reader.next, parseLine_end, if_true]

/-- A section that was taken in adds one frame. -/
theorem skim_section (id : U64) {start limit : U64} {msg : Text}
    (taken : (m.call (start, limit, msg)).refusal = none) {inner : List Text} {recs : List Record}
    (records : List.Forall₂ Reads inner recs) (frames : List Frame) :
    ((busterInfo ++ beginLine id start msg) :: (inner ++ [busterInfo ++ endLine id])).foldlM
        Reader.skim ⟨frames, none⟩ =
      some ⟨frames ++ [⟨⟨id, start, cstr msg⟩, recs⟩], none⟩ := by
  have opened := skim_begin taken frames id
  have closed := skim_end frames ⟨⟨id, start, cstr msg⟩, recs⟩
  simp only [Machine.call] at opened
  simp only [List.foldlM_cons, List.foldlM_append, opened, skim_records records, closed,
    List.foldlM_nil, Option.bind_eq_bind, Option.bind_some, List.nil_append, Option.pure_def]

theorem contentsFrom_refused {c : LogCall} {err : Text} (turned : c.refusal = some err)
    (calls : List LogCall) : contentsFrom k (c :: calls) = contentsFrom k calls := by
  simp [contentsFrom, LogCall.accepted, turned]

theorem contentsFrom_taken {c : LogCall} (taken : c.refusal = none) (calls : List LogCall) :
    contentsFrom k (c :: calls) =
      (⟨BitVec.ofNat 64 k, c.start, cstr c.msg⟩, c.words) :: contentsFrom (k + 1) calls := by
  simp [contentsFrom, LogCall.accepted, taken]

theorem ranges_dumped (start limit : U64) (msg : Text) {body : List Event}
    (single : ranges body = []) (es : List Event) :
    ranges (.logRange start limit msg :: (body ++ es)) = (start, limit, msg) :: ranges es := by
  change (start, limit, msg) :: ranges (body ++ es) = _
  rw [ranges, List.filterMap_append, ← ranges, ← ranges, single, List.nil_append]

/-- The log of a part of a load gives the content of its dumps. -/
theorem Logs.read (h : Logs m id es id') (frames : List Frame) (hk : id = BitVec.ofNat 64 k) :
    ∃ more, (lines es).foldlM Reader.skim ⟨frames, none⟩ = some ⟨frames ++ more, none⟩ ∧
      more.map Frame.content = contentsFrom k ((ranges es).map m.call) := by
  induction h generalizing frames k with
  | nil => exact ⟨[], by simp, rfl⟩
  | silent quiet _ ih =>
    rw [quiet.lines, quiet.ranges]
    exact ih frames hk
  | stray means _ ih =>
    obtain ⟨more, read, contents⟩ := ih frames hk
    refine ⟨more, ?_, contents⟩
    rw [lines_printk, List.foldlM_cons, skim_stray means]
    exact read
  | @refused id id' start limit msg err es turned _ ih =>
    obtain ⟨more, read, contents⟩ := ih frames hk
    refine ⟨more, ?_, contents.trans (contentsFrom_refused turned _).symm⟩
    rw [lines_logRange, lines_printk, List.foldlM_cons, skim_refused turned]
    exact read
  | @dumped id id' start limit msg body es inner recs taken single printed records whole _ ih =>
    let f : Frame := ⟨⟨id, start, cstr msg⟩, recs⟩
    obtain ⟨more, read, contents⟩ := ih (frames ++ [f]) (k := k + 1) (by rw [hk]; bv_omega)
    refine ⟨f :: more, ?_, ?_⟩
    · rw [lines_logRange, lines_append, List.foldlM_append, printed,
        skim_section id taken records frames]
      simpa using read
    · rw [ranges_dumped _ _ _ single, List.map_cons, List.map_cons, contentsFrom_taken taken,
        contents, Frame.content, whole, ← hk]
      rfl

theorem skim_grows {r r' : Reader} {line : Text} (h : r.skim line = some r') :
    r.frames <+: r'.frames := by
  unfold Reader.skim Reader.next at h
  grind

theorem skimAll_grows {ls : List Text} {r r' : Reader} (h : ls.foldlM Reader.skim r = some r') :
    r.frames <+: r'.frames := by
  induction ls generalizing r with
  | nil =>
    obtain rfl : r = r' := by simpa using h
    exact List.prefix_rfl
  | cons line ls ih =>
    rw [List.foldlM_cons] at h
    obtain ⟨r₁, first, rest⟩ := Option.bind_eq_some_iff.mp h
    exact (skim_grows first).trans (ih rest)

/-- A reader that comes through some lines came through the first of them. -/
theorem skimAll_begun {early ls : List Text} {r r' : Reader} (pre : early <+: ls)
    (h : ls.foldlM Reader.skim r = some r') :
    ∃ r₁, early.foldlM Reader.skim r = some r₁ ∧ r₁.frames <+: r'.frames := by
  obtain ⟨late, rfl⟩ := pre
  rw [List.foldlM_append] at h
  obtain ⟨r₁, first, rest⟩ := Option.bind_eq_some_iff.mp h
  exact ⟨r₁, first, skimAll_grows rest⟩

/-- What the log so far gives: the content of the dumps begun so far, in order.
Only the last of them may still be missing. -/
def Begun (m : Machine) (k : Nat) (frames : List Frame) (early : List Event) : Prop :=
  ∃ r more, (lines early).foldlM Reader.skim ⟨frames, none⟩ = some r ∧ r.frames = frames ++ more ∧
    more.map Frame.content <+: contentsFrom k ((ranges early).map m.call) ∧
    (contentsFrom k ((ranges early).map m.call)).length ≤ more.length + 1

theorem begun_nil (m : Machine) (k : Nat) (frames : List Frame) : Begun m k frames [] :=
  ⟨⟨frames, none⟩, [], rfl, (List.append_nil _).symm, List.prefix_rfl, Nat.zero_le _⟩

theorem contentsFrom_begun {start limit : U64} {msg : Text} {body : List Event}
    (taken : (m.call (start, limit, msg)).refusal = none) (single : ranges body = []) :
    contentsFrom k ((ranges (.logRange start limit msg :: body)).map m.call) =
      [(⟨BitVec.ofNat 64 k, start, cstr msg⟩, (m.call (start, limit, msg)).words)] := by
  have one := ranges_dumped start limit msg single []
  rw [List.append_nil] at one
  rw [one, List.map_cons, contentsFrom_taken taken]
  rfl

/-- In the middle of a section. -/
theorem begun_inside {start limit : U64} {msg : Text} {body early : List Event}
    {inner : List Text} {recs : List Record}
    (taken : (m.call (start, limit, msg)).refusal = none) (single : ranges body = [])
    (printed : lines body = (busterInfo ++ beginLine id start msg) ::
      (inner ++ [busterInfo ++ endLine id]))
    (records : List.Forall₂ Reads inner recs)
    (whole : recs.flatMap Record.expand = (m.call (start, limit, msg)).words)
    (frames : List Frame) (hk : id = BitVec.ofNat 64 k) (pre : early <+: body) :
    Begun m k frames (.logRange start limit msg :: early) := by
  have begun : lines early <+: lines body := pre.filterMap _
  have none : ranges early = [] := by
    have := pre.filterMap Event.range
    rw [← ranges, ← ranges, single] at this
    exact List.prefix_nil.mp this
  rw [printed] at begun
  obtain ⟨r, read, grown⟩ := skimAll_begun begun (skim_section id taken records frames)
  obtain ⟨more, same⟩ := skimAll_grows read
  refine ⟨r, more, read, same.symm, ?_, ?_⟩
  · rw [← same, List.prefix_append_right_inj] at grown
    have content := grown.map Frame.content
    rw [List.map_singleton, Frame.content, whole, hk] at content
    rw [contentsFrom_begun taken none]
    exact content
  · rw [contentsFrom_begun taken none]
    exact Nat.le_add_left ..

/-- In a section that is never closed. -/
theorem begun_open {start limit : U64} {msg : Text} {body : List Event} {inner : List Text}
    (taken : (m.call (start, limit, msg)).refusal = none) (single : ranges body = [])
    (printed : lines body <+: (busterInfo ++ beginLine id start msg) :: inner)
    (records : Records inner) (frames : List Frame) :
    Begun m k frames (.logRange start limit msg :: body) := by
  obtain ⟨recs, records⟩ := records
  have opened := skim_begin taken frames id
  simp only [Machine.call] at opened
  have whole : ((busterInfo ++ beginLine id start msg) :: inner).foldlM Reader.skim
      ⟨frames, none⟩ = some ⟨frames, some ⟨⟨id, start, cstr msg⟩, recs⟩⟩ := by
    rw [List.foldlM_cons, opened]
    exact skim_records records
  obtain ⟨r, read, grown⟩ := skimAll_begun printed whole
  have kept : r.frames = frames := grown.eq_of_length_le (skimAll_grows read).length_le
  refine ⟨r, [], read, ?_, List.nil_prefix, ?_⟩
  · rw [kept, List.append_nil]
  · rw [contentsFrom_begun taken single]
    exact Nat.le_refl 1

theorem Begun.silent {e : Event} (quiet : e.Silent) (h : Begun m k frames es) :
    Begun m k frames (e :: es) := by
  unfold Begun
  rw [quiet.lines, quiet.ranges]
  exact h

theorem Begun.stray {text : Text} (means : Stray text) (h : Begun m k frames es) :
    Begun m k frames (.printk (busterInfo ++ text) :: es) := by
  obtain ⟨r, more, read, rest⟩ := h
  refine ⟨r, more, ?_, rest⟩
  rw [lines_printk, List.foldlM_cons, skim_stray means]
  exact read

theorem Begun.turned {start limit : U64} {msg err : Text}
    (turned : (m.call (start, limit, msg)).refusal = some err) (h : Begun m k frames es) :
    Begun m k frames (.logRange start limit msg :: es) := by
  have skipped : contentsFrom k ((ranges (.logRange start limit msg :: es)).map m.call) =
      contentsFrom k ((ranges es).map m.call) := contentsFrom_refused turned _
  unfold Begun
  rw [skipped]
  exact h

theorem Begun.refused {start limit : U64} {msg err : Text}
    (turned : (m.call (start, limit, msg)).refusal = some err) (h : Begun m k frames es) :
    Begun m k frames (.logRange start limit msg :: .printk (busterInfo ++ err) :: es) := by
  apply Begun.turned turned
  obtain ⟨r, more, read, rest⟩ := h
  refine ⟨r, more, ?_, rest⟩
  rw [lines_printk, List.foldlM_cons, skim_refused turned]
  exact read

theorem Begun.dumped {start limit : U64} {msg : Text} {body : List Event} {inner : List Text}
    {recs : List Record} (taken : (m.call (start, limit, msg)).refusal = none)
    (single : ranges body = [])
    (printed : lines body = (busterInfo ++ beginLine id start msg) ::
      (inner ++ [busterInfo ++ endLine id]))
    (records : List.Forall₂ Reads inner recs)
    (whole : recs.flatMap Record.expand = (m.call (start, limit, msg)).words)
    (hk : id = BitVec.ofNat 64 k)
    (h : Begun m (k + 1) (frames ++ [⟨⟨id, start, cstr msg⟩, recs⟩]) es) :
    Begun m k frames (.logRange start limit msg :: (body ++ es)) := by
  let f : Frame := ⟨⟨id, start, cstr msg⟩, recs⟩
  obtain ⟨r, more, read, grown, contents, last⟩ := h
  have dumps : contentsFrom k ((ranges (.logRange start limit msg :: (body ++ es))).map
      m.call) = f.content :: contentsFrom (k + 1) ((ranges es).map m.call) := by
    rw [ranges_dumped _ _ _ single, List.map_cons, contentsFrom_taken taken, Frame.content,
      whole, ← hk]
    rfl
  unfold Begun
  rw [dumps]
  refine ⟨r, f :: more, ?_, by rw [grown, List.append_assoc]; rfl, ?_, ?_⟩
  · rw [lines_logRange, lines_append, List.foldlM_append, printed,
      skim_section id taken records frames]
    exact read
  · exact (List.prefix_cons_inj f.content).mpr contents
  · simpa using last

theorem Logs.read_begun {early : List Event} (h : Logs m id es id') (pre : early <+: es)
    (frames : List Frame) (hk : id = BitVec.ofNat 64 k) : Begun m k frames early := by
  induction h generalizing frames k early with
  | nil =>
    rw [List.prefix_nil.mp pre]
    exact begun_nil m k frames
  | silent quiet _ ih =>
    rcases List.prefix_cons_iff.mp pre with rfl | ⟨early, rfl, later⟩
    · exact begun_nil m k frames
    · exact (ih later frames hk).silent quiet
  | stray means _ ih =>
    rcases List.prefix_cons_iff.mp pre with rfl | ⟨early, rfl, later⟩
    · exact begun_nil m k frames
    · exact (ih later frames hk).stray means
  | refused turned _ ih =>
    rcases List.prefix_cons_iff.mp pre with rfl | ⟨early, rfl, later⟩
    · exact begun_nil m k frames
    rcases List.prefix_cons_iff.mp later with rfl | ⟨early, rfl, beyond⟩
    · exact (begun_nil m k frames).turned turned
    · exact (ih beyond frames hk).refused turned
  | dumped taken single printed records whole _ ih =>
    rcases List.prefix_cons_iff.mp pre with rfl | ⟨early, rfl, later⟩
    · exact begun_nil m k frames
    rcases cut_of_prefix later with inside | ⟨early, rfl, beyond⟩
    · exact begun_inside taken single printed records whole frames hk inside
    · exact (ih beyond _ (by rw [hk]; bv_omega)).dumped taken single printed records whole hk

/-- What can be read after a log can be read after it still. -/
theorem Logs.begun {fs : List Event} (h : Logs m id es id')
    (later : ∀ k frames, id' = BitVec.ofNat 64 k → Begun m k frames fs) (frames : List Frame)
    (hk : id = BitVec.ofNat 64 k) : Begun m k frames (es ++ fs) := by
  induction h generalizing frames k with
  | nil => exact later k frames hk
  | silent quiet _ ih => exact (ih later frames hk).silent quiet
  | stray means _ ih => exact (ih later frames hk).stray means
  | refused turned _ ih => exact (ih later frames hk).refused turned
  | dumped taken single printed records whole _ ih =>
    rw [List.cons_append, List.append_assoc]
    exact (ih later _ (by rw [hk]; bv_omega)).dumped taken single printed records whole hk

/-- Read after whatever sections came before, under the ids that follow. -/
def Readable (m : Machine) (g : Globals) (es : List Event) : Prop :=
  ∀ k frames, g.logId = BitVec.ofNat 64 k → Begun m k frames es

theorem logged_composes (m : Machine) : Composes (Logged m) (Readable m) where
  nil g := .nil g.logId
  append := Logs.append
  cut logs pre _ frames hk := logs.read_begun pre frames hk
  later logs readable _ frames hk := logs.begun readable frames hk

end reading

/-! ## What the parts of a load log -/

section parts
variable {m : Machine}

theorem logged_printk {text : Text} (h : Stray text) :
    (printk (busterInfo ++ text)).Follows (Logged m) (Readable m) :=
  (logged_composes m).emit fun g => .stray h (.nil g.logId)

theorem logged_silent {e : Event} (h : e.Silent) :
    (emit e : Kernel Unit).Follows (Logged m) (Readable m) :=
  (logged_composes m).emit fun g => .silent h (.nil g.logId)

theorem logged_load32 (a : U64) : (load32 m a).Follows (Logged m) (Readable m) :=
  (logged_composes m).bind (logged_silent trivial) fun _ => (logged_composes m).pure _

theorem logged_load64 (a : U64) : (load64 m a).Follows (Logged m) (Readable m) :=
  (logged_composes m).bind (logged_silent trivial) fun _ => (logged_composes m).pure _

theorem logged_getMapping (addr : U64) (size : Nat) :
    (getMapping m addr size).Follows (Logged m) (Readable m) := by
  apply (logged_composes m).of_returns
  intro g
  by_cases pass : g.idx ≤ nVaddr
  · exact ⟨_, _, _, getMapping_returns m addr size pass,
      .silent trivial (.silent trivial (.nil g.logId))⟩
  · exact ⟨_, _, _, getMapping_refused m addr size (by omega), .nil g.logId⟩

theorem logs_iounmaps (id : U64) (vas : List U64) : Logs m id (vas.map Event.iounmap) id := by
  induction vas with
  | nil => exact .nil id
  | cons va vas ih => exact .silent trivial ih

theorem logged_freeall : freeall.Follows (Logged m) (Readable m) := by
  apply (logged_composes m).of_returns
  intro g
  refine ⟨_, _, _, freeall_returns g, .stray ?_ (logs_iounmaps g.logId _)⟩
  exact .of_start ['f'] 'r' rfl (by decide)

/-- What a dump emits after its call is made is no dump. -/
theorem logRange_body {start limit : U64} {msg : Text} {g g' : Globals} {es : List Event} {u : Unit}
    (run : (logRange m start limit msg).Returns g es u g') :
    ∃ body, es = .logRange start limit msg :: body ∧ ranges body = [] := by
  obtain ⟨rest, split, qwords⟩ := logRange_split (m := m) start limit msg
  rw [split] at run
  obtain ⟨body, rfl, after⟩ := (emit_returns _ g).rest run
  have quiet := (qwords (fun _ => True) fun _ _ => trivial).returns trivial after
  exact ⟨body, rfl, filterMap_hidden (fun _ h => h.quiet.no_range) quiet.2⟩

theorem LogCall.dumpable {c : LogCall} (taken : c.refusal = none)
    (whole : (c.limit.toNat - c.start.toNat) % 8 = 0) : Dumpable c.start c.limit c.msg := by
  have checked := LogCall.checked taken
  simp only [LogCall.refusal, checked, blockBytes] at taken
  by_cases null : c.start = 0
  · rw [if_pos null] at taken
    cases taken
  rw [if_neg null] at taken
  by_cases crossed : c.start > c.limit
  · rw [if_pos crossed] at taken
    cases taken
  rw [if_neg crossed] at taken
  refine ⟨checked, null, by bv_omega, whole, fun long => ?_⟩
  have notSmall : ¬ c.limit - c.start < 32 := by bv_omega
  rw [if_neg notSmall] at taken
  by_cases odd : c.start % 8 ≠ 0
  · rw [if_pos odd] at taken
    cases taken
  · have even := congrArg BitVec.toNat (not_not.mp odd)
    simpa [BitVec.toNat_umod] using even

theorem Records.prefix {a b : List Text} (h : Records b) (pre : a <+: b) : Records a := by
  obtain ⟨recs, reads⟩ := h
  rw [List.prefix_iff_eq_take.mp pre]
  exact ⟨recs.take a.length, List.forall₂_take a.length reads⟩

theorem blockRound_ends (start limit : U64) (b : BlockLoop) (g : Globals) :
    (blockRound m start limit b).Ends g := by
  obtain ⟨ptr, count, prevVal⟩ := b
  dsimp only [blockRound]
  split
  · obtain ⟨_, compared, _⟩ := sameWords_returns m (g := g) prevVal ptr
    refine compared.ends_bind.mpr ?_
    split
    · exact (pure_returns _ g).ends
    · obtain ⟨_, loaded, _⟩ := loadWords_returns m (g := g) 4 ptr
      have rest : (loadWords m 4 ptr >>= fun next =>
          (pure (.inl ⟨ptr + 4 * 8, 0, next⟩) : Kernel (BlockLoop ⊕ BlockLoop))).Ends g :=
        loaded.ends_bind.mpr (pure_returns _ g).ends
      split
      · exact (printk_returns _ g).ends_bind.mpr rest
      · exact (printk_returns _ g).ends_bind.mpr rest
  · exact (pure_returns _ g).ends

/-- Wherever it is, the block loop has printed records. -/
theorem blockLoop_begun {start limit : U64} {b : BlockLoop} {g : Globals} {es : List Event}
    (block : b.prevVal.length = 4) (emitted : (blockLoop m start limit b).Emitted g es) :
    Records (lines es) := by
  have append {es fs : List Event} (first : Records (lines es)) (rest : Records (lines fs)) :
      Records (lines (es ++ fs)) := by
    rw [lines_append]
    exact first.append rest
  have round {b : BlockLoop} {g : Globals} (block : b.prevVal.length = 4) :
      ∃ es r g', (blockRound m start limit b).Returns g es r g' ∧ Records (lines es) ∧
        ∀ b', r = .inl b' → b'.prevVal.length = 4 := by
    obtain ⟨es, r, g', round⟩ := blockRound_ends (m := m) start limit b g
    obtain ⟨_, printed, kept⟩ := blockRound_records block round
    exact ⟨es, r, g', round, printed, fun b' goes => kept b' (.inl goes)⟩
  let inv (b : BlockLoop) (_ : Globals) : Prop := b.prevVal.length = 4
  let T (_ : Globals) (es : List Event) (_ : Globals) : Prop := Records (lines es)
  have start : inv b g := block
  obtain ⟨all, _, printed, begins⟩ := emitted_of_rounds (T := T) append @round start
    emitted
  exact printed.prefix (begins.filterMap _)

/-- A call that takes a range in and never leaves it prints a section without an end. -/
theorem logBlocks_hangs {start limit : U64} {msg : Text} {g : Globals} {es : List Event}
    (wraps : Wraps start limit) (emitted : (logBlocks m start limit msg).Emitted g es) :
    ∃ inner, lines es <+: (busterInfo ++ beginLine g.logId start msg) :: inner ∧
      Records inner := by
  unfold logBlocks at emitted
  obtain ⟨loads, loaded, silent⟩ := loadWords_returns m (g := g) 4 start
  rcases loaded.emitted_bind.mp emitted with early | ⟨es₁, run₁, rfl⟩
  · have none : lines es <+: lines loads := early.filterMap _
    rw [silent, List.prefix_nil] at none
    rw [none]
    exact ⟨[], List.nil_prefix, records_nil⟩
  rw [lines_append, silent, List.nil_append]
  rcases (get_returns g).emitted_bind.mp run₁ with early | ⟨es₂, run₂, rfl⟩
  · rw [List.prefix_nil.mp early]
    exact ⟨[], List.nil_prefix, records_nil⟩
  rcases (printk_returns _ g).emitted_bind.mp run₂ with early | ⟨es₃, run₃, rfl⟩
  · exact ⟨[], early.filterMap _, records_nil⟩
  rcases emitted_bind.mp run₃ with looping | ⟨_, _, _, _, looped, _⟩
  · exact ⟨lines es₃, List.prefix_rfl, blockLoop_begun (length_readWords ..) looping⟩
  · exact absurd wraps (blockLoop_leaves (length_readWords ..) looped)

theorem LogCall.hangs {c : LogCall} {g : Globals} {es : List Event}
    (whole : (c.limit.toNat - c.start.toNat) % 8 = 0) (stuck : ¬ c.Fits)
    (emitted : c.run.Emitted g es) :
    es = [] ∨ ∃ body inner, es = .logRange c.start c.limit c.msg :: body ∧ ranges body = [] ∧
      lines body <+: (busterInfo ++ beginLine g.logId c.start c.msg) :: inner ∧
      Records inner := by
  simp only [LogCall.Fits, not_or, ne_eq, not_not, not_and, Classical.not_imp] at stuck
  obtain ⟨taken, stays⟩ := stuck
  obtain ⟨long, wraps⟩ := stays whole
  have single := (dumps_logRange (m := c.m) c.start c.limit c.msg g).1 es emitted
  simp only [c.run_eq, taken] at emitted
  rcases (emit_returns _ g).emitted_bind.mp emitted with early | ⟨body, later, rfl⟩
  · rcases List.prefix_cons_iff.mp early with rfl | ⟨rest, rfl, more⟩
    · exact .inl rfl
    · rw [List.prefix_nil.mp more]
      exact .inr ⟨[], [], rfl, rfl, List.nil_prefix, records_nil⟩
  · have notSmall : ¬ c.limit - c.start < 256 / 8 := by
      rw [blockBytes]
      bv_omega
    rw [if_neg notSmall] at later
    obtain ⟨inner, printed, records⟩ := logBlocks_hangs wraps later
    have none : ranges body <+: [] := (List.prefix_cons_inj _).mp single
    exact .inr ⟨body, inner, rfl, List.prefix_nil.mp none, printed, records⟩

/-- A dump of quad words, whether it ends or not. -/
theorem logged_logRange {start limit : U64} {msg : Text}
    (whole : (limit.toNat - start.toNat) % 8 = 0) :
    (logRange m start limit msg).Follows (Logged m) (Readable m) := by
  let c := m.call (start, limit, msg)
  by_cases fits : c.Fits
  · apply (logged_composes m).of_returns
    intro g
    cases turned : c.refusal with
    | some err =>
      exact ⟨_, _, _, c.refused_returns turned g, .refused turned (.nil g.logId)⟩
    | none =>
      obtain ⟨_, leaves⟩ := fits.resolve_left (not_not.mpr turned)
      obtain ⟨es, ls, recs, run, sect, reads, told⟩ :=
        LogCall.section_of_dumpable (LogCall.dumpable turned whole) leaves g
      obtain ⟨body, rfl, single⟩ := logRange_body run
      refine ⟨_, _, _, run, ?_⟩
      have one := Logs.dumped turned single sect reads told (.nil _)
      rwa [List.append_nil] at one
  · constructor
    · intro g es u g' run
      exact absurd ((LogCall.ends_iff (c := c) whole g).mp run.ends) fits
    · intro g es emitted k frames hk
      have taken : c.refusal = none := not_not.mp fun turned => fits (.inl turned)
      rcases LogCall.hangs (c := c) whole fits emitted with rfl | ⟨body, inner, rfl, section'⟩
      · exact begun_nil m k frames
      · obtain ⟨single, printed, records⟩ := section'
        exact begun_open taken single printed records frames

theorem stray_of_location (bus dev func : U32) (rest : Text) :
    Stray (location bus dev func ++ rest) :=
  ⟨hexPad 2 bus, ':', hexPad 2 dev ++ '.' :: hex func ++ rest, by simp [location],
    hexPad_digits bus, by decide, by decide, fun _ => by decide⟩

theorem logged_mapConf (bus dev func : U32) :
    (mapConf m bus dev func).Follows (Logged m) (Readable m) := by
  have comp := logged_composes m
  refine comp.bind (logged_getMapping _ _) fun vaAddr => ?_
  exact comp.bind (logged_printk (stray_of_location bus dev func _)) fun _ => comp.pure _

theorem logged_logCap (bus dev func capOff : U32) (capPtr : U64) :
    (logCap m bus dev func capOff capPtr).Follows (Logged m) (Readable m) := by
  have means : Stray (capLine bus dev func capOff) := .of_start ['c', 'a'] 'p' rfl (by decide)
  have whole : ((capPtr + 0x18).toNat - capPtr.toNat) % 8 = 0 := by bv_omega
  exact (logged_composes m).bind (logged_printk means) fun _ => logged_logRange whole

theorem logged_dumpCaps (bus dev func : U32) (confSpace : U64) :
    (dumpCaps m bus dev func confSpace).Follows (Logged m) (Readable m) := by
  have comp := logged_composes m
  unfold dumpCaps
  split
  · refine comp.bind (logged_printk ?_) fun _ => comp.pure _
    exact .of_start [] 'C' rfl (by decide)
  · refine comp.bind (logged_load32 _) fun _ => comp.bind (comp.loop ?_ _) fun last => ?_
    · intro w
      unfold capRound
      split
      · exact comp.bind (logged_logCap ..) fun _ => comp.bind (logged_load32 _) fun _ => comp.pure _
      · exact comp.pure _
    · exact comp.bind (logged_logCap ..) fun _ => comp.pure _

theorem logged_getCapSpace (bus dev func : U32) :
    (getCapSpace m bus dev func).Follows (Logged m) (Readable m) :=
  (logged_composes m).bind (logged_mapConf bus dev func) fun _ => logged_dumpCaps ..

theorem logged_getIommuRegs (capPtr : U64) :
    (getIommuRegs m capPtr).Follows (Logged m) (Readable m) := by
  have comp := logged_composes m
  refine comp.bind (logged_silent trivial) fun _ => comp.bind (logged_load32 _) fun baseLow =>
    comp.bind (logged_load32 _) fun baseHigh => ?_
  dsimp only
  split
  · refine comp.bind (logged_printk ?_) fun _ => comp.pure _
    exact .of_start [] 'I' rfl (by decide)
  split
  · exact comp.pure _
  refine comp.bind (logged_getMapping _ _) fun mmioBase => comp.bind (logged_printk ?_) fun _ => ?_
  · exact .of_start [] 'I' rfl (by decide)
  split
  · refine comp.bind (logged_printk ?_) fun _ => comp.pure _
    exact .of_start [] 'I' rfl (by decide)
  · exact comp.bind (logged_logRange (regs_whole mmioBase)) fun _ => comp.pure _

theorem logged_dumpRing {k : RingKind} (reg : ∀ value, Stray (regLine k.regName value))
    (table : ∀ va pa, Stray (tableLine k.tableName va pa)) (mmio : U64) :
    (dumpRing m k mmio).Follows (Logged m) (Readable m) := by
  have comp := logged_composes m
  have range : (ringRange m k mmio).Follows (Logged m) (Readable m) :=
    comp.bind (logged_load64 _) fun _ => comp.bind (logged_printk (reg _)) fun _ =>
      comp.bind (logged_printk (table _ _)) fun _ => comp.bind (logged_load64 _) fun _ =>
        comp.bind (logged_load64 _) fun _ => comp.pure _
  refine comp.bind_returned range fun {g _ w _} run => ?_
  obtain ⟨_, _, run', _⟩ := ringRange_returns (m := m) k mmio g
  obtain ⟨_, rfl, _⟩ := run.unique run'
  exact logged_logRange (window_whole k m mmio)

theorem logged_bustOpen (mmio : U64) : (bustOpen m mmio).Follows (Logged m) (Readable m) := by
  have comp := logged_composes m
  refine comp.bind (logged_silent trivial) fun _ => ?_
  split
  · exact comp.pure _
  refine comp.bind (logged_dumpRing ?_ ?_ mmio) fun _ => logged_dumpRing ?_ ?_ mmio
  case refine_1 =>
    exact fun _ => .of_start ['c'] 'o' rfl (by decide)
  case refine_2 =>
    exact fun _ _ => .of_start ['c'] 'o' rfl (by decide)
  case refine_3 =>
    exact fun _ => .of_start ['e'] 'v' rfl (by decide)
  case refine_4 =>
    exact fun _ _ => .of_start ['e'] 'v' rfl (by decide)

theorem logged_parts : ScanParts m (Logged m) (Readable m) where
  composes := logged_composes m
  space bus := logged_getCapSpace bus 0 2
  missing := logged_printk (.of_start ['c', 'a'] 'p' rfl (by decide))
  pointer := logged_load32
  registers := logged_getIommuRegs
  entered _ := logged_silent trivial
  opened _ _ := logged_bustOpen _

theorem logged_busterIni : (busterIni m).Follows (Logged m) (Readable m) := by
  have comp := logged_composes m
  exact comp.bind (logged_parts.scanAll _ _) fun _ => comp.bind logged_freeall fun _ => comp.pure _

end parts

/-- Whatever the module finds in memory, its log can be read back while it is
written. At any point of a load, also of one that hangs, the lines so far give
the content of the memory ranges that were dumped, in order and under ids that
count from 0, the last one perhaps missing; the log of a load that is over gives
all of them. -/
theorem busterIni_readLog (m : Machine) :
    (∀ es r g', (busterIni m).Returns .initial es r g' → ∃ frames,
      readLog (lines es) = some frames ∧
      frames.map Frame.content = contentsFrom 0 ((ranges es).map m.call)) ∧
    ∀ es, (busterIni m).Emitted .initial es → ∃ r, skimAll (lines es) = some r ∧
      r.frames.map Frame.content <+: contentsFrom 0 ((ranges es).map m.call) ∧
      (contentsFrom 0 ((ranges es).map m.call)).length ≤ r.frames.length + 1 := by
  have follows := logged_busterIni (m := m)
  constructor
  · intro es r g' run
    obtain ⟨frames, read, contents⟩ := (follows.returned run).read [] (k := 0) rfl
    refine ⟨frames, ?_, contents⟩
    simp [readLog, skimAll, read]
  · intro es emitted
    obtain ⟨r, more, read, rfl, contents⟩ := follows.begun emitted 0 [] rfl
    exact ⟨r, read, contents⟩

theorem oneIommu_readLog : ∃ es r g' frames, (busterIni oneIommu).Returns .initial es r g' ∧
    readLog (lines es) = some frames ∧
      frames.map Frame.content = contentsFrom 0 ((ranges es).map oneIommu.call) := by
  obtain ⟨es, r, g', run⟩ := oneIommu_ends
  obtain ⟨frames, read, contents⟩ := (busterIni_readLog oneIommu).1 es r g' run
  exact ⟨es, r, g', frames, run, read, contents⟩

end Buster
