import Buster.LogRange

/-!
# Reading a dump back

A record line gives a count, an offset and one block or one quad word. The
reader knows only the printed text; `parse_shortLine` and its siblings say that
it recovers what each of the printing sites was given, whole: a line cut short
by `snprintf` would lose its newline and be refused.
-/

namespace Buster

structure Record where
  count : Nat
  offset : Nat
  words : List U64
  deriving DecidableEq, Repr

/-- The quad words the record stands for. -/
def Record.expand (r : Record) : List U64 := (List.replicate r.count r.words).flatten

def Record.bytes (r : Record) : Nat := r.count * (8 * r.words.length)

/-- The text before the first `c`, and the text after it. -/
def cut (c : Char) (t : Text) : Option (Text × Text) :=
  match t.dropWhile (· ≠ c) with
  | [] => none
  | _ :: rest => some (t.takeWhile (· ≠ c), rest)

def parseQword (digits : Text) : Option U64 := (Hex.value digits).map (BitVec.ofNat 64)

/-- 64 digits are four quad words printed highest word first, 16 are one. -/
def parseWords (digits : Text) : Option (List U64) :=
  if digits.length = 64 then do
    let w3 ← parseQword (digits.take 16)
    let w2 ← parseQword ((digits.drop 16).take 16)
    let w1 ← parseQword ((digits.drop 32).take 16)
    let w0 ← parseQword (digits.drop 48)
    return [w0, w1, w2, w3]
  else if digits.length = 16 then do
    let w ← parseQword digits
    return [w]
  else none

def parseRecord (line : Text) : Option Record := do
  let body ← busterInfo.isPrefixOf? line
  let (count, rest) ← cut 'x' body
  let (offset, rest) ← cut ':' rest
  let (value, rest) ← cut '\n' rest
  if rest ≠ [] then none
  let digits ← [' '].isPrefixOf? value
  return ⟨← Hex.value count, ← Hex.value offset, ← parseWords digits⟩

theorem isPrefixOf?_append (a b : Text) : a.isPrefixOf? (a ++ b) = some b := by
  induction a with
  | nil => rfl
  | cons c a ih => simp [List.isPrefixOf?, ih]

theorem cut_append {c : Char} {a b : Text} (h : c ∉ a) : cut c (a ++ c :: b) = some (a, b) := by
  have before : ∀ x ∈ a, (decide (x ≠ c)) = true := by
    intro x hx
    simpa using fun e : x = c => h (e ▸ hx)
  simp only [cut, List.dropWhile_append_of_pos before, List.takeWhile_append_of_pos before]
  simp

theorem not_mem_of_digits {c : Char} {t : Text} (hc : ¬ Hex.IsDigit c)
    (h : ∀ x ∈ t, Hex.IsDigit x) : c ∉ t := fun hm => hc (h c hm)

theorem hexPad_digits {w n : Nat} (x : BitVec n) : ∀ c ∈ hexPad w x, Hex.IsDigit c :=
  fun _ => Hex.padded_digit

theorem hex_digits {n : Nat} (x : BitVec n) : ∀ c ∈ hex x, Hex.IsDigit c :=
  fun _ => Hex.digits_digit

theorem blockFormat_digits (ws : List U64) : ∀ c ∈ blockFormat ws, Hex.IsDigit c := by
  intro c hc
  obtain ⟨w, _, hw⟩ := List.mem_flatMap.mp hc
  exact hexPad_digits w c hw

@[simp] theorem length_hexPad_16 (x : U64) : (hexPad 16 x).length = 16 :=
  Hex.length_padded (by decide) x.isLt

@[simp] theorem parseQword_hexPad (x : U64) : parseQword (hexPad 16 x) = some x := by
  simp [parseQword, hexPad]

theorem parseWords_qword (w : U64) : parseWords (hexPad 16 w) = some [w] := by
  simp [parseWords]

theorem parseWords_block {ws : List U64} (block : ws.length = 4) :
    parseWords (blockFormat ws) = some ws := by
  obtain ⟨a, b, c, d, rfl⟩ : ∃ a b c d, ws = [a, b, c, d] := List.length_eq_four.mp block
  have text : blockFormat [a, b, c, d] =
      hexPad 16 d ++ (hexPad 16 c ++ (hexPad 16 b ++ hexPad 16 a)) := by
    simp [blockFormat]
  have after (n : Nat) (x : U64) (rest : Text) (h : 16 ≤ n) :
      (hexPad 16 x ++ rest).drop n = rest.drop (n - 16) := by
    rw [List.drop_append, List.drop_eq_nil_of_le (by simpa using h), length_hexPad_16,
      List.nil_append]
  have first (x : U64) (rest : Text) : (hexPad 16 x ++ rest).take 16 = hexPad 16 x :=
    List.take_left' (length_hexPad_16 x)
  simp only [parseWords, text, after _ _ _ (Nat.le_refl 16), after _ _ _ (show 16 ≤ 32 by decide),
    after _ _ _ (show 16 ≤ 48 by decide), Nat.sub_self, List.drop_zero, first, Nat.reduceSub]
  simp

/-- What a line that gives count `k`, offset `o` and `value` reads as. -/
theorem parse_line {k o value : Text} {nk no : Nat} {ws : List U64}
    (hk : ∀ c ∈ k, Hex.IsDigit c) (ho : ∀ c ∈ o, Hex.IsDigit c) (hv : ∀ c ∈ value, Hex.IsDigit c)
    (vk : Hex.value k = some nk) (vo : Hex.value o = some no) (vw : parseWords value = some ws) :
    parseRecord (busterInfo ++ recordLine k o value) = some ⟨nk, no, ws⟩ := by
  have x := not_mem_of_digits (c := 'x') (by decide) hk
  have colon := not_mem_of_digits (c := ':') (by decide) ho
  have newline : '\n' ∉ ' ' :: value := by
    simpa using not_mem_of_digits (c := '\n') (by decide) hv
  have e : ' ' :: (value ++ ['\n']) = (' ' :: value) ++ '\n' :: [] := rfl
  simp only [parseRecord, recordLine, isPrefixOf?_append, Option.bind_eq_bind, Option.bind_some,
    cut_append x, cut_append colon, e, cut_append newline]
  simp [List.isPrefixOf?, vk, vo, vw]

/-! ## The printing sites -/

theorem length_hexPad_le {w : Nat} (hw : w ≤ 16) (x : U64) : (hexPad w x).length ≤ 16 :=
  Hex.length_padded_le (by decide) hw x.isLt

theorem length_blockFormat (ws : List U64) : (blockFormat ws).length = 16 * ws.length := by
  unfold blockFormat
  rw [List.length_flatMap]
  induction ws with
  | nil => rfl
  | cons w ws ih => simp at ih ⊢; omega

/-- The text of a record is short enough for the 127 bytes given to `snprintf`. -/
theorem snprintf_recordLine {k o value : Text} (hk : k.length ≤ 16) (ho : o.length ≤ 16)
    (hv : value.length ≤ 64) : snprintf 127 (recordLine k o value) = recordLine k o value := by
  apply List.take_of_length_le
  simp only [recordLine, List.length_append, List.length_cons, List.length_nil]
  omega

/-- What is printed for `line` is a whole line and reads as `r`. -/
def Reads (line : Text) (r : Record) : Prop :=
  line.getLast? = some '\n' ∧ parseRecord line = some r

theorem reads_line {k o value : Text} {nk no : Nat} {ws : List U64}
    (hk : ∀ c ∈ k, Hex.IsDigit c) (ho : ∀ c ∈ o, Hex.IsDigit c) (hv : ∀ c ∈ value, Hex.IsDigit c)
    (lk : k.length ≤ 16) (lo : o.length ≤ 16) (lv : value.length ≤ 64)
    (vk : Hex.value k = some nk) (vo : Hex.value o = some no) (vw : parseWords value = some ws) :
    Reads (busterInfo ++ snprintf 127 (recordLine k o value)) ⟨nk, no, ws⟩ := by
  rw [snprintf_recordLine lk lo lv]
  refine ⟨?_, parse_line hk ho hv vk vo vw⟩
  simp [recordLine, List.getLast?_append, List.getLast?_cons]

theorem reads_shortLine (offset value : U64) :
    Reads (busterInfo ++ snprintf 127 (shortLine offset value)) ⟨1, offset.toNat, [value]⟩ :=
  reads_line (Hex.isDigit_of_all (by decide)) (hexPad_digits offset) (hexPad_digits value)
    (by decide) (length_hexPad_le (by decide) offset) (by simp) (by decide) (Hex.value_padded 16 _)
    (parseWords_qword value)

theorem reads_tailLine (offset value : U64) :
    Reads (busterInfo ++ snprintf 127 (tailLine offset value)) ⟨1, offset.toNat, [value]⟩ := by
  have fits : (hex offset).length ≤ 16 := (Hex.length_digits_le (by decide)).mpr offset.isLt
  exact reads_line (Hex.isDigit_of_all (by decide)) (hex_digits offset) (hexPad_digits value)
    (by decide) fits (by simp) (by decide) (Hex.value_digits _) (parseWords_qword value)

theorem reads_singleLine (offset : U64) {ws : List U64} (block : ws.length = 4) :
    Reads (busterInfo ++ snprintf 127 (singleLine offset ws)) ⟨1, offset.toNat, ws⟩ :=
  reads_line (Hex.isDigit_of_all (by decide)) (hexPad_digits offset) (blockFormat_digits ws)
    (by decide) (length_hexPad_le (by decide) offset) (by simp [length_blockFormat, block])
    (by decide) (Hex.value_padded 16 _) (parseWords_block block)

theorem reads_repeatLine (count offset : U64) {ws : List U64} (block : ws.length = 4) :
    Reads (busterInfo ++ snprintf 127 (repeatLine count offset ws))
      ⟨count.toNat, offset.toNat, ws⟩ :=
  reads_line (hexPad_digits count) (hexPad_digits offset) (blockFormat_digits ws)
    (length_hexPad_le (by decide) count) (length_hexPad_le (by decide) offset)
    (by simp [length_blockFormat, block]) (Hex.value_padded 4 _) (Hex.value_padded 16 _)
    (parseWords_block block)

/-! ## The records of a section -/

def isFrame (tag : String) (line : Text) : Bool := (busterInfo ++ tag.toList).isPrefixOf line

/-- The lines printed between `BEGIN` and `END`. -/
def recordLines (ls : List Text) : List Text :=
  ((ls.dropWhile fun l => !isFrame "BEGIN." l).drop 1).takeWhile fun l => !isFrame "END." l

/-- No count starts with a character that is not a digit. -/
theorem parse_nondigit {c : Char} (hx : c ≠ 'x') (hc : ¬ Hex.IsDigit c) (rest : Text) :
    parseRecord (busterInfo ++ c :: rest) = none := by
  unfold parseRecord
  simp only [isPrefixOf?_append, Option.bind_eq_bind, Option.bind_some]
  cases found : cut 'x' (c :: rest) with
  | none => rfl
  | some p =>
    have count : p.1 = c :: rest.takeWhile (· ≠ 'x') := by
      unfold cut at found
      split at found
      · cases found
      · cases found
        simp [hx]
    have bad : Hex.value p.1 = none := by rw [count, Hex.value_eq_none hc]
    simp [bad]

theorem Reads.not_end {line : Text} {r : Record} (h : Reads line r) :
    isFrame "END." line = false := by
  cases frame : isFrame "END." line with
  | false => rfl
  | true =>
    obtain ⟨rest, rfl⟩ := List.isPrefixOf_iff_prefix.mp frame
    have refused : parseRecord (busterInfo ++ "END.".toList ++ rest) = none := by
      rw [List.append_assoc]
      exact parse_nondigit (c := 'E') (by decide) (by decide) _
    cases refused.symm.trans h.2

theorem isFrame_append (tag : String) (rest : Text) :
    isFrame tag (busterInfo ++ (tag.toList ++ rest)) = true :=
  List.isPrefixOf_iff_prefix.mpr ⟨rest, List.append_assoc ..⟩

theorem recordLines_section {logId start : U64} {msg : Text} {ls : List Text} {rs : List Record}
    (h : List.Forall₂ Reads ls rs) :
    recordLines ((busterInfo ++ beginLine logId start msg) ::
      (ls ++ [busterInfo ++ endLine logId])) = ls := by
  have first : isFrame "BEGIN." (busterInfo ++ beginLine logId start msg) = true :=
    isFrame_append _ _
  have last : isFrame "END." (busterInfo ++ endLine logId) = true := isFrame_append _ _
  have inner : ∀ l ∈ ls, (!isFrame "END." l) = true := by
    clear first last
    induction h with
    | nil => simp
    | cons hr _ ih => simpa [hr.not_end] using ih
  simp [recordLines, first, last, List.takeWhile_append_of_pos inner]

/-- The records a list of printed lines reads as. -/
theorem mapM_parse {ls : List Text} {rs : List Record} (h : List.Forall₂ Reads ls rs) :
    ls.mapM parseRecord = some rs := by
  induction h with
  | nil => rfl
  | cons first _ ih => simp [first.2, ih]

end Buster
