import Buster.Udp.Init
import Buster.Udp.Strsplit

/-!
# The receive mapping of the command line

`parse_rx_config` looks for one pair of parentheses after another, copies what
is between them into a buffer and has `rte_strsplit` cut that into three fields.
What stands outside the parentheses, and behind the number of a field, it does
not look at.
-/

namespace Udp

open Imp Imp.Prog CString

def maxLcoreParams : Nat := 1024

/-- What `lcore_params` can point to. -/
inductive ParamsTable where
  | arrayDefault
  | array
  deriving DecidableEq

def lcoreParamsArrayDefault : List LcoreParams := [⟨0, 0, 0⟩]

/-- The variables that the options of the command line set. -/
structure Options where
  enabledPortsMask : U32
  numaOn : Bool
  lcoreParamsArray : Vector LcoreParams maxLcoreParams
  lcoreParams : ParamsTable
  nLcoreParams : Nat

def Options.initial : Options where
  enabledPortsMask := 0
  numaOn := false
  lcoreParamsArray := Vector.replicate maxLcoreParams ⟨0, 0, 0⟩
  lcoreParams := .arrayDefault
  nLcoreParams := lcoreParamsArrayDefault.length

/-- The table that `lcore_params` points to. -/
def Options.table (o : Options) : List LcoreParams :=
  match o.lcoreParams with
  | .arrayDefault => lcoreParamsArrayDefault
  | .array => o.lcoreParamsArray.toList

/-- The mapping in force. -/
def Options.mapping (o : Options) : List LcoreParams := o.table.take o.nLcoreParams

/-- A store into an array, past its end too. -/
inductive Store where
  | lcoreParamsArray (index : Nat)
  deriving DecidableEq

abbrev Parser := Prog Store Options

/-- Past the array the store changes nothing else here. -/
def Options.enter (o : Options) (e : LcoreParams) : Options :=
  { o with
    lcoreParamsArray := o.lcoreParamsArray.setIfInBounds o.nLcoreParams e
    nLcoreParams := o.nLcoreParams + 1 }

/-! ## `parse_rx_config` -/

def numFld : Nat := 3

/-- One field, from where it starts in the buffer. -/
def readField (field : List Char) : Option U64 :=
  let r := strtoul field 0
  if r.erange ∨ r.endptr = 0 ∨ r.value > 255 then none else some r.value

/-- One round, from `p0` on. `size` is an `unsigned`, and of the buffer only what
`snprintf` writes is ever looked at. Fewer than three tokens fail the match. -/
def parseRound (p0 : List Char) : Parser (List Char ⊕ Bool) :=
  match strchr p0 '(' with
  | none => return .inr true
  | some p =>
    let p := p.tail
    match strchr p ')' with
    | none => return .inr false
    | some p0 =>
      let size := (p.length - p0.length) % 2 ^ 32
      if 256 ≤ size then
        return .inr false
      else
        let (s, strFld) := rteStrsplit 256 numFld ',' (p.take size ++ ['\x00'])
        match strFld.mapM fun fld => readField (ofBuffer (s.drop fld)) with
        | some [port, queue, lcore] => do
          let o ← get
          if maxLcoreParams ≤ o.nLcoreParams then
            return .inr false
          else
            emit (.lcoreParamsArray o.nLcoreParams)
            modify fun o => o.enter ⟨port.setWidth 8, queue.setWidth 8, lcore.setWidth 8⟩
            return .inl p0
        | _ => return .inr false

/-- The `-1` of every check that fails inside the loop is `false` here. -/
def parseRxConfig (arg : List Char) : Parser Int := do
  modify fun o => { o with nLcoreParams := 0 }
  let parsed ← loop parseRound arg
  if parsed then
    modify fun o => { o with lcoreParams := .array }
    return 0
  else
    return -1

/-! ## One round -/

/-- What of a group is copied: its length is taken for an `unsigned`. -/
def copied (g : List Char) : List Char := g.take (g.length % 2 ^ 32)

/-- The entry that a group gives. -/
def readGroup (g : List Char) : Option LcoreParams :=
  match (fields ',' numFld g).mapM readField with
  | some [port, queue, lcore] => some ⟨port.setWidth 8, queue.setWidth 8, lcore.setWidth 8⟩
  | _ => none

theorem parseRound_end {s : List Char} (noOpen : '(' ∉ s) : parseRound s = pure (.inr true) := by
  unfold parseRound
  rw [strchr_eq_none.mpr noOpen]

theorem parseRound_unclosed {gap u : List Char} (noOpen : '(' ∉ gap) (noClose : ')' ∉ u) :
    parseRound (gap ++ '(' :: u) = pure (.inr false) := by
  unfold parseRound
  rw [strchr_append noOpen]
  simp only [List.tail_cons, strchr_eq_none.mpr noClose]

/-- The entry that the text between two parentheses gives. -/
def entryOf (g : List Char) : Option LcoreParams :=
  if 256 ≤ g.length % 2 ^ 32 then none else readGroup (copied g)

/-- A round with a group takes its entry into the array, if it gives one and
there is room, and resumes at the closing parenthesis. -/
theorem parseRound_group {gap g t : List Char} (noOpen : '(' ∉ gap) (noClose : ')' ∉ g)
    (noNul : '\x00' ∉ g) : parseRound (gap ++ '(' :: (g ++ ')' :: t)) =
      match entryOf g with
      | none => pure (.inr false)
      | some e => get >>= fun o =>
        if maxLcoreParams ≤ o.nLcoreParams then pure (.inr false)
        else emit (.lcoreParamsArray o.nLcoreParams) >>= fun _ =>
          modify (fun o => o.enter e) >>= fun _ => pure (.inl (')' :: t)) := by
  have size : (g ++ ')' :: t).length - (')' :: t).length = g.length := by
    rw [List.length_append]
    omega
  have text : (g ++ ')' :: t).take (g.length % 2 ^ 32) = copied g :=
    List.take_append_of_le_length (Nat.mod_le _ _)
  unfold parseRound
  rw [strchr_append noOpen]
  simp only [List.tail_cons, strchr_append noClose, size, text, entryOf]
  by_cases long : 256 ≤ g.length % 2 ^ 32
  · simp only [if_pos long]
  · simp only [if_neg long]
    have short : (copied g).length < 256 := by
      rw [copied, List.length_take]
      omega
    have clean : '\x00' ∉ copied g := fun h => noNul (List.mem_of_mem_take h)
    have texts : tokenTexts (rteStrsplit 256 numFld ',' (copied g ++ ['\x00'])) =
      fields ',' numFld (copied g) := rteStrsplit_fields (by decide) short clean
    have same : (rteStrsplit 256 numFld ',' (copied g ++ ['\x00'])).2.mapM (fun fld => readField
        (ofBuffer ((rteStrsplit 256 numFld ',' (copied g ++ ['\x00'])).1.drop fld))) =
        (fields ',' numFld (copied g)).mapM readField := by
      rw [← texts, tokenTexts, List.mapM_map]
      rfl
    rw [same]
    unfold readGroup
    split
    · rfl
    · rfl

theorem parseRound_skip (s : List Char) : parseRound (')' :: s) = parseRound s := by
  have passed : strchr (')' :: s) '(' = strchr s '(' := by simp [strchr]
  unfold parseRound
  rw [passed]

/-! ## All rounds -/

/-- A text taken apart at its groups, each with what stands before it; and what
is left behind the last. -/
inductive Cut : List Char → List (List Char × List Char) → List Char → Prop
  | last {s} : '(' ∉ s → Cut s [] s
  | group {gap g s gs rest} : '(' ∉ gap → ')' ∉ g → Cut s gs rest →
      Cut (gap ++ '(' :: (g ++ ')' :: s)) ((gap, g) :: gs) rest

/-- A parenthesis is opened and never closed. -/
inductive Unclosed : List Char → Prop
  | here {gap s} : '(' ∉ gap → ')' ∉ s → Unclosed (gap ++ '(' :: s)
  | later {gap g s} : '(' ∉ gap → ')' ∉ g → Unclosed s → Unclosed (gap ++ '(' :: (g ++ ')' :: s))

/-- A text has no group, one that is not closed, or one with a text behind it. -/
theorem groups_induction {motive : List Char → Prop} (last : ∀ s, '(' ∉ s → motive s)
    (here : ∀ gap u, '(' ∉ gap → ')' ∉ u → motive (gap ++ '(' :: u))
    (group : ∀ gap g t, '(' ∉ gap → ')' ∉ g → motive t → motive (gap ++ '(' :: (g ++ ')' :: t)))
    (s : List Char) : motive s := by
  induction size : s.length using Nat.strongRecOn generalizing s with
  | ind size₀ ih =>
    subst size
    by_cases found : '(' ∈ s
    · obtain ⟨gap, u, rfl, noOpen⟩ := List.eq_append_cons_of_mem found
      by_cases closed : ')' ∈ u
      · obtain ⟨g, t, rfl, noClose⟩ := List.eq_append_cons_of_mem closed
        have shorter : t.length < (gap ++ '(' :: (g ++ ')' :: t)).length := by
          simp only [List.length_append, List.length_cons]
          omega
        exact group gap g t noOpen noClose (ih t.length shorter t rfl)
      · exact here gap u noOpen closed
    · exact last s found

theorem cut_or_unclosed (s : List Char) : (∃ gs rest, Cut s gs rest) ∨ Unclosed s := by
  induction s using groups_induction with
  | last s noOpen => exact .inl ⟨[], s, .last noOpen⟩
  | here gap u noOpen noClose => exact .inr (.here noOpen noClose)
  | group gap g t noOpen noClose ih =>
    cases ih with
    | inl cut =>
      obtain ⟨gs, rest, cut⟩ := cut
      exact .inl ⟨_, rest, .group noOpen noClose cut⟩
    | inr open_ => exact .inr (.later noOpen noClose open_)

theorem split_unique {c : Char} {a a' b b' : List Char} (h : a ++ c :: b = a' ++ c :: b')
    (first : c ∉ a) (first' : c ∉ a') : a = a' ∧ b = b' := by
  have found := strchr_append first b
  rw [h, strchr_append first'] at found
  obtain rfl : b' = b := by simpa using found
  exact ⟨List.append_cancel_right h, rfl⟩

theorem Unclosed.no_cut {s rest : List Char} {gs : List (List Char × List Char)}
    (h : Unclosed s) : ¬ Cut s gs rest := by
  intro cut
  induction h generalizing gs rest with
  | @here gap s noOpen noClose =>
    generalize all : gap ++ '(' :: s = t at cut
    cases cut with
    | last none =>
      rw [← all] at none
      simp at none
    | group noOpen' _ _ =>
      obtain ⟨rfl, rfl⟩ := split_unique all noOpen noOpen'
      simp at noClose
  | @later gap g s noOpen noClose _ ih =>
    generalize all : gap ++ '(' :: (g ++ ')' :: s) = t at cut
    cases cut with
    | last none =>
      rw [← all] at none
      simp at none
    | group noOpen' noClose' later =>
      obtain ⟨rfl, inner⟩ := split_unique all noOpen noOpen'
      obtain ⟨rfl, rfl⟩ := split_unique inner noClose noClose'
      exact ih later

theorem Cut.unique {s rest rest' : List Char} {gs gs' : List (List Char × List Char)}
    (h : Cut s gs rest) (h' : Cut s gs' rest') : gs = gs' ∧ rest = rest' := by
  induction h generalizing gs' rest' with
  | last noOpen =>
    cases h' with
    | last => exact ⟨rfl, rfl⟩
    | group => simp at noOpen
  | @group gap g s gs rest noOpen noClose _ ih =>
    generalize all : gap ++ '(' :: (g ++ ')' :: s) = t at h'
    cases h' with
    | last none =>
      rw [← all] at none
      simp at none
    | @group gap' g' s' gs' _ noOpen' noClose' later =>
      obtain ⟨rfl, inner⟩ := split_unique all noOpen noOpen'
      obtain ⟨rfl, rfl⟩ := split_unique inner noClose noClose'
      obtain ⟨rfl, rfl⟩ := ih later
      exact ⟨rfl, rfl⟩

section loop
variable {s : List Char} {o o' : Options} {stores : List Store} {ended : Bool}

theorem parseLoop_skip : (loop parseRound (')' :: s)).Returns o stores ended o' ↔
    (loop parseRound s).Returns o stores ended o' := by
  rw [returns_loop, parseRound_skip, ← returns_loop]

theorem parseLoop_stops {ended : Bool} (round : parseRound s = pure (.inr ended)) :
    (loop parseRound s).Returns o [] ended o := by
  apply returns_loop.mpr
  rw [round]
  exact .inl (pure_returns _ o)

/-- An entry that finds room is stored, and the loop goes on behind its group. -/
theorem parseLoop_enters {gap g t : List Char} {e : LcoreParams} (noOpen : '(' ∉ gap)
    (noClose : ')' ∉ g) (noNul : '\x00' ∉ g) (read : entryOf g = some e)
    (room : o.nLcoreParams < maxLcoreParams)
    (rest : (loop parseRound t).Returns (o.enter e) stores ended o') :
    (loop parseRound (gap ++ '(' :: (g ++ ')' :: t))).Returns o
      (.lcoreParamsArray o.nLcoreParams :: stores) ended o' := by
  have round : (parseRound (gap ++ '(' :: (g ++ ')' :: t))).Returns o
      [.lcoreParamsArray o.nLcoreParams] (.inl (')' :: t)) (o.enter e) := by
    rw [parseRound_group noOpen noClose noNul, read]
    apply (get_returns o).bind
    rw [if_neg (by omega)]
    exact (emit_returns _ o).bind ((modify_returns _ o).bind (pure_returns _ _))
  exact returns_loop.mpr (.inr ⟨_, _, _, stores, round, parseLoop_skip.mpr rest, rfl⟩)

/-- A group that gives no entry, or one for which there is no room, is the end. -/
theorem parseLoop_refuses {gap g t : List Char} (noOpen : '(' ∉ gap) (noClose : ')' ∉ g)
    (noNul : '\x00' ∉ g) (refused : entryOf g = none ∨ maxLcoreParams ≤ o.nLcoreParams) :
    (loop parseRound (gap ++ '(' :: (g ++ ')' :: t))).Returns o [] false o := by
  apply returns_loop.mpr
  rw [parseRound_group noOpen noClose noNul]
  apply Or.inl
  cases read : entryOf g with
  | none => exact pure_returns _ o
  | some e =>
    have full : maxLcoreParams ≤ o.nLcoreParams :=
      refused.resolve_left (by rw [read]; exact Option.some_ne_none e)
    apply (get_returns o).bind
    rw [if_pos full]
    exact pure_returns _ o

/-- The entries of all groups, where there is room for them. -/
def Accepted (n : Nat) (gs : List (List Char × List Char)) (es : List LcoreParams) : Prop :=
  gs.mapM (fun x => entryOf x.2) = some es ∧ n + gs.length ≤ maxLcoreParams

theorem accepted_cons {n : Nat} {x : List Char × List Char} {gs : List (List Char × List Char)}
    {es : List LcoreParams} : Accepted n (x :: gs) es ↔
      ∃ e es', entryOf x.2 = some e ∧ n < maxLcoreParams ∧ Accepted (n + 1) gs es' ∧
        es = e :: es' := by
  unfold Accepted
  rw [List.mapM_cons, List.length_cons]
  cases first : entryOf x.2 with
  | none => simp
  | some e =>
    cases later : gs.mapM fun x => entryOf x.2 with
    | none => simp
    | some es' =>
      simp only [Option.pure_def, Option.bind_eq_bind, Option.bind_some, Option.some.injEq]
      constructor
      · rintro ⟨rfl, room⟩
        exact ⟨e, es', rfl, by omega, ⟨rfl, by omega⟩, rfl⟩
      · rintro ⟨_, _, rfl, _, ⟨rfl, room⟩, rfl⟩
        exact ⟨rfl, by omega⟩

theorem parseLoop_accepted {gs : List (List Char × List Char)} {rest : List Char}
    {es : List LcoreParams} (cut : Cut s gs rest) (noNul : '\x00' ∉ s)
    (accepted : Accepted o.nLcoreParams gs es) :
    ∃ stores, (loop parseRound s).Returns o stores true (es.foldl Options.enter o) := by
  induction cut generalizing o es with
  | last noOpen =>
    obtain rfl : es = [] := by simpa using accepted.1.symm
    exact ⟨[], parseLoop_stops (parseRound_end noOpen)⟩
  | group noOpen noClose _ ih =>
    simp only [List.mem_append, List.mem_cons, not_or] at noNul
    obtain ⟨e, es, read, room, later, rfl⟩ := accepted_cons.mp accepted
    obtain ⟨stores, run⟩ := ih (o := o.enter e) noNul.2.2.2.2 later
    exact ⟨_, parseLoop_enters noOpen noClose noNul.2.2.1 read room run⟩

theorem parseLoop_refused {gs : List (List Char × List Char)} {rest : List Char}
    (cut : Cut s gs rest) (noNul : '\x00' ∉ s)
    (refused : ∀ es, ¬ Accepted o.nLcoreParams gs es) (room : o.nLcoreParams ≤ maxLcoreParams) :
    ∃ stores o', (loop parseRound s).Returns o stores false o' := by
  induction cut generalizing o with
  | last => exact absurd ⟨rfl, room⟩ (refused [])
  | @group gap g t gs rest noOpen noClose _ ih =>
    simp only [List.mem_append, List.mem_cons, not_or] at noNul
    cases read : entryOf g with
    | none =>
      exact ⟨[], o, parseLoop_refuses noOpen noClose noNul.2.2.1 (.inl read)⟩
    | some e =>
      by_cases full : maxLcoreParams ≤ o.nLcoreParams
      · exact ⟨[], o, parseLoop_refuses noOpen noClose noNul.2.2.1 (.inr full)⟩
      · have later : ∀ es, ¬ Accepted (o.enter e).nLcoreParams gs es := by
          intro es accepted
          exact refused (e :: es)
            (accepted_cons.mpr ⟨e, es, read, by omega, accepted, rfl⟩)
        have next : (o.enter e).nLcoreParams = o.nLcoreParams + 1 := rfl
        obtain ⟨stores, o', run⟩ := ih noNul.2.2.2.2 later (by omega)
        exact ⟨_, o', parseLoop_enters noOpen noClose noNul.2.2.1 read (by omega) run⟩

theorem parseLoop_unclosed (unclosed : Unclosed s) (noNul : '\x00' ∉ s) :
    ∃ stores o', (loop parseRound s).Returns o stores false o' := by
  induction unclosed generalizing o with
  | here noOpen noClose => exact ⟨[], o, parseLoop_stops (parseRound_unclosed noOpen noClose)⟩
  | @later gap g t noOpen noClose _ ih =>
    simp only [List.mem_append, List.mem_cons, not_or] at noNul
    by_cases refused : entryOf g = none ∨ maxLcoreParams ≤ o.nLcoreParams
    · exact ⟨[], o, parseLoop_refuses noOpen noClose noNul.2.2.1 refused⟩
    · rw [not_or, ← ne_eq, Option.ne_none_iff_exists'] at refused
      obtain ⟨⟨e, read⟩, room⟩ := refused
      obtain ⟨stores, o', run⟩ := ih (o := o.enter e) noNul.2.2.2.2
      exact ⟨_, o', parseLoop_enters noOpen noClose noNul.2.2.1 read (by omega) run⟩

end loop

/-! ## The whole call -/

def Options.cleared (o : Options) : Options := { o with nLcoreParams := 0 }

/-- What the variables are after a call that returns 0 on these entries. -/
def Options.loaded (o : Options) (es : List LcoreParams) : Options :=
  { es.foldl Options.enter o.cleared with lcoreParams := .array }

section call
variable {s : List Char} {o o' : Options} {stores : List Store}

theorem parseRxConfig_parsed (run : (loop parseRound s).Returns o.cleared stores true o') :
    (parseRxConfig s).Returns o stores 0 { o' with lcoreParams := .array } := by
  apply returns_bind.mpr ⟨[], (), o.cleared, stores, returns_modify.mpr ⟨rfl, rfl⟩, _, rfl⟩
  apply returns_bind.mpr ⟨stores, true, o', [], run, _, (List.append_nil _).symm⟩
  exact (modify_returns _ o').bind (pure_returns _ _)

theorem parseRxConfig_failed (run : (loop parseRound s).Returns o.cleared stores false o') :
    (parseRxConfig s).Returns o stores (-1) o' := by
  apply returns_bind.mpr ⟨[], (), o.cleared, stores, returns_modify.mpr ⟨rfl, rfl⟩, _, rfl⟩
  apply returns_bind.mpr ⟨stores, false, o', [], run, _, (List.append_nil _).symm⟩
  exact pure_returns _ _

end call

/-- A call always returns: 0 when every parenthesis is closed, every group gives
an entry and the entries fit, and -1 otherwise. -/
theorem parseRxConfig_returns (s : CString) (o : Options) :
    (∃ gs rest es stores, Cut s.chars gs rest ∧ Accepted 0 gs es ∧
      (parseRxConfig s.chars).Returns o stores 0 (o.loaded es)) ∨
    (∀ gs rest es, Cut s.chars gs rest → ¬ Accepted 0 gs es) ∧
      ∃ stores o', (parseRxConfig s.chars).Returns o stores (-1) o' := by
  have start : o.cleared.nLcoreParams ≤ maxLcoreParams := Nat.zero_le _
  cases cut_or_unclosed s.chars with
  | inl h =>
    obtain ⟨gs, rest, cut⟩ := h
    by_cases some : ∃ es, Accepted 0 gs es
    · obtain ⟨es, accepted⟩ := some
      obtain ⟨stores, run⟩ := parseLoop_accepted (o := o.cleared) cut s.noNul accepted
      exact .inl ⟨gs, rest, es, stores, cut, accepted, parseRxConfig_parsed run⟩
    · rw [not_exists] at some
      obtain ⟨stores, o', run⟩ := parseLoop_refused (o := o.cleared) cut s.noNul some start
      refine .inr ⟨?_, stores, o', parseRxConfig_failed run⟩
      intro gs' rest' es cut' accepted
      obtain ⟨rfl, _⟩ := cut.unique cut'
      exact some es accepted
  | inr unclosed =>
    obtain ⟨stores, o', run⟩ := parseLoop_unclosed (o := o.cleared) unclosed s.noNul
    refine .inr ⟨?_, stores, o', parseRxConfig_failed run⟩
    intro gs rest es cut _
    exact unclosed.no_cut cut

/-! ## What a call does to the variables -/

theorem enter_all {es : List LcoreParams} {o : Options}
    (room : o.nLcoreParams + es.length ≤ maxLcoreParams) :
    (es.foldl Options.enter o).nLcoreParams = o.nLcoreParams + es.length ∧
      (es.foldl Options.enter o).lcoreParamsArray.toList.take (o.nLcoreParams + es.length) =
        o.lcoreParamsArray.toList.take o.nLcoreParams ++ es := by
  induction es generalizing o with
  | nil => simp
  | cons e es ih =>
    rw [List.length_cons] at room
    have next : (o.enter e).nLcoreParams = o.nLcoreParams + 1 := rfl
    obtain ⟨count, entries⟩ := ih (o := o.enter e) (by omega)
    have inside : o.nLcoreParams < o.lcoreParamsArray.toList.length := by
      rw [Vector.length_toList]
      omega
    have size : o.nLcoreParams + (e :: es).length = (o.enter e).nLcoreParams + es.length := by
      rw [List.length_cons, next]
      omega
    rw [List.foldl_cons, size, entries, count]
    refine ⟨rfl, ?_⟩
    rw [Options.enter, Vector.toList_setIfInBounds, take_set_succ inside, List.append_assoc]
    rfl

theorem loaded_mapping (o : Options) {es : List LcoreParams} (room : es.length ≤ maxLcoreParams) :
    (o.loaded es).nLcoreParams = es.length ∧ (o.loaded es).mapping = es := by
  have start : o.cleared.nLcoreParams = 0 := rfl
  obtain ⟨count, table⟩ :=
    enter_all (show o.cleared.nLcoreParams + es.length ≤ maxLcoreParams by omega)
  rw [start, Nat.zero_add] at count
  rw [start, Nat.zero_add, List.take_zero, List.nil_append, ← count] at table
  exact ⟨count, table⟩

/-- The store is inside its array. -/
def Store.Inside : Store → Prop
  | .lcoreParamsArray i => i < maxLcoreParams

section confined
variable {inv : Options → Prop} (enters : ∀ o e, inv o → inv (o.enter e))
include enters

theorem confined_parseRound (p0 : List Char) : (parseRound p0).Confined inv Store.Inside := by
  unfold parseRound
  split
  · exact confined_pure _
  dsimp only
  split
  · exact confined_pure _
  split
  · exact confined_pure _
  split
  · apply confined_get.bind
    intro o
    split
    · exact confined_pure _
    · rename_i room
      have inside : (Store.lcoreParamsArray o.nLcoreParams).Inside := Nat.lt_of_not_le room
      exact (confined_emit inside).bind fun _ =>
        (confined_modify fun o => enters o _).bind fun _ => confined_pure _
  · exact confined_pure _

/-- Whatever the text, nothing is stored past the array, and what entries, their
number and the table they are in do not bear on is kept. -/
theorem confined_parseRxConfig (clears : ∀ o, inv o → inv o.cleared)
    (points : ∀ o, inv o → inv { o with lcoreParams := .array }) (s : List Char) :
    (parseRxConfig s).Confined inv Store.Inside := by
  apply (confined_modify clears).bind
  intro _
  apply (confined_loop (confined_parseRound enters) s).bind
  intro parsed
  split
  · exact (confined_modify points).bind fun _ => confined_pure _
  · exact confined_pure _

end confined

theorem parseRxConfig_inside {s : List Char} {o o' : Options} {stores : List Store} {rv : Int}
    (run : (parseRxConfig s).Returns o stores rv o') : ∀ e ∈ stores, e.Inside := by
  have any : (parseRxConfig s).Confined (fun _ => True) Store.Inside :=
    confined_parseRxConfig (fun _ _ _ => trivial) (fun _ _ => trivial) (fun _ _ => trivial) s
  exact (any.returns trivial run).2

end Udp
