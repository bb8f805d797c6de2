import Buster.Udp.Config

/-!
# What a failed call leaves behind

`parse_rx_config` resets the count first and stores every entry as it reads it.
So a call that fails leaves the entries of the groups before the first one it
refuses, in the array that may be the one in force.
-/

namespace Udp

open Imp Imp.Prog CString

/-! ## The groups in front -/

/-- The groups that are closed, from inside a group or from outside. -/
def groupsFrom : Option (List Char) → List Char → List (List Char)
  | _, [] => []
  | none, c :: cs => if c = '(' then groupsFrom (some []) cs else groupsFrom none cs
  | some g, c :: cs =>
    if c = ')' then g :: groupsFrom none cs else groupsFrom (some (g ++ [c])) cs

/-- The groups of a text up to one that is not closed. -/
def closedGroups (s : List Char) : List (List Char) := groupsFrom none s

/-- The entries of the groups before the first that gives none. -/
def leadingEntries : List (List Char) → List LcoreParams
  | [] => []
  | g :: gs =>
    match entryOf g with
    | some e => e :: leadingEntries gs
    | none => []

/-- The entries that come before the first group that is refused. -/
def entriesBefore (s : List Char) : List LcoreParams :=
  (leadingEntries (closedGroups s)).take maxLcoreParams

theorem groupsFrom_gap {gap : List Char} (noOpen : '(' ∉ gap) (s : List Char) :
    groupsFrom none (gap ++ s) = groupsFrom none s := by
  induction gap with
  | nil => rfl
  | cons c gap ih =>
    simp only [List.mem_cons, not_or] at noOpen
    rw [List.cons_append, groupsFrom, if_neg (Ne.symm noOpen.1), ih noOpen.2]

theorem groupsFrom_inside {g : List Char} (noClose : ')' ∉ g) (before s : List Char) :
    groupsFrom (some before) (g ++ s) = groupsFrom (some (before ++ g)) s := by
  induction g generalizing before with
  | nil => simp
  | cons c g ih =>
    simp only [List.mem_cons, not_or] at noClose
    rw [List.cons_append, groupsFrom, if_neg (Ne.symm noClose.1), ih noClose.2, List.append_assoc,
      List.singleton_append]

theorem closedGroups_end {s : List Char} (noOpen : '(' ∉ s) : closedGroups s = [] := by
  have none := groupsFrom_gap noOpen []
  rw [List.append_nil] at none
  rw [closedGroups, none]
  rfl

theorem closedGroups_unclosed {gap u : List Char} (noOpen : '(' ∉ gap) (noClose : ')' ∉ u) :
    closedGroups (gap ++ '(' :: u) = [] := by
  have none := groupsFrom_inside noClose [] []
  rw [List.append_nil] at none
  rw [closedGroups, groupsFrom_gap noOpen, groupsFrom, if_pos rfl, none]
  rfl

theorem closedGroups_group {gap g : List Char} (noOpen : '(' ∉ gap) (noClose : ')' ∉ g)
    (t : List Char) : closedGroups (gap ++ '(' :: (g ++ ')' :: t)) = g :: closedGroups t := by
  rw [closedGroups, groupsFrom_gap noOpen, groupsFrom, if_pos rfl, groupsFrom_inside noClose,
    List.nil_append, groupsFrom, if_pos rfl]
  rfl

/-! ## What is stored -/

/-- However the loop ends, it has stored the entries in front, where there was room. -/
theorem parseLoop_stores {s : List Char} (noNul : '\x00' ∉ s) (o : Options) :
    ∃ stores parsed, (loop parseRound s).Returns o stores parsed
      (((leadingEntries (closedGroups s)).take (maxLcoreParams - o.nLcoreParams)).foldl
        Options.enter o) := by
  induction s using groups_induction generalizing o with
  | last s noOpen =>
    rw [closedGroups_end noOpen, leadingEntries, List.take_nil]
    exact ⟨[], true, parseLoop_stops (parseRound_end noOpen)⟩
  | here gap u noOpen noClose =>
    rw [closedGroups_unclosed noOpen noClose, leadingEntries, List.take_nil]
    exact ⟨[], false, parseLoop_stops (parseRound_unclosed noOpen noClose)⟩
  | group gap g t noOpen noClose ih =>
    simp only [List.mem_append, List.mem_cons, not_or] at noNul
    rw [closedGroups_group noOpen noClose, leadingEntries]
    cases read : entryOf g with
    | none =>
      dsimp only
      rw [List.take_nil]
      exact ⟨[], false, parseLoop_refuses noOpen noClose noNul.2.2.1 (.inl read)⟩
    | some e =>
      by_cases full : maxLcoreParams ≤ o.nLcoreParams
      · have none : maxLcoreParams - o.nLcoreParams = 0 := by omega
        rw [none]
        exact ⟨[], false, parseLoop_refuses noOpen noClose noNul.2.2.1 (.inr full)⟩
      · obtain ⟨stores, parsed, run⟩ := ih noNul.2.2.2.2 (o.enter e)
        have next : (o.enter e).nLcoreParams = o.nLcoreParams + 1 := rfl
        have left : maxLcoreParams - o.nLcoreParams =
            maxLcoreParams - (o.enter e).nLcoreParams + 1 := by omega
        rw [left]
        exact ⟨_, parsed, parseLoop_enters noOpen noClose noNul.2.2.1 read (by omega) run⟩

section call
variable {s : CString} {o o' : Options} {stores : List Store}

theorem entriesBefore_fits (s : List Char) : (entriesBefore s).length ≤ maxLcoreParams :=
  List.length_take_le _ _

/-- Failed or not, a call leaves the entries in front; what it points to afterwards
tells which. -/
theorem parseRxConfig_leaves {rv : Int} (run : (parseRxConfig s.chars).Returns o stores rv o') :
    (rv = 0 ∧ o' = o.loaded (entriesBefore s.chars)) ∨
      (rv = -1 ∧ o' = (entriesBefore s.chars).foldl Options.enter o.cleared) := by
  obtain ⟨stores', parsed, loops⟩ := parseLoop_stores s.noNul o.cleared
  cases parsed with
  | true =>
    obtain ⟨_, zero, state⟩ := run.unique (parseRxConfig_parsed loops)
    exact .inl ⟨zero, state⟩
  | false =>
    obtain ⟨_, minusOne, state⟩ := run.unique (parseRxConfig_failed loops)
    exact .inr ⟨minusOne, state⟩

theorem parseRxConfig_loads (run : (parseRxConfig s.chars).Returns o stores 0 o') :
    o' = o.loaded (entriesBefore s.chars) := by
  rcases parseRxConfig_leaves run with ⟨_, state⟩ | ⟨zero, _⟩
  · exact state
  · cases zero

/-- A failed call has stored and counted the entries, and points where it did. -/
theorem failed_leaves (failed : (parseRxConfig s.chars).Returns o stores (-1) o') :
    o'.lcoreParams = o.lcoreParams ∧ o'.nLcoreParams = (entriesBefore s.chars).length ∧
      o'.lcoreParamsArray.toList.take o'.nLcoreParams = entriesBefore s.chars := by
  rcases parseRxConfig_leaves failed with ⟨zero, _⟩ | ⟨_, rfl⟩
  · cases zero
  have points (es : List LcoreParams) (o : Options) :
      (es.foldl Options.enter o).lcoreParams = o.lcoreParams := by
    induction es generalizing o with
    | nil => rfl
    | cons e es ih => exact ih (o.enter e)
  obtain ⟨count, table⟩ := loaded_mapping o (entriesBefore_fits s.chars)
  exact ⟨points _ _, count, table⟩

end call

/-! ## The mapping after a failed call -/

/-- The options as they can be when `parse_rx_config` is called: set by default,
by calls that succeeded, and by the other arguments. -/
inductive Options.Set : Options → Prop
  | default : Options.Set .initial
  | loaded {o o' : Options} {s : CString} {stores : List Store} : o.Set →
      (parseRxConfig s.chars).Returns o stores 0 o' → Options.Set o'
  | others {o : Options} (mask : U32) (numaOn : Bool) : o.Set →
      Options.Set { o with enabledPortsMask := mask, numaOn := numaOn }

/-- The default table with its one entry, or as many entries of the array as count. -/
theorem Options.Set.table {o : Options} (h : o.Set) :
    o.lcoreParams = .arrayDefault ∧ o.nLcoreParams = 1 ∨
      o.lcoreParams = .array ∧ o.mapping.length = o.nLcoreParams := by
  induction h with
  | default => exact .inl ⟨rfl, rfl⟩
  | @loaded o o' s stores _ run _ =>
    obtain rfl := parseRxConfig_loads run
    obtain ⟨size, mapping⟩ := loaded_mapping o (entriesBefore_fits s.chars)
    exact .inr ⟨rfl, by rw [size, mapping]⟩
  | others mask numaOn _ ih => exact ih

/-- The mapping in force is what it was. -/
def SameMapping (o o' : Options) : Prop :=
  o'.nLcoreParams = o.nLcoreParams ∧ o'.mapping = o.mapping

/-- The entries before the first group that is refused are those in force; or there
is one of them, while the default table is. -/
def RepeatsMapping (o : Options) (s : List Char) : Prop :=
  o.lcoreParams = .arrayDefault ∧ (entriesBefore s).length = 1 ∨
    o.lcoreParams = .array ∧ entriesBefore s = o.mapping

instance (o : Options) (s : List Char) : Decidable (RepeatsMapping o s) :=
  inferInstanceAs (Decidable (_ ∧ _ ∨ _ ∧ _))

/-- A failed call changes nothing just when it got as far as to repeat what was there. -/
theorem failed_keeps_mapping_iff {s : CString} {o o' : Options} {stores : List Store} (set : o.Set)
    (failed : (parseRxConfig s.chars).Returns o stores (-1) o') :
    SameMapping o o' ↔ RepeatsMapping o s.chars := by
  obtain ⟨points, count, table⟩ := failed_leaves failed
  unfold SameMapping RepeatsMapping Options.mapping Options.table
  rw [points]
  rcases set.table with ⟨default, one⟩ | ⟨array, size⟩
  · rw [default, one, count]
    simp only [true_and, reduceCtorEq, false_and, or_false]
    exact and_iff_left_of_imp fun same => by rw [same]
  · unfold Options.mapping Options.table at size
    rw [array] at size ⊢
    simp only [reduceCtorEq, false_and, true_and, false_or] at size ⊢
    rw [table, count]
    constructor
    · exact And.right
    · intro same
      exact ⟨by rw [same, size], same⟩

/-- One entry is read, and there was one by default. -/
def oneThenOpen : CString := ⟨"(5,0,1)(".toList, by decide⟩

theorem oneThenOpen_keeps : ∃ stores o',
    (parseRxConfig oneThenOpen.chars).Returns .initial stores (-1) o' ∧
      SameMapping .initial o' := by
  let o₁ := Options.initial.cleared.enter ⟨5, 0, 1⟩
  have round : parseRound ([] ++ '(' :: []) = pure (.inr false) :=
    parseRound_unclosed (by decide) (by decide)
  have entered : (loop parseRound ([] ++ '(' :: ("5,0,1".toList ++ ')' :: ['(']))).Returns
      Options.initial.cleared [.lcoreParamsArray 0] false o₁ :=
    parseLoop_enters (by decide) (by decide) (by decide) (by decide) (by decide)
      (parseLoop_stops round)
  have failed : (parseRxConfig oneThenOpen.chars).Returns .initial [.lcoreParamsArray 0] (-1) o₁ :=
    parseRxConfig_failed entered
  exact ⟨_, o₁, failed, (failed_keeps_mapping_iff .default failed).mpr (by decide)⟩

/-- The only group is not closed: no entry is left of the default mapping. -/
theorem unclosed_drops_mapping : ∃ stores o',
    (parseRxConfig "(0,0,0".toList).Returns .initial stores (-1) o' ∧
      ¬ SameMapping .initial o' := by
  have round : parseRound ([] ++ '(' :: "0,0,0".toList) = pure (.inr false) :=
    parseRound_unclosed (by decide) (by decide)
  have failed : (parseRxConfig "(0,0,0".toList).Returns .initial [] (-1) Options.initial.cleared :=
    parseRxConfig_failed (parseLoop_stops round)
  refine ⟨[], _, failed, ?_⟩
  rintro ⟨count, _⟩
  cases count

end Udp
