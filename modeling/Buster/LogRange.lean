import Buster.Machine

/-!
# `log_range`

Prints the quad words of a range between a `BEGIN` and an `END` line, whole
blocks of four run-length encoded.
-/

namespace Buster

open Imp.Prog (get modify emit loop)

/-- The loop over `msg`: what is wrong with it, if anything. The text after a
NUL is not looked at. -/
def checkMsg (i : Nat) : Text → Option Text
  | [] => none
  | c :: cs =>
    if c = '\x00' then none
    else if c = '\n' ∨ c = '\r' ∨ c = '\t' then some "err:msg has special chars".toList
    else if i = 63 then some "err:msg too long".toList
    else checkMsg (i + 1) cs

def beginLine (logId start : U64) (msg : Text) : Text :=
  "BEGIN.".toList ++ (hex logId ++ '.' :: (hex start ++ '.' :: (cstr msg ++ ['\n'])))

def endLine (logId : U64) : Text := "END.".toList ++ (hex logId ++ ['\n'])

/-- The shape the four record formats share. -/
def recordLine (count offset value : Text) : Text :=
  count ++ 'x' :: (offset ++ ':' :: ' ' :: (value ++ ['\n']))

/-- `"0001x%016llx: %016llx\n"`, one quad word on the short path. -/
def shortLine (offset value : U64) : Text :=
  recordLine "0001".toList (hexPad 16 offset) (hexPad 16 value)

/-- `"1x%llx: %016llx\n"`, one quad word after the last whole block. -/
def tailLine (offset value : U64) : Text :=
  recordLine "1".toList (hex offset) (hexPad 16 value)

/-- `BLOCK_FORMAT`, which is given `prev_val[3]` first. -/
def blockFormat (prevVal : List U64) : Text := prevVal.reverse.flatMap (hexPad 16)

/-- `"0001x%016llx: " BLOCK_FORMAT "\n"`. -/
def singleLine (offset : U64) (prevVal : List U64) : Text :=
  recordLine "0001".toList (hexPad 16 offset) (blockFormat prevVal)

/-- `"%04lxx%016llx: " BLOCK_FORMAT "\n"`. -/
def repeatLine (count offset : U64) (prevVal : List U64) : Text :=
  recordLine (hexPad 4 count) (hexPad 16 offset) (blockFormat prevVal)

/-- Every record goes through `log_buffer`. -/
def printRecord (line : Text) : Kernel Unit := printk (busterInfo ++ snprintf 127 line)

variable (m : Machine)

def qwordRound (line : U64 → U64 → Text) (start limit ptr : U64) : Kernel (U64 ⊕ Unit) := do
  if ptr < limit then
    let value ← load64 m ptr
    printRecord (line (ptr - start) value)
    return .inl (ptr + 8)
  else
    return .inr ()

/-- The two loops that print quad words one by one up to the limit. -/
def qwordLoop (line : U64 → U64 → Text) (start limit : U64) : U64 → Kernel Unit :=
  loop (qwordRound m line start limit)

def loadWords : Nat → U64 → Kernel (List U64)
  | 0, _ => pure []
  | n + 1, ptr => do
    let w ← load64 m ptr
    let ws ← loadWords n (ptr + 8)
    return w :: ws

/-- The comparison stops at the first word that differs. -/
def sameWords : List U64 → U64 → Kernel Bool
  | [], _ => pure true
  | w :: ws, ptr => do
    let v ← load64 m ptr
    if w ≠ v then return false else sameWords ws (ptr + 8)

structure BlockLoop where
  ptr : U64
  count : U64
  prevVal : List U64

/-- `BLOCK_BYTES` is the unparenthesised `256 / 8`, so the product with it
multiplies first and divides the wrapped result. -/
def blockRound (start limit : U64) : BlockLoop → Kernel (BlockLoop ⊕ BlockLoop)
  | ⟨ptr, count, prevVal⟩ => do
    if ptr + 4 * 8 ≤ limit then
      let same ← sameWords m prevVal ptr
      if same then
        return .inl ⟨ptr + 4 * 8, count + 1, prevVal⟩
      else
        let delta := ptr - start
        if count > 0 then
          printRecord (repeatLine (count + 1) (delta - (count + 1) * 256 / 8) prevVal)
        else
          printRecord (singleLine (delta - 256 / 8) prevVal)
        let next ← loadWords m 4 ptr
        return .inl ⟨ptr + 4 * 8, 0, next⟩
    else
      return .inr ⟨ptr, count, prevVal⟩

def blockLoop (start limit : U64) : BlockLoop → Kernel BlockLoop :=
  loop (blockRound m start limit)

def logShort (start limit : U64) (msg : Text) : Kernel Unit := do
  let g ← get
  printk (busterInfo ++ beginLine g.logId start msg)
  qwordLoop m shortLine start limit start
  printk (busterInfo ++ endLine g.logId)
  modify fun g => { g with logId := g.logId + 1 }

def logBlocks (start limit : U64) (msg : Text) : Kernel Unit := do
  let first ← loadWords m 4 start
  let g ← get
  printk (busterInfo ++ beginLine g.logId start msg)
  let last ← blockLoop m start limit ⟨start + 4 * 8, 0, first⟩
  printRecord (repeatLine (last.count + 1) (limit - start - 8 * (last.count + 1)) last.prevVal)
  qwordLoop m tailLine start limit last.ptr
  printk (busterInfo ++ endLine g.logId)
  modify fun g => { g with logId := g.logId + 1 }

def logRange (start limit : U64) (msg : Text) : Kernel Unit := do
  emit (.logRange start limit msg)
  match checkMsg 0 msg with
  | some err => printk (busterInfo ++ err)
  | none =>
    if start = 0 then
      printk (busterInfo ++ "err:start is null".toList)
    else if start > limit then
      printk (busterInfo ++ "err:start > limit".toList)
    else if limit - start < 256 / 8 then
      logShort m start limit msg
    else if start % 8 ≠ 0 then
      printk (busterInfo ++ "err:start not aligned".toList)
    else
      logBlocks m start limit msg

/-! ## What a dump leaves alone -/

/-- Events of printing and of reading quad words. -/
def Event.Qwords : Event → Prop
  | .load _ n => n = 8
  | .printk _ => True
  | _ => False

/-- Events of reading and printing. -/
def Event.Quiet : Event → Prop
  | .load _ _ | .printk _ => True
  | _ => False

/-- Events of `log_range` calls. -/
def Event.Log : Event → Prop
  | .logRange _ _ _ => True
  | e => e.Qwords

/-- Events of dumps. -/
def Event.Dump : Event → Prop
  | .logRange _ _ _ => True
  | e => e.Quiet

/-- Neither takes a block for an IOMMU nor opens one. -/
def Event.Plain : Event → Prop
  | .getIommuRegs _ | .bustOpen _ => False
  | _ => True

section frame
open Imp.Prog

variable {inv : Globals → Prop} {m}

theorem confined_load64 (a : U64) : (load64 m a).Confined inv Event.Qwords := by
  have word : (Event.load a 8).Qwords := rfl
  exact (confined_emit word).bind fun _ => confined_pure _

theorem confined_load32 (a : U64) : (load32 m a).Confined inv Event.Quiet :=
  (confined_emit trivial).bind fun _ => confined_pure _

theorem confined_printk (line : Text) : (printk line).Confined inv Event.Qwords :=
  confined_emit trivial

theorem confined_qwordLoop (line : U64 → U64 → Text) (start limit ptr : U64) :
    (qwordLoop m line start limit ptr).Confined inv Event.Qwords := by
  apply confined_loop
  intro ptr
  unfold qwordRound
  split
  · exact (confined_load64 ptr).bind fun _ => (confined_printk _).bind fun _ => confined_pure _
  · exact confined_pure _

theorem confined_loadWords (n : Nat) (ptr : U64) :
    (loadWords m n ptr).Confined inv Event.Qwords := by
  induction n generalizing ptr with
  | zero => exact confined_pure _
  | succ n ih => exact (confined_load64 ptr).bind fun _ => (ih _).bind fun _ => confined_pure _

theorem confined_sameWords (ws : List U64) (ptr : U64) :
    (sameWords m ws ptr).Confined inv Event.Qwords := by
  induction ws generalizing ptr with
  | nil => exact confined_pure _
  | cons w ws ih =>
    refine (confined_load64 ptr).bind fun v => ?_
    split
    · exact confined_pure _
    · exact ih _

theorem confined_blockLoop (start limit : U64) (b : BlockLoop) :
    (blockLoop m start limit b).Confined inv Event.Qwords := by
  apply confined_loop
  rintro ⟨ptr, count, prevVal⟩
  dsimp only [blockRound]
  split
  · refine (confined_sameWords _ _).bind fun same => ?_
    split
    · exact confined_pure _
    · have rest : (loadWords m 4 ptr >>= fun next =>
          (pure (.inl ⟨ptr + 4 * 8, 0, next⟩) : Kernel (BlockLoop ⊕ BlockLoop))).Confined inv
          Event.Qwords :=
        (confined_loadWords 4 ptr).bind fun _ => confined_pure _
      split
      · exact (confined_printk _).bind fun _ => rest
      · exact (confined_printk _).bind fun _ => rest
  · exact confined_pure _

/-- After saying that it was called, a dump loads and prints, and keeps
whatever does not depend on `log_id`. -/
theorem logRange_split (start limit : U64) (msg : Text) : ∃ rest : Kernel Unit,
    logRange m start limit msg = (emit (.logRange start limit msg) >>= fun _ => rest) ∧
      ∀ inv : Globals → Prop, (∀ g, inv g → inv { g with logId := g.logId + 1 }) →
        rest.Confined inv Event.Qwords := by
  refine ⟨_, rfl, ?_⟩
  intro inv keeps
  have nextLog : (modify fun g => { g with logId := g.logId + 1 } : Kernel Unit).Confined
      inv Event.Qwords := confined_modify keeps
  split
  · exact confined_printk _
  split
  · exact confined_printk _
  split
  · exact confined_printk _
  split
  · exact confined_get.bind fun _ => (confined_printk _).bind fun _ =>
      (confined_qwordLoop _ _ _ _).bind fun _ => (confined_printk _).bind fun _ => nextLog
  split
  · exact confined_printk _
  · exact (confined_loadWords _ _).bind fun _ => confined_get.bind fun _ =>
      (confined_printk _).bind fun _ => (confined_blockLoop _ _ _).bind fun _ =>
        (confined_printk _).bind fun _ => (confined_qwordLoop _ _ _ _).bind fun _ =>
          (confined_printk _).bind fun _ => nextLog

theorem Event.Qwords.quiet {e : Event} (h : e.Qwords) : e.Quiet := by
  cases e with
  | load => trivial
  | printk => trivial
  | _ => exact h

theorem Event.Quiet.dump {e : Event} (h : e.Quiet) : e.Dump := by
  cases e with
  | logRange => trivial
  | _ => exact h

theorem Event.Qwords.log {e : Event} (h : e.Qwords) : e.Log := by
  cases e with
  | logRange => trivial
  | _ => exact h

theorem Event.Log.dump {e : Event} (h : e.Log) : e.Dump := by
  cases e with
  | load => trivial
  | logRange => trivial
  | printk => trivial
  | _ => exact h

theorem Event.Dump.plain {e : Event} (h : e.Dump) : e.Plain := by
  cases e with
  | getIommuRegs => exact h
  | bustOpen => exact h
  | _ => trivial

theorem confined_logRange (keeps : ∀ g, inv g → inv { g with logId := g.logId + 1 })
    (start limit : U64) (msg : Text) : (logRange m start limit msg).Confined inv Event.Log := by
  obtain ⟨rest, split, qwords⟩ := logRange_split (m := m) start limit msg
  rw [split]
  exact (confined_emit trivial).bind fun _ => (qwords inv keeps).weaken fun _ => Event.Qwords.log

/-! ## The dumps of a run -/

/-- The arguments of a `log_range` call. -/
def Event.range : Event → Option (U64 × U64 × Text)
  | .logRange start limit msg => some (start, limit, msg)
  | _ => none

/-- The arguments of the `log_range` calls of a run. -/
def ranges (es : List Event) : List (U64 × U64 × Text) := es.filterMap Event.range

theorem Event.Quiet.no_range {e : Event} (h : e.Quiet) : e.range = none := by
  cases e with
  | logRange => exact h.elim
  | _ => rfl

/-- The program dumps the ranges `ws`, in this order: all of them when it
returns, and otherwise no others. -/
def Dumps {α : Type} (p : Kernel α) (ws : List (U64 × U64 × Text)) : Prop := p.Traces Event.range ws

theorem dumps_logRange (start limit : U64) (msg : Text) :
    Dumps (logRange m start limit msg) [(start, limit, msg)] := by
  obtain ⟨rest, split, quiet⟩ := logRange_split (m := m) start limit msg
  have hidden : rest.Traces Event.range [] :=
    (quiet (fun _ => True) fun _ _ => trivial).traces fun _ h => h.quiet.no_range
  rw [split]
  exact traces_emit.bind fun _ => hidden

end frame

end Buster
