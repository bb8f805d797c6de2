import Buster.Lib.CString
import Buster.Udp.Server

/-!
# The port mask of the command line

`parse_portmask` means to turn a text away that goes on behind its digits. It
tests the character there the wrong way round.
-/

namespace Udp

open CString

/-- The `int` by its bits, as `enabled_ports_mask` takes it. `end` is never null,
and `*end` is NUL when nothing is left of the text. -/
def parsePortmask (arg : List Char) : U32 :=
  let r := strtoul arg 16
  if arg = [] ∨ arg.drop r.endptr = [] then -1
  else if r.value = 0 then -1
  else r.value.setWidth 32

/-! ## What a mask is -/

/-- One or more hexadecimal digits and nothing else. -/
def HexText (s : List Char) : Prop := s ≠ [] ∧ ∀ c ∈ s, (digitValue 16 c).isSome

instance (s : List Char) : Decidable (HexText s) := inferInstanceAs (Decidable (_ ∧ ∀ c ∈ s, _))

def hexValue (s : List Char) : Nat := valueOf 16 (digitsOf 16 s)

/-- The text is empty, has no digits in front, has something left behind them, or
its value is 0. -/
def NoMask (s : List Char) : Prop :=
  let r := strtoul s 16
  s = [] ∨ r.endptr = 0 ∨ r.endptr < s.length ∨ r.value = 0

/-- What is asked of the parser. -/
structure MaskRead (s : List Char) : Prop where
  masks : HexText s → 0 < hexValue s → hexValue s < 2 ^ 32 →
    parsePortmask s = BitVec.ofNat 32 (hexValue s)
  others : NoMask s → parsePortmask s = -1

/-- The text is no mask but that of all ports, and what is read of one with
something left behind is 0 or, in 32 bits, all ones. -/
def MaskFits (s : List Char) : Prop :=
  let r := strtoul s 16
  ¬ (HexText s ∧ 0 < hexValue s ∧ hexValue s < 2 ^ 32 - 1) ∧
    (r.endptr < s.length → r.value = 0 ∨ r.value.setWidth 32 = (-1 : U32))

/-! ## When it is read as one -/

theorem strtoul_hexText {s : List Char} (hex : HexText s) (fits : hexValue s < 2 ^ 64) :
    strtoul s 16 = ⟨BitVec.ofNat 64 (hexValue s), s.length, false⟩ := by
  have noPrefix : radix 16 s = (16, 0) := by
    have plain : hexPrefix s = false := by
      unfold hexPrefix
      split
      · rename_i x d rest
        have digit := hex.2 x (by simp)
        apply decide_eq_false
        rintro ⟨rfl | rfl, _⟩
        · revert digit
          decide
        · revert digit
          decide
      · rfl
    simp [radix, plain]
  exact strtoul_digits hex.1 (by decide) hex.2 noPrefix fits

/-- Nothing that is read to its end is taken. -/
theorem parsePortmask_ended {s : List Char} (ended : s.length ≤ (strtoul s 16).endptr) :
    parsePortmask s = -1 := by
  unfold parsePortmask
  rw [if_pos (.inr (List.drop_eq_nil_of_le ended))]

theorem parsePortmask_left {s : List Char} (left : (strtoul s 16).endptr < s.length) :
    parsePortmask s =
      if (strtoul s 16).value = 0 then -1 else (strtoul s 16).value.setWidth 32 := by
  have going : ¬ (s = [] ∨ s.drop (strtoul s 16).endptr = []) := by
    rintro (rfl | none)
    · cases left
    · exact absurd (List.drop_eq_nil_iff.mp none) (Nat.not_le.mpr left)
  unfold parsePortmask
  rw [if_neg going]

theorem maskRead_iff (s : CString) : MaskRead s.chars ↔ MaskFits s.chars := by
  have allOnes {n : Nat} (pos : 0 < n) (fits : n < 2 ^ 32) :
      (-1 : U32) = BitVec.ofNat 32 n ↔ n = 2 ^ 32 - 1 := by
    bv_omega
  constructor
  · intro read
    constructor
    · rintro ⟨hex, pos, small⟩
      have whole := strtoul_hexText hex (by omega)
      have taken := read.masks hex pos (by omega)
      rw [parsePortmask_ended (by rw [whole]), allOnes pos (by omega)] at taken
      omega
    · intro left
      have refused := read.others (.inr (.inr (.inl left)))
      rw [parsePortmask_left left] at refused
      by_cases zero : (strtoul s.chars 16).value = 0
      · exact .inl zero
      · rw [if_neg zero] at refused
        exact .inr refused
  · rintro ⟨noMask, behind⟩
    constructor
    · intro hex pos fits
      have whole := strtoul_hexText hex (by omega)
      rw [parsePortmask_ended (by rw [whole]), allOnes pos fits]
      have large : ¬ hexValue s.chars < 2 ^ 32 - 1 := fun small => noMask ⟨hex, pos, small⟩
      omega
    · intro _
      by_cases left : (strtoul s.chars 16).endptr < s.chars.length
      · rw [parsePortmask_left left]
        split
        · rfl
        · rename_i nonzero
          exact (behind left).resolve_left nonzero
      · exact parsePortmask_ended (Nat.not_lt.mp left)

/-- The mask of the first port alone is taken for that of all ports. -/
theorem firstPort_not_read : ¬ MaskRead "1".toList := by
  intro read
  have hex : HexText "1".toList := ⟨by decide, List.forall_mem_singleton.mpr (by decide)⟩
  have taken := read.masks hex (by decide) (by decide)
  revert taken
  decide

end Udp
