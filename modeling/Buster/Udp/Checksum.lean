import Buster.Lib.OnesComplement
import Buster.Udp.Reply

/-!
# The checksum of an IPv4 header

`rte_ipv4_cksum` adds 16-bit words as they lie in memory, in 32 bits, and folds
twice. A header verifies when its words, in network order, have the
one's-complement sum 0xFFFF.
-/

namespace Udp

open OnesComplement

/-- The words of a buffer in network order. -/
def Mbuf.netWords (m : Mbuf) : Nat → Nat → List U16
  | 0, _ => []
  | words + 1, buf => bswap16 (m.load16 buf) :: m.netWords words (buf + 2)

/-- The one's-complement sum of the header. -/
def Mbuf.headerSum (m : Mbuf) (ipH : Nat) : U16 := sum (m.netWords (m.hdrLen ipH / 2) ipH)

/-- What the words of a buffer add up to. -/
def Mbuf.wordTotal (m : Mbuf) : Nat → Nat → Nat
  | 0, _ => 0
  | words + 1, buf => (m.load16 buf).toNat + m.wordTotal words (buf + 2)

/-- The 32-bit sum does not wrap in a header. -/
theorem toNat_wordSum (m : Mbuf) (words buf : Nat) (sum : U32)
    (room : sum.toNat + 65535 * words < 2 ^ 32) :
    (m.wordSum words buf sum).toNat = sum.toNat + m.wordTotal words buf := by
  induction words generalizing buf sum with
  | zero => rfl
  | succ words ih =>
    have first := (m.load16 buf).isLt
    have next : (sum + (m.load16 buf).setWidth 32).toNat = sum.toNat + (m.load16 buf).toNat := by
      rw [BitVec.toNat_add, BitVec.toNat_setWidth]
      omega
    rw [Mbuf.wordSum, Mbuf.wordTotal, ih _ _ (by omega), next, Nat.add_assoc]

theorem high_half (s : U32) : (s &&& 0xffff0000) >>> 16 = s >>> 16 := by
  apply BitVec.eq_of_toNat_eq
  have below := s.isLt
  have half := Nat.and_two_pow_sub_one_eq_mod (s.toNat / 2 ^ 16) 16
  rw [BitVec.toNat_ushiftRight, BitVec.toNat_and, BitVec.toNat_ushiftRight,
    Nat.shiftRight_and_distrib, Nat.shiftRight_eq_div_pow]
  exact half.trans (Nat.mod_eq_of_lt (by omega))

/-- One fold adds the two halves, and carries nothing out of 32 bits. -/
theorem toNat_fold (s : U32) : (((s &&& 0xffff0000) >>> 16) + (s &&& 0xffff)).toNat =
    s.toNat / 65536 + s.toNat % 65536 := by
  have below := s.isLt
  have low : (s &&& 0xffff).toNat = s.toNat % 65536 := by
    rw [BitVec.toNat_and]
    exact Nat.and_two_pow_sub_one_eq_mod s.toNat 16
  have high : (s >>> 16).toNat = s.toNat / 65536 := by
    rw [BitVec.toNat_ushiftRight, Nat.shiftRight_eq_div_pow]
  rw [high_half, BitVec.toNat_add, low, high]
  omega

/-- Two folds absorb every carry of a 32-bit sum. -/
theorem represents_rawCksumReduce (s : U32) : Represents (rawCksumReduce s) s.toNat := by
  have below := s.isLt
  have value : (rawCksumReduce s).toNat =
      (s.toNat / 65536 + s.toNat % 65536) / 65536 +
        (s.toNat / 65536 + s.toNat % 65536) % 65536 := by
    unfold rawCksumReduce
    rw [BitVec.toNat_setWidth, toNat_fold, toNat_fold]
    omega
  constructor
  · rw [value]
    unfold Nat.ModEq
    omega
  · rw [eq_zero_iff, value]
    omega

/-- What the program sums up represents the words as they lie in memory. -/
theorem represents_header (m : Mbuf) (ipH : Nat) :
    Represents (~~~m.ipv4Cksum ipH) (m.wordTotal (m.hdrLen ipH / 2) ipH) := by
  have short : m.hdrLen ipH / 2 ≤ 128 := by
    have := ((m.data ipH &&& 0x0f) * 4).isLt
    unfold Mbuf.hdrLen
    omega
  have total := toNat_wordSum m (m.hdrLen ipH / 2) ipH 0 (by simp; omega)
  have folded := represents_rawCksumReduce (m.wordSum (m.hdrLen ipH / 2) ipH 0)
  have zero : (0 : U32).toNat = 0 := rfl
  rw [total, zero, Nat.zero_add] at folded
  rwa [Mbuf.ipv4Cksum, BitVec.not_not]

/-! ## Byte order -/

theorem toNat_bswap16 (v : U16) :
    (bswap16 v).toNat = v.toNat % 256 * 256 + v.toNat / 256 := by
  have below := v.isLt
  unfold bswap16
  have high : v.toNat / 256 < 2 ^ 8 := by omega
  rw [BitVec.toNat_append, BitVec.toNat_setWidth, BitVec.toNat_setWidth, BitVec.toNat_ushiftRight,
    Nat.shiftRight_eq_div_pow, Nat.mod_eq_of_lt high, ← Nat.shiftLeft_add_eq_or_of_lt high,
    Nat.shiftLeft_eq]

/-- In network order the words add up to 256 times as much, modulo 65535. -/
theorem netWords_total (m : Mbuf) (words buf : Nat) :
    ((m.netWords words buf).map BitVec.toNat).sum ≡ 256 * m.wordTotal words buf [MOD 65535] ∧
      (((m.netWords words buf).map BitVec.toNat).sum = 0 ↔ m.wordTotal words buf = 0) := by
  induction words generalizing buf with
  | zero => exact ⟨rfl, by simp [Mbuf.netWords, Mbuf.wordTotal]⟩
  | succ words ih =>
    have first := toNat_bswap16 (m.load16 buf)
    have below := (m.load16 buf).isLt
    obtain ⟨total, zero⟩ := ih (buf + 2)
    simp only [Mbuf.netWords, Mbuf.wordTotal, List.map_cons, List.sum_cons]
    constructor
    · rw [Nat.mul_add]
      apply Nat.ModEq.add _ total
      rw [first]
      unfold Nat.ModEq
      omega
    · omega

/-- A header verifies in either byte order or in none. -/
theorem headerSum_iff (m : Mbuf) (ipH : Nat) : m.headerSum ipH = 0xFFFF ↔
    m.wordTotal (m.hdrLen ipH / 2) ipH ≠ 0 ∧ 65535 ∣ m.wordTotal (m.hdrLen ipH / 2) ipH := by
  obtain ⟨total, zero⟩ := netWords_total m (m.hdrLen ipH / 2) ipH
  have all := (represents_sum (m.netWords (m.hdrLen ipH / 2) ipH)).eq_allOnes_iff (by decide)
  have ones : BitVec.allOnes 16 = 0xFFFF := rfl
  rw [Mbuf.headerSum, ← ones, all, ne_eq, zero]
  have divides := total.dvd_iff (show 65535 ∣ 65535 from Nat.dvd_refl _)
  have coprime : Nat.Coprime 65535 256 := by decide
  rw [show 2 ^ 16 - 1 = 65535 from rfl, divides, coprime.dvd_mul_left]

/-! ## Writing a word -/

theorem data_write (m : Mbuf) (off : Nat) (bytes : List U8) (i : Nat) :
    (m.write off bytes).data i =
      if off ≤ i ∧ i < off + bytes.length then bytes.getD (i - off) 0 else m.data i := rfl

theorem data_write16 (m : Mbuf) (off : Nat) (v : U16) (i : Nat) :
    (m.write16 off v).data i =
      if i = off then v.setWidth 8 else if i = off + 1 then (v >>> 8).setWidth 8 else m.data i := by
  rw [Mbuf.write16, data_write]
  by_cases first : i = off
  · simp [first]
  by_cases second : i = off + 1
  · simp [second]
  · rw [if_neg first, if_neg second, if_neg]
    simp only [List.length_cons, List.length_nil]
    omega

theorem load16_write16_self (m : Mbuf) (off : Nat) (v : U16) :
    (m.write16 off v).load16 off = v := by
  unfold Mbuf.load16
  simp only [data_write16, if_true, Nat.add_eq_left, Nat.succ_ne_zero, if_false]
  ext i hi
  simp only [BitVec.getElem_append, BitVec.getElem_setWidth, BitVec.getLsbD_ushiftRight]
  grind

theorem load16_write16_other (m : Mbuf) {off off' : Nat} (v : U16)
    (apart : off + 2 ≤ off' ∨ off' + 2 ≤ off) : (m.write16 off v).load16 off' = m.load16 off' := by
  unfold Mbuf.load16
  simp only [data_write16]
  rw [if_neg (by omega), if_neg (by omega), if_neg (by omega), if_neg (by omega)]

theorem wordTotal_write16_other (m : Mbuf) (v : U16) {off buf : Nat} (words : Nat)
    (apart : off + 2 ≤ buf) : (m.write16 off v).wordTotal words buf = m.wordTotal words buf := by
  induction words generalizing buf with
  | zero => rfl
  | succ words ih =>
    rw [Mbuf.wordTotal, Mbuf.wordTotal, load16_write16_other m v (.inl apart), ih (by omega)]

theorem wordTotal_write16_beyond (m : Mbuf) (v : U16) {off words buf : Nat}
    (apart : buf + 2 * words ≤ off) :
    (m.write16 off v).wordTotal words buf = m.wordTotal words buf := by
  induction words generalizing buf with
  | zero => rfl
  | succ words ih =>
    rw [Mbuf.wordTotal, Mbuf.wordTotal, load16_write16_other m v (.inr (by omega)),
      ih (by omega)]

/-- Another word in the place of one of the words summed up. -/
theorem wordTotal_write16 (m : Mbuf) (v : U16) {words k : Nat} (inside : k < words) (buf : Nat) :
    (m.write16 (buf + 2 * k) v).wordTotal words buf + (m.load16 (buf + 2 * k)).toNat =
      m.wordTotal words buf + v.toNat := by
  induction k generalizing words buf with
  | zero =>
    obtain ⟨words, rfl⟩ : ∃ n, words = n + 1 := ⟨words - 1, by omega⟩
    have self := load16_write16_self m buf v
    have rest : (m.write16 buf v).wordTotal words (buf + 2) = m.wordTotal words (buf + 2) :=
      wordTotal_write16_other m v words (Nat.le_refl (buf + 2))
    simp only [Nat.mul_zero, Nat.add_zero, Mbuf.wordTotal, self, rest]
    omega
  | succ k ih =>
    obtain ⟨words, rfl⟩ : ∃ n, words = n + 1 := ⟨words - 1, by omega⟩
    have further : buf + 2 * (k + 1) = buf + 2 + 2 * k := by omega
    have first : (m.write16 (buf + 2 * (k + 1)) v).load16 buf = m.load16 buf :=
      load16_write16_other m v (.inr (by omega))
    have rest := ih (show k < words by omega) (buf + 2)
    rw [← further] at rest
    rw [Mbuf.wordTotal, Mbuf.wordTotal, first]
    omega

/-! ## The checksum field -/

/-- The checksum of a header whose field is zero makes it verify. -/
theorem headerSum_cksum (m : Mbuf) (ipH : Nat) (long : 12 ≤ m.hdrLen ipH)
    (blank : m.load16 (ipH + 10) = 0) :
    (m.write16 (ipH + 10) (m.ipv4Cksum ipH)).headerSum ipH = 0xFFFF := by
  let filled := m.write16 (ipH + 10) (m.ipv4Cksum ipH)
  have same : filled.hdrLen ipH = m.hdrLen ipH := by
    unfold Mbuf.hdrLen
    rw [data_write16, if_neg (by omega), if_neg (by omega)]
  have inside : 5 < m.hdrLen ipH / 2 := by omega
  have total := wordTotal_write16 m (m.ipv4Cksum ipH) inside ipH
  have represents := represents_header m ipH
  have divides := represents.modEq
  have zero := represents.zero
  have value : (~~~m.ipv4Cksum ipH).toNat = 65535 - (m.ipv4Cksum ipH).toNat := BitVec.toNat_not
  have below := (m.ipv4Cksum ipH).isLt
  have empty : (0 : U16).toNat = 0 := rfl
  rw [eq_zero_iff, value] at zero
  rw [value] at divides
  rw [show ipH + 2 * 5 = ipH + 10 from rfl, blank, empty] at total
  rw [headerSum_iff, same]
  change filled.wordTotal _ _ + 0 = _ at total
  rw [Nat.add_zero] at total
  rw [total]
  refine ⟨by omega, ?_⟩
  unfold Nat.ModEq at divides
  omega

/-- A checksum that verifies is the one that is computed, unless it is 0xFFFF. -/
theorem ipv4Cksum_unique {m : Mbuf} {ipH : Nat} {c : U16} (other : c ≠ 0xFFFF)
    (nonzero : m.wordTotal (m.hdrLen ipH / 2) ipH + c.toNat ≠ 0)
    (divides : 65535 ∣ m.wordTotal (m.hdrLen ipH / 2) ipH + c.toNat) : m.ipv4Cksum ipH = c := by
  have below := c.isLt
  have value : (~~~c).toNat = 65535 - c.toNat := BitVec.toNat_not
  have notTop : c.toNat ≠ 65535 := fun e => other (BitVec.eq_of_toNat_eq e)
  have represents : Represents (~~~c) (m.wordTotal (m.hdrLen ipH / 2) ipH) := by
    constructor
    · rw [value]
      unfold Nat.ModEq
      omega
    · rw [eq_zero_iff, value]
      omega
  have same := (represents_header m ipH).unique represents
  simpa using congrArg (~~~ ·) same

end Udp
