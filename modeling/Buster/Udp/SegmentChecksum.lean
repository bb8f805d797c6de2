import Buster.Lib.Exit
import Buster.Udp.PseudoChecksum

/-!
# The checksum of a packet in several segments

`rte_raw_cksum_mbuf` sums up each segment on its own and turns the sum of one
that starts at an odd distance around, after it has cut it to 16 bits. The
carries that are cut off are missing in the result.
-/

namespace Udp

open Imp Imp.Prog Accumulator
open OnesComplement (Represents pairSum pairSum_modEq pairSum_eq_zero pairSum_le)

/-- An `rte_mbuf` of a chain: `rte_pktmbuf_mtod` and `data_len`. -/
structure Segment where
  data : Bytes
  dataLen : U16

/-- Following a `next` that is NULL is the end of it. -/
abbrev SegmentSum := OptionT Summing

/-- The sum of a segment is turned around if it starts at an odd distance. -/
def addSegment (mem : Bytes) (buf : Nat) (seglen sum done : U32) : Summing U32 := do
  let tmp ← mem.rawCksum buf seglen.toNat 0
  addTo sum (if done &&& 1 ≠ 0 then (bswap16 (tmp.setWidth 16)).setWidth 32 else tmp)

/-- The loop over the rest of the chain, from `seglen` bytes at `buf` of the
memory of a segment on. -/
def segmentLoop (len : U32) (mem : Bytes) (buf : Nat) (seglen sum done : U32)
    (next : List Segment) : SegmentSum U32 := do
  let sum ← OptionT.lift (addSegment mem buf seglen sum done)
  let done := done + seglen
  if done = len then
    return sum
  else
    match next with
    | [] => failure
    | seg :: next =>
      let seglen : U32 := seg.dataLen.setWidth 32
      segmentLoop len seg.data 0 (if seglen > len - done then len - done else seglen) sum done next

/-- The segment with the byte at `off`, how far into it that is, and those behind. -/
def findSegment (off : U32) : List Segment → Option (Segment × U32 × List Segment)
  | [] => none
  | seg :: next =>
    if off < seg.dataLen.setWidth 32 then some (seg, off, next)
    else findSegment (off - seg.dataLen.setWidth 32) next

/-- `none` is the `-1`. -/
def rteRawCksumMbuf (m : Segment) (next : List Segment) (pktLen off len : U32) :
    SegmentSum (Option U16) := do
  if off + len ≤ m.dataLen.setWidth 32 then
    return some (← OptionT.lift (m.data.rteRawCksum off.toNat len.toNat))
  else if off + len > pktLen then
    return none
  else
    match findSegment off (m :: next) with
    | none => return none
    | some (seg, off, next) =>
      let seglen := seg.dataLen.setWidth 32 - off
      if seglen ≥ len then
        return some (← OptionT.lift (seg.data.rteRawCksum off.toNat len.toNat))
      else
        let sum ← segmentLoop len seg.data off.toNat seglen 0 0 next
        return some (rawCksumReduce sum)

/-! ## Bytes -/

def slice (mem : Bytes) (p n : Nat) : List U8 := (List.range' p n).map mem

/-- The sum of the 16-bit words as they lie in memory. -/
def wordSum (bs : List U8) : Nat := pairSum 256 (bs.map BitVec.toNat)

/-- The number that the bytes are, the first one lowest. -/
def number (bs : List U8) : Nat := Nat.ofDigits 256 (bs.map BitVec.toNat)

theorem Bytes.toNat_load16 (mem : Bytes) (p : Nat) :
    (mem.load16 p).toNat = (mem p).toNat + 256 * (mem (p + 1)).toNat := by
  have low := (mem p).isLt
  rw [Bytes.load16, BitVec.toNat_append, ← Nat.shiftLeft_add_eq_or_of_lt low, Nat.shiftLeft_eq]
  omega

theorem sum_added (mem : Bytes) (p n : Nat) : sum (mem.added p n) = wordSum (slice mem p n) := by
  induction n using Nat.twoStepInduction generalizing p with
  | zero => rfl
  | one =>
    have low := (mem p).isLt
    have small : (mem p).toNat < 2 ^ 32 := by omega
    have only : ((mem p).setWidth 32).toNat = (mem p).toNat := by
      rw [BitVec.toNat_setWidth, Nat.mod_eq_of_lt small]
    rw [Bytes.added, sum_cons, only]
    rfl
  | more n ih _ =>
    have word := (mem.load16 p).isLt
    have small : (mem.load16 p).toNat < 2 ^ 32 := by omega
    rw [Bytes.added, sum_cons, ih, BitVec.toNat_setWidth, Nat.mod_eq_of_lt small, mem.toNat_load16]
    rfl

theorem digits_bytes (bs : List U8) : ∀ d ∈ bs.map BitVec.toNat, d < 256 := by
  intro d hd
  obtain ⟨b, _, rfl⟩ := List.mem_map.mp hd
  exact b.isLt

theorem wordSum_modEq (bs : List U8) : wordSum bs ≡ number bs [MOD 65535] :=
  pairSum_modEq (by decide) _

theorem wordSum_le (bs : List U8) : wordSum bs ≤ (bs.length + 1) / 2 * 65535 := by
  have bound := pairSum_le (digits_bytes bs)
  rwa [List.length_map] at bound

theorem number_append (as bs : List U8) :
    number (as ++ bs) = number as + 256 ^ as.length * number bs := by
  rw [number, List.map_append, Nat.ofDigits_append, List.length_map]
  rfl

theorem number_eq_zero (bs : List U8) : number bs = 0 ↔ wordSum bs = 0 := by
  rw [wordSum, pairSum_eq_zero (by decide), number]
  induction bs with
  | nil => exact iff_of_true rfl (List.forall_mem_nil _)
  | cons b bs ih =>
    rw [List.map_cons, Nat.ofDigits_cons, List.forall_mem_cons, ← ih]
    omega

/-- The checksum of a buffer represents the number that its bytes are. -/
theorem represents_number (mem : Bytes) (p : Nat) {n : Nat} (small : n < 2 ^ 16) :
    Represents (csumFold (total 0 (mem.added p n))) (number (slice mem p n)) := by
  have folded := represents_csumFold mem p small
  rw [sum_added] at folded
  exact folded.congr (wordSum_modEq _) (number_eq_zero _).symm

/-! ## The pieces of a packet -/

def Segment.bytes (seg : Segment) : List U8 := slice seg.data 0 seg.dataLen.toNat

def packetBytes (segs : List Segment) : List U8 := segs.flatMap Segment.bytes

theorem packetBytes_cons (seg : Segment) (next : List Segment) :
    packetBytes (seg :: next) = seg.bytes ++ packetBytes next := List.flatMap_cons

theorem length_slice (mem : Bytes) (p n : Nat) : (slice mem p n).length = n := by
  rw [slice, List.length_map, List.length_range']

theorem Segment.length_bytes (seg : Segment) : seg.bytes.length = seg.dataLen.toNat :=
  length_slice ..

theorem toNat_dataLen (seg : Segment) :
    (seg.dataLen.setWidth 32 : U32).toNat = seg.dataLen.toNat := by
  have short := seg.dataLen.isLt
  rw [BitVec.toNat_setWidth, Nat.mod_eq_of_lt (by omega)]

theorem slice_take (mem : Bytes) (p : Nat) {n k : Nat} (le : k ≤ n) :
    (slice mem p n).take k = slice mem p k := by
  rw [slice, ← List.map_take, List.take_range'_of_length_ge le]
  rfl

theorem slice_drop (mem : Bytes) (p n k : Nat) :
    (slice mem p n).drop k = slice mem (p + k) (n - k) := by
  rw [slice, ← List.map_drop, List.drop_range', Nat.mul_one]
  rfl

/-- The first `k` bytes, by the segments that they are in. -/
def pieces : Nat → List Segment → List (List U8)
  | 0, _ => []
  | _, [] => []
  | k + 1, seg :: next => seg.bytes.take (k + 1) :: pieces (k + 1 - seg.bytes.length) next

/-- The `len` bytes at `off`, by the segments that they are in. -/
def cut (off len : Nat) : List Segment → List (List U8)
  | [] => []
  | seg :: next =>
    if off < seg.bytes.length then
      (seg.bytes.drop off).take len :: pieces (len - (seg.bytes.length - off)) next
    else
      cut (off - seg.bytes.length) len next

theorem pieces_zero (segs : List Segment) : pieces 0 segs = [] := by
  cases segs <;> rfl

theorem pieces_flatten (k : Nat) (segs : List Segment) :
    (pieces k segs).flatten = (packetBytes segs).take k := by
  induction segs generalizing k with
  | nil => cases k <;> simp [pieces, packetBytes]
  | cons seg next ih =>
    cases k with
    | zero => rw [pieces_zero, List.take_zero, List.flatten_nil]
    | succ k =>
      rw [pieces, List.flatten_cons, ih, packetBytes_cons, List.take_append]

theorem cut_flatten (off len : Nat) (segs : List Segment) :
    (cut off len segs).flatten = ((packetBytes segs).drop off).take len := by
  induction segs generalizing off with
  | nil => simp [cut, packetBytes]
  | cons seg next ih =>
    rw [cut, packetBytes_cons]
    by_cases inside : off < seg.bytes.length
    · rw [if_pos inside, List.flatten_cons, pieces_flatten,
        List.drop_append_of_le_length (Nat.le_of_lt inside), List.take_append, List.length_drop]
    · rw [if_neg inside, ih, List.drop_append, List.drop_eq_nil_of_le (Nat.not_lt.mp inside)]
      rfl

theorem cut_length (off len : Nat) (segs : List Segment) :
    (cut off len segs).flatten.length ≤ len := by
  rw [cut_flatten]
  exact List.length_take_le _ _

/-! ## What the loop adds -/

/-- The sum of a piece, turned around and cut if it starts at an odd distance. -/
def turned (d n : Nat) : Nat :=
  if d % 2 = 1 then n % 65536 % 256 * 256 + n % 65536 / 256 else n

/-- What is added to the sum from a distance on. -/
def segmentTotal : Nat → List (List U8) → Nat
  | _, [] => 0
  | d, p :: ps => turned d (wordSum p) + segmentTotal (d + p.length) ps

/-- The carries that are cut off. -/
def lost : Nat → List (List U8) → Nat
  | _, [] => 0
  | d, p :: ps => (if d % 2 = 1 then wordSum p / 65536 else 0) + lost (d + p.length) ps

/-- Each piece with its distance. -/
def starts : Nat → List (List U8) → List (Nat × List U8)
  | _, [] => []
  | d, p :: ps => (d, p) :: starts (d + p.length) ps

/-- No carry is cut off. -/
def KeepsCarries (ps : List (List U8)) : Prop :=
  ∀ s ∈ starts 0 ps, s.1 % 2 = 1 → wordSum s.2 < 65536

theorem lost_eq_zero (d : Nat) (ps : List (List U8)) :
    lost d ps = 0 ↔ ∀ s ∈ starts d ps, s.1 % 2 = 1 → wordSum s.2 < 65536 := by
  induction ps generalizing d with
  | nil => exact iff_of_true rfl (List.forall_mem_nil _)
  | cons p ps ih =>
    rw [lost, starts, List.forall_mem_cons, ← ih, Nat.add_eq_zero_iff]
    apply and_congr_left'
    by_cases odd : d % 2 = 1
    · rw [if_pos odd, Nat.div_eq_zero_iff]
      simp [odd]
    · simp [odd]

theorem lost_le (d : Nat) (ps : List (List U8)) : 2 * lost d ps ≤ ps.flatten.length := by
  induction ps generalizing d with
  | nil => exact Nat.zero_le _
  | cons p ps ih =>
    have rest := ih (d + p.length)
    have most := wordSum_le p
    rw [lost, List.flatten_cons, List.length_append]
    split <;> omega

theorem turned_le {d n k : Nat} (h : n ≤ (k + 1) / 2 * 65535) : turned d n ≤ 65535 * k := by
  unfold turned
  split
  · rcases k with _ | k
    · omega
    · have := Nat.mul_le_mul_left 65535 (Nat.succ_le_succ (Nat.zero_le k))
      omega
  · omega

/-- Bytes at an odd distance count 256 times as much. -/
theorem place_modEq (d k n : Nat) :
    256 ^ (d % 2) * (256 ^ k * n) ≡ 256 ^ ((d + k) % 2) * n [MOD 65535] := by
  have square (j : Nat) : 256 ^ j ≡ 256 ^ (j % 2) [MOD 65535] := by
    have two : 256 ^ 2 ≡ 1 [MOD 65535] := rfl
    have many := (two.pow (j / 2)).mul_right (256 ^ (j % 2))
    rwa [← Nat.pow_mul, ← Nat.pow_add, Nat.div_add_mod, Nat.one_pow, Nat.one_mul] at many
  have both := (square (d % 2 + k)).mul_right n
  have parity : (d % 2 + k) % 2 = (d + k) % 2 := by omega
  rwa [parity, Nat.pow_add, Nat.mul_assoc] at both

theorem turned_modEq (d n : Nat) :
    turned d n + 256 * (if d % 2 = 1 then n / 65536 else 0) ≡ 256 ^ (d % 2) * n [MOD 65535] := by
  unfold turned
  by_cases odd : d % 2 = 1
  · rw [if_pos odd, if_pos odd, odd, Nat.pow_one]
    unfold Nat.ModEq
    omega
  · have even : d % 2 = 0 := by omega
    rw [if_neg odd, if_neg odd, even, Nat.pow_zero, Nat.one_mul, Nat.mul_zero, Nat.add_zero]

/-- With the carries that are cut off, the sum is that of all the bytes. -/
theorem segmentTotal_modEq (d : Nat) (ps : List (List U8)) :
    segmentTotal d ps + 256 * lost d ps ≡ 256 ^ (d % 2) * number ps.flatten [MOD 65535] := by
  induction ps generalizing d with
  | nil => rfl
  | cons p ps ih =>
    have first := (turned_modEq d (wordSum p)).trans ((wordSum_modEq p).mul_left _)
    have both := first.add ((ih (d + p.length)).trans (place_modEq d p.length _).symm)
    rw [← Nat.mul_add, ← number_append] at both
    rw [segmentTotal, lost, List.flatten_cons]
    convert both using 1
    omega

theorem segmentTotal_eq_zero {d : Nat} {ps : List (List U8)} (kept : lost d ps = 0) :
    segmentTotal d ps = 0 ↔ number ps.flatten = 0 := by
  induction ps generalizing d with
  | nil => exact iff_of_true rfl rfl
  | cons p ps ih =>
    rw [lost, Nat.add_eq_zero_iff] at kept
    have power : 0 < 256 ^ p.length := Nat.pow_pos (by decide)
    have first : turned d (wordSum p) = 0 ↔ number p = 0 := by
      rw [number_eq_zero]
      have small := kept.1
      unfold turned
      split
      · rename_i odd
        rw [if_pos odd] at small
        omega
      · rfl
    rw [segmentTotal, List.flatten_cons, number_append, Nat.add_eq_zero_iff, Nat.add_eq_zero_iff,
      first, ih kept.2, Nat.mul_eq_zero, or_iff_right (by omega)]

/-- With its carries kept, the sum of the pieces stands for the number of the bytes. -/
theorem represents_pieces {v : U16} {ps : List (List U8)} (kept : lost 0 ps = 0) :
    Represents v (segmentTotal 0 ps) ↔ Represents v (number ps.flatten) := by
  have all := segmentTotal_modEq 0 ps
  rw [kept, Nat.mul_zero, Nat.add_zero, Nat.zero_mod, Nat.pow_zero, Nat.one_mul] at all
  have zero := segmentTotal_eq_zero kept
  exact ⟨fun h => h.congr all zero, fun h => h.congr all.symm zero.symm⟩

/-- Whatever else is added, the sum of the pieces is that of the bytes just when no
carry is cut off. -/
theorem segmentTotal_eq_iff {ps : List (List U8)} {v flat : U16} {base : Nat}
    (short : ps.flatten.length < 2 ^ 16) (summed : Represents v (base + segmentTotal 0 ps))
    (whole : Represents flat (base + number ps.flatten)) : v = flat ↔ KeepsCarries ps := by
  have all := segmentTotal_modEq 0 ps
  rw [Nat.zero_mod, Nat.pow_zero, Nat.one_mul] at all
  rw [KeepsCarries, ← lost_eq_zero]
  constructor
  · rintro rfl
    have same : segmentTotal 0 ps + 256 * lost 0 ps ≡ segmentTotal 0 ps + 0 [MOD 65535] :=
      all.trans (Nat.ModEq.add_left_cancel' base (whole.modEq.symm.trans summed.modEq))
    have divides : 65535 ∣ 256 * lost 0 ps :=
      (Nat.modEq_zero_iff_dvd).mp (Nat.ModEq.add_left_cancel' _ same)
    have coprime : Nat.Coprime 65535 256 := by decide
    have few := lost_le 0 ps
    exact Nat.eq_zero_of_dvd_of_lt (coprime.dvd_of_dvd_mul_left divides) (by omega)
  · intro kept
    rw [kept, Nat.mul_zero, Nat.add_zero] at all
    have zero := segmentTotal_eq_zero kept
    exact (summed.congr (all.add_left base) (by omega)).unique whole

/-! ## The loop -/

theorem toNat_turned (done tmp : U32) :
    (if done &&& 1 ≠ 0 then (bswap16 (tmp.setWidth 16)).setWidth 32 else tmp).toNat =
      turned done.toNat tmp.toNat := by
  have odd : done &&& 1 ≠ 0 ↔ done.toNat % 2 = 1 := by
    have low : (done &&& 1).toNat = done.toNat % 2 := by
      rw [BitVec.toNat_and]
      exact Nat.and_two_pow_sub_one_eq_mod done.toNat 1
    rw [ne_eq, BitVec.toNat_eq, low]
    change ¬ done.toNat % 2 = 0 ↔ _
    omega
  unfold turned
  by_cases h : done.toNat % 2 = 1
  · have cut : (tmp.setWidth 16).toNat = tmp.toNat % 65536 := BitVec.toNat_setWidth ..
    have wide : tmp.toNat % 65536 % 256 * 256 + tmp.toNat % 65536 / 256 < 2 ^ 32 := by omega
    rw [if_pos (odd.mpr h), if_pos h, BitVec.toNat_setWidth, toNat_bswap16, cut,
      Nat.mod_eq_of_lt wide]
  · rw [if_neg (mt odd.mp h), if_neg h]

theorem addSegment_returns (mem : Bytes) (buf : Nat) {seglen sum : U32} (done : U32)
    (small : seglen.toNat < 2 ^ 16) (room : sum.toNat + 65535 * seglen.toNat < 2 ^ 32) :
    ∃ es sum', (addSegment mem buf seglen sum done).Returns () es sum' () ∧
      sum'.toNat = sum.toNat + turned done.toNat (wordSum (slice mem buf seglen.toNat)) := by
  let tmp := total 0 (mem.added buf seglen.toNat)
  let piece := if done &&& 1 ≠ 0 then (bswap16 (tmp.setWidth 16)).setWidth 32 else tmp
  have words : tmp.toNat = wordSum (slice mem buf seglen.toNat) := by
    rw [(mem.added_fits small).2, sum_added]
  have value : piece.toNat = turned done.toNat (wordSum (slice mem buf seglen.toNat)) := by
    rw [toNat_turned, words]
  have most := wordSum_le (slice mem buf seglen.toNat)
  rw [length_slice] at most
  have fits := turned_le (d := done.toNat) most
  refine ⟨_, sum + piece, (rawCksum_returns mem buf _ 0).bind (addTo_returns sum piece), ?_⟩
  rw [BitVec.toNat_add, value, Nat.mod_eq_of_lt (by omega)]

/-- As much of a segment as there is left. -/
theorem toNat_seglen (seg : Segment) (rest : U32) :
    (if (seg.dataLen.setWidth 32 : U32) > rest then rest else seg.dataLen.setWidth 32).toNat =
      min seg.dataLen.toNat rest.toNat := by
  have wide := toNat_dataLen seg
  by_cases longer : (seg.dataLen.setWidth 32 : U32) > rest
  · rw [if_pos longer]
    rw [gt_iff_lt, BitVec.lt_def, wide] at longer
    omega
  · rw [if_neg longer, wide]
    rw [gt_iff_lt, BitVec.lt_def, wide] at longer
    omega

theorem take_bytes (seg : Segment) (k : Nat) :
    seg.bytes.take k = slice seg.data 0 (min seg.dataLen.toNat k) := by
  rw [Segment.bytes]
  rcases Nat.le_total k seg.dataLen.toNat with inside | beyond
  · rw [slice_take _ _ inside, Nat.min_eq_right inside]
  · rw [Nat.min_eq_left beyond, List.take_of_length_le (by rwa [length_slice])]

/-- From a piece on the loop adds that and the pieces behind it. -/
theorem segmentLoop_passes {len : U32} (small : len.toNat < 2 ^ 16) (mem : Bytes) (buf : Nat)
    {seglen sum done : U32} (next : List Segment)
    (fits : done.toNat + seglen.toNat ≤ len.toNat)
    (enough : len.toNat ≤ done.toNat + seglen.toNat + (packetBytes next).length)
    (room : sum.toNat + 65535 * (len.toNat - done.toNat) < 2 ^ 32) :
    ∃ es v, Passes (segmentLoop len mem buf seglen sum done next) () es v () ∧
      v.toNat = sum.toNat + segmentTotal done.toNat (slice mem buf seglen.toNat ::
        pieces (len.toNat - (done.toNat + seglen.toNat)) next) := by
  have now : (done + seglen).toNat = done.toNat + seglen.toNat := by
    rw [BitVec.toNat_add, Nat.mod_eq_of_lt (by omega)]
  obtain ⟨es, sum', run, added⟩ := addSegment_returns mem buf done
    (show seglen.toNat < 2 ^ 16 by omega) (show sum.toNat + _ < _ by omega)
  have first : Passes (OptionT.lift (addSegment mem buf seglen sum done)) () es sum' () :=
    passes_lift.mpr run
  unfold segmentLoop
  rw [segmentTotal, length_slice, ← now]
  by_cases last : done + seglen = len
  · refine ⟨es ++ [], sum', passes_bind.mpr ⟨es, sum', (), [], first, ?_, rfl⟩, ?_⟩
    · rw [if_pos last]
      exact passes_pure.mpr ⟨rfl, rfl, rfl⟩
    · rw [last, Nat.sub_self, pieces_zero, added]
      rfl
  have more : done.toNat + seglen.toNat ≠ len.toNat := fun same =>
    last (BitVec.eq_of_toNat_eq (now.trans same))
  have most := turned_le (d := done.toNat) (wordSum_le (slice mem buf seglen.toNat))
  rw [length_slice] at most
  cases next with
  | nil =>
    rw [packetBytes, List.flatMap_nil, List.length_nil] at enough
    omega
  | cons seg next =>
    have left : (len - (done + seglen)).toNat = len.toNat - (done + seglen).toNat := by bv_omega
    have bytes := seg.length_bytes
    rw [packetBytes_cons, List.length_append, bytes] at enough
    have shorter := toNat_seglen seg (len - (done + seglen))
    rw [left] at shorter
    obtain ⟨es', v, rest, total⟩ := segmentLoop_passes small seg.data 0 next
      (show (done + seglen).toNat + _ ≤ _ by rw [shorter]; omega) (by omega)
      (show sum'.toNat + _ < _ by omega)
    refine ⟨es ++ es', v, passes_bind.mpr ⟨es, sum', (), es', first, ?_, rfl⟩, ?_⟩
    · rw [if_neg last]
      exact rest
    · obtain ⟨k, hk⟩ : ∃ k, len.toNat - (done + seglen).toNat = k + 1 :=
        ⟨len.toNat - (done + seglen).toNat - 1, by omega⟩
      have behind : len.toNat - ((done + seglen).toNat + min seg.dataLen.toNat (k + 1)) =
          k + 1 - seg.bytes.length := by omega
      rw [total, added, shorter, hk, behind, pieces, take_bytes, Nat.add_assoc]

/-! ## Against the packet in one piece -/

/-- The bytes of a packet one behind the other. -/
def flat (segs : List Segment) : Bytes := fun i => (packetBytes segs).getD i 0

theorem slice_flat (segs : List Segment) {off len : Nat}
    (inside : off + len ≤ (packetBytes segs).length) :
    slice (flat segs) off len = (cut off len segs).flatten := by
  rw [cut_flatten]
  apply List.ext_getElem
  · rw [length_slice, List.length_take, List.length_drop]
    omega
  · intro i hi _
    rw [length_slice] at hi
    have there : off + i < (packetBytes segs).length := by omega
    rw [List.getElem_take, List.getElem_drop]
    simp [slice, flat, there]

theorem findSegment_none (off : U32) (segs : List Segment) :
    findSegment off segs = none ↔ (packetBytes segs).length ≤ off.toNat := by
  induction segs generalizing off with
  | nil => exact iff_of_true rfl (Nat.zero_le _)
  | cons seg next ih =>
    have wide := toNat_dataLen seg
    rw [findSegment, packetBytes_cons, List.length_append, seg.length_bytes]
    by_cases inside : off < seg.dataLen.setWidth 32
    · rw [BitVec.lt_def, wide] at inside
      rw [if_pos (by rwa [BitVec.lt_def, wide])]
      exact iff_of_false (Option.some_ne_none _) (by omega)
    · rw [if_neg inside, ih]
      rw [BitVec.lt_def, wide] at inside
      rw [BitVec.toNat_sub_of_le (by rw [BitVec.le_def, wide]; omega), wide]
      omega

/-- The search loses neither bytes nor distance. -/
theorem findSegment_some {off off' : U32} {segs next : List Segment} {seg : Segment}
    (found : findSegment off segs = some (seg, off', next)) :
    off'.toNat < seg.dataLen.toNat ∧
      (packetBytes segs).length + off'.toNat = (packetBytes (seg :: next)).length + off.toNat ∧
      ∀ len, cut off.toNat len segs = cut off'.toNat len (seg :: next) := by
  induction segs generalizing off with
  | nil => cases found
  | cons first rest ih =>
    have wide := toNat_dataLen first
    have bytes := first.length_bytes
    rw [findSegment] at found
    by_cases inside : off < first.dataLen.setWidth 32
    · rw [if_pos inside] at found
      cases found
      rw [BitVec.lt_def, wide] at inside
      exact ⟨inside, rfl, fun _ => rfl⟩
    · rw [if_neg inside] at found
      obtain ⟨within, same, pieces⟩ := ih found
      rw [BitVec.lt_def, wide] at inside
      rw [BitVec.toNat_sub_of_le (by rw [BitVec.le_def, wide]; omega), wide] at same pieces
      refine ⟨within, ?_, ?_⟩
      · rw [packetBytes_cons, List.length_append]
        omega
      · intro len
        rw [← pieces, cut, bytes, if_neg inside]

/-- Bytes of one segment keep their carries. -/
theorem cut_one {seg : Segment} {off len : Nat} (inside : off + len ≤ seg.dataLen.toNat)
    (next : List Segment) :
    (cut off len (seg :: next)).flatten = slice seg.data off len ∧
      KeepsCarries (cut off len (seg :: next)) := by
  have bytes := seg.length_bytes
  constructor
  · rw [cut_flatten, packetBytes_cons, List.drop_append_of_le_length (by omega),
      List.take_append_of_le_length (by rw [List.length_drop]; omega), Segment.bytes, slice_drop,
      slice_take _ _ (by omega), Nat.zero_add]
  · rw [KeepsCarries, ← lost_eq_zero]
    rcases Nat.lt_or_ge off seg.dataLen.toNat with before | behind
    · have all : len - (seg.bytes.length - off) = 0 := by omega
      rw [cut, bytes, if_pos before, ← bytes, all, pieces_zero]
      rfl
    · obtain rfl : len = 0 := by omega
      have empty := lost_le 0 (cut off 0 (seg :: next))
      rw [cut_flatten, List.take_zero, List.length_nil] at empty
      omega

theorem passes_some {x : SegmentSum U16} {es : List (U32 × U32)} {v : U16}
    (h : Passes x () es v ()) : Passes (do return some (← x)) () es (some v) () :=
  passes_bind.mpr ⟨es, v, (), [], h, passes_pure.mpr ⟨rfl, rfl, rfl⟩, (List.append_nil es).symm⟩

def Summed (x : SegmentSum (Option U16)) (ps : List (List U8)) : Prop :=
  ∃ es v, Passes x () es (some v) () ∧ Represents v (segmentTotal 0 ps)

theorem oneSegment_summed {seg : Segment} {off len : Nat} (inside : off + len ≤ seg.dataLen.toNat)
    (next : List Segment) :
    Summed (do return some (← OptionT.lift (seg.data.rteRawCksum off len)))
      (cut off len (seg :: next)) := by
  have short := seg.dataLen.isLt
  obtain ⟨bytes, kept⟩ := cut_one inside next
  have own := represents_number seg.data off (show len < 2 ^ 16 by omega)
  rw [← bytes] at own
  rw [KeepsCarries, ← lost_eq_zero] at kept
  exact ⟨_, _, passes_some (passes_lift.mpr (rteRawCksum_returns seg.data off len)),
    (represents_pieces kept).mpr own⟩

/-- The bytes from the middle of a segment to that of another one. -/
theorem severalSegments_summed {seg : Segment} {off len seglen : U32} {next : List Segment}
    (small : len.toNat < 2 ^ 16) (rest : off.toNat + seglen.toNat = seg.dataLen.toNat)
    (within : off.toNat < seg.dataLen.toNat) (beyond : seglen.toNat < len.toNat)
    (enough : off.toNat + len.toNat ≤ (packetBytes (seg :: next)).length) :
    Summed (do return some (rawCksumReduce (← segmentLoop len seg.data off.toNat seglen 0 0 next)))
      (cut off.toNat len.toNat (seg :: next)) := by
  have bytes := seg.length_bytes
  have zero : (0 : U32).toNat = 0 := rfl
  rw [packetBytes_cons, List.length_append, bytes] at enough
  have first : (seg.bytes.drop off.toNat).take len.toNat =
      slice seg.data off.toNat seglen.toNat := by
    have tail : seg.dataLen.toNat - off.toNat = seglen.toNat := by omega
    rw [Segment.bytes, slice_drop, Nat.zero_add, tail,
      List.take_of_length_le (by rw [length_slice]; omega)]
  have pieces : cut off.toNat len.toNat (seg :: next) =
      slice seg.data off.toNat seglen.toNat :: pieces (len.toNat - (0 + seglen.toNat)) next := by
    have tail : len.toNat - (seg.bytes.length - off.toNat) = len.toNat - (0 + seglen.toNat) := by
      omega
    rw [cut, bytes, if_pos within, first, ← bytes, tail]
  obtain ⟨es, sum, run, total⟩ := segmentLoop_passes small seg.data off.toNat next
    (show (0 : U32).toNat + seglen.toNat ≤ len.toNat by omega) (by omega)
    (show (0 : U32).toNat + _ < _ by omega)
  rw [zero, Nat.zero_add, ← pieces] at total
  have summed := represents_rawCksumReduce sum
  rw [total] at summed
  refine ⟨es, rawCksumReduce sum, ?_, summed⟩
  exact passes_bind.mpr ⟨es, sum, (), [], run, passes_pure.mpr ⟨rfl, rfl, rfl⟩,
    (List.append_nil es).symm⟩

/-- Either the bytes are summed up, or they are not there, or they are none behind the
first segment and at the very end. -/
theorem rteRawCksumMbuf_cases {m : Segment} {next : List Segment} {pktLen off len : U32}
    (whole : pktLen.toNat = (packetBytes (m :: next)).length)
    (inRange : off.toNat + len.toNat < 2 ^ 32) (small : len.toNat < 2 ^ 16) :
    let refused := pktLen.toNat < off.toNat + len.toNat ∨ m.dataLen.toNat < off.toNat ∧ off = pktLen
    (refused ∧ Passes (rteRawCksumMbuf m next pktLen off len) () [] none ()) ∨
      ¬ refused ∧ Summed (rteRawCksumMbuf m next pktLen off len)
        (cut off.toNat len.toNat (m :: next)) := by
  intro refused
  have size : (off + len).toNat = off.toNat + len.toNat := by
    rw [BitVec.toNat_add, Nat.mod_eq_of_lt inRange]
  have wide := toNat_dataLen m
  have fails : Passes (pure none : SegmentSum (Option U16)) () [] none () :=
    passes_pure.mpr ⟨rfl, rfl, rfl⟩
  rw [rteRawCksumMbuf]
  by_cases easy : off + len ≤ m.dataLen.setWidth 32
  · rw [if_pos easy]
    rw [BitVec.le_def, size, wide] at easy
    rw [packetBytes_cons, List.length_append, m.length_bytes] at whole
    exact .inr ⟨by omega, oneSegment_summed easy next⟩
  rw [if_neg easy]
  rw [BitVec.le_def, size, wide] at easy
  by_cases long : off + len > pktLen
  · rw [if_pos long]
    rw [gt_iff_lt, BitVec.lt_def, size] at long
    exact .inl ⟨.inl long, fails⟩
  rw [if_neg long]
  rw [gt_iff_lt, BitVec.lt_def, size] at long
  cases found : findSegment off (m :: next) with
  | none =>
    have behind := (findSegment_none off _).mp found
    exact .inl ⟨.inr ⟨by omega, BitVec.eq_of_toNat_eq (by omega)⟩, fails⟩
  | some place =>
    obtain ⟨seg, off', next'⟩ := place
    obtain ⟨within, same, pieces⟩ := findSegment_some found
    have long : seg.dataLen.toNat ≤ (packetBytes (seg :: next')).length := by
      rw [packetBytes_cons, List.length_append, seg.length_bytes]
      exact Nat.le_add_right _ _
    have inside : ¬ refused := by
      rintro (beyond | ⟨_, rfl⟩) <;> omega
    have seglen : (seg.dataLen.setWidth 32 - off').toNat = seg.dataLen.toNat - off'.toNat := by
      have wide := toNat_dataLen seg
      rw [BitVec.toNat_sub_of_le (by rw [BitVec.le_def, wide]; omega), wide]
    rw [pieces]
    refine .inr ⟨inside, ?_⟩
    dsimp only
    by_cases all : seg.dataLen.setWidth 32 - off' ≥ len
    · rw [if_pos all]
      rw [ge_iff_le, BitVec.le_def, seglen] at all
      exact oneSegment_summed (by omega) next'
    · rw [if_neg all]
      rw [ge_iff_le, BitVec.le_def, seglen] at all
      exact severalSegments_summed small (by omega) within (by omega) (by omega)

/-- The sum of a packet in segments is that of the same bytes in one piece just when no
segment that starts at an odd distance has a carry. -/
theorem rteRawCksumMbuf_iff (m : Segment) (next : List Segment) (pktLen off len : U32)
    (whole : pktLen.toNat = (packetBytes (m :: next)).length)
    (inRange : off.toNat + len.toNat < 2 ^ 32) (small : len.toNat < 2 ^ 16) :
    ∃ es r, Passes (rteRawCksumMbuf m next pktLen off len) () es r () ∧
      (r = none ↔ pktLen.toNat < off.toNat + len.toNat ∨
        m.dataLen.toNat < off.toNat ∧ off = pktLen) ∧
      ∀ v, r = some v → ∃ es' v',
        ((flat (m :: next)).rteRawCksum off.toNat len.toNat).Returns () es' v' () ∧
          (v = v' ↔ KeepsCarries (cut off.toNat len.toNat (m :: next))) := by
  rcases rteRawCksumMbuf_cases whole inRange small with ⟨refused, run⟩ | ⟨inside, es, v, run, sum⟩
  · exact ⟨[], none, run, iff_of_true rfl refused, fun v none => nomatch none⟩
  · refine ⟨es, some v, run, iff_of_false (Option.some_ne_none v) inside, ?_⟩
    rintro _ ⟨⟩
    have there : off.toNat + len.toNat ≤ (packetBytes (m :: next)).length := by omega
    have plain := represents_number (flat (m :: next)) off.toNat small
    rw [slice_flat (m :: next) there] at plain
    have short := (cut_length off.toNat len.toNat (m :: next)).trans_lt small
    rw [← Nat.zero_add (segmentTotal _ _)] at sum
    rw [← Nat.zero_add (number _)] at plain
    exact ⟨_, _, rteRawCksum_returns _ off.toNat len.toNat, segmentTotal_eq_iff short sum plain⟩

/-- Four bytes 0xFF behind a single one: their two words have a carry. -/
theorem oddCarry_differs :
    let byte : Bytes := fun _ => 0xFF
    let next : List Segment := [⟨byte, 4⟩]
    ∃ es v es' v', Passes (rteRawCksumMbuf ⟨byte, 1⟩ next 5 0 5) () es (some v) () ∧
      ((flat (⟨byte, 1⟩ :: next)).rteRawCksum 0 5).Returns () es' v' () ∧ v ≠ v' := by
  intro byte next
  obtain ⟨es, r, run, refused, same⟩ :=
    rteRawCksumMbuf_iff ⟨byte, 1⟩ next 5 0 5 (by decide) (by decide) (by decide)
  cases r with
  | none => exact absurd (refused.mp rfl) (by decide)
  | some v =>
    obtain ⟨es', v', plain, iff⟩ := same v rfl
    have lost : ¬ KeepsCarries (cut 0 5 (⟨byte, 1⟩ :: next)) := by
      unfold KeepsCarries
      decide
    exact ⟨es, v, es', v', run, plain, mt iff.mp lost⟩

end Udp
