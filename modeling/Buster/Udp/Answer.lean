import Buster.Udp.Checksum

/-!
# What an echo does to the bytes

The program takes the UDP header to follow 20 bytes of IPv4 header. With
options it exchanges and clears other bytes than it means to.
-/

namespace Udp

open Imp.Prog

/-! ## Byte by byte -/

/-- Where the byte at `i` comes from when two fields of `n` bytes change places. -/
def exchange (src dst n i : Nat) : Nat :=
  if src ≤ i ∧ i < src + n then i - src + dst
  else if dst ≤ i ∧ i < dst + n then i - dst + src
  else i

theorem data_swap (m : Mbuf) {src dst n : Nat} (apart : src + n ≤ dst ∨ dst + n ≤ src) (i : Nat) :
    (m.swap src dst n).data i = m.data (exchange src dst n i) := by
  have bytes {off j : Nat} (h : j < n) : (m.bytes off n).getD j 0 = m.data (j + off) := by
    simp [Mbuf.bytes, h, Nat.add_comm]
  have count (off : Nat) : (m.bytes off n).length = n := by simp [Mbuf.bytes]
  unfold Mbuf.swap exchange
  rw [data_write, data_write, count, count]
  by_cases first : src ≤ i ∧ i < src + n
  · rw [if_pos first, if_pos first, if_neg (by omega), bytes (by omega)]
  · rw [if_neg first, if_neg first]
    by_cases second : dst ≤ i ∧ i < dst + n
    · rw [if_pos second, if_pos second, bytes (by omega)]
    · rw [if_neg second, if_neg second]

/-- Where the bytes of a reply come from. -/
def source (ipH i : Nat) : Nat :=
  exchange 6 0 6 (exchange (ipH + 12) (ipH + 16) 4 (exchange (ipH + 20) (ipH + 22) 2 i))

theorem source_eq {ipH : Nat} (behind : 14 ≤ ipH) (i : Nat) : source ipH i =
    if i < 6 then i + 6
    else if i < 12 then i - 6
    else if ipH + 12 ≤ i ∧ i < ipH + 16 then i + 4
    else if ipH + 16 ≤ i ∧ i < ipH + 20 then i - 4
    else if ipH + 20 ≤ i ∧ i < ipH + 22 then i + 2
    else if ipH + 22 ≤ i ∧ i < ipH + 24 then i - 2
    else i := by
  unfold source exchange
  grind

theorem source_source {ipH : Nat} (behind : 14 ≤ ipH) (i : Nat) :
    source ipH (source ipH i) = i := by
  rw [source_eq behind, source_eq behind]
  grind

theorem data_turned (m : Mbuf) (ipH i : Nat) :
    (m.turned ipH (ipH + 20)).data i =
      if i = ipH + 10 ∨ i = ipH + 11 then 0 else m.data (source ipH i) := by
  unfold Mbuf.turned source
  rw [data_write16]
  dsimp only
  rw [data_swap _ (by omega), data_swap _ (by omega), data_swap _ (by omega)]
  by_cases low : i = ipH + 10
  · simp [low]
  by_cases high : i = ipH + 11
  · simp [high]
  · simp [low, high]

/-- All but the checksum fields of a reply. -/
theorem data_reply (m : Mbuf) {i : Nat} (ipField : i ≠ m.l2Len + 10 ∧ i ≠ m.l2Len + 11) :
    m.reply.data i =
      if i = m.l2Len + 26 ∨ i = m.l2Len + 27 then 0 else m.data (source m.l2Len i) := by
  unfold Mbuf.reply
  dsimp only
  rw [data_write16, data_write16, data_turned]
  by_cases low : i = m.l2Len + 26
  · simp [low]
  by_cases high : i = m.l2Len + 27
  · simp [high]
  · simp [low, high, ipField]

/-- The bytes that decide what a frame is stay where they are. -/
theorem data_reply_same (m : Mbuf) {i : Nat} (past : 12 ≤ i)
    (outside : i < m.l2Len + 10 ∨ m.l2Len + 28 ≤ i) : m.reply.data i = m.data i := by
  have behind := l2Len_ge m
  rw [data_reply m (by omega), if_neg (by omega), source_eq behind]
  congr 1
  grind

theorem load16_congr {m m' : Mbuf} {off off' : Nat} (low : m'.data off = m.data off')
    (high : m'.data (off + 1) = m.data (off' + 1)) : m'.load16 off = m.load16 off' := by
  unfold Mbuf.load16
  rw [low, high]

theorem load16_reply_same (m : Mbuf) {off : Nat} (past : 12 ≤ off)
    (outside : off + 1 < m.l2Len + 10 ∨ m.l2Len + 28 ≤ off) : m.reply.load16 off = m.load16 off :=
  load16_congr (data_reply_same m past (by omega)) (data_reply_same m (by omega) (by omega))

theorem tagged_reply (m : Mbuf) : m.reply.Tagged ↔ m.Tagged := by
  have behind := l2Len_ge m
  unfold Mbuf.Tagged
  rw [load16_reply_same m (by omega) (by omega)]

@[simp] theorem l2Len_reply (m : Mbuf) : m.reply.l2Len = m.l2Len := by
  unfold Mbuf.l2Len
  simp only [tagged_reply]

@[simp] theorem hdrLen_reply (m : Mbuf) : m.reply.hdrLen m.l2Len = m.hdrLen m.l2Len := by
  have behind := l2Len_ge m
  unfold Mbuf.hdrLen
  rw [data_reply_same m (by omega) (by omega)]

/-- A reply is taken for a packet as the packet was. -/
theorem accepted_reply (m : Mbuf) : m.reply.Accepted ↔ m.Accepted := by
  have behind := l2Len_ge m
  have type : m.reply.ethType = m.ethType := by
    unfold Mbuf.ethType
    simp only [tagged_reply]
    by_cases tagged : m.Tagged
    · have further : m.l2Len = 14 + 4 := if_pos tagged
      rw [if_pos tagged, if_pos tagged, load16_reply_same m (by omega) (by omega)]
    · rw [if_neg tagged, if_neg tagged, load16_reply_same m (by omega) (by omega)]
  unfold Mbuf.Accepted
  rw [type, l2Len_reply, data_reply_same m (by omega) (by omega)]

/-- The second reply takes every byte back to where it came from, but for the
two checksum fields. -/
theorem data_reply_reply (m : Mbuf) {i : Nat}
    (ipField : i ≠ m.l2Len + 10 ∧ i ≠ m.l2Len + 11)
    (cleared : i ≠ m.l2Len + 26 ∧ i ≠ m.l2Len + 27) : m.reply.reply.data i = m.data i := by
  have behind := l2Len_ge m
  have moved : source m.l2Len i ≠ m.l2Len + 10 ∧ source m.l2Len i ≠ m.l2Len + 11 ∧
      source m.l2Len i ≠ m.l2Len + 26 ∧ source m.l2Len i ≠ m.l2Len + 27 := by
    rw [source_eq behind]
    grind
  rw [data_reply m.reply (by rwa [l2Len_reply]), l2Len_reply, if_neg (by omega),
    data_reply m ⟨moved.1, moved.2.1⟩, if_neg (by omega), source_source behind]

/-! ## The header checksum of a reply -/

/-- The header of the reply before the UDP checksum field is cleared. -/
def Mbuf.filled (m : Mbuf) : Mbuf :=
  (m.turned m.l2Len (m.l2Len + 20)).write16 (m.l2Len + 10)
    ((m.turned m.l2Len (m.l2Len + 20)).ipv4Cksum m.l2Len)

theorem reply_eq (m : Mbuf) : m.reply = m.filled.write16 (m.l2Len + 26) 0 := rfl

theorem hdrLen_turned (m : Mbuf) :
    (m.turned m.l2Len (m.l2Len + 20)).hdrLen m.l2Len = m.hdrLen m.l2Len := by
  have behind := l2Len_ge m
  unfold Mbuf.hdrLen
  rw [data_turned, if_neg (by omega), source_eq behind, if_neg (by omega), if_neg (by omega),
    if_neg (by omega), if_neg (by omega), if_neg (by omega), if_neg (by omega)]

theorem data_filled (m : Mbuf) {i : Nat} (past : m.l2Len + 24 ≤ i) :
    m.filled.data i = m.data i := by
  have behind := l2Len_ge m
  unfold Mbuf.filled
  rw [data_write16, if_neg (by omega), if_neg (by omega), data_turned, if_neg (by omega),
    source_eq behind]
  congr 1
  grind

theorem headerSum_filled (m : Mbuf) (long : 12 ≤ m.hdrLen m.l2Len) :
    m.filled.headerSum m.l2Len = 0xFFFF := by
  have blank : (m.turned m.l2Len (m.l2Len + 20)).load16 (m.l2Len + 10) = 0 :=
    load16_write16_self _ _ _
  exact headerSum_cksum _ _ (by rwa [hdrLen_turned]) blank

/-- The cleared field is behind the header, or was clear before. -/
theorem headerSum_reply (m : Mbuf) (long : 12 ≤ m.hdrLen m.l2Len)
    (clear : m.hdrLen m.l2Len ≤ 26 ∨ m.load16 (m.l2Len + 26) = 0) :
    m.reply.headerSum m.l2Len = 0xFFFF := by
  have behind := l2Len_ge m
  have verifies := headerSum_filled m long
  have same : m.filled.hdrLen m.l2Len = m.hdrLen m.l2Len := by
    rw [← hdrLen_turned m]
    unfold Mbuf.filled Mbuf.hdrLen
    rw [data_write16, if_neg (by omega), if_neg (by omega)]
  rw [headerSum_iff, same] at verifies
  rw [headerSum_iff, hdrLen_reply, reply_eq]
  have four := hdrLen_four m m.l2Len
  by_cases short : m.hdrLen m.l2Len ≤ 26
  · rwa [wordTotal_write16_beyond _ _ (by omega)]
  · have empty : m.filled.load16 (m.l2Len + 26) = 0 := by
      rw [← clear.resolve_left short]
      exact load16_congr (data_filled m (by omega)) (data_filled m (by omega))
    have inside : 13 < m.hdrLen m.l2Len / 2 := by omega
    have total := wordTotal_write16 m.filled 0 inside m.l2Len
    rw [show m.l2Len + 2 * 13 = m.l2Len + 26 from rfl, empty, Nat.add_right_cancel_iff] at total
    rwa [total]

/-- The header word that the `k`-th one of the turned packet was. -/
def sourceWord (k : Nat) : Nat := if k < 6 then k else if k < 8 then k + 2 else k - 2

theorem load16_turned (m : Mbuf) {k : Nat} (header : k < 10) (ipField : k ≠ 5) :
    (m.turned m.l2Len (m.l2Len + 20)).load16 (m.l2Len + 2 * k) =
      m.load16 (m.l2Len + 2 * sourceWord k) := by
  have behind := l2Len_ge m
  have moved : ∀ d < 2, source m.l2Len (m.l2Len + 2 * k + d) = m.l2Len + 2 * sourceWord k + d := by
    intro d hd
    rw [source_eq behind]
    unfold sourceWord
    grind
  apply load16_congr
  · rw [data_turned, if_neg (by omega)]
    exact congrArg m.data (moved 0 (by decide))
  · rw [data_turned, if_neg (by omega), moved 1 (by decide)]

/-- Exchanging the addresses keeps the total of a header without options. -/
theorem wordTotal_turned (m : Mbuf) :
    (m.turned m.l2Len (m.l2Len + 20)).wordTotal 10 m.l2Len + (m.load16 (m.l2Len + 10)).toNat =
      m.wordTotal 10 m.l2Len := by
  have total (m : Mbuf) (buf : Nat) : m.wordTotal 10 buf =
      ((List.range 10).map fun k => (m.load16 (buf + 2 * k)).toNat).sum := by
    simp [Mbuf.wordTotal, List.range, List.range.loop, Nat.add_assoc]
  have blank : (m.turned m.l2Len (m.l2Len + 20)).load16 (m.l2Len + 2 * 5) = 0 :=
    load16_write16_self _ _ _
  have zero : (0 : U16).toNat = 0 := rfl
  have range : List.range 10 = [0, 1, 2, 3, 4, 5, 6, 7, 8, 9] := rfl
  rw [total, total, range, show m.l2Len + 10 = m.l2Len + 2 * 5 from rfl]
  simp only [List.map_cons, List.map_nil, List.sum_cons, List.sum_nil, blank, zero]
  rw [load16_turned m (k := 0), load16_turned m (k := 1), load16_turned m (k := 2),
    load16_turned m (k := 3), load16_turned m (k := 4), load16_turned m (k := 6),
    load16_turned m (k := 7), load16_turned m (k := 8), load16_turned m (k := 9)]
  · simp only [sourceWord, Nat.reduceLT, if_true, if_false, Nat.reduceAdd, Nat.reduceSub]
    omega
  all_goals decide

/-- Without options, the checksum of the reply is that of a packet that verified. -/
theorem cksum_stable (m : Mbuf) (plain : m.hdrLen m.l2Len = 20)
    (verified : m.headerSum m.l2Len = 0xFFFF) (other : m.load16 (m.l2Len + 10) ≠ 0xFFFF) :
    m.reply.load16 (m.l2Len + 10) = m.load16 (m.l2Len + 10) := by
  have written : m.reply.load16 (m.l2Len + 10) =
      (m.turned m.l2Len (m.l2Len + 20)).ipv4Cksum m.l2Len := by
    rw [reply_eq, load16_write16_other _ _ (.inr (by omega)), Mbuf.filled, load16_write16_self]
  have total := wordTotal_turned m
  rw [headerSum_iff, plain] at verified
  rw [written]
  apply ipv4Cksum_unique other
  · rw [hdrLen_turned, plain, total]
    exact verified.1
  · rw [hdrLen_turned, plain, total]
    exact verified.2

/-! ## Echoing twice -/

/-- What one echo may change of the bytes. -/
def Mbuf.Confines (m m' : Mbuf) : Prop :=
  m'.dataLen = m.dataLen ∧
    ∀ i, 12 ≤ i → i < m.l2Len + 10 ∨ m.l2Len + 28 ≤ i → m'.data i = m.data i

/-- Equal in every byte but those of the two checksum fields. -/
def Mbuf.Restores (m m' : Mbuf) : Prop :=
  m'.dataLen = m.dataLen ∧
    ∀ i, i ≠ m.l2Len + 10 → i ≠ m.l2Len + 11 → i ≠ m.l2Len + 26 → i ≠ m.l2Len + 27 →
      m'.data i = m.data i

/-- The checksum of a header without options is right, and stays what it was
where it was right before, but for the other encoding of zero. -/
def Mbuf.Checked (m m' : Mbuf) : Prop :=
  m.hdrLen m.l2Len = 20 → m'.headerSum m.l2Len = 0xFFFF ∧
    (m.headerSum m.l2Len = 0xFFFF → m.load16 (m.l2Len + 10) ≠ 0xFFFF →
      m'.load16 (m.l2Len + 10) = m.load16 (m.l2Len + 10))

theorem dataLen_reply (m : Mbuf) : m.reply.dataLen = m.dataLen := rfl

theorem reply_confines (m : Mbuf) : m.Confines m.reply :=
  ⟨dataLen_reply m, fun _ past outside => data_reply_same m past outside⟩

theorem reply_restores (m : Mbuf) : m.Restores m.reply.reply := by
  constructor
  · rw [dataLen_reply, dataLen_reply]
  · intro i low high low' high'
    exact data_reply_reply m ⟨low, high⟩ ⟨low', high'⟩

theorem reply_checked (m : Mbuf) : m.Checked m.reply := by
  intro plain
  exact ⟨headerSum_reply m (by omega) (.inl (by omega)), cksum_stable m plain⟩

/-- A refused frame is left as it is. An accepted one is accepted again as its
reply, and the second echo undoes the first. -/
theorem echo_involution (w : Worker) (pkt : Ptr) :
    ∃ es r w', (echoSingleUdpPacket pkt).Returns w es r w' ∧
      (r = false → w'.mbufs pkt = w.mbufs pkt) ∧
      (r = true → (w.mbufs pkt).Confines (w'.mbufs pkt) ∧ (w.mbufs pkt).Checked (w'.mbufs pkt) ∧
        ∃ fs w'', (echoSingleUdpPacket pkt).Returns w' fs true w'' ∧
          (w.mbufs pkt).Restores (w''.mbufs pkt)) := by
  obtain ⟨es, run⟩ := echo_returns w pkt
  by_cases accepted : (w.mbufs pkt).Accepted
  · rw [if_pos accepted] at run
    refine ⟨es, _, _, run, fun refused => ?_, fun _ => ?_⟩
    · rw [decide_eq_true accepted] at refused
      cases refused
    · obtain ⟨fs, again⟩ := echo_returns (w.setMbuf pkt (w.mbufs pkt).reply) pkt
      have reply := (accepted_reply (w.mbufs pkt)).mpr accepted
      rw [w.setMbuf_self, if_pos reply, decide_eq_true reply, w.setMbuf_setMbuf] at again
      rw [w.setMbuf_self]
      refine ⟨reply_confines _, reply_checked _, fs, _, again, ?_⟩
      rw [w.setMbuf_self]
      exact reply_restores _
  · rw [if_neg accepted] at run
    refine ⟨es, _, _, run, fun _ => rfl, fun r => ?_⟩
    rw [decide_eq_false accepted] at r
    cases r

/-- A worker that holds the packet. -/
def Worker.holding (m : Mbuf) : Worker where
  conf := ⟨0, Vector.replicate maxRxQueuePerLcore ⟨0, 0⟩, fun _ => 0, fun _ => .empty⟩
  mbufs _ := m
  next := null + 1
  rxCalls := 0
  txCalls := 0

/-- A UDP packet behind a VLAN tag, with no IP options. Every other byte is its offset. -/
def taggedUdp : Mbuf where
  dataLen := 64
  data i :=
    if i = 12 then 0x81
    else if i = 16 then 0x08
    else if i = 13 ∨ i = 17 then 0
    else if i = 18 then 0x45
    else if i = 27 then ipprotoUdp
    else BitVec.ofNat 8 i
  olFlags := 0

/-- Both echoes accept it, and the first one changes it. -/
theorem taggedUdp_restored : ∃ es w' fs w'',
    (echoSingleUdpPacket 0).Returns (.holding taggedUdp) es true w' ∧
      (echoSingleUdpPacket 0).Returns w' fs true w'' ∧
      (w'.mbufs 0).data 0 = 6 ∧ taggedUdp.Restores (w''.mbufs 0) := by
  let out := (echoSingleUdpPacket 0).run 30 (.holding taggedUdp)
  have ended : out.value = some true := by decide
  obtain ⟨es, r, w', run, _, undone⟩ := echo_involution (.holding taggedUdp) 0
  obtain ⟨_, rfl, rfl⟩ := run.unique (returns_of_value ended)
  obtain ⟨_, _, fs, w'', again, restores⟩ := undone rfl
  exact ⟨es, _, fs, w'', run, again, by decide, restores⟩

/-! ## Answering a packet -/

/-- Where the UDP header is. -/
def Mbuf.udpOff (m : Mbuf) : Nat := m.l2Len + m.hdrLen m.l2Len

/-- A whole UDP packet over IPv4 that is no fragment, behind at most one tag. -/
structure Mbuf.UdpPacket (m : Mbuf) : Prop where
  accepted : m.Accepted
  ihl : 20 ≤ m.hdrLen m.l2Len
  unfragmented : bswap16 (m.load16 (m.l2Len + 6)) &&& 0x3fff = 0
  header : 8 ≤ (bswap16 (m.load16 (m.udpOff + 4))).toNat
  complete : m.udpOff + (bswap16 (m.load16 (m.udpOff + 4))).toNat ≤ m.dataLen

/-- The packet sent back to where it came from, with a header that verifies. -/
structure Mbuf.Answers (m m' : Mbuf) : Prop where
  ether : ∀ i < 6, m'.data i = m.data (i + 6) ∧ m'.data (i + 6) = m.data i
  ip : ∀ i < 4, m'.data (m.l2Len + 12 + i) = m.data (m.l2Len + 16 + i) ∧
    m'.data (m.l2Len + 16 + i) = m.data (m.l2Len + 12 + i)
  options : ∀ i, m.l2Len + 20 ≤ i → i < m.udpOff → m'.data i = m.data i
  verifies : m'.headerSum m.l2Len = 0xFFFF
  ports : m'.load16 m.udpOff = m.load16 (m.udpOff + 2) ∧
    m'.load16 (m.udpOff + 2) = m.load16 m.udpOff
  udpLen : m'.load16 (m.udpOff + 4) = m.load16 (m.udpOff + 4)
  cksum : m'.load16 (m.udpOff + 6) = 0
  payload : ∀ i, m.udpOff + 8 ≤ i → m'.data i = m.data i

/-- There are no options, or what the echo does 20 bytes into the IPv4 header
does nothing, and the packet needs nothing done where its UDP header is. -/
def Mbuf.Harmless (m : Mbuf) : Prop :=
  m.hdrLen m.l2Len = 20 ∨
    m.load16 (m.l2Len + 20) = m.load16 (m.l2Len + 22) ∧ m.load16 (m.l2Len + 26) = 0 ∧
      m.load16 m.udpOff = m.load16 (m.udpOff + 2) ∧ m.load16 (m.udpOff + 6) = 0

instance (m : Mbuf) : Decidable m.Harmless := inferInstanceAs (Decidable (_ ∨ _))

theorem toNat_load16 (m : Mbuf) (off : Nat) :
    (m.load16 off).toNat = (m.data (off + 1)).toNat * 256 + (m.data off).toNat := by
  rw [Mbuf.load16, BitVec.toNat_append, ← Nat.shiftLeft_add_eq_or_of_lt (m.data off).isLt,
    Nat.shiftLeft_eq]

theorem load16_inj {m m' : Mbuf} {off off' : Nat} (h : m'.load16 off = m.load16 off') :
    m'.data off = m.data off' ∧ m'.data (off + 1) = m.data (off' + 1) := by
  have values := congrArg BitVec.toNat h
  rw [toNat_load16, toNat_load16] at values
  have low := (m.data off').isLt
  have low' := (m'.data off).isLt
  exact ⟨BitVec.eq_of_toNat_eq (by omega), BitVec.eq_of_toNat_eq (by omega)⟩

theorem load16_reply_source (m : Mbuf) {off : Nat} (past : m.l2Len + 20 ≤ off)
    (before : off + 1 < m.l2Len + 26) (whole : source m.l2Len (off + 1) = source m.l2Len off + 1) :
    m.reply.load16 off = m.load16 (source m.l2Len off) := by
  apply load16_congr
  · rw [data_reply m (by omega), if_neg (by omega)]
  · rw [data_reply m (by omega), if_neg (by omega), whole]

/-- The 8 bytes that the echo takes for the UDP header. -/
theorem reply_at_20 (m : Mbuf) :
    m.reply.load16 (m.l2Len + 20) = m.load16 (m.l2Len + 22) ∧
      m.reply.load16 (m.l2Len + 22) = m.load16 (m.l2Len + 20) ∧
      m.reply.load16 (m.l2Len + 24) = m.load16 (m.l2Len + 24) ∧
      m.reply.load16 (m.l2Len + 26) = 0 := by
  have behind := l2Len_ge m
  have s20 : ∀ d < 2, source m.l2Len (m.l2Len + 20 + d) = m.l2Len + 22 + d := by
    intro d hd
    rw [source_eq behind]
    grind
  have s22 : ∀ d < 2, source m.l2Len (m.l2Len + 22 + d) = m.l2Len + 20 + d := by
    intro d hd
    rw [source_eq behind]
    grind
  have s24 : ∀ d < 2, source m.l2Len (m.l2Len + 24 + d) = m.l2Len + 24 + d := by
    intro d hd
    rw [source_eq behind]
    grind
  have word {off off' : Nat} (past : m.l2Len + 20 ≤ off) (before : off + 1 < m.l2Len + 26)
      (moved : ∀ d < 2, source m.l2Len (off + d) = off' + d) :
      m.reply.load16 off = m.load16 off' := by
    have first : source m.l2Len off = off' := moved 0 (by decide)
    rw [load16_reply_source m past before (by rw [moved 1 (by decide), first]), first]
  exact ⟨word (by omega) (by omega) s20, word (by omega) (by omega) s22,
    word (by omega) (by omega) s24, load16_write16_self _ _ _⟩

/-- Where the two words are the same and the third is clear, nothing changes
from 20 bytes into the IPv4 header on. -/
theorem reply_still (m : Mbuf) (same : m.load16 (m.l2Len + 20) = m.load16 (m.l2Len + 22))
    (clear : m.load16 (m.l2Len + 26) = 0) {i : Nat} (past : m.l2Len + 20 ≤ i) :
    m.reply.data i = m.data i := by
  have behind := l2Len_ge m
  obtain ⟨at20, at22, at24, at26⟩ := reply_at_20 m
  have w20 := load16_inj (at20.trans same.symm)
  have w22 := load16_inj (at22.trans same)
  have w24 := load16_inj at24
  have w26 := load16_inj (at26.trans clear.symm)
  by_cases inside : i < m.l2Len + 28
  · have cases8 : i = m.l2Len + 20 ∨ i = m.l2Len + 20 + 1 ∨ i = m.l2Len + 22 ∨
        i = m.l2Len + 22 + 1 ∨ i = m.l2Len + 24 ∨ i = m.l2Len + 24 + 1 ∨ i = m.l2Len + 26 ∨
        i = m.l2Len + 26 + 1 := by omega
    rcases cases8 with rfl | rfl | rfl | rfl | rfl | rfl | rfl | rfl
    · exact w20.1
    · exact w20.2
    · exact w22.1
    · exact w22.2
    · exact w24.1
    · exact w24.2
    · exact w26.1
    · exact w26.2
  · exact data_reply_same m (by omega) (by omega)

/-- The addresses are exchanged whatever the header length is. -/
theorem reply_addresses (m : Mbuf) :
    (∀ i < 6, m.reply.data i = m.data (i + 6) ∧ m.reply.data (i + 6) = m.data i) ∧
      ∀ i < 4, m.reply.data (m.l2Len + 12 + i) = m.data (m.l2Len + 16 + i) ∧
        m.reply.data (m.l2Len + 16 + i) = m.data (m.l2Len + 12 + i) := by
  have behind := l2Len_ge m
  have moved {i j : Nat} (ipField : i ≠ m.l2Len + 10 ∧ i ≠ m.l2Len + 11)
      (before : i < m.l2Len + 26) (h : source m.l2Len i = j) : m.reply.data i = m.data j := by
    rw [data_reply m ipField, if_neg (by omega), h]
  constructor
  · intro i hi
    constructor
    · exact moved (by omega) (by omega) (by rw [source_eq behind]; grind)
    · exact moved (by omega) (by omega) (by rw [source_eq behind]; grind)
  · intro i hi
    constructor
    · exact moved (by omega) (by omega) (by rw [source_eq behind]; grind)
    · exact moved (by omega) (by omega) (by rw [source_eq behind]; grind)

theorem answers_of_harmless (m : Mbuf) (ihl : 20 ≤ m.hdrLen m.l2Len) (h : m.Harmless) :
    m.Answers m.reply := by
  have four := hdrLen_four m m.l2Len
  have clear : m.hdrLen m.l2Len ≤ 26 ∨ m.load16 (m.l2Len + 26) = 0 :=
    h.imp (by omega) fun h => h.2.1
  have verifies := headerSum_reply m (by omega) clear
  obtain ⟨ether, ip⟩ := reply_addresses m
  by_cases plain : m.hdrLen m.l2Len = 20
  · obtain ⟨at20, at22, at24, at26⟩ := reply_at_20 m
    have off : m.udpOff = m.l2Len + 20 := by rw [Mbuf.udpOff, plain]
    refine ⟨ether, ip, ?_, verifies, ?_, ?_, ?_, ?_⟩
    · intro i past before
      omega
    · rw [off]
      exact ⟨at20, at22⟩
    · rw [off]
      exact at24
    · rw [off]
      exact at26
    · intro i past
      exact data_reply_same m (by omega) (by omega)
  · obtain ⟨same, cleared, ports, cksum⟩ := h.resolve_left plain
    have off : m.l2Len + 20 ≤ m.udpOff := by
      rw [Mbuf.udpOff]
      omega
    have still {i : Nat} (past : m.l2Len + 20 ≤ i) : m.reply.data i = m.data i :=
      reply_still m same cleared past
    have stillWord {i : Nat} (past : m.l2Len + 20 ≤ i) : m.reply.load16 i = m.load16 i :=
      load16_congr (still past) (still (by omega))
    refine ⟨ether, ip, fun i past _ => still past, verifies, ?_, stillWord (by omega), ?_,
      fun i past => still (by omega)⟩
    · exact ⟨(stillWord off).trans ports, (stillWord (by omega)).trans ports.symm⟩
    · exact (stillWord (by omega)).trans cksum

theorem harmless_of_answers (m : Mbuf) (ihl : 20 ≤ m.hdrLen m.l2Len) (h : m.Answers m.reply) :
    m.Harmless := by
  have behind := l2Len_ge m
  have four := hdrLen_four m m.l2Len
  obtain ⟨at20, at22, at24, at26⟩ := reply_at_20 m
  by_cases plain : m.hdrLen m.l2Len = 20
  · exact .inl plain
  have off : m.udpOff = m.l2Len + m.hdrLen m.l2Len := rfl
  have kept {i : Nat} (past : m.l2Len + 20 ≤ i) (before : i + 1 < m.udpOff) :
      m.reply.load16 i = m.load16 i :=
    load16_congr (h.options i past (by omega)) (h.options (i + 1) (by omega) before)
  have same : m.load16 (m.l2Len + 20) = m.load16 (m.l2Len + 22) :=
    (kept (by omega) (by omega)).symm.trans at20
  have cksum : m.load16 (m.udpOff + 6) = 0 :=
    (load16_reply_same m (by omega) (by omega)).symm.trans h.cksum
  by_cases six : m.hdrLen m.l2Len = 24
  · -- the destination port is what the echo clears
    rw [six] at off
    have ports := h.ports
    rw [off] at ports
    have dst : m.load16 (m.l2Len + 24) = 0 := ports.2.symm.trans at26
    have src : m.load16 (m.l2Len + 26) = m.load16 (m.l2Len + 24) := ports.1.symm.trans at24
    refine .inr ⟨same, src.trans dst, ?_, cksum⟩
    rw [off]
    exact src.symm
  · have clear : m.load16 (m.l2Len + 26) = 0 :=
      (kept (by omega) (by omega)).symm.trans at26
    have ports : m.load16 m.udpOff = m.load16 (m.udpOff + 2) :=
      (load16_reply_same m (by omega) (by omega)).symm.trans h.ports.1
    exact .inr ⟨same, clear, ports, cksum⟩

/-- The echo answers an accepted packet when its reply does. -/
theorem echo_answers {w : Worker} {pkt : Ptr} {m : Mbuf} (held : w.mbufs pkt = m)
    (accepted : m.Accepted) :
    (∃ es w', (echoSingleUdpPacket pkt).Returns w es true w' ∧ m.Answers (w'.mbufs pkt)) ↔
      m.Answers m.reply := by
  subst held
  obtain ⟨es, run⟩ := echo_returns w pkt
  rw [if_pos accepted, decide_eq_true accepted] at run
  constructor
  · rintro ⟨_, w', run', answers⟩
    obtain ⟨_, _, rfl⟩ := run.unique run'
    rwa [w.setMbuf_self] at answers
  · intro answers
    refine ⟨es, _, run, ?_⟩
    rwa [w.setMbuf_self]

/-- The echo of a UDP packet is the answer to it exactly when there are no
options or the harm it does to them is none. -/
theorem echo_answers_iff {w : Worker} {pkt : Ptr} (h : (w.mbufs pkt).UdpPacket) :
    (∃ es w', (echoSingleUdpPacket pkt).Returns w es true w' ∧
      (w.mbufs pkt).Answers (w'.mbufs pkt)) ↔ (w.mbufs pkt).Harmless :=
  (echo_answers rfl h.accepted).trans
    ⟨harmless_of_answers _ h.ihl, answers_of_harmless _ h.ihl⟩

/-- A UDP packet with no data, all zero but for its headers and the byte after
20 bytes of IPv4 header. -/
def udpFrame (ihl after : U8) : Mbuf where
  dataLen := 82
  data i :=
    if i = 12 then 0x08
    else if i = 14 then 0x40 ||| ihl
    else if i = 23 then ipprotoUdp
    else if i = 34 then after
    else if i = 14 + 4 * ihl.toNat + 5 then 8
    else 0
  olFlags := 0

theorem udpFrame_answered : ∃ es w',
    (echoSingleUdpPacket 0).Returns (.holding (udpFrame 5 1)) es true w' ∧
      (udpFrame 5 1).Answers (w'.mbufs 0) := by
  have packet : ((Worker.holding (udpFrame 5 1)).mbufs 0).UdpPacket :=
    ⟨by decide, by decide, by decide, by decide, by decide⟩
  exact (echo_answers_iff packet).mpr (by decide)

/-- An option of one byte, in a header of 24. -/
theorem options_not_answered : (udpFrame 6 1).UdpPacket ∧ ¬ ∃ es w',
    (echoSingleUdpPacket 0).Returns (.holding (udpFrame 6 1)) es true w' ∧
      (udpFrame 6 1).Answers (w'.mbufs 0) := by
  have packet : (udpFrame 6 1).UdpPacket :=
    ⟨by decide, by decide, by decide, by decide, by decide⟩
  refine ⟨packet, fun answered => ?_⟩
  have answers := (echo_answers (w := .holding (udpFrame 6 1)) rfl packet.accepted).mp answered
  have harmless := harmless_of_answers _ packet.ihl answers
  revert harmless
  decide

end Udp
