import Buster.Udp.Echo

/-!
# The reply as a function of the frame

`Mbuf.Accepted` and `Mbuf.reply` say what `echo_single_udp_packet` decides and
writes, without the order of its loads and stores, and `Mbuf.span` how far these
reach. `echo_returns` and `echo_reach` are the link.
-/

namespace Udp

open Imp.Prog

theorem bswap16_bswap16 (v : U16) : bswap16 (bswap16 v) = v := by
  unfold bswap16
  ext i hi
  simp only [BitVec.getElem_append, BitVec.getElem_setWidth, BitVec.getLsbD_setWidth,
    BitVec.getLsbD_ushiftRight, BitVec.getLsbD_append]
  grind

/-! ## What is taken for a UDP packet -/

def Mbuf.Tagged (m : Mbuf) : Prop := bswap16 (m.load16 12) = rteEtherTypeVlan

instance (m : Mbuf) : Decidable m.Tagged := inferInstanceAs (Decidable (_ = _))

/-- The length before the IPv4 header. -/
def Mbuf.l2Len (m : Mbuf) : Nat := if m.Tagged then 14 + 4 else 14

/-- The ethertype after at most one VLAN tag. -/
def Mbuf.ethType (m : Mbuf) : U16 := bswap16 (if m.Tagged then m.load16 (14 + 2) else m.load16 12)

def Mbuf.Accepted (m : Mbuf) : Prop :=
  m.ethType = rteEtherTypeIpv4 ∧ m.data (m.l2Len + 9) = ipprotoUdp

instance (m : Mbuf) : Decidable m.Accepted := inferInstanceAs (Decidable (_ ∧ _))

/-! ## What becomes of it -/

def Mbuf.bytes (m : Mbuf) (off n : Nat) : List U8 := (List.range n).map fun i => m.data (off + i)

def Mbuf.swap (m : Mbuf) (src dst n : Nat) : Mbuf :=
  (m.write src (m.bytes dst n)).write dst (m.bytes src n)

def Mbuf.write16 (m : Mbuf) (off : Nat) (v : U16) : Mbuf :=
  m.write off [v.setWidth 8, (v >>> 8).setWidth 8]

/-- The sum of the words that lie in the buffer from `buf` on. -/
def Mbuf.wordSum (m : Mbuf) : Nat → Nat → U32 → U32
  | 0, _, sum => sum
  | words + 1, buf, sum => m.wordSum words (buf + 2) (sum + (m.load16 buf).setWidth 32)

def Mbuf.hdrLen (m : Mbuf) (ipH : Nat) : Nat := ((m.data ipH &&& 0x0f) * 4).toNat

def Mbuf.ipv4Cksum (m : Mbuf) (ipH : Nat) : U16 :=
  ~~~rawCksumReduce (m.wordSum (m.hdrLen ipH / 2) ipH 0)

/-- The packet as it is when its header checksum is computed. -/
def Mbuf.turned (m : Mbuf) (ipH udpH : Nat) : Mbuf :=
  let swapped := ((m.swap 6 0 6).swap (ipH + 12) (ipH + 16) 4).swap udpH (udpH + 2) 2
  { swapped with olFlags := swapped.olFlags ||| txCksumFlags }.write16 (ipH + 10) 0

def Mbuf.reply (m : Mbuf) : Mbuf :=
  let ipH := m.l2Len
  let udpH := ipH + 20
  let turned := m.turned ipH udpH
  (turned.write16 (ipH + 10) (turned.ipv4Cksum ipH)).write16 (udpH + 6) 0

/-! ## How far it reaches -/

/-- The event reads or writes that byte of the packet. -/
def Event.Touches (pkt : Ptr) (i : Nat) : Event → Prop
  | .read p off n => p = pkt ∧ off ≤ i ∧ i < off + n
  | .write p off n => p = pkt ∧ off ≤ i ∧ i < off + n
  | _ => False

/-- What is touched of the packet lies below `n`, and not below anything less. -/
def Reach (pkt : Ptr) (es : List Event) (n : Nat) : Prop :=
  ∀ k, (∀ e ∈ es, ∀ i, e.Touches pkt i → i < k) ↔ n ≤ k

/-- How far the echo of a frame reaches, with the header length it has when the
checksum is computed. -/
def Mbuf.span (m : Mbuf) : Nat :=
  if m.ethType ≠ rteEtherTypeIpv4 then m.l2Len
  else if m.data (m.l2Len + 9) ≠ ipprotoUdp then m.l2Len + 10
  else m.l2Len + max 28 ((m.turned m.l2Len (m.l2Len + 20)).hdrLen m.l2Len)

section reach
variable {pkt : Ptr} {es fs : List Event} {n n' : Nat}

theorem reach_untouched (h : ∀ e ∈ es, ∀ i, ¬ e.Touches pkt i) : Reach pkt es 0 := by
  intro k
  exact iff_of_true (fun e he i touches => absurd touches (h e he i)) (Nat.zero_le k)

theorem Reach.append (h : Reach pkt es n) (h' : Reach pkt fs n') :
    Reach pkt (es ++ fs) (max n n') := by
  intro k
  rw [Nat.max_le, ← h k, ← h' k, List.forall_mem_append]

theorem Reach.then_untouched (h : Reach pkt es n) (h' : ∀ e ∈ fs, ∀ i, ¬ e.Touches pkt i) :
    Reach pkt (es ++ fs) n := by
  have both := h.append (reach_untouched h')
  rwa [Nat.max_zero] at both

theorem reach_read {off : Nat} (some : 0 < n) : Reach pkt [.read pkt off n] (off + n) := by
  intro k
  simp only [List.mem_singleton, forall_eq, Event.Touches, true_and]
  constructor
  · intro all
    have last := all (off + n - 1) (by omega)
    omega
  · intro below i hi
    omega

theorem reach_write {off : Nat} (some : 0 < n) : Reach pkt [.write pkt off n] (off + n) := by
  intro k
  simp only [List.mem_singleton, forall_eq, Event.Touches, true_and]
  constructor
  · intro all
    have last := all (off + n - 1) (by omega)
    omega
  · intro below i hi
    omega

theorem Reach.unique (h : Reach pkt es n) (h' : Reach pkt es n') : n = n' :=
  Nat.le_antisymm ((h n').mp ((h' n').mpr (Nat.le_refl n'))) ((h' n).mp ((h n).mpr (Nat.le_refl n)))

end reach

/-! ## The link to the program -/

@[simp] theorem Worker.setMbuf_self (w : Worker) (pkt : Ptr) (m : Mbuf) :
    (w.setMbuf pkt m).mbufs pkt = m := Function.update_self ..

@[simp] theorem Worker.setMbuf_setMbuf (w : Worker) (pkt : Ptr) (m m' : Mbuf) :
    (w.setMbuf pkt m).setMbuf pkt m' = w.setMbuf pkt m' := by
  simp [Worker.setMbuf]

@[simp] theorem Worker.setMbuf_mbufs (w : Worker) (pkt : Ptr) :
    w.setMbuf pkt (w.mbufs pkt) = w := by
  simp [Worker.setMbuf]

/-- The program returns `a`, and of the whole worker only the packet changes, from `m` to `m'`. -/
def Rewrites {α : Type} (p : Server α) (pkt : Ptr) (m : Mbuf) (a : α) (m' : Mbuf) : Prop :=
  ∀ w : Worker, w.mbufs pkt = m → ∃ es, p.Returns w es a (w.setMbuf pkt m')

/-- It rewrites the packet, and reaches `n` bytes into it. -/
def Spans {α : Type} (p : Server α) (pkt : Ptr) (m : Mbuf) (a : α) (m' : Mbuf) (n : Nat) : Prop :=
  ∀ w : Worker, w.mbufs pkt = m → ∃ es, p.Returns w es a (w.setMbuf pkt m') ∧ Reach pkt es n

section spans
variable {α β : Type} {pkt : Ptr} {m m₁ m₂ : Mbuf} {n n' : Nat}

theorem Spans.rewrites {p : Server α} {a : α} (h : Spans p pkt m a m₁ n) :
    Rewrites p pkt m a m₁ := by
  intro w at_pkt
  obtain ⟨es, run, _⟩ := h w at_pkt
  exact ⟨es, run⟩

theorem Spans.bind {p : Server α} {f : α → Server β} {a : α} {b : β}
    (h : Spans p pkt m a m₁ n) (hf : Spans (f a) pkt m₁ b m₂ n') :
    Spans (p >>= f) pkt m b m₂ (max n n') := by
  intro w at_pkt
  obtain ⟨es, first, reach⟩ := h w at_pkt
  obtain ⟨fs, rest, reach'⟩ := hf (w.setMbuf pkt m₁) (w.setMbuf_self pkt m₁)
  rw [w.setMbuf_setMbuf] at rest
  exact ⟨es ++ fs, first.bind rest, reach.append reach'⟩

/-- `bind`, with the reach of the whole as it is wanted. -/
theorem Spans.andThen {p : Server α} {f : α → Server β} {a : α} {b : β} {k : Nat}
    (h : Spans p pkt m a m₁ n) (hf : Spans (f a) pkt m₁ b m₂ n') (reach : max n n' = k) :
    Spans (p >>= f) pkt m b m₂ k := reach ▸ h.bind hf

theorem Spans.congr {p : Server α} {a : α} (h : Spans p pkt m a m₁ n) (same : n = n') :
    Spans p pkt m a m₁ n' := same ▸ h

theorem spans_pure (pkt : Ptr) (m : Mbuf) (a : α) : Spans (pure a) pkt m a m 0 := by
  rintro w rfl
  rw [w.setMbuf_mbufs]
  exact ⟨[], pure_returns a w, reach_untouched (List.forall_mem_nil _)⟩

theorem spans_load8 (pkt : Ptr) (m : Mbuf) (off : Nat) :
    Spans (load8 pkt off) pkt m (m.data off) m (off + 1) := by
  rintro w rfl
  rw [w.setMbuf_mbufs]
  exact ⟨_, (get_returns w).bind ((emit_returns _ w).bind (pure_returns _ w)),
    reach_read Nat.one_pos⟩

theorem spans_load16 (pkt : Ptr) (m : Mbuf) (off : Nat) :
    Spans (load16 pkt off) pkt m (m.load16 off) m (off + 2) := by
  rintro w rfl
  rw [w.setMbuf_mbufs]
  exact ⟨_, (get_returns w).bind ((emit_returns _ w).bind (pure_returns _ w)),
    reach_read Nat.two_pos⟩

theorem spans_loadBytes (pkt : Ptr) (m : Mbuf) (off : Nat) (some : 0 < n) :
    Spans (loadBytes pkt off n) pkt m (m.bytes off n) m (off + n) := by
  rintro w rfl
  rw [w.setMbuf_mbufs]
  exact ⟨_, (get_returns w).bind ((emit_returns _ w).bind (pure_returns _ w)), reach_read some⟩

theorem spans_storeBytes (pkt : Ptr) (m : Mbuf) (off : Nat) {bytes : List U8}
    (some : 0 < bytes.length) :
    Spans (storeBytes pkt off bytes) pkt m () (m.write off bytes) (off + bytes.length) := by
  rintro w rfl
  exact ⟨_, (emit_returns _ w).bind (modify_returns _ w), reach_write some⟩

theorem length_bytes (m : Mbuf) (off n : Nat) : (m.bytes off n).length = n := by
  simp [Mbuf.bytes]

theorem spans_swapFields (pkt : Ptr) (m : Mbuf) (src dst : Nat) (some : 0 < n) :
    Spans (swapFields pkt src dst n) pkt m () (m.swap src dst n) (max (src + n) (dst + n)) := by
  have store (m : Mbuf) (off : Nat) {bytes : List U8} (count : bytes.length = n) :
      Spans (storeBytes pkt off bytes) pkt m () (m.write off bytes) (off + n) :=
    (spans_storeBytes pkt m off (count ▸ some)).congr (by rw [count])
  refine ((spans_loadBytes pkt m src some).bind <| (spans_loadBytes pkt m dst some).bind <|
    (store m src (length_bytes m dst n)).bind (store _ dst (length_bytes m src n))).congr ?_
  omega

theorem spans_rawCksumWords (pkt : Ptr) (m : Mbuf) (words buf : Nat) (sum : U32) :
    Spans (rawCksumWords pkt words buf sum) pkt m (m.wordSum words buf sum) m
      (if words = 0 then 0 else buf + 2 * words) := by
  induction words generalizing buf sum with
  | zero => exact spans_pure pkt m sum
  | succ words ih =>
    refine ((spans_load16 pkt m buf).bind (ih _ _)).congr ?_
    rw [if_neg (Nat.succ_ne_zero words)]
    split <;> omega

theorem hdrLen_four (m : Mbuf) (ipH : Nat) : m.hdrLen ipH % 4 = 0 := by
  unfold Mbuf.hdrLen
  generalize m.data ipH &&& 0x0f = ihl
  bv_omega

theorem spans_rteIpv4Cksum (pkt : Ptr) (m : Mbuf) (ipH : Nat) :
    Spans (rteIpv4Cksum pkt ipH) pkt m (m.ipv4Cksum ipH) m (ipH + max 1 (m.hdrLen ipH)) := by
  have four := hdrLen_four m ipH
  have hdrLen : Spans (rteIpv4HdrLen pkt ipH) pkt m (m.hdrLen ipH) m (max (ipH + 1) 0) :=
    (spans_load8 pkt m ipH).bind (spans_pure pkt m _)
  have sum : Spans (rawCksumSum pkt ipH (m.hdrLen ipH) 0) pkt m
      (m.wordSum (m.hdrLen ipH / 2) ipH 0) m
      (if m.hdrLen ipH = 0 then 0 else ipH + m.hdrLen ipH) := by
    have words := spans_rawCksumWords pkt m (m.hdrLen ipH / 2) ipH 0
    refine (words.bind (?_ : Spans _ pkt m _ m 0)).congr ?_
    · -- a header is a whole number of words
      rw [if_neg (by omega)]
      exact spans_pure pkt m _
    · grind
  have raw : Spans (rteRawCksum pkt ipH (m.hdrLen ipH)) pkt m
      (rawCksumReduce (m.wordSum (m.hdrLen ipH / 2) ipH 0)) m _ :=
    sum.bind (spans_pure pkt m _)
  have whole : Spans (rteIpv4Cksum pkt ipH) pkt m (m.ipv4Cksum ipH) m _ :=
    hdrLen.bind (raw.bind (spans_pure pkt m _))
  apply whole.congr
  split <;> omega

theorem spans_turnAround (pkt : Ptr) (m : Mbuf) (behind : 14 ≤ m.l2Len) :
    Spans (turnAround pkt m.l2Len (m.l2Len + 20)) pkt m () m.reply
      (m.l2Len + max 28 ((m.turned m.l2Len (m.l2Len + 20)).hdrLen m.l2Len)) := by
  have flags (m : Mbuf) : Spans (modify fun w => w.setMbuf pkt
      { w.mbufs pkt with olFlags := (w.mbufs pkt).olFlags ||| txCksumFlags }) pkt m ()
      { m with olFlags := m.olFlags ||| txCksumFlags } 0 := by
    rintro w rfl
    exact ⟨[], modify_returns _ w, reach_untouched (List.forall_mem_nil _)⟩
  have store (m : Mbuf) (off : Nat) (v : U16) :
      Spans (store16 pkt off v) pkt m () (m.write16 off v) (off + 2) :=
    spans_storeBytes pkt m off Nat.two_pos
  have whole : Spans (turnAround pkt m.l2Len (m.l2Len + 20)) pkt m () m.reply _ :=
    (spans_swapFields pkt m _ _ (by decide)).bind <|
      (spans_swapFields pkt _ _ _ (by decide)).bind <|
        (spans_swapFields pkt _ _ _ (by decide)).bind <| (flags _).bind <|
          (store _ _ _).bind <|
            (spans_rteIpv4Cksum pkt (m.turned m.l2Len (m.l2Len + 20)) _).bind <|
              (store _ _ _).bind (store _ _ _)
  apply whole.congr
  omega

theorem l2Len_ge (m : Mbuf) : 14 ≤ m.l2Len := by
  unfold Mbuf.l2Len
  split <;> omega

theorem span_ge (m : Mbuf) : 14 ≤ m.span := by
  have behind := l2Len_ge m
  unfold Mbuf.span
  split
  · exact behind
  · split <;> omega

theorem spans_l2Header (pkt : Ptr) (m : Mbuf) :
    Spans (l2Header pkt) pkt m (m.ethType, m.l2Len) m m.l2Len := by
  unfold Mbuf.ethType Mbuf.l2Len
  by_cases tagged : m.Tagged
  · have vlan : bswap16 (m.load16 12) = rteEtherTypeVlan := tagged
    simp only [if_pos tagged]
    apply (spans_load16 pkt m 12).andThen
    · rw [if_pos vlan]
      exact (spans_load16 pkt m (14 + 2)).bind (spans_pure pkt m (_, _))
    · rfl
  · have plain : bswap16 (m.load16 12) ≠ rteEtherTypeVlan := tagged
    simp only [if_neg tagged]
    apply (spans_load16 pkt m 12).andThen
    · rw [if_neg plain]
      exact spans_pure pkt m _
    · rfl

/-- A packet that is accepted becomes its reply, and any other stays as it is. -/
theorem spans_echo (pkt : Ptr) (m : Mbuf) :
    Spans (echoSingleUdpPacket pkt) pkt m (decide m.Accepted)
      (if m.Accepted then m.reply else m) m.span := by
  have behind := l2Len_ge m
  unfold Mbuf.span
  by_cases ipv4 : m.ethType = rteEtherTypeIpv4
  · rw [if_neg (not_not.mpr ipv4)]
    by_cases udp : m.data (m.l2Len + 9) = ipprotoUdp
    · have accepted : m.Accepted := ⟨ipv4, udp⟩
      rw [if_pos accepted, decide_eq_true accepted, if_neg (not_not.mpr udp)]
      apply (spans_l2Header pkt m).andThen
      · dsimp only
        rw [if_neg (not_not.mpr ipv4)]
        apply (spans_load8 pkt m _).bind
        rw [if_neg (not_not.mpr udp)]
        exact (spans_turnAround pkt m behind).bind (spans_pure pkt _ true)
      · omega
    · have refused : ¬ m.Accepted := fun h => udp h.2
      rw [if_neg refused, decide_eq_false refused, if_pos udp]
      apply (spans_l2Header pkt m).andThen
      · dsimp only
        rw [if_neg (not_not.mpr ipv4)]
        apply (spans_load8 pkt m _).bind
        rw [if_pos udp]
        exact spans_pure pkt m false
      · omega
  · have refused : ¬ m.Accepted := fun h => ipv4 h.1
    rw [if_neg refused, decide_eq_false refused, if_pos ipv4]
    apply (spans_l2Header pkt m).andThen
    · dsimp only
      rw [if_pos ipv4]
      exact spans_pure pkt m false
    · omega

theorem rewrites_echo (pkt : Ptr) (m : Mbuf) :
    Rewrites (echoSingleUdpPacket pkt) pkt m (decide m.Accepted)
      (if m.Accepted then m.reply else m) := (spans_echo pkt m).rewrites

theorem echo_returns (w : Worker) (pkt : Ptr) : ∃ es,
    (echoSingleUdpPacket pkt).Returns w es (decide (w.mbufs pkt).Accepted)
      (if (w.mbufs pkt).Accepted then w.setMbuf pkt (w.mbufs pkt).reply else w) := by
  obtain ⟨es, run⟩ := rewrites_echo pkt (w.mbufs pkt) w rfl
  refine ⟨es, ?_⟩
  by_cases accepted : (w.mbufs pkt).Accepted
  · rwa [if_pos accepted] at run ⊢
  · rw [if_neg accepted, w.setMbuf_mbufs] at run
    rwa [if_neg accepted]

theorem echo_reach {w w' : Worker} {es : List Event} {r : Bool}
    (run : (echoSingleUdpPacket pkt).Returns w es r w') : Reach pkt es (w.mbufs pkt).span := by
  obtain ⟨fs, run', reach⟩ := spans_echo pkt (w.mbufs pkt) w rfl
  obtain ⟨rfl, _⟩ := run.unique run'
  exact reach

end spans

end Udp
