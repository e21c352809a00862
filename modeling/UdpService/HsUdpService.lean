-- The four routines of the service (hs_udp_service.c), one turn of each
-- loop: `iot_receive_routine` cuts a datagram of the device into fragments,
-- `fusion_transmit_routine` completes the header of a fragment, and
-- `iot_transmit_routine` hands a reassembled packet to the device.
import UdpService.RudpReq

open blocks

namespace udp_service

namespace hs_udp_service

open hs_udp_fragments rudp_req

/-! ## From the device: `iot_receive_routine` -/

/-- The variables of the inner loop of `iot_receive_routine`. `rxPayLoad` is
the bytes received, `dataPtr` an offset into them. -/
structure RxLoop where
  rxPayLoad : List UInt8
  dataPtr : Nat
  res : Nat
  frgmnts : Nat
  frgmntIdx : Nat
  txSeqNum : Nat

/-- The start of the inner loop, after `udp_recv` gave the bytes `d`. -/
def iot_read (txSeqNum : Nat) (d : List UInt8) : RxLoop :=
  { rxPayLoad := d, dataPtr := 0, res := d.length
    frgmnts := d.length / MAX_MSG_SIZE + if 0 < d.length % MAX_MSG_SIZE then 1 else 0
    frgmntIdx := 0, txSeqNum := (txSeqNum + 1) % 2 ^ 8 }

/-- One turn of the inner loop, on the buffer that `Fifo_get` gave. -/
def iot_fill (l : RxLoop) (b : MsgBuf) : RxLoop × MsgBuf :=
  let msgLen := if MAX_MSG_SIZE < l.res then MAX_MSG_SIZE else l.res
  ({ l with
      res := if MAX_MSG_SIZE < l.res then l.res - MAX_MSG_SIZE else 0
      frgmntIdx := (l.frgmntIdx + 1) % 2 ^ 8
      dataPtr := l.dataPtr + msgLen },
    { b with
      seqNum := l.txSeqNum
      msgHeader := { b.msgHeader with
        frgmnts := Fin.ofNat 32 l.frgmnts
        frgmntIdx := Fin.ofNat 32 (l.frgmntIdx &&& FRAG_MASK) }
      msgLen
      data := Buffer.padded MAX_MSG_SIZE 0 ((l.rxPayLoad.drop l.dataPtr).take msgLen) })

/-- The inner loop. `pool k` is what the `k`-th buffer held before. Each turn
lowers `res`, so `res` turns are fuel enough. -/
def iot_loop (pool : Nat → MsgBuf) : Nat → RxLoop → List MsgBuf
  | 0, _ => []
  | fuel + 1, l =>
    if 0 < l.res then
      (iot_fill l (pool l.frgmntIdx)).2 :: iot_loop pool fuel (iot_fill l (pool l.frgmntIdx)).1
    else []

/-! ## To fusion: `fusion_transmit_routine` -/

/-- The header fields that `fusion_transmit_routine` stores before it sends. -/
def fusion_header (b : MsgBuf) : MsgBuf :=
  { b with msgHeader := { b.msgHeader with
      seqNum := Fin.ofNat 16 (b.seqNum &&& SEQ_MASK)
      size := UInt8.ofNat b.msgLen
      msgCode := MSG_CODE_REG_DATA } }

/-- The messages that a datagram goes out in, read when the running number
was `txSeqNum`. -/
def messages (pool : Nat → MsgBuf) (txSeqNum : Nat) (d : List UInt8) : List MsgBuf :=
  (iot_loop pool d.length (iot_read txSeqNum d)).map fusion_header

/-! ## To the device: `iot_transmit_routine` -/

/-- The bytes at `msgHandle->data`, as many as `msgHandle->size` says. -/
def payload (frag : UdpFragment) : Except Fault (List UInt8) :=
  if h : frag.size ≤ NET_PACKET_SIZE then .ok (frag.data.bytes frag.size h)
  else .error .copyBounds

/-- What one turn of `iot_transmit_routine` did: the bytes for the device, the
requests that went out, and the receiver after it. -/
structure Transmitted where
  sent : Option (List UInt8)
  reqs : List RUdpFragmntReq
  rcv : Receiver

/-- What `iot_transmit_routine` does with the result of `defragment`. `release_fragment` also
gets the NULL handle of a single packet. -/
def send_defragmented (msg : MsgBuf) (c : Collated) : Except Fault Transmitted :=
  if c.ret = 0 then
    match c.outFragment with
    | some handle =>
      match payload (c.rcv.table.fragments handle) with
      | .error e => .error e
      | .ok bytes =>
        .ok { sent := some bytes, reqs := c.reqs
              rcv := { c.rcv with table := release_fragment c.rcv.table handle } }
    | none =>
      if h : msg.msgLen ≤ MAX_MSG_SIZE then .error (.nullRelease (msg.data.bytes msg.msgLen h))
      else .error .copyBounds
  else .ok { sent := none, reqs := c.reqs, rcv := c.rcv }

/-- One turn of `iot_transmit_routine`, on the message that `Fifo_get` gave. -/
def iot_transmit (now : Nat) (r : Receiver) (msg : MsgBuf) : Except Fault Transmitted :=
  match defragment now r msg with
  | .error e => .error e
  | .ok c => send_defragmented msg c

/-- What `iot_transmit_routine` did with the result of `defragment`, if it returned: it released
the slot of a complete packet, or left the receiver alone. -/
theorem send_defragmented_cases {msg : MsgBuf} {c : Collated} {t : Transmitted}
    (hs : send_defragmented msg c = .ok t) : t.reqs = c.reqs ∧
      ((∃ h, c.ret = 0 ∧ c.outFragment = some h ∧
          t.rcv = { c.rcv with table := release_fragment c.rcv.table h }) ∨
        c.ret ≠ 0 ∧ t.rcv = c.rcv) := by
  unfold send_defragmented at hs
  split at hs
  · rename_i hret
    split at hs
    · rename_i h hout
      split at hs
      · cases hs
      · cases hs
        exact ⟨rfl, Or.inl ⟨h, hret, hout, rfl⟩⟩
    · split at hs <;> cases hs
  · rename_i hret
    cases hs
    exact ⟨rfl, Or.inr ⟨hret, rfl⟩⟩

/-! ## How a datagram is cut -/

/-- The loop after `k` turns. -/
def turn (d : List UInt8) (txSeqNum k : Nat) : RxLoop :=
  { rxPayLoad := d, dataPtr := min (MAX_MSG_SIZE * k) d.length
    res := d.length - MAX_MSG_SIZE * k, frgmnts := frgmntsOf d.length
    frgmntIdx := k, txSeqNum }

/-- Fragment `k` of a datagram, in a buffer that held `b`. -/
def filled (d : List UInt8) (txSeqNum k : Nat) (b : MsgBuf) : MsgBuf :=
  { b with
    seqNum := txSeqNum
    msgHeader := { b.msgHeader with
      frgmnts := Fin.ofNat 32 (frgmntsOf d.length), frgmntIdx := Fin.ofNat 32 k }
    msgLen := (frgmntOf d k).length
    data := Buffer.padded MAX_MSG_SIZE 0 (frgmntOf d k) }

theorem iot_read_eq (txSeqNum : Nat) (d : List UInt8) :
    iot_read txSeqNum d = turn d ((txSeqNum + 1) % 2 ^ 8) 0 := by
  simp [iot_read, turn, frgmntsOf, count]

/-- One turn of the loop stores fragment `k`. -/
theorem iot_fill_turn {d : List UInt8} (txSeqNum : Nat) {k : Nat} (b : MsgBuf)
    (hd : d.length ≤ NET_PACKET_SIZE) (hk : k < frgmntsOf d.length) :
    iot_fill (turn d txSeqNum k) b = (turn d txSeqNum (k + 1), filled d txSeqNum k b) := by
  have hlt := lt_frgmntsOf.mp hk
  have h25 := frgmntsOf_le hd
  simp only [NET_PACKET_SIZE] at hd
  have hmin : min (60 * k) d.length = 60 * k := by omega
  have hlen : (if 60 < d.length - 60 * k then 60 else d.length - 60 * k) =
      min 60 (d.length - 60 * k) := by
    split <;> omega
  have hres : (if 60 < d.length - 60 * k then d.length - 60 * k - 60 else 0) =
      d.length - 60 * (k + 1) := by
    split <;> omega
  have hptr : 60 * k + min 60 (d.length - 60 * k) = min (60 * (k + 1)) d.length := by omega
  have hmask : k &&& 31 = k := by
    have : k &&& (2 ^ 5 - 1) = k % 2 ^ 5 := Nat.and_two_pow_sub_one_eq_mod k 5
    rw [show (31 : Nat) = 2 ^ 5 - 1 by rfl, this]
    omega
  have hdata : (d.drop (60 * k)).take (min 60 (d.length - 60 * k)) = frgmntOf d k := by
    unfold frgmntOf block
    exact List.take_eq_take_iff.mpr (by simp)
  have hidx : (k + 1) % 2 ^ 8 = k + 1 := by omega
  simp only [iot_fill, turn, filled, MAX_MSG_SIZE, FRAG_MASK, hmin, hlen, hres, hptr, hmask, hdata,
    hidx, frgmntOf_length]

/-- The loop ends after one turn for each fragment. -/
theorem iot_loop_turn {d : List UInt8} {txSeqNum : Nat} (pool : Nat → MsgBuf)
    (hd : d.length ≤ NET_PACKET_SIZE) (n k fuel : Nat) (hn : k + n = frgmntsOf d.length)
    (hf : n ≤ fuel) :
    iot_loop pool fuel (turn d txSeqNum k) =
      (List.range' k n).map fun i => filled d txSeqNum i (pool i) := by
  induction n generalizing k fuel with
  | zero =>
    have hk := (lt_frgmntsOf (k := k) (n := d.length)).not.mp (by omega)
    have hres : ¬ 0 < (turn d txSeqNum k).res := by
      simp only [turn, MAX_MSG_SIZE]
      omega
    cases fuel with
    | zero => rfl
    | succ fuel => simp [iot_loop, hres]
  | succ n ih =>
    have hk : k < frgmntsOf d.length := by omega
    have hres : 0 < (turn d txSeqNum k).res := by
      have := lt_frgmntsOf.mp hk
      simp only [turn, MAX_MSG_SIZE]
      omega
    cases fuel with
    | zero => omega
    | succ fuel =>
      rw [iot_loop, if_pos hres]
      rw [show (turn d txSeqNum k).frgmntIdx = k by rfl, iot_fill_turn txSeqNum (pool k) hd hk,
        ih (k + 1) fuel (by omega) (by omega)]
      rfl

/-- The messages of a datagram: one for each fragment, in order. -/
theorem messages_eq (pool : Nat → MsgBuf) (txSeqNum : Nat) {d : List UInt8}
    (hd : d.length ≤ NET_PACKET_SIZE) :
    messages pool txSeqNum d = (List.range (frgmntsOf d.length)).map fun i =>
      fusion_header (filled d ((txSeqNum + 1) % 2 ^ 8) i (pool i)) := by
  unfold messages
  rw [iot_read_eq, iot_loop_turn pool hd (frgmntsOf d.length) 0 _ (by omega)
    (frgmntsOf_le_self _), List.map_map, ← List.range_eq_range']
  rfl

end hs_udp_service

end udp_service
