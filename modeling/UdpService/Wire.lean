-- The bytes on the wire. A message goes out as the first bytes of its buffer
-- and comes in over the first bytes of another one, and a request is read out
-- of the same bytes. The layout is the one of GCC on a little-endian machine:
-- the bit fields from the lowest bit up, the low byte first.
import UdpService.HsUdpService
import UdpService.RUdp

open blocks

namespace udp_service

namespace wire

open rudp_req hs_udp_service r_udp

/-! ## Layout -/

/-- The 16 bits of the bit fields of a header. -/
def fields (h : MsgHeader) : Nat :=
  h.msgCode.val + 4 * h.frgmntIdx.val + 128 * h.frgmnts.val + 4096 * h.seqNum.val

/-- The bytes of a header. -/
def headerBytes (h : MsgHeader) : Buffer UInt8 MSG_HEADER_SIZE :=
  ![UInt8.ofNat (fields h % 256), UInt8.ofNat (fields h / 256), h.size]

/-- The header in three bytes. -/
def headerOf (m : Buffer UInt8 MSG_HEADER_SIZE) : MsgHeader :=
  let w := (m 0).toNat + 256 * (m 1).toNat
  { msgCode := Fin.ofNat 4 w, frgmntIdx := Fin.ofNat 32 (w / 4), frgmnts := Fin.ofNat 32 (w / 128)
    seqNum := Fin.ofNat 16 (w / 4096), size := m 2 }

/-- The header and the data of a `Msg_Buf_t`. No message is longer. -/
abbrev Raw := Buffer UInt8 (MSG_HEADER_SIZE + MAX_MSG_SIZE)

/-- The bytes at the start of a buffer. -/
def rawOf (b : MsgBuf) : Raw := Fin.append (headerBytes b.msgHeader) b.data

/-- The buffer with other bytes at its start. -/
def withRaw (b : MsgBuf) (m : Raw) : MsgBuf :=
  { b with
    msgHeader := headerOf fun j => m (j.castAdd MAX_MSG_SIZE)
    data := fun j => m (j.natAdd MSG_HEADER_SIZE) }

/-- The bytes that `udp_send` gets for a message. -/
def bytesOf (b : MsgBuf) : List UInt8 :=
  (List.ofFn (rawOf b)).take (b.msgLen + MSG_HEADER_SIZE)

/-- `udp_recv` into a buffer. -/
def udp_recv (b : MsgBuf) (bytes : List UInt8) : MsgBuf := withRaw b ((rawOf b).write 0 bytes)

/-- The bytes that `hub_send_req` sends. The six bits of `pad` are never
stored, so they are whatever the stack held. -/
def hub_send_req (pad : Fin 64) (req : RUdpFragmntReq) : List UInt8 :=
  [UInt8.ofNat (req.msgCode + 4 * pad), UInt8.ofNat req.fragmntLost, UInt8.ofNat req.seqNum]

/-- The request at the start of a buffer: the cast of `&rxMsgPayload`. -/
def asRequest (b : MsgBuf) : RUdpFragmntReq :=
  let m := headerBytes b.msgHeader
  { msgCode := Fin.ofNat 4 (m 0).toNat, fragmntLost := (m 1).toNat, seqNum := (m 2).toNat }

/-! ## From fusion: `fusion_receive_routine` -/

/-- What a turn of `fusion_receive_routine` takes a message for. -/
inductive Received
  | nothing
  | request (req : RUdpFragmntReq)
  | data (msg : MsgBuf)

/-- A turn of `fusion_receive_routine` up to the copy into the buffer of the
pool: `rxMsgPayload` after it, and what came. -/
def fusion_receive (rxMsgPayload : MsgBuf) (bytes : List UInt8) : MsgBuf × Received :=
  let res := bytes.length
  let rx := udp_recv rxMsgPayload bytes
  if 0 < res then
    if rx.msgHeader.msgCode = MSG_CODE_REQUEST_FRAG then (rx, .request (asRequest rx))
    else
      let rx := { rx with msgLen := (res + 2 ^ 16 - MSG_HEADER_SIZE) % 2 ^ 16 }
      (rx, .data rx)
  else (rx, .nothing)

/-! ## Packing and unpacking -/

theorem fields_lt (h : MsgHeader) : fields h < 65536 := by
  unfold fields
  omega

theorem headerOf_headerBytes (h : MsgHeader) : headerOf (headerBytes h) = h := by
  have hw := fields_lt h
  have hlow : (UInt8.ofNat (fields h % 256)).toNat = fields h % 256 := by simp
  have hhigh : (UInt8.ofNat (fields h / 256)).toNat = fields h / 256 := by
    rw [UInt8.toNat_ofNat']
    omega
  have hsum : fields h % 256 + 256 * (fields h / 256) = fields h := by omega
  unfold headerOf headerBytes
  simp only [Matrix.cons_val_zero, Matrix.cons_val_one, Matrix.cons_val, hlow, hhigh, hsum]
  rcases h with ⟨c, i, n, s, z⟩
  unfold fields
  simp only [MsgHeader.mk.injEq, Fin.ext_iff, Fin.val_ofNat, and_true]
  refine ⟨?_, ?_, ?_, ?_⟩ <;> omega

theorem headerBytes_headerOf (m : Buffer UInt8 MSG_HEADER_SIZE) : headerBytes (headerOf m) = m := by
  have h0 := (m 0).toNat_lt
  have h1 := (m 1).toNat_lt
  have hw : fields (headerOf m) = (m 0).toNat + 256 * (m 1).toNat := by
    simp only [fields, headerOf, Fin.val_ofNat]
    omega
  funext j
  unfold headerBytes
  rw [hw]
  fin_cases j
  · apply UInt8.toNat_inj.mp
    simp
  · apply UInt8.toNat_inj.mp
    simp
    omega
  · rfl

@[simp] theorem rawOf_withRaw (b : MsgBuf) (m : Raw) : rawOf (withRaw b m) = m := by
  unfold rawOf withRaw
  rw [headerBytes_headerOf]
  exact Fin.append_castAdd_natAdd

/-! ## What comes in is what went out -/

theorem rawOf_header (b : MsgBuf) (j : Fin MSG_HEADER_SIZE) :
    rawOf b (j.castAdd MAX_MSG_SIZE) = headerBytes b.msgHeader j :=
  Fin.append_left _ _ j

theorem rawOf_data (b : MsgBuf) (j : Fin MAX_MSG_SIZE) :
    rawOf b (j.natAdd MSG_HEADER_SIZE) = b.data j :=
  Fin.append_right _ _ j

theorem bytesOf_length {b : MsgBuf} (h : b.msgLen ≤ MAX_MSG_SIZE) :
    (bytesOf b).length = b.msgLen + MSG_HEADER_SIZE := by
  simp only [bytesOf, List.length_take, List.length_ofFn]
  simp only [MAX_MSG_SIZE, MSG_HEADER_SIZE] at h ⊢
  omega

theorem bytesOf_getElem? (b : MsgBuf) (j : Fin (MSG_HEADER_SIZE + MAX_MSG_SIZE))
    (hj : j.val < b.msgLen + MSG_HEADER_SIZE) : (bytesOf b)[j.val]? = some (rawOf b j) := by
  rw [bytesOf, List.getElem?_take_of_lt hj, List.getElem?_ofFn, dif_pos j.isLt]

/-- The bytes that a message brings replace those that were there. -/
theorem udp_recv_bytesOf (rx b : MsgBuf) :
    (udp_recv rx (bytesOf b)).msgHeader = b.msgHeader ∧
      ∀ j : Fin MAX_MSG_SIZE, j.val < b.msgLen → (udp_recv rx (bytesOf b)).data j = b.data j := by
  have hraw : ∀ j : Fin (MSG_HEADER_SIZE + MAX_MSG_SIZE), j.val < b.msgLen + MSG_HEADER_SIZE →
      (rawOf rx).write 0 (bytesOf b) j = rawOf b j := by
    intro j hj
    simp [Buffer.write, bytesOf_getElem? b j hj]
  constructor
  · have hhdr : (fun j : Fin MSG_HEADER_SIZE =>
        (rawOf rx).write 0 (bytesOf b) (j.castAdd MAX_MSG_SIZE)) = headerBytes b.msgHeader := by
      funext j
      rw [hraw _ (Nat.lt_of_lt_of_le j.isLt (Nat.le_add_left _ _)), rawOf_header]
    simp only [udp_recv, withRaw]
    rw [hhdr, headerOf_headerBytes]
  · intro j hj
    simp only [udp_recv, withRaw]
    rw [hraw _ (by simp only [Fin.val_natAdd]; omega), rawOf_data]

/-- A message with another code than that of a request comes in as it went out,
whatever `rxMsgPayload` held before. -/
theorem fusion_receive_bytesOf (rx : MsgBuf) {b : MsgBuf}
    (hcode : b.msgHeader.msgCode ≠ MSG_CODE_REQUEST_FRAG) (hlen : b.msgLen ≤ MAX_MSG_SIZE) :
    ∃ m, fusion_receive rx (bytesOf b) = (m, .data m) ∧ m.msgHeader = b.msgHeader ∧
      m.msgLen = b.msgLen ∧ ∀ j : Fin MAX_MSG_SIZE, j.val < b.msgLen → m.data j = b.data j := by
  obtain ⟨hhdr, hdata⟩ := udp_recv_bytesOf rx b
  have hcount := bytesOf_length hlen
  have hpos : 0 < (bytesOf b).length := by
    rw [hcount]
    exact Nat.succ_pos _
  unfold fusion_receive
  rw [if_pos hpos, hhdr, if_neg hcode, hcount]
  refine ⟨_, rfl, rfl, ?_, hdata⟩
  simp only [MAX_MSG_SIZE, MSG_HEADER_SIZE] at hlen ⊢
  omega

/-- A request comes in as it went out, whatever the pad bits are. -/
theorem fusion_receive_hub_send_req (rx : MsgBuf) (pad : Fin 64) {req : RUdpFragmntReq}
    (hcode : req.msgCode = MSG_CODE_REQUEST_FRAG) (hidx : req.fragmntLost < 256)
    (hseq : req.seqNum < 256) :
    (fusion_receive rx (hub_send_req pad req)).2 = .request req := by
  have hhdr : headerBytes (udp_recv rx (hub_send_req pad req)).msgHeader =
      ![UInt8.ofNat (req.msgCode + 4 * pad), UInt8.ofNat req.fragmntLost,
        UInt8.ofNat req.seqNum] := by
    funext j
    rw [← rawOf_header, udp_recv, rawOf_withRaw]
    fin_cases j <;> rfl
  have hpad : (UInt8.ofNat (req.msgCode + 4 * pad)).toNat = 2 + 4 * pad := by
    rw [hcode, UInt8.toNat_ofNat']
    simp
    omega
  have hmsg : (udp_recv rx (hub_send_req pad req)).msgHeader.msgCode = MSG_CODE_REQUEST_FRAG := by
    rw [← headerOf_headerBytes (udp_recv rx (hub_send_req pad req)).msgHeader, hhdr]
    simp only [headerOf, Matrix.cons_val_zero, hpad, MSG_CODE_REQUEST_FRAG, Fin.ext_iff,
      Fin.val_ofNat]
    simp
    omega
  have hreq : asRequest (udp_recv rx (hub_send_req pad req)) = req := by
    unfold asRequest
    simp only [hhdr, Matrix.cons_val_zero, Matrix.cons_val_one, Matrix.cons_val, hpad]
    rcases req with ⟨code, idx, seq⟩
    simp only at hcode hidx hseq
    subst hcode
    simp only [RUdpFragmntReq.mk.injEq, UInt8.toNat_ofNat', Fin.ext_iff, Fin.val_ofNat]
    refine ⟨?_, ?_, ?_⟩
    · simp
    · omega
    · omega
  unfold fusion_receive
  simp only [hmsg, hreq, if_true]
  simp [hub_send_req]

/-! ## The law of the codec -/

/-- A fragment buffer that `fusion_transmit_routine` can send. -/
structure Sendable (b : MsgBuf) : Prop where
  pos : 1 ≤ b.msgLen
  le : b.msgLen ≤ MAX_MSG_SIZE
  inside : b.msgHeader.frgmntIdx < b.msgHeader.frgmnts
  few : b.msgHeader.frgmnts ≤ 25
  seqNum : b.seqNum < 256

/-- The message that came carries what the buffer held. -/
structure Carries (m b : MsgBuf) : Prop where
  frgmntIdx : m.msgHeader.frgmntIdx = b.msgHeader.frgmntIdx
  frgmnts : m.msgHeader.frgmnts = b.msgHeader.frgmnts
  size : m.msgHeader.size.toNat = b.msgLen
  seqNum : m.msgHeader.seqNum.val = b.seqNum % 16
  msgLen : m.msgLen = b.msgLen
  data : ∀ j : Fin MAX_MSG_SIZE, j.val < b.msgLen → m.data j = b.data j

/-- A request of the receiver, for a fragment and a number that the header of
a message can name. -/
structure Built (req : RUdpFragmntReq) : Prop where
  made : (∃ i hdr, req = rrudp_ask_retransmit i hdr) ∨ ∃ t s, req ∈ rrudp_complete_last_pkt t s
  fragmntLost : req.fragmntLost < 32
  seqNum : req.seqNum < 16

theorem Built.msgCode {req : RUdpFragmntReq} (h : Built req) :
    req.msgCode = MSG_CODE_REQUEST_FRAG := by
  rcases h.made with ⟨i, hdr, rfl⟩ | ⟨t, s, hs⟩
  · rfl
  · unfold rrudp_complete_last_pkt at hs
    split at hs
    · cases hs
    · obtain ⟨i, -, hi⟩ := List.mem_filterMap.mp hs
      split at hi
      · cases hi
        rfl
      · cases hi

/-- A message with the header of the buffer comes in as the buffer was, but
for the code. -/
theorem received_carries (rx : MsgBuf) {b m : MsgBuf} (h : Sendable b) (code : Fin 4)
    (hcode : code ≠ MSG_CODE_REQUEST_FRAG)
    (hhdr : m.msgHeader = { (fusion_header b).msgHeader with msgCode := code })
    (hlen : m.msgLen = b.msgLen) (hdata : m.data = b.data) :
    (bytesOf m).length = b.msgLen + MSG_HEADER_SIZE ∧
      ∃ m', (fusion_receive rx (bytesOf m)).2 = .data m' ∧ Carries m' b := by
  have hle := h.le
  have hmask : b.seqNum &&& 15 = b.seqNum % 16 := Nat.and_two_pow_sub_one_eq_mod b.seqNum 4
  rw [← hlen] at hle ⊢
  refine ⟨bytesOf_length hle, ?_⟩
  obtain ⟨m', hm', hhdr', hlen', hdata'⟩ :=
    fusion_receive_bytesOf rx (b := m) (by rw [hhdr]; exact hcode) hle
  refine ⟨m', by rw [hm'], ?_⟩
  rw [hhdr] at hhdr'
  rw [hlen] at hlen' hdata'
  rw [hdata] at hdata'
  refine ⟨by rw [hhdr']; rfl, by rw [hhdr']; rfl, ?_, ?_, hlen', hdata'⟩
  · rw [hlen] at hle
    simp only [MAX_MSG_SIZE] at hle
    rw [hhdr']
    simp only [fusion_header, UInt8.toNat_ofNat']
    omega
  · rw [hhdr']
    simp [fusion_header, hmask]

/-- The wire carries every fragment, its retransmissions, whatever code an
earlier one left in the buffer, and every request through unchanged, and tells
them apart. -/
theorem the_wire_keeps_fragments_and_requests_apart (rxMsgPayload : MsgBuf) :
    (∀ b, Sendable b →
      ((bytesOf (fusion_header b)).length = b.msgLen + MSG_HEADER_SIZE ∧
        ∃ m, (fusion_receive rxMsgPayload (bytesOf (fusion_header b))).2 = .data m ∧
          Carries m b) ∧
      ∀ h h' p req code time next,
        h.heap p = { fusion_header b with
          msgHeader := { (fusion_header b).msgHeader with msgCode := code }, time, next } →
        handle_lost_request h req = some (h', some p) →
        (bytesOf (h'.heap p)).length = b.msgLen + MSG_HEADER_SIZE ∧
        ∃ m, (fusion_receive rxMsgPayload (bytesOf (h'.heap p))).2 = .data m ∧ Carries m b) ∧
    ∀ req, Built req → ∀ pad,
      (hub_send_req pad req).length = 3 ∧
      (fusion_receive rxMsgPayload (hub_send_req pad req)).2 = .request req ∧
      ∀ h l, Linked h l → (handle_lost_request h req).map (·.2) = some (l.find? fun p =>
        (h.heap p).msgHeader.frgmntIdx.val = req.fragmntLost ∧
          (h.heap p).msgHeader.seqNum.val = req.seqNum) := by
  refine ⟨fun b hb => ⟨?_, ?_⟩, fun req hreq pad => ⟨rfl, ?_, ?_⟩⟩
  · exact received_carries rxMsgPayload hb MSG_CODE_REG_DATA (by decide) rfl rfl rfl
  · intro h h' p req code time next hp hans
    obtain ⟨-, rfl⟩ := handle_lost_request_eq_some.mp hans
    rw [markReply_linger, hp]
    apply received_carries rxMsgPayload hb MSG_CODE_REPLY_FRAG
    · decide
    · rfl
    · rfl
    · rfl
  · have := hreq.fragmntLost
    have := hreq.seqNum
    exact fusion_receive_hub_send_req rxMsgPayload pad hreq.msgCode (by omega) (by omega)
  · intro h l hl
    unfold handle_lost_request
    rw [hist_find_frag_eq hl]
    change _ = some (l.find? (isFrag h req.fragmntLost req.seqNum))
    cases l.find? (isFrag h req.fragmntLost req.seqNum) <;> rfl

/-- The second of three fragments of packet 17, and a request for it with all
the pad bits set. -/
theorem a_fragment_and_a_request_cross_the_wire :
    (∃ m, (fusion_receive .zero (bytesOf (fusion_header
        { MsgBuf.zero with msgHeader := ⟨0, 1, 3, 0, 0⟩, msgLen := 60, seqNum := 17 }))).2 =
          .data m ∧ m.msgHeader.seqNum.val = 1) ∧
      (fusion_receive .zero (hub_send_req 63 ⟨MSG_CODE_REQUEST_FRAG, 1, 1⟩)).2 =
        .request ⟨MSG_CODE_REQUEST_FRAG, 1, 1⟩ := by
  have hlaw := the_wire_keeps_fragments_and_requests_apart MsgBuf.zero
  constructor
  · obtain ⟨⟨-, m, hm, hc⟩, -⟩ := hlaw.1
      { MsgBuf.zero with msgHeader := ⟨0, 1, 3, 0, 0⟩, msgLen := 60, seqNum := 17 }
      ⟨by decide, by decide, by decide, by decide, by decide⟩
    exact ⟨m, hm, hc.seqNum⟩
  · exact (hlaw.2 ⟨MSG_CODE_REQUEST_FRAG, 1, 1⟩
      ⟨Or.inl ⟨1, ⟨0, 2, 3, 1, 60⟩, rfl⟩, by decide, by decide⟩ 63).2.1

end wire

end udp_service
