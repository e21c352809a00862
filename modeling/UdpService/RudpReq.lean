-- The receiver (rudp_req.c): the current packet, the requests for lost
-- fragments, the reassembly of one arriving fragment, and the sweep of the
-- slots that timed out.
import UdpService.Fragments

open blocks

namespace udp_service

@[simp] def R_UDP_TIMEOUT : Nat := 40

/-- The state of the receiving end: the fragments table and the `int8_t`
`last_pkt_seq`. -/
structure Receiver where
  table : UdpFragmentsTable
  last_pkt_seq : Int

/-- The receiver before the first packet. -/
def Receiver.init : Receiver := ⟨.init, -1⟩

/-- What a call of `defragment` gives: its return value, `*outFragment`, the
state after it, the packet that it called `rrudp_complete_last_pkt` for, if it did,
and the requests that it sent. -/
structure Collated where
  ret : Int
  outFragment : Option Handle
  rcv : Receiver
  completed : Option Nat
  reqs : List RUdpFragmntReq

namespace rudp_req

open hs_udp_fragments

def term_set_cur_pkt_seq (r : Receiver) (seqNum : Int) : Receiver :=
  { r with last_pkt_seq := seqNum }

/-- An `int8_t` passed as a `uint8_t`. -/
def toUint8 (x : Int) : Nat := (x % 256).toNat

/-- `rrudp_ask_retransmit`: the request that goes out. -/
def rrudp_ask_retransmit (frgmntIdx : Nat) (msgHeader : MsgHeader) : RUdpFragmntReq :=
  { msgCode := MSG_CODE_REQUEST_FRAG, fragmntLost := frgmntIdx, seqNum := msgHeader.seqNum }

/-- `rrudp_complete_last_pkt`: the requests that go out, in order. -/
def rrudp_complete_last_pkt (t : UdpFragmentsTable) (pkt_seq : Nat) : List RUdpFragmntReq :=
  match find_terminal t TERMINAL_ID pkt_seq with
  | none => []
  | some handle =>
    let frag := t.fragments handle
    (List.range frag.frgmnts).filterMap fun i =>
      if frag.frags_mask &&& (1#32 <<< i) = 0 then
        some { msgCode := MSG_CODE_REQUEST_FRAG, fragmntLost := i, seqNum := pkt_seq }
      else none

/-- `retransmit_msg`. -/
def retransmit_msg (msg : MsgBuf) : Bool := msg.msgHeader.msgCode = MSG_CODE_REQUEST_FRAG

/-- The stores of `defragment` into the slot, for a message that fits. -/
def stored (now : Nat) (frag : UdpFragment) (msg : MsgBuf) (h : msg.msgLen ≤ MAX_MSG_SIZE) :
    UdpFragment :=
  { frag with
    data := frag.data.write (msg.msgHeader.frgmntIdx * MAX_MSG_SIZE) (msg.data.bytes msg.msgLen h)
    size := (frag.size + msg.msgLen) % 2 ^ 16
    accumulatedFrgmnts := (frag.accumulatedFrgmnts + 1) % 2 ^ 8
    pktSeqNum := msg.msgHeader.seqNum
    frgmnts := msg.msgHeader.frgmnts
    frags_mask := frag.frags_mask ||| (1#32 <<< msg.msgHeader.frgmntIdx.val)
    lastTime := now
    frgmntIdx := msg.msgHeader.frgmntIdx }

/-- `defragment` once it has a handle. The inner tests of the C code repeat
`frgmntIdx < frgmnts`, so their other branches are dead. -/
def collate (now : Nat) (r : Receiver) (msg : MsgBuf) (handle : Handle) : Except Fault Collated :=
  let hdr := msg.msgHeader
  let completed := if r.last_pkt_seq ≠ hdr.seqNum.val then some (toUint8 r.last_pkt_seq) else none
  let ended := completed.elim [] (rrudp_complete_last_pkt r.table)
  let frag := r.table.fragments handle
  if h : msg.msgLen ≤ MAX_MSG_SIZE ∧
      hdr.frgmntIdx * MAX_MSG_SIZE + msg.msgLen ≤ NET_PACKET_SIZE then
    let frag' := stored now frag msg h.1
    let r := if retransmit_msg msg then r else term_set_cur_pkt_seq r hdr.seqNum.val
    -- The test looks at the index before this message was cached in the slot.
    let gap := if hdr.frgmntIdx.val > frag.frgmntIdx + 1 then
      [rrudp_ask_retransmit (hdr.frgmntIdx.val - 1) hdr] else []
    let r := { r with table := r.table.set handle frag' }
    if hdr.frgmnts.val ≤ frag'.accumulatedFrgmnts then
      .ok { ret := 0, outFragment := some handle, rcv := r, completed, reqs := ended ++ gap }
    else .ok { ret := -1, outFragment := none, rcv := r, completed, reqs := ended ++ gap }
  else .error .copyBounds

/-- The slot that `defragment` finds for a fragment, or takes. -/
def look_up (r : Receiver) (msg : MsgBuf) : Except Fault (Receiver × Handle) :=
  let hdr := msg.msgHeader
  match find_terminal r.table TERMINAL_ID hdr.seqNum with
  | some handle =>
    .ok (if retransmit_msg msg then r else term_set_cur_pkt_seq r hdr.seqNum.val, handle)
  | none =>
    match get_freeFragment r.table TERMINAL_ID hdr.seqNum with
    | .error e => .error e
    | .ok (_, none) => .error .nullStore
    | .ok (table, some handle) => .ok ({ r with table }, handle)

/-- `defragment`, on one message at the time `now`. -/
def defragment (now : Nat) (r : Receiver) (msg : MsgBuf) : Except Fault Collated :=
  if msg.msgHeader.frgmntIdx < msg.msgHeader.frgmnts then
    match look_up r msg with
    | .error e => .error e
    | .ok (r, handle) => collate now r msg handle
  else .ok { ret := 0, outFragment := none, rcv := r, completed := none, reqs := [] }

/-- The slot was last written more than `R_UDP_TIMEOUT` seconds ago. -/
def TimedOut (curTime : Nat) (frag : UdpFragment) : Prop :=
  (curTime : Int) - frag.lastTime > R_UDP_TIMEOUT

instance (curTime : Nat) (frag : UdpFragment) : Decidable (TimedOut curTime frag) :=
  inferInstanceAs (Decidable (_ > _))

/-- One slot in the pass of `r_udp_req_routine` at the time `curTime`. -/
def dumpTimedOut (curTime : Nat) (t : UdpFragmentsTable) (handle : Handle) : UdpFragmentsTable :=
  let frag := t.fragments handle
  if frag.used ∧ TimedOut curTime frag then t.set handle { frag with used := false } else t

/-- One pass of `r_udp_req_routine`. The loops visit the slots below
`MAX_PKTS` of the one row. -/
def r_udp_req_routine (curTime : Nat) (r : Receiver) : Receiver :=
  { r with table := ((List.finRange MAX_PKTS).map slot).foldl (dumpTimedOut curTime) r.table }

/-! ## What the sweep does to a slot -/

theorem dumpTimedOut_fragments (curTime : Nat) (t : UdpFragmentsTable) (k h : Handle) :
    (dumpTimedOut curTime t k).fragments h =
      if h = k ∧ TimedOut curTime (t.fragments h) then { t.fragments h with used := false }
      else t.fragments h := by
  unfold dumpTimedOut
  by_cases hk : h = k
  · subst hk
    by_cases hto : TimedOut curTime (t.fragments h)
    · rcases hf : t.fragments h with ⟨u⟩
      rw [hf] at hto
      cases u <;> simp [hf, hto]
    · simp [hto]
  · simp only [hk, false_and, if_false]
    split
    · exact UdpFragmentsTable.set_ne t _ hk
    · rfl

/-- A pass of the sweep over distinct slots. -/
theorem foldl_dumpTimedOut (curTime : Nat) {hs : List Handle} (hn : hs.Nodup)
    (t : UdpFragmentsTable) (h : Handle) :
    (hs.foldl (dumpTimedOut curTime) t).fragments h =
      if h ∈ hs ∧ TimedOut curTime (t.fragments h) then { t.fragments h with used := false }
      else t.fragments h := by
  induction hs generalizing t with
  | nil => simp
  | cons k ks ih =>
    obtain ⟨hk, hks⟩ := List.nodup_cons.mp hn
    rw [List.foldl_cons, ih hks, dumpTimedOut_fragments]
    by_cases hkh : h = k
    · subst hkh
      simp [hk]
    · simp [hkh]

/-- One pass of the sweep over one slot of the table. -/
theorem r_udp_req_routine_fragments (curTime : Nat) (r : Receiver) (h : Handle) :
    (r_udp_req_routine curTime r).table.fragments h =
      if h ∈ (List.finRange MAX_PKTS).map slot ∧ TimedOut curTime (r.table.fragments h) then
        { r.table.fragments h with used := false }
      else r.table.fragments h := by
  have hn : ((List.finRange MAX_PKTS).map slot).Nodup :=
    (List.nodup_finRange _).map fun _ _ h => slot_inj.mp h
  exact foldl_dumpTimedOut curTime hn r.table h

/-- A pass leaves a slot as it was when it leaves it in use. -/
theorem r_udp_req_routine_kept {curTime : Nat} {r : Receiver} {h : Handle}
    (hused : ((r_udp_req_routine curTime r).table.fragments h).used = true) :
    (r_udp_req_routine curTime r).table.fragments h = r.table.fragments h := by
  rw [r_udp_req_routine_fragments] at hused ⊢
  split_ifs at hused ⊢
  rfl

theorem r_udp_req_routine_unusedIdx (curTime : Nat) (r : Receiver) :
    (r_udp_req_routine curTime r).table.unusedIdx = r.table.unusedIdx := by
  unfold r_udp_req_routine
  simp only
  induction (List.finRange MAX_PKTS).map slot generalizing r with
  | nil => rfl
  | cons k ks ih =>
    have hone : (dumpTimedOut curTime r.table k).unusedIdx = r.table.unusedIdx := by
      unfold dumpTimedOut
      simp only
      split_ifs <;> rfl
    rw [List.foldl_cons, ih { r with table := dumpTimedOut curTime r.table k }]
    exact hone

/-- A pass that leaves a slot in use which was just taken could come before that. -/
theorem r_udp_req_routine_acquired {curTime : Nat} {r : Receiver} {h : Handle} {id : Nat}
    (hused : ((r_udp_req_routine curTime
      { r with table := r.table.acquired h id }).table.fragments h).used = true) :
    r_udp_req_routine curTime { r with table := r.table.acquired h id } =
      { r_udp_req_routine curTime r with
        table := (r_udp_req_routine curTime r).table.acquired h id } := by
  have htable : (r_udp_req_routine curTime { r with table := r.table.acquired h id }).table =
      (r_udp_req_routine curTime r).table.acquired h id := by
    apply UdpFragmentsTable.ext
    · exact r_udp_req_routine_unusedIdx curTime _
    · funext k
      by_cases hk : k = h
      · rw [hk, r_udp_req_routine_kept hused, UdpFragmentsTable.acquired_self,
          UdpFragmentsTable.acquired_self, r_udp_req_routine_fragments]
        split_ifs <;> rfl
      · rw [UdpFragmentsTable.acquired_ne _ _ hk, r_udp_req_routine_fragments,
          r_udp_req_routine_fragments, UdpFragmentsTable.acquired_ne _ _ hk]
  rw [← htable]
  rfl

theorem r_udp_req_routine_slot (curTime : Nat) (r : Receiver) (s : Fin MAX_PKTS) :
    (r_udp_req_routine curTime r).table.fragments (slot s) =
      if TimedOut curTime (r.table.fragments (slot s)) then
        { r.table.fragments (slot s) with used := false }
      else r.table.fragments (slot s) := by
  rw [r_udp_req_routine_fragments]
  simp

/-- The sweep leaves no slot in use for another terminal. -/
theorem sweep_terminalId {r : Receiver}
    (h : ∀ s, (r.table.fragments (slot s)).used = true →
      (r.table.fragments (slot s)).terminalId = TERMINAL_ID) (curTime : Nat) (s : Fin MAX_PKTS)
    (hused : ((r_udp_req_routine curTime r).table.fragments (slot s)).used = true) :
    ((r_udp_req_routine curTime r).table.fragments (slot s)).terminalId = TERMINAL_ID := by
  rw [r_udp_req_routine_slot] at hused ⊢
  split_ifs at hused ⊢
  exact h s hused

/-! ## The slot of a fragment -/

/-- What the look-up gives: the slot in use of the packet, which is the current one from now on
unless the fragment was asked for, or a free slot, which it takes. -/
inductive LookedUp (r : Receiver) (msg : MsgBuf) : Receiver → Handle → Prop
  | found (s : Fin MAX_PKTS) (col : s.val = msg.msgHeader.seqNum.val)
      (used : (r.table.fragments (slot s)).used = true)
      (terminalId : (r.table.fragments (slot s)).terminalId = TERMINAL_ID) :
      LookedUp r msg
        (if retransmit_msg msg then r else term_set_cur_pkt_seq r msg.msgHeader.seqNum.val) (slot s)
  | taken (s : Fin (MAX_PKTS + 1)) (col : s.val = msg.msgHeader.seqNum.val)
      (free : (r.table.fragments (0, s)).used = false) :
      LookedUp r msg { r with table := r.table.acquired (0, s) TERMINAL_ID } (0, s)

section look_up

variable {r r' : Receiver} {msg : MsgBuf} {h : Handle}

theorem lookedUp_of_look_up (hl : look_up r msg = .ok (r', h)) : LookedUp r msg r' h := by
  unfold look_up at hl
  simp only at hl
  split at hl
  · rename_i k hfind
    cases hl
    obtain ⟨s, hs, rfl, hid, hused⟩ := find_terminal_eq_some hfind
    exact .found s hs hused hid
  · rcases Nat.lt_or_ge MAX_PKTS msg.msgHeader.seqNum.val with hhigh | hle
    · rw [get_freeFragment_high _ _ hhigh] at hl
      cases hl
    · have hget := get_freeFragment_inside r.table TERMINAL_ID
        ⟨msg.msgHeader.seqNum.val, Nat.lt_succ_of_le hle⟩
      simp only at hget
      rw [hget] at hl
      split_ifs at hl with hused
      cases hl
      exact .taken _ rfl (Bool.eq_false_iff.mpr hused)

theorem look_up_iff : look_up r msg = .ok (r', h) ↔ LookedUp r msg r' h := by
  refine ⟨lookedUp_of_look_up, ?_⟩
  rintro (⟨s, col, used, terminalId⟩ | ⟨s, col, free⟩)
  · simp only [look_up, ← col, find_terminal_slot, used, terminalId, and_self, if_true]
  · simp only [look_up, ← col, find_terminal_inside, get_freeFragment_inside, free,
      Bool.false_eq_true, and_false, if_false]

theorem LookedUp.col (hl : LookedUp r msg r' h) : h.2.val = msg.msgHeader.seqNum.val := by
  cases hl with
  | found s col used terminalId => exact col
  | taken s col free => exact col

theorem LookedUp.used (hl : LookedUp r msg r' h) : (r'.table.fragments h).used = true := by
  cases hl with
  | found s col used terminalId => split_ifs <;> exact used
  | taken s col free => simp [UdpFragment.opened]

theorem LookedUp.terminalId (hl : LookedUp r msg r' h) :
    (r'.table.fragments h).terminalId = TERMINAL_ID := by
  cases hl with
  | found s col used terminalId => split_ifs <;> exact terminalId
  | taken s col free => simp [UdpFragment.opened]

theorem LookedUp.frame (hl : LookedUp r msg r' h) :
    ∀ k ≠ h, r'.table.fragments k = r.table.fragments k := by
  intro k hk
  cases hl with
  | found s col used terminalId => split_ifs <;> rfl
  | taken s col free => exact UdpFragmentsTable.acquired_ne _ _ hk

theorem LookedUp.current (hl : LookedUp r msg r' h) :
    r'.last_pkt_seq = r.last_pkt_seq ∨ r'.last_pkt_seq = msg.msgHeader.seqNum.val := by
  cases hl with
  | found s col used terminalId =>
    split_ifs
    · exact Or.inl rfl
    · exact Or.inr rfl
  | taken s col free => exact Or.inl rfl

/-- A pass after the look-up that leaves the slot in use could come before it. -/
theorem LookedUp.sweep (hl : LookedUp r msg r' h) {curTime : Nat}
    (hkept : ((r_udp_req_routine curTime r').table.fragments h).used = true) :
    LookedUp (r_udp_req_routine curTime r) msg (r_udp_req_routine curTime r') h := by
  have hself := r_udp_req_routine_kept hkept
  cases hl with
  | found s col used terminalId =>
    have hswept : r_udp_req_routine curTime
        (if retransmit_msg msg then r else term_set_cur_pkt_seq r msg.msgHeader.seqNum.val) =
        if retransmit_msg msg then r_udp_req_routine curTime r
        else term_set_cur_pkt_seq (r_udp_req_routine curTime r) msg.msgHeader.seqNum.val := by
      split_ifs <;> rfl
    have hslot : (r_udp_req_routine curTime r).table.fragments (slot s) =
        r.table.fragments (slot s) := by
      rw [hswept] at hself
      split_ifs at hself <;> exact hself
    rw [hswept]
    exact .found s col (hslot ▸ used) (hslot ▸ terminalId)
  | taken s col free =>
    have hfree : ((r_udp_req_routine curTime r).table.fragments (0, s)).used = false := by
      rw [r_udp_req_routine_fragments]
      split_ifs
      · rfl
      · exact free
    rw [r_udp_req_routine_acquired hkept]
    exact .taken s col hfree

/-- `defragment`, on a fragment whose slot the look-up gives. -/
theorem LookedUp.defragment_eq (hl : LookedUp r msg r' h) (now : Nat)
    (hin : msg.msgHeader.frgmntIdx < msg.msgHeader.frgmnts) :
    defragment now r msg = collate now r' msg h := by
  unfold defragment
  rw [if_pos hin, look_up_iff.mpr hl]

theorem lookedUp_of_defragment {now : Nat} {c : Collated}
    (hin : msg.msgHeader.frgmntIdx < msg.msgHeader.frgmnts) (hc : defragment now r msg = .ok c) :
    ∃ r' h, LookedUp r msg r' h ∧ collate now r' msg h = .ok c := by
  unfold defragment at hc
  rw [if_pos hin] at hc
  split at hc
  · cases hc
  · rename_i r' h hl
    exact ⟨r', h, lookedUp_of_look_up hl, hc⟩

end look_up

/-! ## What a call of `defragment` gives -/

/-- The packet that a call for the packet `seqNum` takes for one that has ended. -/
def endedPkt (r : Receiver) (seqNum : Nat) : Option Nat :=
  if r.last_pkt_seq ≠ seqNum then some (toUint8 r.last_pkt_seq) else none

/-- The end-of-packet requests of a call for the packet `seqNum`. -/
def endRequests (r : Receiver) (seqNum : Nat) : List RUdpFragmntReq :=
  (endedPkt r seqNum).elim [] (rrudp_complete_last_pkt r.table)

/-- The request of the gap test, or none. -/
def gapRequests (frag : UdpFragment) (msgHeader : MsgHeader) : List RUdpFragmntReq :=
  if msgHeader.frgmntIdx.val > frag.frgmntIdx + 1 then
    [rrudp_ask_retransmit (msgHeader.frgmntIdx.val - 1) msgHeader]
  else []

theorem gapRequests_seqNum {frag : UdpFragment} {hdr : MsgHeader} {q : RUdpFragmntReq}
    (h : q ∈ gapRequests frag hdr) : q.seqNum = hdr.seqNum := by
  unfold gapRequests at h
  split_ifs at h
  · rw [List.mem_singleton.mp h]
    rfl
  · cases h

/-- The requests for the missing fragments of a packet carry its number. -/
theorem complete_last_pkt_seqNum {t : UdpFragmentsTable} {p : Nat} {q : RUdpFragmntReq}
    (h : q ∈ rrudp_complete_last_pkt t p) : q.seqNum = p := by
  unfold rrudp_complete_last_pkt at h
  split at h
  · cases h
  · obtain ⟨i, -, hi⟩ := List.mem_filterMap.mp h
    split_ifs at hi
    cases hi
    rfl

/-- `defragment` once it has a handle, on a message that fits. -/
theorem collate_eq (now : Nat) (r : Receiver) (msg : MsgBuf) (h : Handle)
    (hfit : msg.msgLen ≤ MAX_MSG_SIZE ∧
      msg.msgHeader.frgmntIdx * MAX_MSG_SIZE + msg.msgLen ≤ NET_PACKET_SIZE) :
    collate now r msg h =
      let frag' := stored now (r.table.fragments h) msg hfit.1
      let complete := msg.msgHeader.frgmnts.val ≤ frag'.accumulatedFrgmnts
      .ok { ret := if complete then 0 else -1
            outFragment := if complete then some h else none
            rcv := { table := r.table.set h frag'
                     last_pkt_seq := if retransmit_msg msg then r.last_pkt_seq
                       else msg.msgHeader.seqNum.val }
            completed := endedPkt r msg.msgHeader.seqNum
            reqs := endRequests r msg.msgHeader.seqNum ++
              gapRequests (r.table.fragments h) msg.msgHeader } := by
  unfold collate
  simp only [dif_pos hfit]
  split <;> cases retransmit_msg msg <;> rfl

/-- A message that does not fit. -/
theorem collate_unfit (now : Nat) (r : Receiver) {msg : MsgBuf} (h : Handle)
    (hfit : ¬ (msg.msgLen ≤ MAX_MSG_SIZE ∧
      msg.msgHeader.frgmntIdx * MAX_MSG_SIZE + msg.msgLen ≤ NET_PACKET_SIZE)) :
    collate now r msg h = .error .copyBounds := by
  unfold collate
  simp only [dif_neg hfit]

theorem collate_fits {now : Nat} {r : Receiver} {msg : MsgBuf} {h : Handle} {c : Collated}
    (hc : collate now r msg h = .ok c) : msg.msgLen ≤ MAX_MSG_SIZE ∧
      msg.msgHeader.frgmntIdx * MAX_MSG_SIZE + msg.msgLen ≤ NET_PACKET_SIZE := by
  by_contra hfit
  rw [collate_unfit now r h hfit] at hc
  cases hc

/-- The receiver when `defragment` has the slot of a packet: found in use, or
just acquired. -/
def located (r : Receiver) (msg : MsgBuf) (s : Fin MAX_PKTS) : Receiver :=
  if (r.table.fragments (slot s)).used then
    if retransmit_msg msg then r else term_set_cur_pkt_seq r s
  else { r with table := r.table.acquired (slot s) TERMINAL_ID }

theorem located_self (r : Receiver) (msg : MsgBuf) (s : Fin MAX_PKTS) :
    (located r msg s).table.fragments (slot s) =
      if (r.table.fragments (slot s)).used then r.table.fragments (slot s)
      else (r.table.fragments (slot s)).opened TERMINAL_ID := by
  unfold located
  split_ifs
  · rfl
  · rfl
  · exact UdpFragmentsTable.acquired_self _ _ _

theorem located_ne (r : Receiver) (msg : MsgBuf) {s : Fin MAX_PKTS} {k : Handle}
    (hk : k ≠ slot s) : (located r msg s).table.fragments k = r.table.fragments k := by
  unfold located
  split_ifs
  · rfl
  · rfl
  · exact UdpFragmentsTable.acquired_ne _ _ hk

/-- `defragment`, on a fragment under a number below `MAX_PKTS` whose slot is not
in use for another terminal. -/
theorem defragment_eq (now : Nat) {r : Receiver} {msg : MsgBuf} {s : Fin MAX_PKTS}
    (hin : msg.msgHeader.frgmntIdx < msg.msgHeader.frgmnts) (hs : msg.msgHeader.seqNum.val = s)
    (hid : (r.table.fragments (slot s)).used = true →
      (r.table.fragments (slot s)).terminalId = TERMINAL_ID) :
    defragment now r msg = collate now (located r msg s) msg (slot s) := by
  apply LookedUp.defragment_eq _ now hin
  unfold located
  by_cases hused : (r.table.fragments (slot s)).used = true
  · rw [if_pos hused, ← hs]
    exact .found s hs.symm hused (hid hused)
  · rw [if_neg hused]
    exact .taken s.castSucc hs.symm (Bool.eq_false_iff.mpr hused)

/-- At a message that is no request a packet has ended only when the message
acquires its slot. -/
theorem endedPkt_located (r : Receiver) {msg : MsgBuf} (s : Fin MAX_PKTS)
    (hm : retransmit_msg msg = false) : endedPkt (located r msg s) s =
      if (r.table.fragments (slot s)).used ∨ r.last_pkt_seq = s.val then none
      else some (toUint8 r.last_pkt_seq) := by
  unfold endedPkt located
  rw [hm]
  by_cases hused : (r.table.fragments (slot s)).used = true
  · simp [hused, term_set_cur_pkt_seq]
  · by_cases hlast : r.last_pkt_seq = s.val
    · simp [hused, hlast]
    · simp [hused, hlast]

/-- The end-of-packet requests at a message that is no request. -/
theorem endRequests_located (r : Receiver) {msg : MsgBuf} (s : Fin MAX_PKTS)
    (hm : retransmit_msg msg = false) : endRequests (located r msg s) s =
      if (r.table.fragments (slot s)).used ∨ r.last_pkt_seq = s.val then []
      else rrudp_complete_last_pkt (r.table.acquired (slot s) TERMINAL_ID)
        (toUint8 r.last_pkt_seq) := by
  unfold endRequests
  rw [endedPkt_located r s hm]
  split_ifs with hsilent
  · rfl
  · have hused : ¬ (r.table.fragments (slot s)).used = true := fun h => hsilent (Or.inl h)
    simp only [located, if_neg hused, Option.elim_some]

end rudp_req

end udp_service
