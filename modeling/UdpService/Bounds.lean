-- What the receiver does with any bytes from the network: when the copies of a
-- message stay inside their buffers, and when its turn comes to its end.
import UdpService.Downlink
import UdpService.SlotRuns
import UdpService.Reassembly

open blocks

namespace udp_service

namespace bounds

open hs_udp_fragments rudp_req hs_udp_service reassembly wire runs

/-! ## The copies -/

/-- `sizeof(Msg_Buf_t)`: the packed fields, 36 bytes of them behind the data. -/
def MSG_BUF_SIZE : Nat := MSG_HEADER_SIZE + MAX_MSG_SIZE + 36

/-- A datagram comes in over what `rxMsgPayload` held, or the sweep passes. What
`rxMsgPayload` holds is of any kind at every datagram: its fields past the data
are then also those that a longer datagram brings. -/
inductive Event
  | datagram (now : Nat) (rxMsgPayload : MsgBuf) (bytes : List UInt8)
  | sweep (curTime : Nat)

/-- The receiver after one event. A complete packet is released. -/
def step (r : Receiver) : Event → Option Receiver
  | .datagram now rx bytes =>
    match (fusion_receive rx bytes).2 with
    | .data msg => (defragment now r msg).toOption.map released
    | _ => some r
  | .sweep curTime => some (r_udp_req_routine curTime r)

/-- The header in `rxMsgPayload` once the datagram is in it. -/
def headerIn (rxMsgPayload : MsgBuf) (bytes : List UInt8) : MsgHeader :=
  (udp_recv rxMsgPayload bytes).msgHeader

/-- A datagram of 1 to `sizeof(Msg_Buf_t)` bytes. What is not taken for a request
has a number below `MAX_PKTS`. -/
def Receivable : Event → Prop
  | .datagram _ rx bytes => 1 ≤ bytes.length ∧ bytes.length ≤ MSG_BUF_SIZE ∧
      ((headerIn rx bytes).msgCode ≠ MSG_CODE_REQUEST_FRAG →
        (headerIn rx bytes).seqNum.val < MAX_PKTS)
  | .sweep _ => True

/-- The length of a message is that of some data, its copy ends inside the slot,
and after the call no slot is larger than its buffer. -/
def Inside (r : Receiver) : Event → Prop
  | .datagram now rx bytes => ∀ msg, (fusion_receive rx bytes).2 = .data msg →
      msg.msgLen ≤ MAX_MSG_SIZE ∧
      (msg.msgHeader.frgmntIdx < msg.msgHeader.frgmnts →
        msg.msgHeader.frgmntIdx * MAX_MSG_SIZE + msg.msgLen ≤ NET_PACKET_SIZE) ∧
      ∀ c, defragment now r msg = .ok c → ∀ s : Fin MAX_PKTS,
        (c.rcv.table.fragments (slot s)).size ≤ NET_PACKET_SIZE
  | .sweep _ => True

/-- The size that a slot has before a message is stored into it. -/
def sizeBefore (r : Receiver) (s : Fin MAX_PKTS) : Nat :=
  if (r.table.fragments (slot s)).used then (r.table.fragments (slot s)).size else 0

/-- A message has a whole header and no more than `MAX_MSG_SIZE` bytes after it,
and a fragment leaves room for these at its place and in its slot, which has `size`
bytes before. -/
def FitsIn (size : Fin MAX_PKTS → Nat) : Event → Prop
  | .datagram _ rx bytes =>
    let hdr := headerIn rx bytes
    let len := bytes.length - MSG_HEADER_SIZE
    hdr.msgCode ≠ MSG_CODE_REQUEST_FRAG →
      MSG_HEADER_SIZE ≤ bytes.length ∧ bytes.length ≤ MSG_HEADER_SIZE + MAX_MSG_SIZE ∧
      (hdr.frgmntIdx < hdr.frgmnts →
        hdr.frgmntIdx * MAX_MSG_SIZE + len ≤ NET_PACKET_SIZE ∧
        ∀ s : Fin MAX_PKTS, s.val = hdr.seqNum.val → size s + len ≤ NET_PACKET_SIZE)
  | .sweep _ => True

def Fits (r : Receiver) : Event → Prop := FitsIn (sizeBefore r)

instance decidableReceivable : ∀ e, Decidable (Receivable e)
  | .datagram .. => inferInstanceAs (Decidable (_ ∧ _ ∧ (_ → _)))
  | .sweep _ => isTrue trivial

instance decidableFitsIn (size : Fin MAX_PKTS → Nat) : ∀ e, Decidable (FitsIn size e)
  | .datagram .. => inferInstanceAs (Decidable (_ → _ ∧ _ ∧ (_ → _ ∧ ∀ _s : Fin MAX_PKTS, _ → _)))
  | .sweep _ => isTrue trivial

instance (r : Receiver) (e : Event) : Decidable (Fits r e) :=
  inferInstanceAs (Decidable (FitsIn _ e))

/-- The length of the fragment for the slot, when the event brings one. -/
def lengthFor (s : Fin MAX_PKTS) : Event → List Nat
  | .datagram _ rx bytes =>
    match (fusion_receive rx bytes).2 with
    | .data msg =>
      if msg.msgHeader.frgmntIdx < msg.msgHeader.frgmnts ∧ msg.msgHeader.seqNum.val = s.val then
        [msg.msgLen]
      else []
    | _ => []
  | .sweep _ => []

/-- The receiver, and for each slot the lengths of the fragments that came since it was
acquired. -/
structure Measured where
  rcv : Receiver
  lengths : Fin MAX_PKTS → List Nat

def Measured.init : Measured := ⟨.init, fun _ => []⟩

def measure (g : Measured) (e : Event) : Option Measured :=
  (step g.rcv e).map fun r =>
    ⟨r, fun s => if (r.table.fragments (slot s)).used then g.lengths s ++ lengthFor s e else []⟩

/-- The event fits into what the lengths leave of a slot. -/
def FitsLengths (g : Measured) : Event → Prop := FitsIn fun s => (g.lengths s).sum

/-- No slot is in use for another terminal, and none is larger than its buffer. -/
structure Roomy (r : Receiver) : Prop where
  terminalId : ∀ s, (r.table.fragments (slot s)).used = true →
    (r.table.fragments (slot s)).terminalId = TERMINAL_ID
  size : ∀ s, (r.table.fragments (slot s)).size ≤ NET_PACKET_SIZE

theorem Roomy.init : Roomy .init := ⟨fun _ _ => rfl, fun _ => Nat.zero_le _⟩

theorem Roomy.sweep {r : Receiver} (h : Roomy r) (curTime : Nat) :
    Roomy (r_udp_req_routine curTime r) := by
  refine ⟨sweep_terminalId h.terminalId curTime, ?_⟩
  intro s
  rw [r_udp_req_routine_slot]
  split_ifs
  · exact h.size s
  · exact h.size s

/-- What a datagram is taken for: a request, or the message in `rxMsgPayload`. Its
length is what the datagram has behind the header, in 16 bits. -/
theorem fusion_receive_datagram (rx : MsgBuf) {bytes : List UInt8} (hpos : 1 ≤ bytes.length) :
    ∃ msg req, msg.msgHeader = headerIn rx bytes ∧
      msg.msgLen = (bytes.length + 2 ^ 16 - MSG_HEADER_SIZE) % 2 ^ 16 ∧
      (fusion_receive rx bytes).2 =
        if (headerIn rx bytes).msgCode = MSG_CODE_REQUEST_FRAG then .request req
        else .data msg := by
  refine ⟨{ udp_recv rx bytes with
    msgLen := (bytes.length + 2 ^ 16 - MSG_HEADER_SIZE) % 2 ^ 16 },
    asRequest (udp_recv rx bytes), rfl, rfl, ?_⟩
  have hres : 0 < bytes.length := hpos
  unfold fusion_receive headerIn
  simp only [hres, if_true]
  split_ifs <;> rfl

theorem msgLen_le_iff {n : Nat} (hpos : 1 ≤ n) (hle : n ≤ MSG_BUF_SIZE) :
    (n + 2 ^ 16 - MSG_HEADER_SIZE) % 2 ^ 16 ≤ MAX_MSG_SIZE ↔
      MSG_HEADER_SIZE ≤ n ∧ n ≤ MSG_HEADER_SIZE + MAX_MSG_SIZE := by
  simp only [MSG_BUF_SIZE, MSG_HEADER_SIZE, MAX_MSG_SIZE] at hle ⊢
  omega

/-- What a call of `defragment` leaves of a message that fits: its slot with the
message stored, the other slots as they were. -/
theorem defragment_slots (now : Nat) {r : Receiver} {msg : MsgBuf} {s : Fin MAX_PKTS}
    (h : Roomy r) (hs : msg.msgHeader.seqNum.val = s)
    (hin : msg.msgHeader.frgmntIdx < msg.msgHeader.frgmnts)
    (hfit : msg.msgLen ≤ MAX_MSG_SIZE ∧
      msg.msgHeader.frgmntIdx * MAX_MSG_SIZE + msg.msgLen ≤ NET_PACKET_SIZE) :
    ∃ c, defragment now r msg = .ok c ∧
      (c.rcv.table.fragments (slot s)).size = (sizeBefore r s + msg.msgLen) % 2 ^ 16 ∧
      (c.rcv.table.fragments (slot s)).terminalId = TERMINAL_ID ∧
      ∀ k ≠ slot s, c.rcv.table.fragments k = r.table.fragments k := by
  rw [defragment_eq now hin hs (h.terminalId s), collate_eq _ _ _ _ hfit]
  refine ⟨_, rfl, ?_, ?_, ?_⟩
  · simp only [UdpFragmentsTable.set_self, stored]
    rw [located_self]
    unfold sizeBefore
    split_ifs <;> rfl
  · simp only [UdpFragmentsTable.set_self, stored]
    rw [located_self]
    split_ifs with hused
    · exact h.terminalId s hused
    · rfl
  · intro k hk
    simp only [UdpFragmentsTable.set_ne _ _ hk]
    exact located_ne _ _ hk

theorem Roomy.sizeBefore_le {r : Receiver} (h : Roomy r) (s : Fin MAX_PKTS) :
    sizeBefore r s ≤ NET_PACKET_SIZE := by
  unfold sizeBefore
  split_ifs
  · exact h.size s
  · exact Nat.zero_le _

theorem defragment_single {now : Nat} {r : Receiver} {msg : MsgBuf}
    (h : ¬ msg.msgHeader.frgmntIdx < msg.msgHeader.frgmnts) :
    defragment now r msg =
      .ok { ret := 0, outFragment := none, rcv := r, completed := none, reqs := [] } := by
  unfold defragment
  rw [if_neg h]

/-- The sizes after a call on a fragment that fits: within the buffer exactly when
the slot has room for it. -/
theorem sizes_iff {now : Nat} {r : Receiver} {msg : MsgBuf} {s : Fin MAX_PKTS} (h : Roomy r)
    (hs : msg.msgHeader.seqNum.val = s) (hin : msg.msgHeader.frgmntIdx < msg.msgHeader.frgmnts)
    (hfit : msg.msgLen ≤ MAX_MSG_SIZE ∧
      msg.msgHeader.frgmntIdx * MAX_MSG_SIZE + msg.msgLen ≤ NET_PACKET_SIZE) :
    (∀ c, defragment now r msg = .ok c → ∀ s : Fin MAX_PKTS,
        (c.rcv.table.fragments (slot s)).size ≤ NET_PACKET_SIZE) ↔
      sizeBefore r s + msg.msgLen ≤ NET_PACKET_SIZE := by
  obtain ⟨c, hc, hsize, -, hframe⟩ := defragment_slots now h hs hin hfit
  have hbefore := h.sizeBefore_le s
  have hlen := hfit.1
  have hnowrap : (sizeBefore r s + msg.msgLen) % 2 ^ 16 = sizeBefore r s + msg.msgLen := by
    apply Nat.mod_eq_of_lt
    simp only [NET_PACKET_SIZE, MAX_MSG_SIZE] at hbefore hlen
    omega
  rw [hnowrap] at hsize
  refine ⟨?_, ?_⟩
  · intro hall
    rw [← hsize]
    exact hall c hc s
  · intro hroom c' hc' s'
    obtain rfl : c = c' := Except.ok.inj (hc.symm.trans hc')
    by_cases hss : slot s' = slot s
    · rw [hss, hsize]
      exact hroom
    · rw [hframe _ hss]
      exact h.size s'

/-- In a state that is as it should be, the copies of an event stay inside exactly
when the event fits. -/
theorem inside_iff_fits {r : Receiver} {e : Event} (h : Roomy r) (he : Receivable e) :
    Inside r e ↔ Fits r e := by
  cases e with
  | datagram now rx bytes =>
    obtain ⟨hpos, hle, hseq⟩ := he
    obtain ⟨msg, req, hhdr, hlen, hrx⟩ := fusion_receive_datagram rx hpos
    have hhead := msgLen_le_iff hpos hle
    rw [← hlen] at hhead
    simp only [Inside, Fits, FitsIn, hrx]
    split_ifs with hreq
    · simp [hreq]
    simp only [Received.data.injEq, forall_eq', ne_eq, hreq, not_false_eq_true, true_imp_iff]
    rw [← hhdr] at hseq hreq ⊢
    rw [hhead, and_assoc]
    apply and_congr_right
    intro hwhole
    apply and_congr_right
    intro hshort
    have hlen' : msg.msgLen = bytes.length - MSG_HEADER_SIZE := by
      rw [hlen]
      simp only [MSG_BUF_SIZE, MSG_HEADER_SIZE, MAX_MSG_SIZE] at hle hwhole ⊢
      omega
    rw [← hlen']
    obtain ⟨s, hs⟩ : ∃ s : Fin MAX_PKTS, msg.msgHeader.seqNum.val = s.val :=
      ⟨⟨_, hseq hreq⟩, rfl⟩
    by_cases hin : msg.msgHeader.frgmntIdx < msg.msgHeader.frgmnts
    · simp only [hin, true_imp_iff]
      apply and_congr_right
      intro hcopy
      rw [sizes_iff h hs hin ⟨hhead.mpr ⟨hwhole, hshort⟩, hcopy⟩]
      refine ⟨?_, fun hall => hall s hs.symm⟩
      intro hroom s' hs'
      obtain rfl : s' = s := Fin.ext (hs'.trans hs)
      exact hroom
    · simp only [hin, false_imp_iff, true_and, iff_true]
      intro c hc s'
      rw [defragment_single hin] at hc
      cases hc
      exact h.size s'
  | sweep curTime => exact Iff.rfl

theorem Roomy.released {now : Nat} {r : Receiver} {msg : MsgBuf} {c : Collated} (h : Roomy r)
    (hseq : msg.msgHeader.seqNum.val < MAX_PKTS)
    (hfit : msg.msgHeader.frgmntIdx < msg.msgHeader.frgmnts → msg.msgLen ≤ MAX_MSG_SIZE ∧
      msg.msgHeader.frgmntIdx * MAX_MSG_SIZE + msg.msgLen ≤ NET_PACKET_SIZE)
    (hsizes : ∀ s : Fin MAX_PKTS, (c.rcv.table.fragments (slot s)).size ≤ NET_PACKET_SIZE)
    (hc : defragment now r msg = .ok c) : Roomy (released c) := by
  by_cases hin : msg.msgHeader.frgmntIdx < msg.msgHeader.frgmnts
  · obtain ⟨s, hs⟩ : ∃ s : Fin MAX_PKTS, msg.msgHeader.seqNum.val = s.val := ⟨⟨_, hseq⟩, rfl⟩
    obtain ⟨c', hc', -, hid, hframe⟩ := defragment_slots now h hs hin (hfit hin)
    obtain rfl : c' = c := Except.ok.inj (hc'.symm.trans hc)
    refine ⟨released_terminalId ?_, ?_⟩
    · intro k hused
      by_cases hk : slot k = slot s
      · rw [hk]
        exact hid
      · rw [hframe _ hk] at hused ⊢
        exact h.terminalId k hused
    · intro k
      rw [released_fragments]
      split_ifs
      · exact Nat.zero_le _
      · exact hsizes k
  · rw [defragment_single hin] at hc
    cases hc
    exact h

theorem Roomy.step {r r' : Receiver} {e : Event} (h : Roomy r) (he : Receivable e)
    (hfits : Fits r e) (hs : step r e = some r') : Roomy r' := by
  have hinside := (inside_iff_fits h he).mpr hfits
  cases e with
  | datagram now rx bytes =>
    obtain ⟨hpos, -, hseq⟩ := he
    obtain ⟨msg, req, hhdr, -, hrx⟩ := fusion_receive_datagram rx hpos
    simp only [bounds.step, hrx] at hs
    simp only [Inside, hrx] at hinside
    split_ifs at hs hinside with hreq
    · cases hs
      exact h
    · obtain ⟨hlen, hcopy, hsizes⟩ := hinside msg rfl
      have hnum : msg.msgHeader.seqNum.val < MAX_PKTS := by
        rw [hhdr]
        exact hseq hreq
      simp only at hs
      rcases hc : defragment now r msg with _ | c
      · simp [hc, Except.toOption] at hs
      · simp only [hc, Except.toOption, Option.map_some, Option.some.injEq] at hs
        rw [← hs]
        exact h.released hnum (fun hin => ⟨hlen, hcopy hin⟩) (hsizes c hc) hc
  | sweep curTime =>
    cases hs
    exact h.sweep curTime

/-- An event that fits makes a slot in use larger by the fragment that it brings. -/
theorem size_step {r r' : Receiver} {e : Event} {s : Fin MAX_PKTS} (h : Roomy r)
    (he : Receivable e) (hfits : Fits r e) (hs : step r e = some r')
    (hused : (r'.table.fragments (slot s)).used = true) :
    (r'.table.fragments (slot s)).size = sizeBefore r s + (lengthFor s e).sum := by
  have hinside := (inside_iff_fits h he).mpr hfits
  cases e with
  | datagram now rx bytes =>
    obtain ⟨hpos, -, hseq⟩ := he
    obtain ⟨msg, req, hhdr, -, hrx⟩ := fusion_receive_datagram rx hpos
    simp only [bounds.step, hrx] at hs
    simp only [Inside, hrx] at hinside
    simp only [lengthFor, hrx]
    split_ifs at hs hinside ⊢ with hreq
    · cases hs
      simp [sizeBefore, hused]
    simp only at hs ⊢
    obtain ⟨hlen, hcopy, hsizes⟩ := hinside msg rfl
    obtain ⟨s', hs'⟩ : ∃ s' : Fin MAX_PKTS, msg.msgHeader.seqNum.val = s'.val :=
      ⟨⟨_, by rw [hhdr]; exact hseq hreq⟩, rfl⟩
    by_cases hin : msg.msgHeader.frgmntIdx < msg.msgHeader.frgmnts
    · obtain ⟨c, hc, hsize, -, hframe⟩ := defragment_slots now h hs' hin ⟨hlen, hcopy hin⟩
      have hroom := (sizes_iff h hs' hin ⟨hlen, hcopy hin⟩).mp hsizes
      simp only [hc, Except.toOption, Option.map_some, Option.some.injEq] at hs
      have hkept : r'.table.fragments (slot s) = c.rcv.table.fragments (slot s) := by
        rw [← hs, released_fragments] at hused ⊢
        split_ifs at hused ⊢
        · cases hused
        · rfl
      rw [hkept] at hused ⊢
      by_cases hfor : msg.msgHeader.seqNum.val = s.val
      · obtain rfl : s' = s := Fin.ext (hs'.symm.trans hfor)
        rw [if_pos ⟨hin, hfor⟩, hsize, List.sum_singleton, Nat.mod_eq_of_lt]
        exact hroom.trans_lt (by decide)
      · have hne : slot s ≠ slot s' := fun heq => hfor (by rw [hs', slot_inj.mp heq])
        rw [if_neg fun h => hfor h.2]
        rw [hframe _ hne] at hused ⊢
        rw [sizeBefore, if_pos hused]
        rfl
    · rw [defragment_single hin] at hs
      cases hs
      have hsame : (r.table.fragments (slot s)).used = true := hused
      rw [if_neg fun hfor => hin hfor.1, sizeBefore, if_pos hsame]
      rfl
  | sweep curTime =>
    cases hs
    have hkept := r_udp_req_routine_kept hused
    rw [hkept] at hused ⊢
    simp [sizeBefore, hused, lengthFor]

theorem measure_step {g g' : Measured} {e : Event} (h : Roomy g.rcv) (he : Receivable e)
    (hfits : Fits g.rcv e) (hsum : ∀ s, sizeBefore g.rcv s = (g.lengths s).sum)
    (hs : measure g e = some g') :
    Roomy g'.rcv ∧ ∀ s, sizeBefore g'.rcv s = (g'.lengths s).sum := by
  obtain ⟨r', hr', rfl⟩ := Option.map_eq_some_iff.mp hs
  refine ⟨h.step he hfits hr', fun s => ?_⟩
  change sizeBefore r' s = (if (r'.table.fragments (slot s)).used then g.lengths s ++ lengthFor s e
    else []).sum
  by_cases hused : (r'.table.fragments (slot s)).used = true
  · rw [if_pos hused, List.sum_append, ← hsum, ← size_step h he hfits hr' hused, sizeBefore,
      if_pos hused]
  · rw [if_neg hused, sizeBefore, if_neg hused]
    rfl

/-- Whatever comes from the network, the copies stay inside their buffers exactly
as long as the messages fit: into the slot as it is, or, what comes to the same, into
what the fragments leave that came since it was acquired. The code checks neither
their length nor their index. -/
theorem copies_inside_iff_fits (es : List Event) (hes : ∀ e ∈ es, Receivable e) :
    (Guarded step Inside .init es ↔ Guarded step Fits .init es) ∧
      (Guarded step Fits .init es ↔ Guarded measure FitsLengths .init es) := by
  refine ⟨guarded_congr_all (fun _ e he h => inside_iff_fits h (hes e he))
    (fun _ e he _ h hfits hs => h.step (hes e he) hfits hs) Roomy.init, ?_⟩
  have hproj : Guarded measure (fun g e => Fits g.rcv e) .init es ↔ Guarded step Fits .init es := by
    apply guarded_proj Measured.rcv
    intro g e
    simp [measure, Option.map_map, Function.comp_def]
  rw [← hproj]
  have hsame : ∀ g : Measured, (∀ s, sizeBefore g.rcv s = (g.lengths s).sum) → ∀ e,
      Fits g.rcv e ↔ FitsLengths g e := by
    intro g hsum e
    unfold Fits FitsLengths
    rw [funext hsum]
  exact guarded_congr_all
    (I := fun g => Roomy g.rcv ∧ ∀ s, sizeBefore g.rcv s = (g.lengths s).sum)
    (fun g e _ h => hsame g h.2 e)
    (fun g e he _ h hfits hs => measure_step h.1 (hes e he) ((hsame g h.2 e).mpr hfits) h.2 hs)
    ⟨Roomy.init, fun _ => rfl⟩

/-- The first of two fragments, number 1, with two bytes of data. -/
def firstOfTwo : List UInt8 := [0x00, 0x11, 2, 7, 8]

theorem the_first_of_two_stays_inside :
    Guarded step Inside .init [.datagram 0 .zero firstOfTwo] :=
  (copies_inside_iff_fits _ (by decide +kernel)).1.mpr (by decide +kernel)

/-- The same fragment with 61 bytes of data overruns the buffers of 60. -/
theorem a_long_fragment_overruns :
    ¬ ∀ es, (∀ e ∈ es, Receivable e) → Guarded step Inside .init es := by
  intro hall
  have hrec : ∀ e ∈ [Event.datagram 0 .zero ([0x00, 0x11, 61] ++ List.replicate 61 0)],
      Receivable e := by decide +kernel
  obtain ⟨hinside, -⟩ := hall _ hrec
  have hfits := (inside_iff_fits Roomy.init (hrec _ List.mem_cons_self)).mp hinside
  exact absurd hfits (by decide +kernel)

/-! ## A turn of `iot_transmit_routine` -/

/-- The slot as a fragment finds it: in use, or just opened. -/
def entered (f : UdpFragment) : UdpFragment := if f.used then f else f.opened TERMINAL_ID

/-- The slot can take a fragment under the number: it is free, or the lookup sees
it. -/
def Serves (f : UdpFragment) (seqNum : Nat) : Prop :=
  f.used = true → seqNum < MAX_PKTS ∧ f.terminalId = TERMINAL_ID

/-- The bytes of a message stay inside the buffers, and so does the packet when
this fragment completes it. -/
def HasRoom (f : UdpFragment) (msg : MsgBuf) : Prop :=
  (msg.msgLen ≤ MAX_MSG_SIZE ∧
    msg.msgHeader.frgmntIdx * MAX_MSG_SIZE + msg.msgLen ≤ NET_PACKET_SIZE) ∧
  (msg.msgHeader.frgmnts.val ≤ (f.accumulatedFrgmnts + 1) % 2 ^ 8 →
    (f.size + msg.msgLen) % 2 ^ 16 ≤ NET_PACKET_SIZE)

/-- The message is a fragment, its number has a slot that can take it, and the
slot has room. -/
def Lands (r : Receiver) (msg : MsgBuf) : Prop :=
  msg.msgHeader.frgmntIdx < msg.msgHeader.frgmnts ∧
  ∃ s : Fin (MAX_PKTS + 1), s.val = msg.msgHeader.seqNum.val ∧
    Serves (r.table.fragments (0, s)) s ∧ HasRoom (entered (r.table.fragments (0, s))) msg

instance (f : UdpFragment) (seqNum : Nat) : Decidable (Serves f seqNum) :=
  inferInstanceAs (Decidable (_ → _))

instance (f : UdpFragment) (msg : MsgBuf) : Decidable (HasRoom f msg) :=
  inferInstanceAs (Decidable (_ ∧ (_ → _)))

instance (r : Receiver) (msg : MsgBuf) : Decidable (Lands r msg) :=
  inferInstanceAs (Decidable (_ ∧ ∃ _s : Fin (MAX_PKTS + 1), _))

/-- The turn of `iot_transmit_routine` on the buffer `p` comes to its end: the
buffer is back in the FIFO, once. A single packet went out as it is, and no
packet without a slot did. Neither touched the table. -/
def Handled (s : downlink.Downlink) (now : Nat) (p : Ptr) : Prop :=
  let msg := s.heap p
  let hdr := msg.msgHeader
  ∃ t s', iot_transmit now s.rcv msg = .ok t ∧ downlink.step s (.iotSend now) = some s' ∧
    s'.iot = none ∧ s'.fusionThrInFifo = s.fusionThrInFifo ++ [p] ∧
    (hdr.frgmnts ≤ hdr.frgmntIdx →
      (∃ h, t.sent = some (msg.data.bytes msg.msgLen h)) ∧ s'.rcv.table = s.rcv.table) ∧
    (hdr.frgmntIdx < hdr.frgmnts → find_terminal s.rcv.table TERMINAL_ID hdr.seqNum = none →
      get_freeFragment s.rcv.table TERMINAL_ID hdr.seqNum = .ok (s.rcv.table, none) →
        t.sent = none ∧ s'.rcv.table = s.rcv.table)

theorem Serves.lookedUp {r : Receiver} {msg : MsgBuf} {s : Fin (MAX_PKTS + 1)}
    (h : Serves (r.table.fragments (0, s)) s) (hs : s.val = msg.msgHeader.seqNum.val) :
    ∃ r', LookedUp r msg r' (0, s) := by
  by_cases hused : (r.table.fragments (0, s)).used = true
  · obtain ⟨hlow, hid⟩ := h hused
    exact ⟨_, .found ⟨s.val, hlow⟩ hs hused hid⟩
  · exact ⟨_, .taken s hs (Bool.eq_false_iff.mpr hused)⟩

theorem serves_of_lookedUp {r r' : Receiver} {msg : MsgBuf} {h : Handle}
    (hl : LookedUp r msg r' h) : Serves (r.table.fragments h) h.2 := by
  cases hl with
  | found s col used terminalId => exact fun _ => ⟨s.isLt, terminalId⟩
  | taken s col free => exact fun hused => absurd (free.symm.trans hused) Bool.false_ne_true

theorem entered_of_lookedUp {r r' : Receiver} {msg : MsgBuf} {h : Handle}
    (hl : LookedUp r msg r' h) : r'.table.fragments h = entered (r.table.fragments h) := by
  unfold entered
  cases hl with
  | found s col used terminalId =>
    rw [if_pos used]
    split_ifs <;> rfl
  | taken s col free =>
    rw [free, if_neg Bool.false_ne_true]
    exact UdpFragmentsTable.acquired_self _ _ _

theorem defragment_serves (now : Nat) {r : Receiver} {msg : MsgBuf} {s : Fin (MAX_PKTS + 1)}
    (hin : msg.msgHeader.frgmntIdx < msg.msgHeader.frgmnts) (hs : s.val = msg.msgHeader.seqNum.val)
    (h : Serves (r.table.fragments (0, s)) s) :
    ∃ r', LookedUp r msg r' (0, s) ∧
      r'.table.fragments (0, s) = entered (r.table.fragments (0, s)) ∧
      defragment now r msg = collate now r' msg (0, s) := by
  obtain ⟨r', hl⟩ := h.lookedUp hs
  exact ⟨r', hl, entered_of_lookedUp hl, hl.defragment_eq now hin⟩

theorem defragment_turned_away (now : Nat) {r : Receiver} {msg : MsgBuf}
    (hin : msg.msgHeader.frgmntIdx < msg.msgHeader.frgmnts)
    (h : ∀ s : Fin (MAX_PKTS + 1), s.val = msg.msgHeader.seqNum.val →
      ¬ Serves (r.table.fragments (0, s)) s) : ∃ e, defragment now r msg = .error e := by
  rcases hc : defragment now r msg with e | c
  · exact ⟨e, rfl⟩
  · obtain ⟨r', k, hl, -⟩ := lookedUp_of_defragment hin hc
    have hk : k = (0, k.2) := handle_ext rfl
    have hserves := serves_of_lookedUp hl
    rw [hk] at hserves
    exact absurd hserves (h k.2 hl.col)

theorem iot_transmit_complete {now : Nat} {r : Receiver} {msg : MsgBuf} {c : Collated} {h : Handle}
    (hc : defragment now r msg = .ok c) (hret : c.ret = 0) (hout : c.outFragment = some h) :
    (∃ t, iot_transmit now r msg = .ok t) ↔
      (c.rcv.table.fragments h).size ≤ NET_PACKET_SIZE := by
  unfold iot_transmit send_defragmented payload
  simp only [hc, hret, if_true, hout]
  by_cases hsize : (c.rcv.table.fragments h).size ≤ NET_PACKET_SIZE
  · simp only [hsize, iff_true]
    exact ⟨_, rfl⟩
  · simp only [hsize, iff_false]
    rintro ⟨t, ht⟩
    cases ht

theorem iot_transmit_incomplete {now : Nat} {r : Receiver} {msg : MsgBuf} {c : Collated}
    (hc : defragment now r msg = .ok c) (hret : c.ret = -1) :
    ∃ t, iot_transmit now r msg = .ok t := by
  unfold iot_transmit send_defragmented
  simp only [hc, hret]
  exact ⟨_, rfl⟩

/-- The turn on a message that `defragment` stores ends exactly when there is
room. -/
theorem iot_transmit_collate {now : Nat} {r r' : Receiver} {msg : MsgBuf} {h : Handle}
    (hc : defragment now r msg = collate now r' msg h) :
    (∃ t, iot_transmit now r msg = .ok t) ↔ HasRoom (r'.table.fragments h) msg := by
  unfold HasRoom
  by_cases hfit : msg.msgLen ≤ MAX_MSG_SIZE ∧
      msg.msgHeader.frgmntIdx * MAX_MSG_SIZE + msg.msgLen ≤ NET_PACKET_SIZE
  · have hacc : (stored now (r'.table.fragments h) msg hfit.1).accumulatedFrgmnts =
        ((r'.table.fragments h).accumulatedFrgmnts + 1) % 2 ^ 8 := rfl
    have hsize : (stored now (r'.table.fragments h) msg hfit.1).size =
        ((r'.table.fragments h).size + msg.msgLen) % 2 ^ 16 := rfl
    rw [← hacc, ← hsize, and_iff_right hfit]
    rw [collate_eq now r' msg h hfit] at hc
    by_cases hall : msg.msgHeader.frgmnts.val ≤
        (stored now (r'.table.fragments h) msg hfit.1).accumulatedFrgmnts
    · simp only [if_pos hall] at hc
      rw [iot_transmit_complete hc rfl rfl, UdpFragmentsTable.set_self]
      simp only [hall, true_imp_iff]
    · simp only [if_neg hall] at hc
      have hends := iot_transmit_incomplete hc rfl
      simp only [hall, false_imp_iff, iff_true]
      exact hends
  · unfold iot_transmit send_defragmented
    simp only [hc, collate_unfit now r' h hfit, hfit, false_and, iff_false]
    rintro ⟨t, ht⟩
    cases ht

theorem iot_transmit_ok_iff (now : Nat) {r : Receiver} {msg : MsgBuf} :
    (∃ t, iot_transmit now r msg = .ok t) ↔ Lands r msg := by
  by_cases hin : msg.msgHeader.frgmntIdx < msg.msgHeader.frgmnts
  · by_cases hserves : ∃ s : Fin (MAX_PKTS + 1), s.val = msg.msgHeader.seqNum.val ∧
        Serves (r.table.fragments (0, s)) s
    · obtain ⟨s, hs, hserves⟩ := hserves
      obtain ⟨r', -, hslot, hc⟩ := defragment_serves now hin hs hserves
      rw [iot_transmit_collate hc, hslot]
      refine ⟨fun hroom => ⟨hin, s, hs, hserves, hroom⟩, ?_⟩
      rintro ⟨-, s', hs', -, hroom⟩
      obtain rfl : s' = s := Fin.ext (hs'.trans hs.symm)
      exact hroom
    · push Not at hserves
      obtain ⟨e, he⟩ := defragment_turned_away now hin hserves
      unfold iot_transmit send_defragmented
      rw [he]
      refine ⟨?_, ?_⟩
      · rintro ⟨t, ht⟩
        cases ht
      · rintro ⟨-, s, hs, hs', -⟩
        exact absurd hs' (hserves s hs)
  · unfold iot_transmit send_defragmented
    rw [defragment_single hin]
    refine ⟨?_, fun h => absurd h.1 hin⟩
    rintro ⟨t, ht⟩
    simp only [if_true] at ht
    split_ifs at ht

/-- What a turn does that found the slot of its packet free: the slot is opened for
the message, and a packet of one fragment leaves it again. -/
theorem iot_transmit_fresh {now : Nat} {r : Receiver} {msg : MsgBuf} {t : Transmitted}
    {s : Fin (MAX_PKTS + 1)} (ht : iot_transmit now r msg = .ok t)
    (hs : s.val = msg.msgHeader.seqNum.val) (hfree : (r.table.fragments (0, s)).used = false) :
    ∃ c, ∃ hlen : msg.msgLen ≤ MAX_MSG_SIZE, defragment now r msg = .ok c ∧
      c.outFragment = (if msg.msgHeader.frgmnts.val ≤ 1 then some (0, s) else none) ∧
      c.rcv.table.fragments (0, s) =
        stored now ((r.table.fragments (0, s)).opened TERMINAL_ID) msg hlen ∧
      ((t.rcv.table.fragments (0, s)).used = true ↔ 1 < msg.msgHeader.frgmnts.val) ∧
      (1 < msg.msgHeader.frgmnts.val → t.rcv = c.rcv) := by
  obtain ⟨hin, s', hs', hserves, hroom⟩ := (iot_transmit_ok_iff now).mp ⟨t, ht⟩
  obtain rfl : s' = s := Fin.ext (hs'.trans hs.symm)
  obtain ⟨r', -, hslot, hc⟩ := defragment_serves now hin hs hserves
  have hopened : r'.table.fragments (0, s') = (r.table.fragments (0, s')).opened TERMINAL_ID := by
    rw [hslot, entered, if_neg]
    exact Bool.eq_false_iff.mp hfree
  have hacc : (stored now (r'.table.fragments (0, s')) msg hroom.1.1).accumulatedFrgmnts = 1 := by
    simp only [stored, hopened, UdpFragment.opened]
    norm_num
  obtain ⟨c, h, hc', hst, hrcv⟩ := slot_runs.iot_transmit_cases ht
  obtain rfl : h = (0, s') := handle_ext (hst.col.trans hs.symm)
  have hcollate := hc'.symm.trans (hc.trans (collate_eq now r' msg (0, s') hroom.1))
  simp only [hacc] at hcollate
  have hout : c.outFragment = if msg.msgHeader.frgmnts.val ≤ 1 then some (0, s') else none := by
    rw [Except.ok.inj hcollate]
  have hfrag : c.rcv.table.fragments (0, s') =
      stored now ((r.table.fragments (0, s')).opened TERMINAL_ID) msg hroom.1.1 := by
    rw [Except.ok.inj hcollate, ← hopened]
    exact UdpFragmentsTable.set_self _ _ _
  have hkept : 1 < msg.msgHeader.frgmnts.val → t.rcv = c.rcv := by
    intro hmore
    have hnone : c.outFragment ≠ some (0, s') := by
      rw [hout, if_neg (not_le.mpr hmore)]
      exact (Option.some_ne_none _).symm
    rw [hrcv, if_neg hnone]
  refine ⟨c, hroom.1.1, hc', hout, hfrag, ?_, hkept⟩
  rw [hrcv, hout]
  by_cases hone : msg.msgHeader.frgmnts.val ≤ 1
  · simp only [hone, if_true, release_fragment, UdpFragmentsTable.set_self, not_lt.mpr hone,
      iff_false]
    exact Bool.false_ne_true
  · simp only [hone, if_false, reduceCtorEq, hst.used, true_iff]
    exact not_le.mp hone

theorem Lands.slot_available {r : Receiver} {msg : MsgBuf} (h : Lands r msg)
    (hfind : find_terminal r.table TERMINAL_ID msg.msgHeader.seqNum = none) :
    get_freeFragment r.table TERMINAL_ID msg.msgHeader.seqNum ≠ .ok (r.table, none) := by
  obtain ⟨-, s, hs, hserves, -⟩ := h
  rw [← hs, find_terminal_inside] at hfind
  rw [← hs, get_freeFragment_inside]
  by_cases hused : (r.table.fragments (0, s)).used = true
  · obtain ⟨hlow, hid⟩ := hserves hused
    rw [if_pos ⟨hlow, hid, hused⟩] at hfind
    cases hfind
  · rw [if_neg hused]
    intro hget
    exact absurd (Prod.mk.inj (Except.ok.inj hget)).2 nofun

/-- The turn on a message comes to its end exactly when the message lands. A single
packet never does, nor does a message that finds its slot taken. -/
theorem handled_iff_lands (s : downlink.Downlink) (now : Nat) (p : Ptr) (hp : s.iot = some p) :
    Handled s now p ↔ Lands s.rcv (s.heap p) := by
  refine ⟨?_, ?_⟩
  · rintro ⟨t, -, ht, -⟩
    exact (iot_transmit_ok_iff _).mp ⟨t, ht⟩
  · intro h
    obtain ⟨t, ht⟩ := (iot_transmit_ok_iff now).mpr h
    have hstep : downlink.step s (.iotSend now) = some { s with
        iot := none, rcv := t.rcv, fusionThrInFifo := s.fusionThrInFifo ++ [p] } := by
      simp only [downlink.step, hp, ht]
    refine ⟨t, _, ht, hstep, rfl, rfl, ?_, ?_⟩
    · intro hsingle
      exact absurd h.1 (not_lt.mpr hsingle)
    · intro _ hfind hget
      exact absurd hget (h.slot_available hfind)

/-- The downlink at work on the second of two equal messages. The first one is
dropped. -/
def atWorkOn (bytes : List UInt8) : List downlink.Action :=
  [.fusionRecv bytes, .fusionGet, .fusionPut, .fusionRecv bytes, .fusionGet, .fusionPut, .iotGet]

theorem the_turn_on_a_fragment_ends :
    ∃ s, run downlink.step (downlink.init uplink.numbered (fun _ => .zero) .zero)
        (atWorkOn firstOfTwo) = some s ∧ s.iot = some 1 ∧ Handled s 0 1 := by
  have hrun : (run downlink.step (downlink.init uplink.numbered (fun _ => .zero) .zero)
      (atWorkOn firstOfTwo)).map (fun s => (s.iot, decide (Lands s.rcv (s.heap 1)))) =
      some (some 1, true) := by decide +kernel
  obtain ⟨s, hs, hstate⟩ := Option.map_eq_some_iff.mp hrun
  obtain ⟨hiot, hlands⟩ := Prod.mk.inj hstate
  exact ⟨s, hs, hiot, (handled_iff_lands s 0 1 hiot).mpr (of_decide_eq_true hlands)⟩

theorem the_turn_on_a_single_packet_never_ends :
    ¬ ∀ s now p, Reachable downlink.step
      (downlink.init uplink.numbered (fun _ => .zero) .zero) s → s.iot = some p →
        Handled s now p := by
  have hrun : (run downlink.step (downlink.init uplink.numbered (fun _ => .zero) .zero)
      (atWorkOn [0, 0, 1, 7])).map (fun s => (s.iot, decide
        ((s.heap 1).msgHeader.frgmntIdx < (s.heap 1).msgHeader.frgmnts))) =
      some (some 1, false) := by decide +kernel
  obtain ⟨s, hs, hstate⟩ := Option.map_eq_some_iff.mp hrun
  obtain ⟨hiot, hsingle⟩ := Prod.mk.inj hstate
  intro hall
  obtain ⟨t, -, ht, -⟩ := hall s 0 1 ⟨_, hs⟩ hiot
  exact of_decide_eq_false hsingle ((iot_transmit_ok_iff _).mp ⟨t, ht⟩).1

end bounds

end udp_service
