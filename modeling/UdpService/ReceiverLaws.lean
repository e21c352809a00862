-- What holds of the receiver whatever comes from the network: the slots in use
-- are as the code expects them, no counter wraps, and a message brings no more
-- than 31 requests, each for a fragment that is missing.
import UdpService.SplitTurns
import UdpService.PacketRuns

open blocks runs

namespace udp_service

namespace receiver_laws

open hs_udp_fragments rudp_req hs_udp_service downlink
open bounds (iot_transmit_ok_iff)

/-! ## The slots -/

/-- The fragments that a slot has recorded. -/
def recorded (f : UdpFragment) : Finset Nat :=
  (Finset.range 32).filter fun k => f.frags_mask.getLsbD k

/-- A slot in use in column `col`: it counts the fragments of a packet that is not complete,
no fewer than it has recorded, and the last one that came is recorded. -/
structure Open (col : Nat) (f : UdpFragment) : Prop where
  terminalId : f.terminalId = TERMINAL_ID
  pktSeqNum : f.pktSeqNum = col
  frgmnts : f.frgmnts ≤ 31
  frgmntIdx : f.frgmntIdx < f.frgmnts
  last : f.frags_mask.getLsbD f.frgmntIdx = true
  counted : (recorded f).card ≤ f.accumulatedFrgmnts
  incomplete : f.accumulatedFrgmnts < f.frgmnts
  size : f.size ≤ MAX_MSG_SIZE * f.accumulatedFrgmnts

/-- Every slot in use is open, and the current packet has a column or there is none. -/
structure Sane (r : Receiver) : Prop where
  slots : ∀ h, (r.table.fragments h).used = true → Open h.2 (r.table.fragments h)
  current : r.last_pkt_seq = -1 ∨ ∃ s : Fin (MAX_PKTS + 1), r.last_pkt_seq = s.val

/-! ## The slots over a run -/

section sane

variable {now : Nat} {r r' : Receiver} {msg : MsgBuf} {t : Transmitted} {k : Handle}
  {f : UdpFragment}

theorem recorded_opened (f : UdpFragment) (id : Nat) : recorded (f.opened id) = ∅ := by
  unfold recorded
  apply Finset.filter_eq_empty_iff.mpr
  intro k _
  simp [UdpFragment.opened]

/-- A message adds one fragment at most to those that are recorded. -/
theorem recorded_stored (now : Nat) (f : UdpFragment) (msg : MsgBuf)
    (hlen : msg.msgLen ≤ MAX_MSG_SIZE) :
    (recorded (stored now f msg hlen)).card ≤ (recorded f).card + 1 := by
  have hsub : recorded (stored now f msg hlen) ⊆
      insert msg.msgHeader.frgmntIdx.val (recorded f) := by
    intro k hk
    obtain ⟨hlt, hbit⟩ := Finset.mem_filter.mp hk
    rw [reassembly.stored_mask, Bool.or_eq_true, decide_eq_true_eq] at hbit
    rcases hbit with hold | rfl
    · exact Finset.mem_insert_of_mem (Finset.mem_filter.mpr ⟨hlt, hold⟩)
    · exact Finset.mem_insert_self _ _
  exact (Finset.card_le_card hsub).trans (Finset.card_insert_le _ _)

/-- A slot as a fragment finds it has room in its counters for one more. -/
structure Ready (f : UdpFragment) : Prop where
  terminalId : f.terminalId = TERMINAL_ID
  counted : (recorded f).card ≤ f.accumulatedFrgmnts
  few : f.accumulatedFrgmnts ≤ 30
  size : f.size ≤ MAX_MSG_SIZE * f.accumulatedFrgmnts

/-- The slots while a turn is at work in one: the others are open where they are in use, and
the one in work has room for a fragment, unless a pass of `r_udp_req_routine` took it since. -/
structure Working (r : Receiver) (found : Handle) : Prop where
  slots : ∀ h ≠ found, (r.table.fragments h).used = true → Open h.2 (r.table.fragments h)
  ready : (r.table.fragments found).used = true → Ready (r.table.fragments found)
  current : r.last_pkt_seq = -1 ∨ ∃ s : Fin (MAX_PKTS + 1), r.last_pkt_seq = s.val

/-- A fragment that does not complete its packet leaves the slot open. -/
theorem Ready.stored (h : Ready f) (hin : msg.msgHeader.frgmntIdx < msg.msgHeader.frgmnts)
    (hlen : msg.msgLen ≤ MAX_MSG_SIZE)
    (hless : ¬ msg.msgHeader.frgmnts.val ≤ (stored now f msg hlen).accumulatedFrgmnts) :
    Open msg.msgHeader.seqNum.val (stored now f msg hlen) := by
  have hfew := h.few
  have hsize := h.size
  have hcount := recorded_stored now f msg hlen
  have hacc : (rudp_req.stored now f msg hlen).accumulatedFrgmnts = f.accumulatedFrgmnts + 1 := by
    simp only [rudp_req.stored]
    omega
  refine ⟨h.terminalId, rfl, ?_, hin, ?_, ?_, Nat.lt_of_not_le hless, ?_⟩
  · exact Nat.le_of_lt_succ msg.msgHeader.frgmnts.isLt
  · rw [reassembly.stored_mask]
    simp [rudp_req.stored]
  · have := h.counted
    omega
  · rw [hacc]
    simp only [rudp_req.stored, MAX_MSG_SIZE] at hlen hsize ⊢
    omega

theorem sane_init : Sane .init := by
  refine ⟨fun h hused => ?_, Or.inl rfl⟩
  cases hused

theorem Sane.lookedUp (h : Sane r) (hl : LookedUp r msg r' k) : Working r' k := by
  refine ⟨fun j hj hused => ?_, fun _ => ?_, ?_⟩
  · rw [hl.frame j hj] at hused ⊢
    exact h.slots j hused
  · cases hl with
    | found s col used terminalId =>
      obtain ⟨hid, -, hfr, -, -, hcount, hless, hsize⟩ := h.slots _ used
      have hready : Ready (r.table.fragments (slot s)) := ⟨hid, hcount, by omega, hsize⟩
      split_ifs <;> exact hready
    | taken s col free =>
      simp only [UdpFragmentsTable.acquired_self]
      refine ⟨rfl, ?_, Nat.zero_le _, Nat.zero_le _⟩
      rw [recorded_opened]
      exact Nat.zero_le _
  · rcases hl.current with hold | hnew
    · rw [hold]
      exact h.current
    · exact Or.inr ⟨k.2, by rw [hnew, hl.col]⟩

/-- The stores of a turn into the slot that it has found. -/
theorem Working.sane (h : Working r k)
    (hframe : ∀ j ≠ k, r'.table.fragments j = r.table.fragments j)
    (hself : (r'.table.fragments k).used = true → Open k.2 (r'.table.fragments k))
    (hcur : r'.last_pkt_seq = r.last_pkt_seq ∨ r'.last_pkt_seq = k.2.val) : Sane r' := by
  refine ⟨fun j hused => ?_, ?_⟩
  · by_cases hj : j = k
    · subst hj
      exact hself hused
    · rw [hframe j hj] at hused ⊢
      exact h.slots j hj hused
  · rcases hcur with hold | hnew
    · rw [hold]
      exact h.current
    · exact Or.inr ⟨k.2, hnew⟩

theorem Working.finish (h : Working r k) (hcol : k.2.val = msg.msgHeader.seqNum.val)
    (hin : msg.msgHeader.frgmntIdx < msg.msgHeader.frgmnts)
    (ht : (collate now r msg k).bind (send_defragmented msg) = .ok t) : Sane t.rcv := by
  rcases hc : collate now r msg k with e | c
  · rw [hc] at ht
    cases ht
  · rw [hc] at ht
    have hfit := collate_fits hc
    rw [collate_eq now r msg k hfit] at hc
    cases hc
    have hcur : (if retransmit_msg msg then r.last_pkt_seq else (msg.msgHeader.seqNum.val : Int)) =
        r.last_pkt_seq ∨
        (if retransmit_msg msg then r.last_pkt_seq else (msg.msgHeader.seqNum.val : Int)) =
          k.2.val := by
      rw [hcol]
      split_ifs
      · exact Or.inl rfl
      · exact Or.inr rfl
    obtain ⟨-, ⟨j, -, hout, hrcv⟩ | ⟨hret, hrcv⟩⟩ := send_defragmented_cases ht
    · obtain rfl : k = j := by
        simp only at hout
        split_ifs at hout
        exact Option.some.inj hout
      rw [hrcv]
      refine h.sane (fun j hj => ?_) (fun hused => ?_) hcur
      · exact (UdpFragmentsTable.set_ne _ _ hj).trans (UdpFragmentsTable.set_ne _ _ hj)
      · rw [release_fragment, UdpFragmentsTable.set_self] at hused
        cases hused
    · have hless : ¬ msg.msgHeader.frgmnts.val ≤
          (stored now (r.table.fragments k) msg hfit.1).accumulatedFrgmnts := by
        intro hall
        simp only [if_pos hall] at hret
        exact hret rfl
      rw [hrcv]
      refine h.sane (fun j hj => UdpFragmentsTable.set_ne _ _ hj) (fun hused => ?_) hcur
      simp only [UdpFragmentsTable.set_self] at hused ⊢
      rw [hcol]
      exact (h.ready hused).stored hin hfit.1 hless

theorem Working.sweep (h : Working r k) (curTime : Nat) :
    Working (r_udp_req_routine curTime r) k := by
  refine ⟨fun j hj hused => ?_, fun hused => ?_, h.current⟩
  · have hkept := r_udp_req_routine_kept hused
    rw [hkept] at hused ⊢
    exact h.slots j hj hused
  · have hkept := r_udp_req_routine_kept hused
    rw [hkept] at hused ⊢
    exact h.ready hused

theorem Sane.turn (h : Sane r) (ht : iot_transmit now r msg = .ok t) : Sane t.rcv := by
  obtain ⟨hin, -⟩ := (iot_transmit_ok_iff now).mp ⟨t, ht⟩
  obtain ⟨c, -, hc, -⟩ := slot_runs.iot_transmit_cases ht
  obtain ⟨r', k, hl, -⟩ := lookedUp_of_defragment hin hc
  rw [iot_transmit_of_lookedUp hl hin now] at ht
  exact (h.lookedUp hl).finish hl.col hin ht

theorem Sane.sweep (h : Sane r) (curTime : Nat) : Sane (r_udp_req_routine curTime r) := by
  refine ⟨fun k hused => ?_, h.current⟩
  have hkept := r_udp_req_routine_kept hused
  rw [hkept] at hused ⊢
  exact h.slots k hused

theorem sane_step {s s' : Downlink} {a : Action} (h : Sane s.rcv) (hs : step s a = some s') :
    Sane s'.rcv := by
  cases moves_of_step hs with
  | iotSend now p t hand sent => exact h.turn sent
  | sweep curTime => exact h.sweep curTime
  | _ => exact h

theorem sane_run {s u : Downlink} {as : List Action} (h : Sane s.rcv)
    (hr : run step s as = some u) : Sane u.rcv :=
  run_invariant (I := fun s => Sane s.rcv) (fun _ _ _ h hs => sane_step h hs) h hr

end sane

/-! ## The slots within a turn -/

/-- The slots of a downlink with turns in two pieces: between two turns they are sane, and within
one they are, but for the slot in work. -/
inductive SaneSoFar : InPieces → Prop
  | between (d : Downlink) (turns : List (MsgBuf × Transmitted)) (sane : Sane d.rcv) :
      SaneSoFar ⟨d, none, turns⟩
  | within (d : Downlink) (k : Handle) (p : Ptr) (turns : List (MsgBuf × Transmitted))
      (hand : d.iot = some p)
      (inside : (d.heap p).msgHeader.frgmntIdx < (d.heap p).msgHeader.frgmnts)
      (col : k.2.val = (d.heap p).msgHeader.seqNum.val) (working : Working d.rcv k) :
      SaneSoFar ⟨d, some k, turns⟩

section pieces

variable {s s' u : InPieces} {a : Piece} {ps : List Piece}

theorem SaneSoFar.other {b : Action} (h : SaneSoFar s) (hn : (places s.down).Nodup)
    (hs : stepPiece s (.other b) = some s') : SaneSoFar s' := by
  obtain ⟨hb, d, hd, rfl⟩ := stepPiece_other hs
  cases h with
  | between d₀ turns sane => exact .between d turns (sane_step sane hd)
  | within d₀ k p turns hand inside col working =>
    rcases htime : b.time with _ | t
    · obtain ⟨hand', hheap, hrcv⟩ := moves_frame hn (moves_of_step hd) htime hand
      rw [← hheap] at inside col
      rw [← hrcv] at working
      exact .within d k p turns hand' inside col working
    · cases b with
      | sweep curTime =>
        cases hd
        exact .within _ k p turns hand inside col (working.sweep curTime)
      | iotSend now => cases hb
      | _ => cases htime

theorem SaneSoFar.lookUp (h : SaneSoFar s) (hs : stepPiece s .lookUp = some s') :
    SaneSoFar s' := by
  cases h with
  | within d k p turns hand inside col working => cases hs
  | between d turns sane =>
    simp only [stepPiece] at hs
    split at hs
    · rename_i p hfound hand
      split_ifs at hs with hin
      split at hs
      · rename_i rcv k hl
        cases hs
        have hl := lookedUp_of_look_up hl
        exact .within { d with rcv } k p turns hand hin hl.col (sane.lookedUp hl)
      · cases hs
    · cases hs

theorem SaneSoFar.finish {now : Nat} (h : SaneSoFar s)
    (hs : stepPiece s (.finish now) = some s') : SaneSoFar s' := by
  cases h with
  | between d turns sane => cases hs
  | within d k p turns hand inside col working =>
    simp only [stepPiece, hand] at hs
    split at hs
    · rename_i t ht
      cases hs
      exact .between _ _ (working.finish col inside ht)
    · cases hs

theorem saneSoFar_step (hn : (places s.down).Nodup) (h : SaneSoFar s)
    (hs : stepPiece s a = some s') : SaneSoFar s' := by
  cases a with
  | other b => exact h.other hn hs
  | lookUp => exact h.lookUp hs
  | finish now => exact h.finish hs

theorem saneSoFar_run (hn : (places s.down).Nodup) (h : SaneSoFar s)
    (hr : run stepPiece s ps = some u) : SaneSoFar u := by
  refine (run_invariant (I := fun s => (places s.down).Nodup ∧ SaneSoFar s)
    (fun v b v' h hs => ?_) ⟨hn, h⟩ hr).2
  obtain ⟨msgs, hh⟩ := hands_of_step h.1 hs
  exact ⟨hh.nodup, saneSoFar_step h.1 h.2 hs⟩

end pieces

/-- Whatever datagrams come in, in every state that the downlink reaches the slots in
use are open packets of their column, also when a pass of `r_udp_req_routine` falls into a
turn, and within a turn all but the slot that it has found. So the counter and the size of a
slot never wrap, the fragment that came last is inside the packet, and the current packet is
one that has a slot. -/
theorem the_slots_in_use_are_open_packets (feed : Feed) (heap : Ptr → MsgBuf)
    (rxMsgPayload : MsgBuf) (s : InPieces)
    (hr : Reachable stepPiece (.init feed heap rxMsgPayload) s) :
    (∀ h, s.found ≠ some h → (s.down.rcv.table.fragments h).used = true →
        Open h.2 (s.down.rcv.table.fragments h)) ∧
      (s.down.rcv.last_pkt_seq = -1 ∨
        ∃ c : Fin (MAX_PKTS + 1), s.down.rcv.last_pkt_seq = c.val) := by
  have hn : (places (init feed heap rxMsgPayload)).Nodup := by
    simpa [places, init, Turn.ptrs] using feed.nodup
  obtain ⟨ps, hr⟩ := hr
  cases saneSoFar_run hn (.between _ [] sane_init) hr with
  | between d turns sane => exact ⟨fun h _ => sane.slots h, sane.current⟩
  | within d k p turns hand inside col working =>
    exact ⟨fun h hne => working.slots h fun heq => hne (heq ▸ rfl), working.current⟩

/-- Two of three fragments came, each with a pass in its turn. -/
theorem a_slot_with_two_of_three :
    ∃ s, run stepPiece (.init uplink.numbered (fun _ => .zero) .zero)
        (threeInTurns ++ turnAround 6) = some s ∧
      (s.down.rcv.table.fragments (slot 1)).accumulatedFrgmnts = 2 ∧
      Open 1 (s.down.rcv.table.fragments (slot 1)) := by
  have hrun : (run stepPiece (.init uplink.numbered (fun _ => .zero) .zero)
      (threeInTurns ++ turnAround 6)).map (fun s =>
        (s.found, (s.down.rcv.table.fragments (slot 1)).used,
          (s.down.rcv.table.fragments (slot 1)).accumulatedFrgmnts)) = some (none, true, 2) := by
    decide +kernel
  obtain ⟨s, hs, hstate⟩ := Option.map_eq_some_iff.mp hrun
  simp only [Prod.mk.injEq] at hstate
  obtain ⟨hfound, hused, hcount⟩ := hstate
  exact ⟨s, hs, hcount, (the_slots_in_use_are_open_packets uplink.numbered (fun _ => .zero) .zero s
    ⟨_, hs⟩).1 (slot 1) (by simp [hfound]) hused⟩

/-! ## The requests of a message -/

/-- A request for a fragment that the slot of its packet has not recorded. -/
structure ForMissing (r : Receiver) (q : RUdpFragmntReq) : Prop where
  msgCode : q.msgCode = MSG_CODE_REQUEST_FRAG
  missing : ∃ s : Fin MAX_PKTS, q.seqNum = s.val ∧
    (r.table.fragments (slot s)).used = true ∧
    q.fragmntLost < (r.table.fragments (slot s)).frgmnts ∧
    (r.table.fragments (slot s)).frags_mask.getLsbD q.fragmntLost = false

/-- The request of the gap test: for the fragment before the one that came, under the same
number. -/
def IsGap (msg : MsgBuf) (q : RUdpFragmntReq) : Prop :=
  1 < msg.msgHeader.frgmntIdx.val ∧
    q = rrudp_ask_retransmit (msg.msgHeader.frgmntIdx.val - 1) msg.msgHeader

section requests

variable {now : Nat} {r : Receiver} {msg : MsgBuf} {t : Transmitted} {s : Fin (MAX_PKTS + 1)}

/-- The requests at the end of a packet: fewer than it has fragments, and all for
fragments that are missing. -/
theorem Sane.complete_last_pkt (h : Sane r) (p : Nat) :
    (rrudp_complete_last_pkt r.table p).length ≤ 30 ∧
      ∀ q ∈ rrudp_complete_last_pkt r.table p, ForMissing r q := by
  unfold rrudp_complete_last_pkt
  rcases hf : find_terminal r.table TERMINAL_ID p with _ | k
  · exact ⟨Nat.zero_le _, nofun⟩
  · obtain ⟨s, rfl, rfl, -, hused⟩ := find_terminal_eq_some hf
    have hopen := h.slots _ hused
    simp only [packet_runs.mask_test_iff]
    refine ⟨?_, fun q hq => ?_⟩
    · -- The fragment that came last is recorded.
      have hlast : (r.table.fragments (slot s)).frgmntIdx ∈
          List.range (r.table.fragments (slot s)).frgmnts := List.mem_range.mpr hopen.frgmntIdx
      obtain ⟨l, l', hl⟩ := List.append_of_mem hlast
      have hlen := congrArg List.length hl
      have hfew := hopen.frgmnts
      rw [List.length_range, List.length_append, List.length_cons] at hlen
      rw [hl, List.filterMap_append, List.filterMap_cons_none (by simp [hopen.last]),
        List.length_append]
      have h1 := List.length_filterMap_le (fun i =>
        if (r.table.fragments (slot s)).frags_mask.getLsbD i = false then
          some ({ msgCode := MSG_CODE_REQUEST_FRAG, fragmntLost := i, seqNum := s.val } :
            RUdpFragmntReq) else none) l
      have h2 := List.length_filterMap_le (fun i =>
        if (r.table.fragments (slot s)).frags_mask.getLsbD i = false then
          some ({ msgCode := MSG_CODE_REQUEST_FRAG, fragmntLost := i, seqNum := s.val } :
            RUdpFragmntReq) else none) l'
      omega
    · obtain ⟨i, hi, hq⟩ := List.mem_filterMap.mp hq
      split_ifs at hq with hbit
      cases hq
      exact ⟨rfl, s, rfl, hused, List.mem_range.mp hi, hbit⟩

/-- The end-of-packet requests depend on one slot only. -/
theorem complete_last_pkt_congr {t t' : UdpFragmentsTable} {p : Nat}
    (h : ∀ s : Fin MAX_PKTS, s.val = p → t'.fragments (slot s) = t.fragments (slot s)) :
    rrudp_complete_last_pkt t' p = rrudp_complete_last_pkt t p := by
  unfold rrudp_complete_last_pkt
  by_cases hp : p < MAX_PKTS
  · obtain ⟨s, rfl⟩ : ∃ s : Fin MAX_PKTS, p = s.val := ⟨⟨p, hp⟩, rfl⟩
    rw [find_terminal_slot, find_terminal_slot, h s rfl]
    split_ifs
    · simp only [h s rfl]
    · rfl
  · rw [find_terminal_high _ _ (Nat.le_of_not_lt hp), find_terminal_high _ _ (Nat.le_of_not_lt hp)]

theorem Sane.toUint8_ne (h : Sane r) (hne : r.last_pkt_seq ≠ s.val) :
    toUint8 r.last_pkt_seq ≠ s.val := by
  have hs := s.isLt
  unfold toUint8
  rcases h.current with hnone | ⟨s', hs'⟩
  · rw [hnone]
    simp only [MAX_PKTS] at hs
    omega
  · have hlt := s'.isLt
    simp only [MAX_PKTS] at hs hlt
    omega

/-- The requests for the packet that was current go out before that of the gap test. -/
theorem Sane.turn_reqs (h : Sane r) (ht : iot_transmit now r msg = .ok t) : ∃ ends f,
    t.reqs = ends ++ gapRequests f msg.msgHeader ∧
      (ends = [] ∨ ends = rrudp_complete_last_pkt r.table (toUint8 r.last_pkt_seq)) := by
  obtain ⟨hin, -⟩ := (iot_transmit_ok_iff now).mp ⟨t, ht⟩
  obtain ⟨c, -, hc, -⟩ := slot_runs.iot_transmit_cases ht
  have hreqs := slot_runs.iot_transmit_reqs ht hc
  obtain ⟨r', k, hl, hcall⟩ := lookedUp_of_defragment hin hc
  have hfit := collate_fits hcall
  rw [collate_eq now r' msg k hfit] at hcall
  cases hcall
  refine ⟨endRequests r' msg.msgHeader.seqNum, r'.table.fragments k, hreqs, ?_⟩
  unfold endRequests endedPkt
  split_ifs with hne
  · have hold := hl.current.resolve_right hne
    rw [hold, ← hl.col] at hne
    rw [hold]
    refine Or.inr (complete_last_pkt_congr fun s' hs' => hl.frame _ fun heq => ?_)
    have hcol : s'.val = k.2.val := congrArg (fun h : Handle => h.2.val) heq
    exact h.toUint8_ne hne (by rw [← hs', hcol])
  · exact Or.inl rfl

theorem gapRequests_length_le (f : UdpFragment) (hdr : MsgHeader) :
    (gapRequests f hdr).length ≤ 1 := by
  unfold gapRequests
  split_ifs
  · exact Nat.le_refl _
  · exact Nat.zero_le _

theorem isGap_of_mem {f : UdpFragment} {q : RUdpFragmntReq}
    (h : q ∈ gapRequests f msg.msgHeader) : IsGap msg q := by
  unfold gapRequests at h
  split_ifs at h with hgap
  · exact ⟨by omega, List.mem_singleton.mp h⟩
  · cases h

/-- The requests of a turn. -/
theorem Sane.requests (h : Sane r) (ht : iot_transmit now r msg = .ok t) :
    t.reqs.length ≤ 31 ∧ ∀ q ∈ t.reqs, ForMissing r q ∨ IsGap msg q := by
  obtain ⟨ends, f, hreqs, hends⟩ := h.turn_reqs ht
  have hgap := gapRequests_length_le f msg.msgHeader
  have hfew : ends.length ≤ 30 ∧ ∀ q ∈ ends, ForMissing r q := by
    rcases hends with rfl | rfl
    · exact ⟨Nat.zero_le _, nofun⟩
    · exact h.complete_last_pkt _
  rw [hreqs]
  refine ⟨by rw [List.length_append]; omega, fun q hq => ?_⟩
  rcases List.mem_append.mp hq with hq | hq
  · exact Or.inl (hfew.2 q hq)
  · exact Or.inr (isGap_of_mem hq)

/-- The requests of the turns of a run. -/
theorem requests_run {s u : Downlink} {as : List Action} (h : Sane s.rcv)
    (hr : run step s as = some u) :
    ((transmitted s as).map fun t => t.reqs.length).sum ≤ 31 * as.countP Action.isSend := by
  induction as generalizing s with
  | nil => exact Nat.le_refl _
  | cons a as ih =>
    obtain ⟨s', hs, hr'⟩ := run_cons_eq_some.mp hr
    have hrest := ih (sane_step h hs) hr'
    have hone : ((output s a).map fun t => t.reqs.length).sum ≤
        31 * if a.isSend then 1 else 0 := by
      cases moves_of_step hs with
      | iotSend now p t hand sent =>
        simpa [output, hand, sent, Action.isSend] using (h.requests sent).1
      | _ => simp [output, Action.isSend]
    simp only [transmitted, hs, List.map_append, List.sum_append, List.countP_cons]
    omega

end requests

/-- Whatever datagrams come in, no message that reaches `iot_transmit` brings more than 31
requests. Each is for a fragment inside a packet under way that its slot has not recorded,
or for the fragment before the one that came. -/
theorem a_message_brings_31_requests_at_most (feed : Feed) (heap : Ptr → MsgBuf)
    (rxMsgPayload : MsgBuf) (as : List Action) (s : Downlink)
    (hr : run step (init feed heap rxMsgPayload) as = some s) :
    ((transmitted (init feed heap rxMsgPayload) as).map fun t => t.reqs.length).sum ≤
        31 * as.countP Action.isSend ∧
      ∀ now p t, s.iot = some p → iot_transmit now s.rcv (s.heap p) = .ok t →
        t.reqs.length ≤ 31 ∧ ∀ q ∈ t.reqs, ForMissing s.rcv q ∨ IsGap (s.heap p) q :=
  ⟨requests_run sane_init hr, fun _ _ _ _ ht => (sane_run sane_init hr).requests ht⟩

/-- One of three fragments came, and fragment 3 of a packet of 31 is in the hand of
`iot_transmit_routine`. -/
def nextPacket : List Action :=
  [.fusionRecv (frgmntOfThree 0), .fusionGet, .fusionPut] ++ through (frgmntOfThree 1) ++
    [.fusionRecv [140, 47, 1, 9], .fusionGet, .fusionPut, .iotGet]

/-- It brings three requests, two for the packet before it and one for its own. -/
theorem three_requests_for_a_message :
    ∃ s p t, run step (init uplink.numbered (fun _ => .zero) .zero) nextPacket = some s ∧
      s.iot = some p ∧ iot_transmit 6 s.rcv (s.heap p) = .ok t ∧
      t.reqs.map (fun q => (q.fragmntLost, q.seqNum)) = [(0, 1), (2, 1), (2, 2)] ∧
      ∀ q ∈ t.reqs, ForMissing s.rcv q ∨ IsGap (s.heap p) q := by
  have hrun : (run step (init uplink.numbered (fun _ => .zero) .zero) nextPacket).map (fun s =>
      s.iot.map fun p => (iot_transmit 6 s.rcv (s.heap p)).toOption.map fun t =>
        t.reqs.map fun q => (q.fragmntLost, q.seqNum)) =
      some (some (some [(0, 1), (2, 1), (2, 2)])) := by decide +kernel
  obtain ⟨s, hs, hstate⟩ := Option.map_eq_some_iff.mp hrun
  obtain ⟨p, hp, hturn⟩ := Option.map_eq_some_iff.mp hstate
  obtain ⟨t, ht, hreqs⟩ := Option.map_eq_some_iff.mp hturn
  have hok : iot_transmit 6 s.rcv (s.heap p) = .ok t := by
    cases hr : iot_transmit 6 s.rcv (s.heap p) with
    | error e =>
      rw [hr] at ht
      cases ht
    | ok t' =>
      rw [hr] at ht
      cases ht
      rfl
  exact ⟨s, p, t, hs, hp, hok, hreqs, ((a_message_brings_31_requests_at_most uplink.numbered
    (fun _ => .zero) .zero nextPacket s hs).2 6 p t hp hok).2⟩

end receiver_laws

end udp_service
