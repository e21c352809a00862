-- The way of the buffers from fusion to the device: two threads and two FIFOs.
-- The simulated loss of packets in `fusion_receive_routine` drops every
-- thirteenth data message, and the buffer with it.
import UdpService.Uplink
import UdpService.Wire

open blocks runs

namespace udp_service

namespace downlink

open hs_udp_service rudp_req wire

/-! ## The threads -/

/-- Where `fusion_receive_routine` is in its turn: before `udp_recv`, before
`Fifo_get` with a data message, or with the buffer it copied the message into. -/
inductive Turn
  | start
  | received (msg : MsgBuf)
  | copied (p : Ptr)

def Turn.ptrs : Turn → List Ptr
  | .copied p => [p]
  | _ => []

/-- The state of the downlink. `iot` is the buffer in the hand of
`iot_transmit_routine`. -/
structure Downlink where
  heap : Ptr → MsgBuf
  fusionThrInFifo : List Ptr
  fusionThrOutFifo : List Ptr
  rxMsgPayload : MsgBuf
  fusion : Turn
  iot : Option Ptr
  pkt_drop_count : Nat
  rcv : Receiver

/-- The pieces of the turns of the threads, and the sweep of the slots. `iotSend` is the
whole turn of `iot_transmit_routine` on a message; `stepPiece` lets a sweep fall into it. -/
inductive Action
  | fusionRecv (bytes : List UInt8)
  | fusionGet
  | fusionPut
  | iotGet
  | iotSend (now : Nat)
  | sweep (curTime : Nat)

/-- The downlink after the feed. -/
def init (feed : Feed) (heap : Ptr → MsgBuf) (rxMsgPayload : MsgBuf) : Downlink :=
  { heap, fusionThrInFifo := feed.ptrs, fusionThrOutFifo := [], rxMsgPayload
    fusion := .start, iot := none, pkt_drop_count := 0, rcv := .init }

/-- One action, or `none` where it cannot be taken: the thread is elsewhere,
the FIFO it waits for is empty, or the process ends in a fault. -/
def step (s : Downlink) : Action → Option Downlink
  | .fusionRecv bytes =>
    match s.fusion with
    | .start =>
      match fusion_receive s.rxMsgPayload bytes with
      | (rx, .data msg) => some { s with rxMsgPayload := rx, fusion := .received msg }
      | (rx, _) => some { s with rxMsgPayload := rx }
    | _ => none
  | .fusionGet =>
    match s.fusion, s.fusionThrInFifo with
    | .received msg, p :: ps =>
      some { s with
        heap := Function.update s.heap p msg, fusion := .copied p, fusionThrInFifo := ps }
    | _, _ => none
  | .fusionPut =>
    match s.fusion with
    | .copied p =>
      some { s with
        pkt_drop_count := s.pkt_drop_count + 1
        fusion := .start
        fusionThrOutFifo :=
          if s.pkt_drop_count % 13 ≠ 0 then s.fusionThrOutFifo ++ [p] else s.fusionThrOutFifo }
    | _ => none
  | .iotGet =>
    match s.iot, s.fusionThrOutFifo with
    | none, p :: ps => some { s with iot := some p, fusionThrOutFifo := ps }
    | _, _ => none
  | .iotSend now =>
    match s.iot with
    | some p =>
      match iot_transmit now s.rcv (s.heap p) with
      | .ok t =>
        some { s with iot := none, rcv := t.rcv, fusionThrInFifo := s.fusionThrInFifo ++ [p] }
      | .error _ => none
    | none => none
  | .sweep curTime => some { s with rcv := r_udp_req_routine curTime s.rcv }

/-! ## The places of the buffers -/

/-- All places where a buffer can be, one after the other. -/
def places (s : Downlink) : List Ptr :=
  s.fusionThrInFifo ++ s.fusion.ptrs ++ s.fusionThrOutFifo ++ s.iot.toList

/-- The action ends a turn of `fusion_receive_routine` on a data message. -/
def Action.isPut : Action → Bool
  | .fusionPut => true
  | _ => false

/-- The data messages that a run processed. -/
def processed (as : List Action) : Nat := as.countP Action.isPut

/-- How many buffers the first `n` data messages cost: every thirteenth one,
from the first on. -/
def lost (n : Nat) : Nat := (n + 12) / 13

section step

variable {s s' : Downlink}

/-- The end of a turn of `fusion_receive_routine` hands the buffer on, or
drops it. -/
theorem places_put (h : step s .fusionPut = some s') :
    s'.pkt_drop_count = s.pkt_drop_count + 1 ∧
      ∃ p, (if s.pkt_drop_count % 13 = 0 then p :: places s' else places s').Perm (places s) := by
  unfold step at h
  simp only at h
  split at h
  · rename_i p hand
    cases h
    refine ⟨rfl, p, ?_⟩
    rw [List.perm_iff_count]
    intro q
    by_cases hc : s.pkt_drop_count % 13 = 0
    · simp only [hc, places, hand, if_true, ne_eq, not_true_eq_false, if_false, Turn.ptrs,
        List.count_append, List.count_cons, List.count_nil]
      omega
    · simp only [hc, places, hand, if_true, ne_eq, not_false_eq_true, if_false, Turn.ptrs,
        List.count_append, List.count_cons, List.count_nil]
      omega
  · cases h

theorem places_send {p : Ptr} (hand : s.iot = some p) (rcv : Receiver) :
    (places { s with iot := none, rcv, fusionThrInFifo := s.fusionThrInFifo ++ [p] }).Perm
      (places s) := by
  rw [List.perm_iff_count]
  intro q
  simp only [places, hand, Option.toList, List.count_append, List.count_cons, List.count_nil]
  omega

theorem places_other {a : Action} (ha : a.isPut = false) (h : step s a = some s') :
    s'.pkt_drop_count = s.pkt_drop_count ∧ (places s').Perm (places s) := by
  unfold step at h
  cases a with
  | fusionRecv bytes =>
    simp only at h
    split at h
    · rename_i hand
      have hplaces : ∀ rx msg,
          places { s with rxMsgPayload := rx, fusion := .received msg } = places s := by
        intro rx msg
        simp [places, hand, Turn.ptrs]
      split at h
      · cases h
        exact ⟨rfl, by rw [hplaces]⟩
      · cases h
        exact ⟨rfl, List.Perm.refl _⟩
    · cases h
  | fusionGet =>
    simp only at h
    split at h
    · rename_i msg p ps hand hfifo
      cases h
      refine ⟨rfl, ?_⟩
      rw [List.perm_iff_count]
      intro q
      simp only [places, hand, hfifo, Turn.ptrs, List.count_append, List.count_cons,
        List.count_nil]
      omega
    · cases h
  | fusionPut => cases ha
  | iotGet =>
    simp only at h
    split at h
    · rename_i p ps hand hfifo
      cases h
      refine ⟨rfl, ?_⟩
      rw [List.perm_iff_count]
      intro q
      simp only [places, hand, hfifo, Option.toList, List.count_append, List.count_cons,
        List.count_nil]
      omega
    · cases h
  | iotSend now =>
    simp only at h
    split at h
    · rename_i p hand
      split at h
      · cases h
        exact ⟨rfl, places_send hand _⟩
      · cases h
    · cases h
  | sweep curTime =>
    cases h
    exact ⟨rfl, List.Perm.refl _⟩

end step

/-! ## The account of the buffers -/

/-- The buffers that are missing from the places are as many as the drops. -/
structure Account (feed : Feed) (s : Downlink) (missing : List Ptr) : Prop where
  perm : (missing ++ places s).Perm feed.ptrs
  length : missing.length = lost s.pkt_drop_count

theorem account_step {feed : Feed} {s s' : Downlink} {a : Action}
    (h : ∃ missing, Account feed s missing) (hs : step s a = some s') :
    ∃ missing, Account feed s' missing := by
  obtain ⟨missing, hperm, hlen⟩ := h
  cases ha : a.isPut with
  | false =>
    obtain ⟨hcount, hplaces⟩ := places_other ha hs
    exact ⟨missing, (hplaces.append_left _).trans hperm, by rw [hcount]; exact hlen⟩
  | true =>
    cases a <;> cases ha
    obtain ⟨hcount, p, hplaces⟩ := places_put hs
    unfold lost at hlen
    by_cases hc : s.pkt_drop_count % 13 = 0
    · rw [if_pos hc] at hplaces
      refine ⟨missing ++ [p], ?_, ?_⟩
      · rw [List.append_assoc]
        exact (hplaces.append_left _).trans hperm
      · rw [List.length_append, List.length_singleton, hcount, lost]
        omega
    · rw [if_neg hc] at hplaces
      refine ⟨missing, (hplaces.append_left _).trans hperm, ?_⟩
      rw [hcount, lost]
      omega

theorem run_account {feed : Feed} {heap : Ptr → MsgBuf} {rx : MsgBuf} {as : List Action}
    {s : Downlink} (hr : run step (init feed heap rx) as = some s) :
    ∃ missing, Account feed s missing := by
  refine run_invariant (I := fun s => ∃ missing, Account feed s missing)
    (fun _ _ _ h hs => account_step h hs) ⟨[], ?_, by simp [init, lost]⟩ hr
  simp [places, init, Turn.ptrs]

theorem run_count {s u : Downlink} {as : List Action} (hr : run step s as = some u) :
    u.pkt_drop_count = s.pkt_drop_count + processed as := by
  induction as generalizing s with
  | nil =>
    cases hr
    rfl
  | cons a as ih =>
    obtain ⟨s', hs, hr'⟩ := run_cons_eq_some.mp hr
    have hone : s'.pkt_drop_count = s.pkt_drop_count + if a.isPut then 1 else 0 := by
      cases ha : a.isPut with
      | false => exact (places_other ha hs).1
      | true =>
        cases a <;> cases ha
        exact (places_put hs).1
    rw [ih hr', hone, processed, processed, List.countP_cons]
    omega

/-- The downlink keeps its buffers exactly as long as it has processed no data
message. After every run the places hold different fed buffers, and `lost` of
the data messages of the run are missing from them. -/
theorem downlink_buffers_are_kept_iff_no_data_came (feed : Feed) (heap : Ptr → MsgBuf)
    (rxMsgPayload : MsgBuf) (as : List Action) (s : Downlink)
    (hr : run step (init feed heap rxMsgPayload) as = some s) :
    ((∀ p ∈ feed.ptrs, (places s).count p = 1) ↔ ∀ a ∈ as, a.isPut = false) ∧
      (places s).length + lost (processed as) = MAX_BUFFER_ELEMS - 1 ∧
      (places s).Nodup ∧ ∀ p ∈ places s, p ∈ feed.ptrs := by
  obtain ⟨missing, hperm, hlen⟩ := run_account hr
  have hcount : s.pkt_drop_count = processed as := by
    rw [run_count hr]
    exact Nat.zero_add _
  rw [hcount] at hlen
  have hnodup := hperm.nodup_iff.mpr feed.nodup
  have htotal := hperm.length_eq
  rw [List.length_append, feed.count, hlen] at htotal
  have hnone : processed as = 0 ↔ ∀ a ∈ as, a.isPut = false := by
    simp only [processed, List.countP_eq_zero, Bool.not_eq_true]
  refine ⟨?_, by omega, (List.nodup_append.mp hnodup).2.1, fun p hp =>
    hperm.mem_iff.mp (List.mem_append_right _ hp)⟩
  rw [← hnone]
  constructor
  · intro hall
    have hsub : feed.ptrs ⊆ places s := fun p hp =>
      List.count_pos_iff.mp (by rw [hall p hp]; exact Nat.one_pos)
    have hle := (feed.nodup.subperm hsub).length_le
    rw [feed.count] at hle
    unfold lost at htotal
    omega
  · intro hzero p hp
    have hnil : missing = [] := List.length_eq_zero_iff.mp (by rw [hlen, hzero]; rfl)
    rw [hnil, List.nil_append] at hperm
    rw [hperm.count_eq]
    exact List.count_eq_one_of_mem feed.nodup hp

/-- A message of one fragment, number 1, with one byte of data. -/
def oneByteMessage : List UInt8 := [0x80, 0x10, 1, 7]

theorem a_request_costs_no_buffer :
    ∃ s, run step (init uplink.numbered (fun _ => .zero) .zero) [.fusionRecv [2, 0, 1]] = some s ∧
      ∀ p < 63, (places s).count p = 1 := by
  have hrun : (run step (init uplink.numbered (fun _ => .zero) .zero)
      [.fusionRecv [2, 0, 1]]).isSome = true := by decide +kernel
  obtain ⟨s, hs⟩ := Option.isSome_iff_exists.mp hrun
  refine ⟨s, hs, fun p hp => ?_⟩
  exact (downlink_buffers_are_kept_iff_no_data_came _ _ _ _ s hs).1.mpr
    (by simp [Action.isPut]) p (List.mem_range.mpr hp)

/-- The first data message takes its buffer out of every place. -/
theorem the_first_message_takes_a_buffer :
    ∃ s, run step (init uplink.numbered (fun _ => .zero) .zero)
        [.fusionRecv oneByteMessage, .fusionGet, .fusionPut] = some s ∧
      0 ∈ uplink.numbered.ptrs ∧ 0 ∉ places s ∧ (places s).length = 62 := by
  have hrun : (run step (init uplink.numbered (fun _ => .zero) .zero)
      [.fusionRecv oneByteMessage, .fusionGet, .fusionPut]).map (fun s =>
        (decide (0 ∈ places s), (places s).length)) = some (false, 62) := by decide +kernel
  obtain ⟨s, hs, hstate⟩ := Option.map_eq_some_iff.mp hrun
  obtain ⟨hplaces, hlen⟩ := Prod.mk.inj hstate
  exact ⟨s, hs, by decide, of_decide_eq_false hplaces, hlen⟩

end downlink

end udp_service
