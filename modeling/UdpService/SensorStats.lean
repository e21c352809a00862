-- The traffic counters (sensor_stats.c), and the two loops that advance them:
-- `iot_receive_routine` once for a datagram, `iot_transmit_routine` once for a
-- message.
import UdpService.Bounds

namespace udp_service

namespace sensor_stats

open hs_udp_service hs_udp_fragments rudp_req runs bounds

/-! ## The counters -/

/-- `sensor_stats_t`. The fields are `int`. -/
structure SensorStats where
  pkts_sent : BitVec 32
  pkts_recv : BitVec 32
  pkts_err : BitVec 32
deriving DecidableEq

def SensorStats.init : SensorStats := ⟨0, 0, 0⟩

/-- `update_stats_pkts_recv`. The source adds to `pkts_sent` here. -/
def update_stats_pkts_recv (stats : SensorStats) (pkts : BitVec 32) : SensorStats :=
  { stats with pkts_sent := stats.pkts_sent + pkts }

/-- `update_stats_pkts_sent`. The source adds to `pkts_recv` here. -/
def update_stats_pkts_sent (stats : SensorStats) (pkts : BitVec 32) : SensorStats :=
  { stats with pkts_recv := stats.pkts_recv + pkts }

/-- `update_stats_pkts_err`: what it returns, and the counters after it. -/
def update_stats_pkts_err (stats : SensorStats) (pkts : BitVec 32) : BitVec 32 × SensorStats :=
  let last := stats.pkts_err
  let stats := { stats with pkts_err := stats.pkts_err + pkts }
  (stats.pkts_err - last, stats)

/-- `get_sensor_stats`. -/
def get_sensor_stats (stats : SensorStats) : SensorStats := stats

/-! ## The two loops -/

/-- What `udp_recv` gives: a datagram, or -1 with an `errno`. -/
inductive Recv
  | bytes (d : List UInt8)
  | failed (again : Bool)

/-- The service between two turns. `put` is what went into `IotThrOutFifo`, and
`handed` counts the whole datagrams that went to `udp_send`. -/
structure Service where
  service_disabled : Bool
  txSeqNum : Nat
  rcv : Receiver
  stats : SensorStats
  put : List MsgBuf
  handed : Nat

def init : Service :=
  { service_disabled := false, txSeqNum := 0, rcv := .init, stats := .init, put := [], handed := 0 }

/-- One turn of `iot_receive_routine`, after `epoll_wait` found the socket ready.
`udp_recv` cuts a datagram off at the size of its buffer. -/
def iot_receive (pool : Nat → MsgBuf) (s : Service) (res : Recv) : Service :=
  if s.service_disabled then s
  else
    let s' := { s with txSeqNum := (s.txSeqNum + 1) % 2 ^ 8 }
    match res with
    | .bytes d =>
      let rxPayLoad := d.take NET_PACKET_SIZE
      if 0 < rxPayLoad.length then
        { s' with
          put := s.put ++ iot_loop pool rxPayLoad.length (iot_read s.txSeqNum rxPayLoad)
          stats := update_stats_pkts_recv s.stats 1 }
      else s'
    | .failed again =>
      if again then s' else { s' with stats := (update_stats_pkts_err s.stats 1).2 }

/-- Every fragment of the packet in the slot came. -/
def Whole (frag : UdpFragment) : Prop := ∀ i < frag.frgmnts, frag.frags_mask.getLsbD i = true

instance (frag : UdpFragment) : Decidable (Whole frag) :=
  inferInstanceAs (Decidable (∀ i < frag.frgmnts, _))

/-- The turn on the message hands a whole packet to the device. -/
def handsWhole (now : Nat) (r : Receiver) (msg : MsgBuf) : Bool :=
  match defragment now r msg with
  | .ok c =>
    match c.outFragment with
    | some handle => decide (Whole (c.rcv.table.fragments handle))
    | none => false
  | .error _ => false

/-- What happens at the service. `pool` is what the buffers for the fragments held. -/
inductive Event
  | receive (pool : Nat → MsgBuf) (res : Recv)
  | transmit (now : Nat) (msg : MsgBuf)
  | sweep (curTime : Nat)
  | control (disable : Bool)

/-- One event. A fault ends the process. -/
def step (s : Service) : Event → Option Service
  | .receive pool res => some (iot_receive pool s res)
  | .transmit now msg =>
    match iot_transmit now s.rcv msg with
    | .ok t =>
      some { s with
        rcv := t.rcv, stats := update_stats_pkts_sent s.stats 1
        handed := s.handed + (handsWhole now s.rcv msg).toNat }
    | .error _ => none
  | .sweep curTime => some { s with rcv := r_udp_req_routine curTime s.rcv }
  | .control disable => some { s with service_disabled := disable }

/-! ## What there is to count -/

/-- The non-empty datagrams that come while the service is enabled. -/
def accepted : Bool → List Event → Nat
  | _, [] => 0
  | disabled, .receive _ (.bytes d) :: es =>
    (if disabled = false ∧ d ≠ [] then 1 else 0) + accepted disabled es
  | _, .control disable :: es => accepted disable es
  | disabled, _ :: es => accepted disabled es

def Event.isTransmit : Event → Bool
  | .transmit .. => true
  | _ => false

/-- The messages from fusion that the service handles. -/
def messages (es : List Event) : Nat := es.countP Event.isTransmit

/-- A message from fusion is a packet of its own. -/
def Alone : Event → Prop
  | .transmit _ msg => msg.msgHeader.frgmnts.val ≤ 1
  | _ => True

/-- The counters that `get_sensor_stats` reports are the numbers of datagrams in the
two directions. -/
structure Counts (es : List Event) (s : Service) : Prop where
  recv : (get_sensor_stats s.stats).pkts_recv.toInt = accepted false es
  sent : (get_sensor_stats s.stats).pkts_sent.toInt = s.handed

/-! ## What one event adds -/

/-- No slot is in use. -/
def Idle (r : Receiver) : Prop := ∀ h, (r.table.fragments h).used = false

theorem step_transmit {s s' : Service} {now : Nat} {msg : MsgBuf}
    (hs : step s (.transmit now msg) = some s') :
    ∃ t, iot_transmit now s.rcv msg = .ok t ∧ s' = { s with
      rcv := t.rcv, stats := update_stats_pkts_sent s.stats 1
      handed := s.handed + (handsWhole now s.rcv msg).toNat } := by
  unfold step at hs
  simp only at hs
  split at hs
  · rename_i t ht
    exact ⟨t, ht, (Option.some.inj hs).symm⟩
  · cases hs

theorem iot_receive_rcv (pool : Nat → MsgBuf) (s : Service) (res : Recv) :
    (iot_receive pool s res).rcv = s.rcv ∧
      (iot_receive pool s res).service_disabled = s.service_disabled ∧
      (iot_receive pool s res).handed = s.handed ∧
      (iot_receive pool s res).stats.pkts_recv = s.stats.pkts_recv := by
  unfold iot_receive
  split_ifs
  · exact ⟨rfl, rfl, rfl, rfl⟩
  · rcases res with d | again
    · simp only
      split_ifs <;> exact ⟨rfl, rfl, rfl, rfl⟩
    · simp only
      split_ifs <;> exact ⟨rfl, rfl, rfl, rfl⟩

theorem accepted_receive (disabled : Bool) (pool : Nat → MsgBuf) (res : Recv) (es : List Event) :
    accepted disabled (.receive pool res :: es) =
      accepted disabled [.receive pool res] + accepted disabled es := by
  cases res <;> simp [accepted]

theorem iot_receive_pkts_sent (pool : Nat → MsgBuf) (s : Service) (res : Recv) :
    (iot_receive pool s res).stats.pkts_sent =
      s.stats.pkts_sent + BitVec.ofNat 32 (accepted s.service_disabled [.receive pool res]) := by
  unfold iot_receive
  cases hdis : s.service_disabled with
  | true => cases res <;> simp [accepted]
  | false =>
    rcases res with d | again
    · have hsize : 0 < (d.take NET_PACKET_SIZE).length ↔ d ≠ [] := by
        rw [List.length_take, ← List.length_pos_iff]
        simp
      simp only [accepted, hsize, Bool.false_eq_true, if_false, true_and, Nat.add_zero]
      split_ifs
      · rfl
      · simp
    · simp only [Bool.false_eq_true, if_false]
      split_ifs <;> simp [accepted, update_stats_pkts_err]

theorem messages_cons (e : Event) (es : List Event) :
    messages (e :: es) = messages [e] + messages es := by
  unfold messages
  rw [← List.countP_append]
  rfl

/-- What an event adds to the counters. The one for the datagrams from the device is
`pkts_sent`, the one for the messages from fusion `pkts_recv`. -/
structure Adds (s : Service) (e : Event) (s' : Service) : Prop where
  pkts_sent : s'.stats.pkts_sent =
    s.stats.pkts_sent + BitVec.ofNat 32 (accepted s.service_disabled [e])
  pkts_recv : s'.stats.pkts_recv = s.stats.pkts_recv + BitVec.ofNat 32 (messages [e])
  handed : s'.handed ≤ s.handed + messages [e]
  rest : ∀ es, accepted s.service_disabled (e :: es) =
    accepted s.service_disabled [e] + accepted s'.service_disabled es

theorem step_adds {s s' : Service} {e : Event} (hs : step s e = some s') : Adds s e s' := by
  cases e with
  | receive pool res =>
    cases hs
    obtain ⟨-, hdisabled, hhanded, hrecv⟩ := iot_receive_rcv pool s res
    refine ⟨iot_receive_pkts_sent pool s res, ?_, hhanded.le, ?_⟩
    · rw [hrecv]
      exact (BitVec.add_zero _).symm
    · intro es
      rw [hdisabled]
      exact accepted_receive _ pool res es
  | transmit now msg =>
    obtain ⟨t, -, rfl⟩ := step_transmit hs
    refine ⟨(BitVec.add_zero _).symm, rfl, ?_, fun es => (Nat.zero_add _).symm⟩
    apply Nat.add_le_add_left
    exact Bool.toNat_le _
  | sweep curTime =>
    cases hs
    exact ⟨(BitVec.add_zero _).symm, (BitVec.add_zero _).symm, Nat.le_refl _,
      fun es => (Nat.zero_add _).symm⟩
  | control disable =>
    cases hs
    exact ⟨(BitVec.add_zero _).symm, (BitVec.add_zero _).symm, Nat.le_refl _,
      fun es => (Nat.zero_add _).symm⟩

/-- What a run adds. -/
theorem run_adds {s s' : Service} {es : List Event} (hr : run step s es = some s') :
    s'.stats.pkts_sent = s.stats.pkts_sent + BitVec.ofNat 32 (accepted s.service_disabled es) ∧
      s'.stats.pkts_recv = s.stats.pkts_recv + BitVec.ofNat 32 (messages es) ∧
      s'.handed ≤ s.handed + messages es := by
  induction es generalizing s with
  | nil =>
    cases hr
    exact ⟨(BitVec.add_zero _).symm, (BitVec.add_zero _).symm, Nat.le_refl _⟩
  | cons e es ih =>
    obtain ⟨u, hu, hr'⟩ := run_cons_eq_some.mp hr
    have hadds := step_adds hu
    obtain ⟨hsent, hrecv, hhanded⟩ := ih hr'
    refine ⟨?_, ?_, ?_⟩
    · rw [hsent, hadds.pkts_sent, hadds.rest es, BitVec.ofNat_add, BitVec.add_assoc]
    · rw [hrecv, hadds.pkts_recv, messages_cons e es, BitVec.ofNat_add, BitVec.add_assoc]
    · rw [messages_cons e es]
      have hfirst := hadds.handed
      omega

/-! ## The packets that leave whole -/

/-- Where no slot is in use, a message hands over a whole packet exactly when it is one,
and then no slot is in use after it either. -/
theorem transmit_idle {now : Nat} {r : Receiver} {msg : MsgBuf} {t : Transmitted} (hi : Idle r)
    (ht : iot_transmit now r msg = .ok t) :
    (handsWhole now r msg = true ↔ msg.msgHeader.frgmnts.val ≤ 1) ∧
      (msg.msgHeader.frgmnts.val ≤ 1 → Idle t.rcv) := by
  obtain ⟨hin, s, hs, -, -⟩ := (iot_transmit_ok_iff now).mp ⟨t, ht⟩
  obtain ⟨c, hlen, hc, hout, hfrag, hused, -⟩ := iot_transmit_fresh ht hs (hi (0, s))
  refine ⟨?_, ?_⟩
  · unfold handsWhole
    simp only [hc, hout]
    by_cases hone : msg.msgHeader.frgmnts.val ≤ 1
    · have hwhole : Whole (c.rcv.table.fragments (0, s)) := by
        rw [hfrag]
        intro i hi
        have hidx : msg.msgHeader.frgmntIdx.val < msg.msgHeader.frgmnts.val := hin
        have hzero : i = 0 := by
          have : i < msg.msgHeader.frgmnts.val := hi
          omega
        have hfirst : msg.msgHeader.frgmntIdx.val = 0 := by omega
        simp [stored, UdpFragment.opened, hzero, hfirst]
      simp [hone, hwhole]
    · simp [hone]
  · intro hone h
    by_cases hk : h.2.val = msg.msgHeader.seqNum.val
    · obtain rfl : h = (0, s) := handle_ext (hk.trans hs.symm)
      apply Bool.eq_false_iff.mpr
      intro hu
      exact absurd (hused.mp hu) (not_lt.mpr hone)
    · rw [slot_runs.iot_transmit_frame ht hk]
      exact hi h

theorem Idle.sweep {r : Receiver} (h : Idle r) (curTime : Nat) :
    Idle (r_udp_req_routine curTime r) := by
  intro k
  rw [r_udp_req_routine_fragments]
  split_ifs
  · rfl
  · exact h k

/-- Every message hands over a whole packet exactly when every message is one. -/
theorem handed_eq_iff {s s' : Service} {es : List Event} (hi : Idle s.rcv)
    (hr : run step s es = some s') :
    s'.handed = s.handed + messages es ↔ ∀ e ∈ es, Alone e := by
  induction es generalizing s with
  | nil =>
    cases hr
    simp [messages]
  | cons e es ih =>
    obtain ⟨u, hu, hr'⟩ := run_cons_eq_some.mp hr
    rw [List.forall_mem_cons]
    cases e with
    | receive pool res =>
      cases hu
      have hlast := iot_receive_rcv pool s res
      rw [← ih (hlast.1.symm ▸ hi) hr', hlast.2.2.1]
      simp [Alone, messages, Event.isTransmit]
    | transmit now msg =>
      obtain ⟨t, ht, rfl⟩ := step_transmit hu
      obtain ⟨hwhole, hidle⟩ := transmit_idle hi ht
      have htransmit : messages (.transmit now msg :: es) = messages es + 1 :=
        List.countP_cons_of_pos rfl
      by_cases halone : msg.msgHeader.frgmnts.val ≤ 1
      · rw [← ih (hidle halone) hr', hwhole.mpr halone, htransmit]
        simp only [Alone, halone, true_and, Bool.toNat_true]
        omega
      · have hbit : handsWhole now s.rcv msg = false :=
          Bool.eq_false_iff.mpr fun h => halone (hwhole.mp h)
        have hle := (run_adds hr').2.2
        simp only [hbit, Bool.toNat_false] at hle
        simp only [Alone, halone, false_and, iff_false, htransmit]
        omega
    | sweep curTime =>
      cases hu
      rw [← ih (hi.sweep curTime) hr']
      simp [Alone, messages, Event.isTransmit]
    | control disable =>
      cases hu
      rw [← ih (s := { s with service_disabled := disable }) hi hr']
      simp [Alone, messages, Event.isTransmit]

/-! ## What the counters count -/

theorem toInt_ofNat_small {n : Nat} (h : n < 2 ^ 31) : (BitVec.ofNat 32 n).toInt = n := by
  rw [BitVec.toInt_eq_toNat_of_lt, BitVec.toNat_ofNat, Nat.mod_eq_of_lt (by omega)]
  rw [BitVec.toNat_ofNat, Nat.mod_eq_of_lt (by omega)]
  omega

theorem accepted_le (disabled : Bool) (es : List Event) : accepted disabled es ≤ es.length := by
  induction es generalizing disabled with
  | nil => exact Nat.le_refl _
  | cons e es ih =>
    rcases e with ⟨pool, d | again⟩ | ⟨now, msg⟩ | curTime | disable
    · have := ih disabled
      simp only [accepted, List.length_cons]
      split_ifs <;> omega
    · exact Nat.le_succ_of_le (ih disabled)
    · exact Nat.le_succ_of_le (ih disabled)
    · exact Nat.le_succ_of_le (ih disabled)
    · exact Nat.le_succ_of_le (ih disable)

/-- The counters stand for each other: each reports the events of the other direction,
and in the direction of the device the messages, not the datagrams. So they are right
exactly when as many messages came as datagrams, and every message was a packet of its
own. -/
theorem counts_iff {es : List Event} {s : Service} (hr : run step init es = some s)
    (hlen : es.length < 2 ^ 31) :
    Counts es s ↔ messages es = accepted false es ∧ ∀ e ∈ es, Alone e := by
  have hmessages : messages es ≤ es.length := List.countP_le_length
  have hidle : Idle init.rcv := fun _ => rfl
  obtain ⟨hsent_run, hrecv_run, -⟩ := run_adds hr
  have hrecv : (get_sensor_stats s.stats).pkts_recv.toInt = messages es := by
    have h : s.stats.pkts_recv = BitVec.ofNat 32 (messages es) :=
      hrecv_run.trans (BitVec.zero_add _)
    rw [get_sensor_stats, h, toInt_ofNat_small (hmessages.trans_lt hlen)]
  have hsent : (get_sensor_stats s.stats).pkts_sent.toInt = accepted false es := by
    have h : s.stats.pkts_sent = BitVec.ofNat 32 (accepted false es) :=
      hsent_run.trans (BitVec.zero_add _)
    rw [get_sensor_stats, h, toInt_ofNat_small ((accepted_le false es).trans_lt hlen)]
  have hhanded := handed_eq_iff hidle hr
  rw [show init.handed = 0 by rfl, Nat.zero_add] at hhanded
  rw [← hhanded]
  refine ⟨?_, ?_⟩
  · rintro ⟨h1, h2⟩
    rw [hrecv, Nat.cast_inj] at h1
    rw [hsent, Nat.cast_inj] at h2
    exact ⟨h1, by omega⟩
  · rintro ⟨h1, h2⟩
    refine ⟨?_, ?_⟩
    · rw [hrecv, h1]
    · rw [hsent, h2, h1]

/-- A packet of one fragment with one byte of data, number 1. -/
def single : MsgBuf :=
  { MsgBuf.zero with
    msgHeader := { msgCode := 0, frgmntIdx := 0, frgmnts := 1, seqNum := 1, size := 1 }
    msgLen := 1 }

/-- One datagram of one byte each way. -/
def oneEachWay : List Event := [.receive (fun _ => .zero) (.bytes [7]), .transmit 0 single]

theorem one_each_way_is_counted : ∃ s, run step init oneEachWay = some s ∧ Counts oneEachWay s := by
  have hsome : (run step init oneEachWay).isSome = true := by decide +kernel
  obtain ⟨s, hs⟩ := Option.isSome_iff_exists.mp hsome
  refine ⟨s, hs, (counts_iff hs (by decide)).mpr ⟨by decide, ?_⟩⟩
  rintro e (_ | ⟨_, _ | ⟨_, ⟨⟩⟩⟩)
  · exact trivial
  · exact Nat.le_refl 1

/-- One datagram from the device is not counted as received. -/
theorem a_received_datagram_is_not_counted :
    ¬ ∀ es s, run step init es = some s → es.length < 2 ^ 31 → Counts es s := by
  intro hall
  have hcounts := hall [.receive (fun _ => .zero) (.bytes [7])] _ rfl (by decide)
  have hnone : (0 : Int) = 1 := hcounts.recv
  exact absurd hnone (by decide)

end sensor_stats

end udp_service
