-- The control port of the service (service_check.c): the messages that disable
-- and enable it and ask for its counters, beside the traffic of the devices.
import UdpService.SensorStats
import UdpService.Lib.LittleEndian

open blocks runs little_endian

namespace udp_service

namespace service_check

open hs_udp_service rudp_req sensor_stats

/-! ## The messages -/

@[simp] def TERM_APP_SERVICE_DISABLE : Nat := 0x10
@[simp] def TERM_APP_SERVICE_ENABLE : Nat := 0x11
@[simp] def TERM_APP_SERVICE_STATS : Nat := 0x18
@[simp] def TERM_APP_OK : Nat := 0

/-- The size of the union in a message, `char buf[1000]`. -/
@[simp] abbrev UNION_SIZE : Nat := 1000

/-- `sizeof(term_app_control_msg_t)`: the opcode and the union, packed. -/
@[simp] abbrev CONTROL_MSG_SIZE : Nat := 4 + UNION_SIZE

/-- `term_app_control_msg_t`. -/
structure TermAppControlMsg where
  opcode : Nat
  u : Buffer UInt8 UNION_SIZE

/-- The bytes of a message. -/
def TermAppControlMsg.bytes (termmsg : TermAppControlMsg) : List UInt8 :=
  le 4 termmsg.opcode ++ List.ofFn termmsg.u

/-- The message that `read` leaves in `termmsg`, which is zero before. -/
def read (bytes : List UInt8) : TermAppControlMsg :=
  let raw := Buffer.padded CONTROL_MSG_SIZE 0 (bytes.take CONTROL_MSG_SIZE)
  { opcode := ofLe ((List.ofFn raw).take 4), u := fun j => raw (j.natAdd 4) }

/-- The bytes of `sensor_stats_t`. -/
def statsBytes (stats : SensorStats) : List UInt8 :=
  le 4 stats.pkts_sent.toNat ++ le 4 stats.pkts_recv.toNat ++ le 4 stats.pkts_err.toNat

/-- The counters in a reply, as the other end reads them. -/
def statsOf (reply : List UInt8) : SensorStats :=
  { pkts_sent := BitVec.ofNat 32 (ofLe ((reply.drop 4).take 4))
    pkts_recv := BitVec.ofNat 32 (ofLe ((reply.drop 8).take 4))
    pkts_err := BitVec.ofNat 32 (ofLe ((reply.drop 12).take 4)) }

/-- `process_term_app_msg`: `service_disabled` after it, and what goes to
`term_udp_send`. -/
def process_term_app_msg (service_disabled : Bool) (stats : SensorStats)
    (termmsg : TermAppControlMsg) : Bool × Option TermAppControlMsg :=
  if termmsg.opcode = TERM_APP_SERVICE_DISABLE then
    (true, some { termmsg with opcode := TERM_APP_OK })
  else if termmsg.opcode = TERM_APP_SERVICE_ENABLE then
    (false, some { termmsg with opcode := TERM_APP_OK })
  else if termmsg.opcode = TERM_APP_SERVICE_STATS then
    (service_disabled,
      some { opcode := TERM_APP_OK, u := termmsg.u.write 0 (statsBytes (get_sensor_stats stats)) })
  else (service_disabled, none)

/-! ## The service and its control port -/

variable {Addr : Type}

/-- The service, the address in the socket of the devices, what went to the devices
and to which address, and the replies of the control port. There is no address before
the first datagram. -/
structure Control (Addr : Type) where
  service : Service
  addr : Option Addr
  toDevice : List (Option Addr × List UInt8)
  replies : List (List UInt8)

def init : Control Addr :=
  { service := sensor_stats.init, addr := none, toDevice := [], replies := [] }

/-- What happens: a datagram of a device or an error of its socket, a message from fusion,
the sweep, a datagram at the control port. -/
inductive Event (Addr : Type)
  | receive (sender : Addr) (pool : Nat → MsgBuf) (res : Recv)
  | transmit (now : Nat) (msg : MsgBuf)
  | sweep (curTime : Nat)
  | message (bytes : List UInt8)

/-- One event. `recvfrom` stores the address of a datagram before the service looks whether
it is disabled. -/
def step (c : Control Addr) : Event Addr → Option (Control Addr)
  | .receive sender pool res =>
    some { c with
      service := iot_receive pool c.service res
      addr := match res with
        | .bytes _ => some sender
        | .failed _ => c.addr }
  | .transmit now msg =>
    match iot_transmit now c.service.rcv msg with
    | .ok t =>
      (sensor_stats.step c.service (.transmit now msg)).map fun service =>
        { c with service, toDevice := c.toDevice ++ t.sent.toList.map fun b => (c.addr, b) }
    | .error _ => none
  | .sweep curTime =>
    (sensor_stats.step c.service (.sweep curTime)).map fun service => { c with service }
  | .message bytes =>
    if 0 < bytes.length then
      let r := process_term_app_msg c.service.service_disabled c.service.stats (read bytes)
      some { c with
        service := { c.service with service_disabled := r.1 }
        replies := c.replies ++ r.2.toList.map TermAppControlMsg.bytes }
    else some c

/-! ## One message -/

/-- What a datagram at the control port makes of `service_disabled`, if it does. -/
def switched : Event Addr → Option Bool
  | .message bytes =>
    if bytes = [] then none
    else if (read bytes).opcode = TERM_APP_SERVICE_DISABLE then some true
    else if (read bytes).opcode = TERM_APP_SERVICE_ENABLE then some false
    else none
  | _ => none

/-- A datagram at the control port with an opcode that it knows. -/
def isCommand : Event Addr → Bool
  | .message bytes => bytes ≠ [] ∧ (read bytes).opcode ∈
      [TERM_APP_SERVICE_DISABLE, TERM_APP_SERVICE_ENABLE, TERM_APP_SERVICE_STATS]
  | _ => false

/-- The service as the counters see it: a message of the control port is a switch or
nothing. -/
def plain : Event Addr → Option sensor_stats.Event
  | .receive _ pool res => some (.receive pool res)
  | .transmit now msg => some (.transmit now msg)
  | .sweep curTime => some (.sweep curTime)
  | .message bytes => (switched (.message bytes : Event Addr)).map .control

/-- The errors of the socket that come while the service is enabled, `EAGAIN` apart. -/
def failures : Bool → List sensor_stats.Event → Nat
  | _, [] => 0
  | disabled, .receive _ (.failed again) :: es =>
    (if disabled = false ∧ again = false then 1 else 0) + failures disabled es
  | _, .control disable :: es => failures disable es
  | disabled, _ :: es => failures disabled es

/-- The counters after the events: the datagrams taken from the device, the messages from
fusion, and the errors. -/
def counted (es : List (Event Addr)) : SensorStats :=
  { pkts_sent := BitVec.ofNat 32 (accepted false (es.filterMap plain))
    pkts_recv := BitVec.ofNat 32 (messages (es.filterMap plain))
    pkts_err := BitVec.ofNat 32 (failures false (es.filterMap plain)) }

/-- The events without the control port: the datagrams of the devices that come while the
service is disabled are dumped, and the messages are gone. -/
def heard : Bool → List (Event Addr) → List (Event Addr)
  | _, [] => []
  | disabled, .receive sender pool res :: es =>
    (if disabled then [] else [.receive sender pool res]) ++ heard disabled es
  | disabled, .message bytes :: es =>
    heard ((switched (.message bytes : Event Addr)).getD disabled) es
  | disabled, e :: es => e :: heard disabled es

/-- The sender of a datagram of the devices. -/
def sender : Event Addr → Option Addr
  | .receive sender _ (.bytes _) => some sender
  | _ => none

/-- The sender of the latest datagram, dumped or not. -/
def lastSender (es : List (Event Addr)) : Option Addr := (es.filterMap sender).getLast?

/-- The reply has the size of a message and the opcode `TERM_APP_OK`. A request for the
counters gets them at the start of the union. All else is what was sent, and zero after it. -/
structure Answers (stats : SensorStats) (bytes reply : List UInt8) : Prop where
  length : reply.length = CONTROL_MSG_SIZE
  opcode : ofLe (reply.take 4) = TERM_APP_OK
  stats : (read bytes).opcode = TERM_APP_SERVICE_STATS → statsOf reply = stats
  echo : ∀ j, (if (read bytes).opcode = TERM_APP_SERVICE_STATS then 16 else 4) ≤ j →
    j < CONTROL_MSG_SIZE → reply[j]? = some (bytes[j]?.getD 0)

section message

variable {stats : SensorStats} {bytes : List UInt8}

theorem bytes_length (m : TermAppControlMsg) : m.bytes.length = CONTROL_MSG_SIZE := by
  unfold TermAppControlMsg.bytes
  rw [List.length_append, le_length, List.length_ofFn]

theorem take_bytes (m : TermAppControlMsg) : m.bytes.take 4 = le 4 m.opcode := by
  unfold TermAppControlMsg.bytes
  rw [List.take_append_of_le_length (by simp), List.take_of_length_le (by simp)]

theorem reply_opcode (u : Buffer UInt8 UNION_SIZE) :
    ofLe ((TermAppControlMsg.bytes ⟨TERM_APP_OK, u⟩).take 4) = TERM_APP_OK := by
  have hlt : TERM_APP_OK < 256 ^ 4 := by decide
  rw [take_bytes]
  exact ofLe_le_of_lt hlt

theorem drop_bytes (m : TermAppControlMsg) : m.bytes.drop 4 = List.ofFn m.u := by
  unfold TermAppControlMsg.bytes
  rw [List.drop_append_of_le_length (by simp), List.drop_of_length_le (by simp), List.nil_append]

theorem bytes_getElem? (m : TermAppControlMsg) (j : Fin UNION_SIZE) :
    m.bytes[4 + j.val]? = some (m.u j) := by
  rw [← List.getElem?_drop, drop_bytes, List.getElem?_ofFn, dif_pos j.isLt]

theorem read_u (bytes : List UInt8) (j : Fin UNION_SIZE) :
    (read bytes).u j = bytes[4 + j.val]?.getD 0 := by
  simp only [read, Buffer.padded, Fin.val_natAdd]
  rw [List.getElem?_take_of_lt]
  have hj := j.isLt
  simp only [CONTROL_MSG_SIZE, UNION_SIZE] at hj ⊢
  omega

theorem statsOf_bytes (u : Buffer UInt8 UNION_SIZE) (opcode : Nat) (stats : SensorStats) :
    statsOf (TermAppControlMsg.bytes ⟨opcode, u.write 0 (statsBytes stats)⟩) = stats := by
  have hsize : (statsBytes stats).length = 12 := by simp [statsBytes]
  have htake := Buffer.take_write u (l := statsBytes stats) (by rw [hsize]; decide)
  rw [← drop_bytes ⟨opcode, u.write 0 (statsBytes stats)⟩, hsize] at htake
  have hfield : ∀ k, k + 4 ≤ 12 →
      ((TermAppControlMsg.bytes ⟨opcode, u.write 0 (statsBytes stats)⟩).drop (4 + k)).take 4 =
        ((statsBytes stats).drop k).take 4 := by
    intro k hk
    conv_rhs => rw [← htake]
    rw [List.drop_take, List.take_take, List.drop_drop, Nat.min_eq_left (by omega)]
  have hback : ∀ x : BitVec 32, BitVec.ofNat 32 (ofLe (le 4 x.toNat)) = x := by
    intro x
    rw [ofLe_le_of_lt x.isLt, BitVec.ofNat_toNat, BitVec.setWidth_eq]
  have hsent : ((statsBytes stats).drop 0).take 4 = le 4 stats.pkts_sent.toNat := rfl
  have hrecv : ((statsBytes stats).drop 4).take 4 = le 4 stats.pkts_recv.toNat := rfl
  have herr : ((statsBytes stats).drop 8).take 4 = le 4 stats.pkts_err.toNat := rfl
  unfold statsOf
  rw [hfield 0 (by omega), hfield 4 (by omega), hfield 8 (by omega), hsent, hrecv, herr,
    hback, hback, hback]

theorem answers_echo (hother : (read bytes).opcode ≠ TERM_APP_SERVICE_STATS) :
    Answers stats bytes (TermAppControlMsg.bytes { read bytes with opcode := TERM_APP_OK }) := by
  refine ⟨bytes_length _, reply_opcode _, fun h => absurd h hother, fun j hlow hj => ?_⟩
  rw [if_neg hother] at hlow
  obtain ⟨k, rfl⟩ := Nat.exists_eq_add_of_le hlow
  have hk : k < UNION_SIZE := Nat.lt_of_add_lt_add_left hj
  exact (bytes_getElem? _ ⟨k, hk⟩).trans (congrArg some (read_u bytes ⟨k, hk⟩))

theorem answers_stats (hstats : (read bytes).opcode = TERM_APP_SERVICE_STATS) :
    Answers stats bytes (TermAppControlMsg.bytes
      { opcode := TERM_APP_OK, u := (read bytes).u.write 0 (statsBytes stats) }) := by
  refine ⟨bytes_length _, reply_opcode _, fun _ => statsOf_bytes _ _ _, fun j hlow hj => ?_⟩
  rw [if_pos hstats] at hlow
  obtain ⟨k, rfl⟩ := Nat.exists_eq_add_of_le (Nat.le_trans (by decide : 4 ≤ 16) hlow)
  have hk : k < UNION_SIZE := Nat.lt_of_add_lt_add_left hj
  have hbehind : (statsBytes stats)[k]? = none := by
    apply List.getElem?_eq_none
    simp only [statsBytes, List.length_append, le_length]
    omega
  rw [bytes_getElem? ⟨TERM_APP_OK, _⟩ ⟨k, hk⟩]
  simp only [Buffer.write, Nat.zero_le, if_true, Nat.sub_zero, hbehind, Option.getD_none]
  exact congrArg some (read_u bytes ⟨k, hk⟩)

theorem isCommand_iff {Addr : Type} : isCommand (.message bytes : Event Addr) = true ↔
    bytes ≠ [] ∧ ((read bytes).opcode = TERM_APP_SERVICE_DISABLE ∨
      (read bytes).opcode = TERM_APP_SERVICE_ENABLE ∨
      (read bytes).opcode = TERM_APP_SERVICE_STATS) := by
  unfold isCommand
  rw [decide_eq_true_iff, List.mem_cons, List.mem_cons, List.mem_singleton]

/-- What `process_term_app_msg` does with a message: a known opcode is answered, and two of
them switch the service. -/
theorem process_term_app_msg_spec (Addr : Type) (disabled : Bool) (stats : SensorStats)
    (hne : bytes ≠ []) :
    (process_term_app_msg disabled stats (read bytes)).1 =
        (switched (.message bytes : Event Addr)).getD disabled ∧
      if isCommand (.message bytes : Event Addr) then
        ∃ m, (process_term_app_msg disabled stats (read bytes)).2 = some m ∧
          Answers stats bytes m.bytes
      else (process_term_app_msg disabled stats (read bytes)).2 = none := by
  simp only [isCommand_iff, hne, ne_eq, not_false_eq_true, true_and, process_term_app_msg,
    switched, if_false]
  by_cases hdis : (read bytes).opcode = TERM_APP_SERVICE_DISABLE
  · rw [if_pos hdis, if_pos hdis, if_pos (.inl hdis)]
    exact ⟨rfl, _, rfl, answers_echo (by rw [hdis]; decide)⟩
  rw [if_neg hdis, if_neg hdis]
  by_cases hen : (read bytes).opcode = TERM_APP_SERVICE_ENABLE
  · rw [if_pos hen, if_pos hen, if_pos (.inr (.inl hen))]
    exact ⟨rfl, _, rfl, answers_echo (by rw [hen]; decide)⟩
  rw [if_neg hen, if_neg hen]
  by_cases hstats : (read bytes).opcode = TERM_APP_SERVICE_STATS
  · rw [if_pos hstats, if_pos (.inr (.inr hstats))]
    exact ⟨rfl, _, rfl, answers_stats hstats⟩
  rw [if_neg hstats, if_neg (by simp only [hdis, hen, hstats, or_self, not_false_eq_true])]
  exact ⟨rfl, rfl⟩

end message

/-! ## What the control port answers -/

variable {c c' : Control Addr} {e : Event Addr} {es : List (Event Addr)}

theorem step_receive {sender : Addr} {pool : Nat → MsgBuf} {res : Recv}
    (hs : step c (.receive sender pool res) = some c') :
    c'.service = iot_receive pool c.service res ∧ c'.toDevice = c.toDevice ∧
      c'.replies = c.replies := by
  cases hs
  exact ⟨rfl, rfl, rfl⟩

theorem step_transmit {now : Nat} {msg : MsgBuf} (hs : step c (.transmit now msg) = some c') :
    ∃ t service, iot_transmit now c.service.rcv msg = .ok t ∧
      sensor_stats.step c.service (.transmit now msg) = some service ∧
      c' = { c with
        service, toDevice := c.toDevice ++ t.sent.toList.map fun b => (c.addr, b) } := by
  simp only [step] at hs
  split at hs
  · rename_i t ht
    obtain ⟨service, hservice, rfl⟩ := Option.map_eq_some_iff.mp hs
    exact ⟨t, service, ht, hservice, rfl⟩
  · cases hs

theorem step_sweep {curTime : Nat} (hs : step c (.sweep curTime) = some c') :
    c' = { c with
      service := { c.service with rcv := r_udp_req_routine curTime c.service.rcv } } := by
  cases hs
  rfl

/-- A datagram at the control port switches the service or leaves it, and brings a reply or
none. -/
theorem step_message {bytes : List UInt8} (hs : step c (.message bytes) = some c') :
    ∃ replies, c' = { c with
        service := { c.service with
          service_disabled := (switched (.message bytes : Event Addr)).getD
            c.service.service_disabled }
        replies := c.replies ++ replies } ∧
      if isCommand (.message bytes : Event Addr) then
        ∃ reply, replies = [reply] ∧ Answers c.service.stats bytes reply
      else replies = [] := by
  simp only [step] at hs
  split at hs
  · rename_i hpos
    obtain rfl := Option.some.inj hs
    obtain ⟨hswitch, hreply⟩ := process_term_app_msg_spec Addr
      c.service.service_disabled c.service.stats (List.length_pos_iff.mp hpos)
    refine ⟨_, by rw [hswitch], ?_⟩
    split_ifs at hreply ⊢
    · obtain ⟨m, hm, hans⟩ := hreply
      exact ⟨m.bytes, by rw [hm]; rfl, hans⟩
    · rw [hreply]
      rfl
  · rename_i hempty
    obtain rfl : bytes = [] := by simpa using hempty
    obtain rfl := Option.some.inj hs
    refine ⟨[], by simp [switched], ?_⟩
    rw [if_neg (by simp [isCommand])]

/-- The service takes the step that the counters see. -/
theorem step_plain (hs : step c e = some c') :
    run sensor_stats.step c.service (plain e).toList = some c'.service := by
  cases e with
  | receive sender pool res =>
    rw [(step_receive hs).1]
    rfl
  | transmit now msg =>
    obtain ⟨t, service, -, hservice, rfl⟩ := step_transmit hs
    exact run_cons_eq_some.mpr ⟨service, hservice, rfl⟩
  | sweep curTime =>
    rw [step_sweep hs]
    rfl
  | message bytes =>
    obtain ⟨replies, rfl, -⟩ := step_message hs
    simp only [plain]
    cases switched (.message bytes : Event Addr) <;> rfl

theorem run_plain (hr : run step c es = some c') :
    run sensor_stats.step c.service (es.filterMap plain) = some c'.service := by
  induction es generalizing c with
  | nil =>
    cases hr
    rfl
  | cons e es ih =>
    obtain ⟨v, hv, hr'⟩ := run_cons_eq_some.mp hr
    have hcons : (e :: es).filterMap plain = (plain e).toList ++ es.filterMap plain := by
      rw [List.filterMap_cons]
      cases plain e <;> rfl
    rw [hcons, run_append, step_plain hv]
    exact ih hr'

/-- What a run adds to the replies, and how many. -/
theorem run_replies (hr : run step c es = some c') :
    ∃ replies, c'.replies = c.replies ++ replies ∧ replies.length = es.countP isCommand := by
  induction es generalizing c with
  | nil =>
    cases hr
    exact ⟨[], (List.append_nil _).symm, rfl⟩
  | cons e es ih =>
    obtain ⟨v, hv, hr'⟩ := run_cons_eq_some.mp hr
    obtain ⟨later, hlater, hlength⟩ := ih hr'
    have hquiet : v.replies = c.replies → isCommand e = false →
        ∃ replies, c'.replies = c.replies ++ replies ∧
          replies.length = (e :: es).countP isCommand := by
      intro hsame hno
      exact ⟨later, by rw [hlater, hsame], by rw [hlength, List.countP_cons_of_neg (by simp [hno])]⟩
    cases e with
    | receive sender pool res => exact hquiet (step_receive hv).2.2 rfl
    | transmit now msg =>
      obtain ⟨t, service, -, -, rfl⟩ := step_transmit hv
      exact hquiet rfl rfl
    | sweep curTime =>
      obtain rfl := step_sweep hv
      exact hquiet rfl rfl
    | message bytes =>
      obtain ⟨replies, rfl, hreplies⟩ := step_message hv
      refine ⟨replies ++ later, by rw [hlater, List.append_assoc], ?_⟩
      split_ifs at hreplies with hcommand
      · obtain ⟨reply, rfl, -⟩ := hreplies
        rw [List.countP_cons_of_pos hcommand, List.length_append, hlength, List.length_singleton,
          Nat.add_comm]
      · rw [hreplies, List.countP_cons_of_neg hcommand, List.nil_append, hlength]

theorem run_failures {s s' : Service} {es : List sensor_stats.Event}
    (hr : run sensor_stats.step s es = some s') :
    s'.stats.pkts_err = s.stats.pkts_err + BitVec.ofNat 32 (failures s.service_disabled es) := by
  induction es generalizing s with
  | nil =>
    cases hr
    exact (BitVec.add_zero _).symm
  | cons e es ih =>
    obtain ⟨v, hv, hr'⟩ := run_cons_eq_some.mp hr
    rw [ih hr']
    cases e with
    | receive pool res =>
      obtain rfl := Option.some.inj hv
      rw [(iot_receive_rcv pool s res).2.1]
      unfold iot_receive
      rcases res with d | again
      · simp only [failures]
        split_ifs <;> rfl
      · cases hdis : s.service_disabled <;> cases again <;>
          simp [failures, update_stats_pkts_err, BitVec.ofNat_add, BitVec.add_assoc]
    | transmit now msg =>
      obtain ⟨t, -, rfl⟩ := sensor_stats.step_transmit hv
      rfl
    | sweep curTime =>
      cases hv
      rfl
    | control disable =>
      cases hv
      rfl

theorem run_counted (hr : run step init es = some c) : c.service.stats = counted es := by
  have hplain := run_plain hr
  obtain ⟨hsent, hrecv, -⟩ := run_adds hplain
  have herr := run_failures hplain
  have hext : ∀ x y : SensorStats, x.pkts_sent = y.pkts_sent → x.pkts_recv = y.pkts_recv →
      x.pkts_err = y.pkts_err → x = y := by
    rintro ⟨_, _, _⟩ ⟨_, _, _⟩ rfl rfl rfl
    rfl
  apply hext
  · rw [hsent]
    exact BitVec.zero_add _
  · rw [hrecv]
    exact BitVec.zero_add _
  · rw [herr]
    exact BitVec.zero_add _

theorem step_disabled (c : Control Addr) (e : Event Addr) (c' : Control Addr)
    (hs : step c e = some c') : c'.service.service_disabled =
      (switched e).getD c.service.service_disabled := by
  cases e with
  | receive sender pool res =>
    rw [(step_receive hs).1, (iot_receive_rcv pool c.service res).2.1]
    rfl
  | transmit now msg =>
    obtain ⟨t, service, -, hservice, rfl⟩ := step_transmit hs
    obtain ⟨t', -, rfl⟩ := sensor_stats.step_transmit hservice
    rfl
  | sweep curTime =>
    rw [step_sweep hs]
    rfl
  | message bytes =>
    obtain ⟨replies, rfl, -⟩ := step_message hs
    rfl

/-- The control port over a run: the service is disabled when the last switch said so, every
message with a known opcode is answered once and in order, every other datagram not at all,
and a reply to a request reports what happened before it. -/
theorem the_control_port_answers_every_command (hr : run step init es = some c) :
    c.service.service_disabled = (es.filterMap switched).getLast?.getD false ∧
      c.replies.length = es.countP isCommand ∧
      ∀ pre bytes post, es = pre ++ .message bytes :: post →
        isCommand (.message bytes : Event Addr) = true →
        ∃ reply, c.replies[pre.countP isCommand]? = some reply ∧
          Answers (counted pre) bytes reply := by
  refine ⟨run_register _ step_disabled hr, ?_, ?_⟩
  · obtain ⟨replies, hreplies, hlength⟩ := run_replies hr
    rw [hreplies, List.length_append, hlength]
    exact Nat.zero_add _
  · rintro pre bytes post rfl hcommand
    obtain ⟨v, v', hv, hstep, hpost⟩ := run_split hr
    obtain ⟨before, hbefore, hcount⟩ := run_replies hv
    obtain ⟨replies, rfl, hreplies⟩ := step_message hstep
    rw [if_pos hcommand] at hreplies
    obtain ⟨reply, rfl, hans⟩ := hreplies
    obtain ⟨later, hlater, -⟩ := run_replies hpost
    refine ⟨reply, ?_, run_counted hv ▸ hans⟩
    have hlength : v.replies.length = pre.countP isCommand := by
      rw [hbefore, List.length_append, hcount]
      exact Nat.zero_add _
    rw [hlater, ← hlength, List.append_assoc, List.getElem?_append_right (Nat.le_refl _),
      Nat.sub_self]
    rfl

/-- The control port disables the service and enables it again, and is asked for the
counters. The devices 5 and 6 send a byte each, the second while the service is disabled. -/
def disabledForAWhile : List (Event Nat) :=
  [.receive 5 (fun _ => .zero) (.bytes [7]), .message [0x10, 0, 0, 0],
    .receive 6 (fun _ => .zero) (.bytes [8]), .message [0x11, 0, 0, 0], .transmit 0 single,
    .message [0x18, 0, 0, 0]]

theorem the_counters_after_a_while : ∃ c, run step init disabledForAWhile = some c ∧
    c.service.service_disabled = false ∧ c.replies.length = 3 ∧
    ∃ reply, c.replies[2]? = some reply ∧ statsOf reply = ⟨1, 1, 0⟩ := by
  have hsome : (run step init disabledForAWhile).isSome = true := by decide +kernel
  obtain ⟨c, hc⟩ := Option.isSome_iff_exists.mp hsome
  obtain ⟨hdisabled, hlength, hreplies⟩ := the_control_port_answers_every_command hc
  obtain ⟨reply, hreply, hans⟩ :=
    hreplies (disabledForAWhile.take 5) [0x18, 0, 0, 0] [] rfl (by decide +kernel)
  have hlast : (disabledForAWhile.filterMap switched).getLast?.getD false = false := by
    decide +kernel
  have hcount : disabledForAWhile.countP isCommand = 3 := by decide +kernel
  have hindex : (disabledForAWhile.take 5).countP isCommand = 2 := by decide +kernel
  have hasked : (read [0x18, 0, 0, 0]).opcode = TERM_APP_SERVICE_STATS := by decide +kernel
  have hcounted : counted (disabledForAWhile.take 5) = ⟨1, 1, 0⟩ := by decide +kernel
  rw [hindex] at hreply
  exact ⟨c, hc, hdisabled.trans hlast, hlength.trans hcount, reply, hreply,
    (hans.stats hasked).trans hcounted⟩

/-! ## What the devices see -/

/-- The service that hears the messages of the control port and the one that is never
disabled: the same but for the switch, and the same packets to the devices. -/
structure Alike (c d : Control Addr) : Prop where
  service : d.service = { c.service with service_disabled := false }
  packets : d.toDevice.map Prod.snd = c.toDevice.map Prod.snd

theorem step_alike_receive {d : Control Addr} {a : Addr} {pool : Nat → MsgBuf} {res : Recv}
    (h : Alike c d) (hs : step c (.receive a pool res) = some c') :
    ∃ d', run step d (if c.service.service_disabled then [] else [.receive a pool res]) = some d' ∧
      Alike c' d' := by
  obtain ⟨hservice, hpackets, -⟩ := step_receive hs
  cases hdis : c.service.service_disabled with
  | true =>
    have hsame : iot_receive pool c.service res = c.service := if_pos hdis
    exact ⟨d, rfl, by rw [hservice, hsame]; exact h.service, by rw [hpackets]; exact h.packets⟩
  | false =>
    have hsame : d.service = c.service := by
      rw [h.service, ← hdis]
    refine ⟨_, rfl, ?_, by rw [hpackets]; exact h.packets⟩
    have hstill : (iot_receive pool c.service res).service_disabled = false :=
      (iot_receive_rcv pool c.service res).2.1.trans hdis
    rw [hservice, ← hstill, ← hsame]

theorem step_alike_transmit {d : Control Addr} {now : Nat} {msg : MsgBuf} (h : Alike c d)
    (hs : step c (.transmit now msg) = some c') :
    ∃ d', step d (.transmit now msg) = some d' ∧ Alike c' d' := by
  obtain ⟨t, service, ht, hservice, rfl⟩ := step_transmit hs
  obtain ⟨t', ht', rfl⟩ := sensor_stats.step_transmit hservice
  have hrcv : d.service.rcv = c.service.rcv := by rw [h.service]
  refine ⟨{ d with
    service := { d.service with
      rcv := t'.rcv, stats := update_stats_pkts_sent d.service.stats 1
      handed := d.service.handed + (handsWhole now d.service.rcv msg).toNat }
    toDevice := d.toDevice ++ t.sent.toList.map fun b => (d.addr, b) }, ?_, ?_, ?_⟩
  · simp only [step, sensor_stats.step, hrcv, ht]
    rw [← Except.ok.inj (ht.symm.trans ht')]
    rfl
  · simp only [h.service]
  · simp [h.packets]

/-- What the run does is what a run that is never disabled does with the events it heard. -/
theorem run_alike {d : Control Addr} (h : Alike c d) (hr : run step c es = some c') :
    ∃ d', run step d (heard c.service.service_disabled es) = some d' ∧ Alike c' d' := by
  induction es generalizing c d with
  | nil =>
    cases hr
    exact ⟨d, rfl, h⟩
  | cons e es ih =>
    obtain ⟨v, hv, hr'⟩ := run_cons_eq_some.mp hr
    have hswitch := step_disabled c e v hv
    cases e with
    | receive a pool res =>
      obtain ⟨w, hw, halike⟩ := step_alike_receive h hv
      obtain ⟨d', hd', hlast⟩ := ih halike hr'
      rw [hswitch] at hd'
      exact ⟨d', by rw [heard, run_append, hw]; exact hd', hlast⟩
    | transmit now msg =>
      obtain ⟨w, hw, halike⟩ := step_alike_transmit h hv
      obtain ⟨d', hd', hlast⟩ := ih halike hr'
      rw [hswitch] at hd'
      exact ⟨d', run_cons_eq_some.mpr ⟨w, hw, hd'⟩, hlast⟩
    | sweep curTime =>
      have halike : Alike v { d with
          service := { d.service with rcv := r_udp_req_routine curTime d.service.rcv } } := by
        obtain rfl := step_sweep hv
        exact ⟨by simp only [h.service], h.packets⟩
      obtain ⟨d', hd', hlast⟩ := ih halike hr'
      rw [hswitch] at hd'
      exact ⟨d', run_cons_eq_some.mpr ⟨_, rfl, hd'⟩, hlast⟩
    | message bytes =>
      have halike : Alike v d := by
        obtain ⟨replies, rfl, -⟩ := step_message hv
        exact ⟨h.service, h.packets⟩
      obtain ⟨d', hd', hlast⟩ := ih halike hr'
      rw [hswitch] at hd'
      exact ⟨d', hd', hlast⟩

/-- What is dumped changes no packet: the run ends in the state of the service, but for the
switch, and with the bytes of the packets, in their order, of a service without a control port
that never got the dumped datagrams. Where a packet goes may differ: the sender of a dumped
datagram is remembered. -/
theorem the_dumped_datagrams_change_no_packet (hr : run step init es = some c) :
    ∃ u : Control Addr, run step init (heard false es) = some u ∧
      u.service = { c.service with service_disabled := false } ∧
      u.toDevice.map Prod.snd = c.toDevice.map Prod.snd := by
  have hstart : Alike (init : Control Addr) init := ⟨rfl, rfl⟩
  obtain ⟨u, hu, halike⟩ := run_alike hstart hr
  exact ⟨u, hu, halike.service, halike.packets⟩

theorem one_dumped_datagram : ∃ c u : Control Nat, run step init disabledForAWhile = some c ∧
    run step init [.receive 5 (fun _ => .zero) (.bytes [7]), .transmit 0 single] = some u ∧
    u.service = { c.service with service_disabled := false } ∧
    u.toDevice.map Prod.snd = c.toDevice.map Prod.snd := by
  have hsome : (run step init disabledForAWhile).isSome = true := by decide +kernel
  obtain ⟨c, hc⟩ := Option.isSome_iff_exists.mp hsome
  obtain ⟨u, hu, hrest⟩ := the_dumped_datagrams_change_no_packet hc
  have hdisable : switched (.message [0x10, 0, 0, 0] : Event Nat) = some true := by decide +kernel
  have hheard : heard false disabledForAWhile =
      [.receive 5 (fun _ => .zero) (.bytes [7]), .transmit 0 single] := by
    simp only [disabledForAWhile, heard, hdisable, Option.getD_some]
    rfl
  exact ⟨c, u, hc, hheard ▸ hu, hrest⟩

/-! ## Where the packets go -/

theorem step_addr (c : Control Addr) (e : Event Addr) (c' : Control Addr)
    (hs : step c e = some c') : c'.addr = ((sender e).map some).getD c.addr := by
  cases e with
  | receive a pool res =>
    cases hs
    cases res <;> rfl
  | transmit now msg =>
    obtain ⟨t, service, -, -, rfl⟩ := step_transmit hs
    rfl
  | sweep curTime =>
    rw [step_sweep hs]
    rfl
  | message bytes =>
    obtain ⟨replies, rfl, -⟩ := step_message hs
    rfl

theorem run_addr (hr : run step init es = some c) : c.addr = lastSender es := by
  rw [run_register _ step_addr hr]
  unfold lastSender
  rw [← List.map_filterMap, List.getLast?_map]
  cases (es.filterMap sender).getLast? <;> rfl

theorem step_toDevice (hs : step c e = some c') :
    ∃ packets : List (List UInt8), c'.toDevice = c.toDevice ++ packets.map (fun b => (c.addr, b)) ∧
      (sender e ≠ none → packets = []) := by
  cases e with
  | receive a pool res => exact ⟨[], by rw [(step_receive hs).2.1]; simp, fun _ => rfl⟩
  | transmit now msg =>
    obtain ⟨t, service, -, -, rfl⟩ := step_transmit hs
    exact ⟨_, rfl, fun h => absurd rfl h⟩
  | sweep curTime => exact ⟨[], by rw [step_sweep hs]; simp, fun _ => rfl⟩
  | message bytes =>
    obtain ⟨replies, rfl, -⟩ := step_message hs
    exact ⟨[], by simp, fun _ => rfl⟩

theorem run_toDevice (hr : run step c es = some c') : c.toDevice <+: c'.toDevice := by
  refine run_invariant (I := fun v => c.toDevice <+: v.toDevice) ?_ (List.prefix_refl _) hr
  intro v e v' hprefix hv
  obtain ⟨packets, hpackets, -⟩ := step_toDevice hv
  rw [hpackets]
  exact hprefix.trans (List.prefix_append _ _)

theorem run_unaddressed (hr : run step init es = some c) (hnone : lastSender es = none) :
    ∀ x ∈ c.toDevice, x.1 = none := by
  rw [← run_addr hr] at hnone
  revert hnone
  refine run_invariant (I := fun v : Control Addr => v.addr = none → ∀ x ∈ v.toDevice, x.1 = none)
    ?_ (fun _ x hx => absurd hx List.not_mem_nil) hr
  intro v e v' hv hs hnone x hx
  have hsender : sender e = none ∧ v.addr = none := by
    rw [step_addr v e v' hs] at hnone
    cases hsend : sender e with
    | none => exact ⟨rfl, by rw [hsend] at hnone; exact hnone⟩
    | some a => rw [hsend] at hnone; cases hnone
  obtain ⟨packets, hpackets, -⟩ := step_toDevice hs
  rw [hpackets, List.mem_append, List.mem_map] at hx
  obtain hold | ⟨b, -, rfl⟩ := hx
  · exact hv hsender.2 x hold
  · exact hsender.2

/-- A packet without an address was handed out before the first datagram. -/
theorem unaddressed_early {x : Option Addr × List UInt8} (hr : run step init es = some c)
    (hx : x ∈ c.toDevice) (hnone : x.1 = none) :
    ∃ pre v, pre <+: es ∧ lastSender pre = none ∧ run step init pre = some v ∧ x ∈ v.toDevice := by
  induction es using List.reverseRecOn generalizing c with
  | nil =>
    cases hr
    cases hx
  | append_singleton es e ih =>
    obtain ⟨v, v', hv, hs, hr'⟩ := run_split hr
    obtain rfl : v' = c := Option.some.inj hr'
    obtain ⟨packets, hpackets, hquiet⟩ := step_toDevice hs
    rw [hpackets, List.mem_append, List.mem_map] at hx
    obtain hold | ⟨b, hb, rfl⟩ := hx
    · obtain ⟨pre, w, hpre, hrest⟩ := ih hv hold
      exact ⟨pre, w, hpre.trans (List.prefix_append _ _), hrest⟩
    · have hsender : sender e = none := by
        by_contra h
        rw [hquiet h] at hb
        cases hb
      refine ⟨es ++ [e], v', List.prefix_refl _, ?_, hr, ?_⟩
      · rw [lastSender, List.filterMap_append, List.filterMap_cons_none hsender, List.filterMap_nil,
          List.append_nil]
        exact (run_addr hv).symm.trans hnone
      · rw [hpackets]
        exact List.mem_append_right _ (List.mem_map_of_mem hb)

/-- The packets that an event hands to the devices go to the sender of the latest datagram
before it, dumped or not. Each packet has an address exactly when none was handed out before
the first datagram: nothing in the service waits for it. -/
theorem packets_go_to_the_latest_sender (hr : run step init es = some c) :
    (∀ pre e post, es = pre ++ e :: post →
      ∃ v v', ∃ packets : List (List UInt8), run step init pre = some v ∧ step v e = some v' ∧
        v'.toDevice = v.toDevice ++ packets.map (fun b => (lastSender pre, b)) ∧
        v'.toDevice <+: c.toDevice) ∧
    ((∀ x ∈ c.toDevice, x.1 ≠ none) ↔ ∀ pre v, pre <+: es → lastSender pre = none →
      run step init pre = some v → v.toDevice = []) := by
  refine ⟨?_, ?_, ?_⟩
  · rintro pre e post rfl
    obtain ⟨v, v', hv, hs, hpost⟩ := run_split hr
    obtain ⟨packets, hpackets, -⟩ := step_toDevice hs
    exact ⟨v, v', packets, hv, hs, by rw [hpackets, run_addr hv], run_toDevice hpost⟩
  · rintro hsome pre v ⟨post, rfl⟩ hnone hv
    rw [run_append, hv] at hr
    apply List.eq_nil_iff_forall_not_mem.mpr
    intro x hx
    exact hsome x ((run_toDevice hr).subset hx) (run_unaddressed hv hnone x hx)
  · intro hearly x hx hnone
    obtain ⟨pre, v, hpre, hlast, hv, hmem⟩ := unaddressed_early hr hx hnone
    rw [hearly pre v hpre hlast hv] at hmem
    cases hmem

/-- The device 6 gets the packet, though its datagram was dumped. -/
theorem the_packet_goes_to_the_dumped_sender : ∃ c,
    run step init disabledForAWhile = some c ∧ c.toDevice = [(some 6, [0])] := by
  have hsome : (run step init disabledForAWhile).isSome = true := by decide +kernel
  obtain ⟨c, hc⟩ := Option.isSome_iff_exists.mp hsome
  obtain ⟨hgo, -⟩ := packets_go_to_the_latest_sender hc
  obtain ⟨v, v', packets, hv, hs, hpackets, hprefix⟩ :=
    hgo (disabledForAWhile.take 4) (.transmit 0 single) [.message [0x18, 0, 0, 0]] rfl
  have hbytes : (run step init disabledForAWhile).map (fun c => c.toDevice.map Prod.snd) =
      some [[0]] := by decide +kernel
  have hbefore : (run step init (disabledForAWhile.take 4)).map (fun c => c.toDevice) =
      some [] := by decide +kernel
  have hafter : ((run step init (disabledForAWhile.take 4)).bind fun v =>
      step v (.transmit 0 single)).map (fun c => c.toDevice.map Prod.snd) = some [[0]] := by
    decide +kernel
  rw [hc, Option.map_some, Option.some_inj] at hbytes
  rw [hv, Option.map_some, Option.some_inj] at hbefore
  rw [hv, Option.bind_some, hs, Option.map_some, Option.some_inj] at hafter
  have hall : v'.toDevice = c.toDevice := by
    apply hprefix.eq_of_length
    have hlength := congrArg List.length (hafter.trans hbytes.symm)
    rwa [List.length_map, List.length_map] at hlength
  have hone : packets = [[0]] := by
    simpa [hpackets, hbefore, Function.comp_def] using hafter
  refine ⟨c, hc, ?_⟩
  rw [← hall, hpackets, hbefore, hone]
  rfl

end service_check

end udp_service
