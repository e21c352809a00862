-- What the threads of the downlink do together, turn by turn: the receiver gets the
-- data messages that the simulated loss leaves, in the order in which they came in,
-- and the buffers that the loss takes end the downlink after 807 of them.
import UdpService.Bounds

open blocks runs

namespace udp_service

namespace downlink

open hs_udp_fragments hs_udp_service rudp_req wire

/-! ## What each action needs and does -/

inductive Moves (s : Downlink) : Action → Downlink → Prop
  | data (bytes : List UInt8) (rx msg : MsgBuf) (hand : s.fusion = .start)
      (recv : fusion_receive s.rxMsgPayload bytes = (rx, .data msg)) :
      Moves s (.fusionRecv bytes) { s with rxMsgPayload := rx, fusion := .received msg }
  | other (bytes : List UInt8) (rx : MsgBuf) (came : Received) (hand : s.fusion = .start)
      (recv : fusion_receive s.rxMsgPayload bytes = (rx, came)) (no : ∀ msg, came ≠ .data msg) :
      Moves s (.fusionRecv bytes) { s with rxMsgPayload := rx }
  | fusionGet (msg : MsgBuf) (p : Ptr) (ps : List Ptr) (hand : s.fusion = .received msg)
      (fifo : s.fusionThrInFifo = p :: ps) :
      Moves s .fusionGet { s with
        heap := Function.update s.heap p msg, fusion := .copied p, fusionThrInFifo := ps }
  | fusionPut (p : Ptr) (hand : s.fusion = .copied p) :
      Moves s .fusionPut { s with
        pkt_drop_count := s.pkt_drop_count + 1
        fusion := .start
        fusionThrOutFifo :=
          if s.pkt_drop_count % 13 ≠ 0 then s.fusionThrOutFifo ++ [p] else s.fusionThrOutFifo }
  | iotGet (p : Ptr) (ps : List Ptr) (hand : s.iot = none) (fifo : s.fusionThrOutFifo = p :: ps) :
      Moves s .iotGet { s with iot := some p, fusionThrOutFifo := ps }
  | iotSend (now : Nat) (p : Ptr) (t : Transmitted) (hand : s.iot = some p)
      (sent : iot_transmit now s.rcv (s.heap p) = .ok t) :
      Moves s (.iotSend now) { s with
        iot := none, rcv := t.rcv, fusionThrInFifo := s.fusionThrInFifo ++ [p] }
  | sweep (curTime : Nat) :
      Moves s (.sweep curTime) { s with rcv := r_udp_req_routine curTime s.rcv }

theorem moves_of_step {s s' : Downlink} {a : Action} (h : step s a = some s') : Moves s a s' := by
  unfold step at h
  cases a with
  | fusionRecv bytes =>
    simp only at h
    split at h
    · rename_i hand
      split at h
      · rename_i rx msg hrecv
        cases h
        exact .data bytes rx msg hand hrecv
      · rename_i rx came hno hrecv
        cases h
        exact .other bytes rx came hand hrecv hno
    · cases h
  | fusionGet =>
    simp only at h
    split at h
    · rename_i msg p ps hand hfifo
      cases h
      exact .fusionGet msg p ps hand hfifo
    · cases h
  | fusionPut =>
    simp only at h
    split at h
    · rename_i p hand
      cases h
      exact .fusionPut p hand
    · cases h
  | iotGet =>
    simp only at h
    split at h
    · rename_i p ps hand hfifo
      cases h
      exact .iotGet p ps hand hfifo
    · cases h
  | iotSend now =>
    simp only at h
    split at h
    · rename_i p hand
      split at h
      · rename_i t hsent
        cases h
        exact .iotSend now p t hand hsent
      · cases h
    · cases h
  | sweep curTime =>
    cases h
    exact .sweep curTime

/-! ## One thread alone -/

/-- The data messages that come in with the datagrams of a run. -/
def arrivals : MsgBuf → List Action → List MsgBuf
  | _, [] => []
  | rxMsgPayload, .fusionRecv bytes :: as =>
    match fusion_receive rxMsgPayload bytes with
    | (rx, .data msg) => msg :: arrivals rx as
    | (rx, _) => arrivals rx as
  | rxMsgPayload, _ :: as => arrivals rxMsgPayload as

/-- The messages that the simulated loss leaves, when `n` came before them. -/
def kept : Nat → List MsgBuf → List MsgBuf
  | _, [] => []
  | n, msg :: msgs => if n % 13 ≠ 0 then msg :: kept (n + 1) msgs else kept (n + 1) msgs

/-- One thread that has the messages in a list, without buffers or FIFOs: it hands
the next one to `iot_transmit` where the run does so, and sweeps where the run
does. What is left of the list comes out with the results of the turns. -/
def oneThread : Receiver → List MsgBuf → List Action →
    Option (Receiver × List MsgBuf × List Transmitted)
  | rcv, msgs, [] => some (rcv, msgs, [])
  | _, [], .iotSend _ :: _ => none
  | rcv, msg :: msgs, .iotSend now :: as =>
    match iot_transmit now rcv msg with
    | .ok t => (oneThread t.rcv msgs as).map fun r => (r.1, r.2.1, t :: r.2.2)
    | .error _ => none
  | rcv, msgs, .sweep curTime :: as => oneThread (r_udp_req_routine curTime rcv) msgs as
  | rcv, msgs, _ :: as => oneThread rcv msgs as

/-- What an action does as a turn of `iot_transmit_routine`. -/
def output (s : Downlink) : Action → List Transmitted
  | .iotSend now =>
    match s.iot with
    | some p =>
      match iot_transmit now s.rcv (s.heap p) with
      | .ok t => [t]
      | .error _ => []
    | none => []
  | _ => []

/-- What the turns of `iot_transmit_routine` did in a run: the bytes for the
devices, the requests and the receiver after each turn. -/
def transmitted : Downlink → List Action → List Transmitted
  | _, [] => []
  | s, a :: as =>
    output s a ++ match step s a with
      | some s' => transmitted s' as
      | none => []

/-- The data message in the hand of `fusion_receive_routine`. -/
def Turn.msgs (heap : Ptr → MsgBuf) : Turn → List MsgBuf
  | .start => []
  | .received msg => [msg]
  | .copied p => [heap p]

/-- The messages on their way to `iot_transmit`. -/
def queued (s : Downlink) : List MsgBuf := (s.iot.toList ++ s.fusionThrOutFifo).map s.heap

/-- The message whose turn in `fusion_receive_routine` an action ends. -/
def put (s : Downlink) : Action → List MsgBuf
  | .fusionPut => s.fusion.msgs s.heap
  | _ => []

theorem kept_append (n : Nat) (l l' : List MsgBuf) :
    kept n (l ++ l') = kept n l ++ kept (n + l.length) l' := by
  induction l generalizing n with
  | nil => rfl
  | cons msg l ih =>
    simp only [List.cons_append, kept, ih (n + 1), List.length_cons]
    rw [show n + (l.length + 1) = n + 1 + l.length by omega]
    split <;> rfl

theorem kept_length (n : Nat) (l : List MsgBuf) :
    (kept n l).length + lost (n + l.length) = l.length + lost n := by
  induction l generalizing n with
  | nil => simp [kept]
  | cons msg l ih =>
    have hrest := ih (n + 1)
    simp only [kept, List.length_cons]
    rw [show n + (l.length + 1) = n + 1 + l.length by omega]
    unfold lost at hrest ⊢
    split
    · rw [List.length_cons]
      omega
    · omega

section flow

variable {s s' u : Downlink} {a : Action} {as : List Action}

/-- The messages that came in are in the hand of `fusion_receive_routine`, or have
left it. -/
theorem arrivals_moves (hm : Moves s a s') (as : List Action) :
    s.fusion.msgs s.heap ++ arrivals s.rxMsgPayload (a :: as) =
      put s a ++ (s'.fusion.msgs s'.heap ++ arrivals s'.rxMsgPayload as) := by
  cases hm with
  | data bytes rx msg hand recv => simp [arrivals, put, hand, recv, Turn.msgs]
  | other bytes rx came hand recv no =>
    cases came with
    | nothing => simp [arrivals, put, recv]
    | request req => simp [arrivals, put, recv]
    | data msg => exact absurd rfl (no msg)
  | fusionGet msg p ps hand fifo => simp [arrivals, put, hand, Turn.msgs]
  | fusionPut p hand => simp [arrivals, put, hand, Turn.msgs]
  | iotGet p ps hand fifo => rfl
  | iotSend now p t hand sent => rfl
  | sweep curTime => rfl

/-- The message goes into a buffer that no message waits in. -/
theorem queued_get {msg : MsgBuf} {p : Ptr} {ps : List Ptr} (hn : (places s).Nodup)
    (hfifo : s.fusionThrInFifo = p :: ps) :
    (s.iot.toList ++ s.fusionThrOutFifo).map (Function.update s.heap p msg) = queued s := by
  have hfresh : p ∉ s.iot.toList ++ s.fusionThrOutFifo := by
    unfold places at hn
    rw [hfifo] at hn
    simp only [List.cons_append, List.nodup_cons, List.mem_append] at hn ⊢
    intro hp
    exact hn.1 (hp.elim Or.inr fun h => Or.inl (Or.inr h))
  apply List.map_congr_left
  intro q hq
  exact Function.update_of_ne (ne_of_mem_of_not_mem hq hfresh) _ _

theorem oneThread_moves (hn : (places s).Nodup) (hm : Moves s a s') (later : List MsgBuf)
    (as : List Action) :
    oneThread s.rcv (queued s ++ (kept s.pkt_drop_count (put s a) ++ later)) (a :: as) =
      (oneThread s'.rcv (queued s' ++ later) as).map fun r =>
        (r.1, r.2.1, output s a ++ r.2.2) := by
  cases hm with
  | fusionGet msg p ps hand fifo =>
    simp only [oneThread, put, kept, output, List.nil_append, Option.map_id']
    have hqueued := @queued_get s msg p ps hn fifo
    rw [← hqueued]
    rfl
  | fusionPut p hand =>
    simp only [oneThread, put, hand, Turn.msgs, kept, output, List.nil_append, Option.map_id',
      queued]
    split <;> simp
  | iotGet p ps hand fifo =>
    simp [oneThread, put, kept, output, queued, hand, fifo]
  | iotSend now p t hand sent =>
    simp [oneThread, put, kept, output, queued, hand, sent]
  | _ => simp [oneThread, put, kept, output, queued]

theorem count_moves (hm : Moves s a s') :
    s'.pkt_drop_count = s.pkt_drop_count + (put s a).length := by
  cases hm with
  | fusionPut p hand => simp [put, hand, Turn.msgs]
  | _ => rfl

theorem places_nodup_step (hn : (places s).Nodup) (h : step s a = some s') :
    (places s').Nodup := by
  cases ha : a.isPut with
  | false => exact (places_other ha h).2.nodup_iff.mpr hn
  | true =>
    cases a <;> cases ha
    obtain ⟨-, p, hperm⟩ := places_put h
    have hn' := hperm.nodup_iff.mpr hn
    split at hn'
    · exact (List.nodup_cons.mp hn').2
    · exact hn'

theorem oneThread_run (hn : (places s).Nodup) (hr : run step s as = some u) : ∃ done,
    s.fusion.msgs s.heap ++ arrivals s.rxMsgPayload as = done ++ u.fusion.msgs u.heap ∧
      u.pkt_drop_count = s.pkt_drop_count + done.length ∧
      oneThread s.rcv (queued s ++ kept s.pkt_drop_count done) as =
        some (u.rcv, queued u, transmitted s as) := by
  induction as generalizing s with
  | nil =>
    cases hr
    exact ⟨[], by simp [arrivals], rfl, by simp [kept, oneThread, transmitted]⟩
  | cons a as ih =>
    obtain ⟨s', hs, hr'⟩ := run_cons_eq_some.mp hr
    have hm := moves_of_step hs
    obtain ⟨done, hcame, hcount, halone⟩ := ih (places_nodup_step hn hs) hr'
    rw [count_moves hm] at hcount halone
    refine ⟨put s a ++ done, ?_, ?_, ?_⟩
    · rw [arrivals_moves hm, hcame, List.append_assoc]
    · rw [hcount, List.length_append, Nat.add_assoc]
    · rw [kept_append, oneThread_moves hn hm, halone]
      simp only [Option.map_some, transmitted, hs]

theorem oneThread_of_init {feed : Feed} {heap : Ptr → MsgBuf} {rxMsgPayload : MsgBuf}
    (hr : run step (init feed heap rxMsgPayload) as = some s) : ∃ done,
      arrivals rxMsgPayload as = done ++ s.fusion.msgs s.heap ∧
      done.length = processed as ∧
      oneThread .init (kept 0 done) as =
        some (s.rcv, queued s, transmitted (init feed heap rxMsgPayload) as) := by
  have hn : (places (init feed heap rxMsgPayload)).Nodup := by
    simpa [places, init, Turn.ptrs] using feed.nodup
  obtain ⟨done, hcame, hcount, halone⟩ := oneThread_run hn hr
  rw [run_count hr] at hcount
  exact ⟨done, hcame, (Nat.add_left_cancel hcount).symm, halone⟩

end flow

/-- A message of a packet with three fragments, number 1, with one byte of data: the
fragment with the index `i`. -/
def frgmntOfThree (i : Nat) : List UInt8 := [UInt8.ofNat (0x80 + 4 * i), 0x11, 1, UInt8.ofNat i]

/-- The turns of a message that the loss leaves, up to the receiver. -/
def through (bytes : List UInt8) : List Action :=
  [.fusionRecv bytes, .fusionGet, .fusionPut, .iotGet, .iotSend 5]

/-! ## The end of the downlink -/

/-- The action needs no buffer. -/
def Action.isIdle : Action → Bool
  | .fusionRecv _ => true
  | .sweep _ => true
  | _ => false

/-- The action reads a datagram. -/
def Action.isRecv : Action → Bool
  | .fusionRecv _ => true
  | _ => false

/-- The time that the action reads off the clock. -/
def Action.time : Action → Option Nat
  | .iotSend now => some now
  | .sweep curTime => some curTime
  | _ => none

/-- The action hands a message to `iot_transmit`. -/
def Action.isSend : Action → Bool
  | .iotSend _ => true
  | _ => false

section ending

variable {s s' u : Downlink} {a : Action} {as : List Action}

theorem oneThread_length {rcv rcv' : Receiver} {msgs rest : List MsgBuf} {ts : List Transmitted}
    (h : oneThread rcv msgs as = some (rcv', rest, ts)) :
    ts.length = as.countP Action.isSend ∧ rest.length + ts.length = msgs.length := by
  induction as generalizing rcv msgs ts with
  | nil =>
    cases h
    exact ⟨rfl, rfl⟩
  | cons a as ih =>
    rw [List.countP_cons]
    cases a with
    | iotSend now =>
      cases msgs with
      | nil => cases h
      | cons msg msgs =>
        simp only [oneThread] at h
        split at h
        · obtain ⟨⟨r, m, ts'⟩, hrest, hts⟩ := Option.map_eq_some_iff.mp h
          simp only [Prod.mk.injEq] at hts
          obtain ⟨rfl, rfl, rfl⟩ := hts
          obtain ⟨hsends, hmsgs⟩ := ih hrest
          simp only [List.length_cons, Action.isSend, if_true]
          omega
        · cases h
    | sweep curTime => simpa [Action.isSend] using ih h
    | fusionRecv bytes => simpa [Action.isSend, oneThread] using ih (by simpa [oneThread] using h)
    | fusionGet => simpa [Action.isSend, oneThread] using ih (by simpa [oneThread] using h)
    | fusionPut => simpa [Action.isSend, oneThread] using ih (by simpa [oneThread] using h)
    | iotGet => simpa [Action.isSend, oneThread] using ih (by simpa [oneThread] using h)

/-- With no buffer left, only what needs none can be done, and none comes back. -/
theorem idle_of_no_places (hp : places s = []) (hm : Moves s a s') :
    a.isIdle = true ∧ places s' = [] := by
  simp only [places, List.append_eq_nil_iff] at hp
  obtain ⟨⟨⟨hin, hfusion⟩, hout⟩, hiot⟩ := hp
  cases hm with
  | data bytes rx msg hand recv => exact ⟨rfl, by simp [places, hin, Turn.ptrs, hout, hiot]⟩
  | other bytes rx came hand recv no => exact ⟨rfl, by simp [places, hin, hfusion, hout, hiot]⟩
  | fusionGet msg p ps hand fifo =>
    rw [hin] at fifo
    cases fifo
  | fusionPut p hand =>
    rw [hand] at hfusion
    cases hfusion
  | iotGet p ps hand fifo =>
    rw [hout] at fifo
    cases fifo
  | iotSend now p t hand sent =>
    rw [hand] at hiot
    cases hiot
  | sweep curTime => exact ⟨rfl, by simp [places, hin, hfusion, hout, hiot]⟩

theorem idle_run_of_no_places (hp : places s = []) (hr : run step s as = some u) :
    ∀ a ∈ as, a.isIdle = true := by
  induction as generalizing s with
  | nil =>
    intro a ha
    cases ha
  | cons b as ih =>
    obtain ⟨s', hs, hr'⟩ := run_cons_eq_some.mp hr
    obtain ⟨hidle, hp'⟩ := idle_of_no_places hp (moves_of_step hs)
    intro a ha
    rcases List.mem_cons.mp ha with rfl | ha
    · exact hidle
    · exact ih hp' hr' a ha

theorem Account.length_places {feed : Feed} {missing : List Ptr} (h : Account feed s missing) :
    (places s).length + lost s.pkt_drop_count = 63 := by
  have hlen := h.perm.length_eq
  rw [List.length_append, h.length, feed.count] at hlen
  simp only [MAX_BUFFER_ELEMS] at hlen
  omega

/-- The turn that ends has a buffer, so the loss has left one. -/
theorem Account.put_le {feed : Feed} (h : ∃ missing, Account feed s missing)
    (hm : Moves s a s') (hle : s.pkt_drop_count ≤ 807) : s'.pkt_drop_count ≤ 807 := by
  cases hm with
  | fusionPut p hand =>
    obtain ⟨missing, hacc⟩ := h
    have hlen := hacc.length_places
    simp only [places, hand, Turn.ptrs, List.length_append, List.length_singleton] at hlen
    unfold lost at hlen
    simp only
    omega
  | _ => exact hle

theorem no_places {feed : Feed} {heap : Ptr → MsgBuf} {rxMsgPayload : MsgBuf}
    (hr : run step (init feed heap rxMsgPayload) as = some s) (hall : processed as = 807) :
    places s = [] := by
  obtain ⟨missing, hacc⟩ := run_account hr
  have hlen := hacc.length_places
  rw [run_count hr, hall] at hlen
  apply List.length_eq_zero_iff.mp
  simp only [init, Nat.zero_add, lost] at hlen
  omega

end ending

/-! ## A message more -/

/-- The second of three fragments of a packet, number 1, with one byte of data. -/
def secondOfThree : MsgBuf := { MsgBuf.zero with msgHeader := ⟨0, 1, 3, 1, 1⟩, msgLen := 1 }

/-- Both threads are between two turns, and nothing waits. -/
structure Quiet (s : Downlink) : Prop where
  fusion : s.fusion = .start
  iot : s.iot = none
  fifo : s.fusionThrOutFifo = []

section more

variable {s : Downlink} {r : Receiver} {m : MsgBuf}

theorem lands_of_free (hfree : (r.table.fragments (slot 1)).used = false)
    (hhdr : m.msgHeader = secondOfThree.msgHeader) (hlen : m.msgLen = 1) : bounds.Lands r m := by
  have hopened : bounds.entered (r.table.fragments (slot 1)) =
      (r.table.fragments (slot 1)).opened TERMINAL_ID := by
    unfold bounds.entered
    rw [hfree]
    rfl
  refine ⟨by rw [hhdr]; decide, 1, by rw [hhdr]; rfl, ?_, ?_⟩
  · intro hused
    exact absurd (hfree.symm.trans hused) Bool.false_ne_true
  · change bounds.HasRoom (bounds.entered (r.table.fragments (slot 1))) m
    rw [hopened, bounds.HasRoom, hhdr, hlen]
    simp [UdpFragment.opened, secondOfThree]

theorem lands_after_sweep (r : Receiver) (now : Nat) (hhdr : m.msgHeader = secondOfThree.msgHeader)
    (hlen : m.msgLen = 1) : ∃ curTime,
      now ≤ curTime ∧ bounds.Lands (r_udp_req_routine curTime r) m := by
  refine ⟨max now ((r.table.fragments (slot 1)).lastTime + 41), Nat.le_max_left _ _,
    lands_of_free ?_ hhdr hlen⟩
  rw [r_udp_req_routine_slot, if_pos]
  simp only [TimedOut, R_UDP_TIMEOUT]
  omega

/-- A quiet downlink with a buffer can handle a message and be quiet again, all at one
time. -/
theorem Quiet.more (hq : Quiet s) {p : Ptr} {ps : List Ptr} (hfifo : s.fusionThrInFifo = p :: ps)
    (now : Nat) : ∃ curTime as s', now ≤ curTime ∧
      run step s (.fusionRecv (bytesOf secondOfThree) :: as) = some s' ∧ Quiet s' ∧
      (∀ a ∈ as, a.isRecv = false ∧ a.time.getD curTime = curTime) ∧ processed as = 1 := by
  obtain ⟨m, hrecv, hhdr, hlen, -⟩ := fusion_receive_bytesOf s.rxMsgPayload (b := secondOfThree)
    (by decide) (by decide)
  have hreceived : run step s
      [.fusionRecv (bytesOf secondOfThree), .fusionGet, .fusionPut] = some { s with
        rxMsgPayload := m, fusion := .start, fusionThrInFifo := ps
        heap := Function.update s.heap p m, pkt_drop_count := s.pkt_drop_count + 1
        fusionThrOutFifo := if s.pkt_drop_count % 13 ≠ 0 then [p] else [] } := by
    simp only [run, step, hq.fusion, hrecv, hfifo, hq.fifo, Option.bind_some, List.nil_append]
  by_cases hc : s.pkt_drop_count % 13 = 0
  · refine ⟨now, _, _, Nat.le_refl _, hreceived, ⟨rfl, hq.iot, ?_⟩,
      by simp [Action.isRecv, Action.time], rfl⟩
    simp only [hc, ne_eq, not_true_eq_false, if_false]
  · obtain ⟨curTime, hnow, hlands⟩ := lands_after_sweep s.rcv now hhdr hlen
    obtain ⟨t, ht⟩ := (bounds.iot_transmit_ok_iff curTime).mpr hlands
    refine ⟨curTime, [.fusionGet, .fusionPut] ++ [.sweep curTime, .iotGet, .iotSend curTime],
      { s with
        rxMsgPayload := m, fusion := .start, fusionThrInFifo := ps ++ [p]
        heap := Function.update s.heap p m, pkt_drop_count := s.pkt_drop_count + 1
        fusionThrOutFifo := [], rcv := t.rcv, iot := none }, hnow, ?_, ⟨rfl, rfl, rfl⟩,
      by simp [Action.isRecv, Action.time], rfl⟩
    rw [← List.cons_append, run_append, hreceived]
    simp only [Option.bind_some, run, step, hc, ne_eq, not_false_eq_true, if_true, hq.iot,
      Function.update_self, ht]

theorem Quiet.buffer {feed : Feed} {heap : Ptr → MsgBuf} {rxMsgPayload : MsgBuf} {as : List Action}
    (hq : Quiet s) (hr : run step (init feed heap rxMsgPayload) as = some s)
    (hlt : processed as < 807) : ∃ p ps, s.fusionThrInFifo = p :: ps := by
  obtain ⟨missing, hacc⟩ := run_account hr
  have hlen := hacc.length_places
  rw [run_count hr] at hlen
  simp only [places, hq.fusion, hq.iot, hq.fifo, Turn.ptrs, Option.toList, List.append_nil, init,
    Nat.zero_add, lost] at hlen
  exact List.length_pos_iff_exists_cons.mp (by omega)

theorem run_of_messages (feed : Feed) (heap : Ptr → MsgBuf) (rxMsgPayload : MsgBuf) {n : Nat}
    (hn : n ≤ 807) : ∃ as s, run step (init feed heap rxMsgPayload) as = some s ∧ Quiet s ∧
      processed as = n := by
  induction n with
  | zero => exact ⟨[], _, rfl, ⟨rfl, rfl, rfl⟩, rfl⟩
  | succ n ih =>
    obtain ⟨as, s, hr, hq, hcount⟩ := ih (Nat.le_of_succ_le hn)
    obtain ⟨p, ps, hfifo⟩ := hq.buffer hr (hcount ▸ hn)
    obtain ⟨-, bs, s', -, hr', hq', -, hone⟩ := hq.more hfifo 0
    refine ⟨as ++ _ :: bs, s', by rw [run_append, hr]; exact hr', hq', ?_⟩
    unfold processed at hcount hone ⊢
    rw [List.countP_append, hcount, List.countP_cons_of_neg (by decide), hone]

end more

/-- The downlink has an end. It can handle 807 data messages, but no run handles more,
and no more than 744 of them reach `iot_transmit`. After 807 no buffer is in any
place, and in every run from there the threads wait: a datagram may be read and the
slots may be swept, but no message gets a buffer and none reaches a device. -/
theorem the_downlink_ends_after_807_messages (feed : Feed) (heap : Ptr → MsgBuf)
    (rxMsgPayload : MsgBuf) :
    (∃ as s, run step (init feed heap rxMsgPayload) as = some s ∧ processed as = 807) ∧
    ∀ as s, run step (init feed heap rxMsgPayload) as = some s →
      processed as ≤ 807 ∧ as.countP Action.isSend ≤ 744 ∧
      (processed as = 807 → places s = [] ∧
        ∀ bs u, run step s bs = some u → ∀ a ∈ bs, a.isIdle = true) := by
  obtain ⟨full, v, hfull, -, hall⟩ := run_of_messages feed heap rxMsgPayload (Nat.le_refl 807)
  refine ⟨⟨full, v, hfull, hall⟩, fun as s hr => ?_⟩
  have hcount : s.pkt_drop_count = processed as := by
    rw [run_count hr]
    exact Nat.zero_add _
  have hinv : (∃ missing, Account feed s missing) ∧ s.pkt_drop_count ≤ 807 := by
    refine run_invariant
      (I := fun s => (∃ missing, Account feed s missing) ∧ s.pkt_drop_count ≤ 807) ?_
      ⟨run_account (show run step (init feed heap rxMsgPayload) [] = some _ from rfl),
        Nat.zero_le _⟩ hr
    intro s a s' ⟨hacc, hle⟩ hstep
    exact ⟨account_step hacc hstep, Account.put_le hacc (moves_of_step hstep) hle⟩
  have hle := hinv.2
  rw [hcount] at hle
  obtain ⟨done, -, hdone, halone⟩ := oneThread_of_init hr
  obtain ⟨hsends, hmsgs⟩ := oneThread_length halone
  have hkept := kept_length 0 done
  rw [Nat.zero_add, hdone] at hkept
  refine ⟨hle, ?_, fun hall => ?_⟩
  · unfold lost at hkept
    omega
  · have hnil := no_places hr hall
    exact ⟨hnil, fun bs u hbs => idle_run_of_no_places hnil hbs⟩

/-- Three data messages, the first of which is lost. -/
def threeMessages : List Action :=
  [.fusionRecv (frgmntOfThree 0), .fusionGet, .fusionPut] ++ through (frgmntOfThree 1) ++
    through (frgmntOfThree 2)

/-- The first of three messages costs a buffer, and the others come through. -/
theorem two_of_three_messages :
    ∃ s, run step (init uplink.numbered (fun _ => .zero) .zero) threeMessages = some s ∧
      (places s).length = 62 ∧ processed threeMessages = 3 ∧
      threeMessages.countP Action.isSend = 2 ∧ threeMessages.countP Action.isSend ≤ 744 := by
  have hrun : (run step (init uplink.numbered (fun _ => .zero) .zero) threeMessages).map
      (fun s => (places s).length) = some 62 := by decide +kernel
  obtain ⟨s, hs, hlen⟩ := Option.map_eq_some_iff.mp hrun
  obtain ⟨-, hsends, -⟩ := (the_downlink_ends_after_807_messages uplink.numbered
    (fun _ => .zero) .zero).2 threeMessages s hs
  exact ⟨s, hs, hlen, rfl, rfl, hsends⟩

end downlink

end udp_service
