-- Both directions of the service at once. `fusion_receive_routine` is one thread
-- for the data and for the requests, so the end of the downlink is the end of the
-- answers, too, while the uplink goes on.
import UdpService.UplinkFlow
import UdpService.DownlinkFlow

open blocks runs

namespace udp_service

namespace whole_service

open uplink (Uplink)
open downlink (Downlink)
open hs_udp_service r_udp wire

/-! ## The threads -/

/-- The state of the service. The clock is the one of the uplink. -/
structure Service where
  up : Uplink
  down : Downlink

/-- The pieces of the turns of all threads. -/
inductive Action
  | uplink (a : uplink.Action)
  | downlink (a : downlink.Action)

/-- The service after the feeds. -/
def init (upFeed downFeed : Feed) (upHeap downHeap : Ptr → MsgBuf) (rxMsgPayload : MsgBuf)
    (now : Nat) : Service :=
  { up := uplink.init upFeed upHeap now, down := downlink.init downFeed downHeap rxMsgPayload }

/-- One action, or `none` where it cannot be taken. A request to look up in the
history comes with a datagram, and `fusion_receive_routine` reads the next datagram
when the answer to the last one is over. All threads read the same clock. -/
def step (s : Service) : Action → Option Service
  | .uplink (.findFrag _) => none
  | .uplink a => (uplink.step s.up a).map fun up => { s with up }
  | .downlink (.fusionRecv bytes) =>
    match s.up.answer, downlink.step s.down (.fusionRecv bytes) with
    | .idle, some down =>
      match (fusion_receive s.down.rxMsgPayload bytes).2 with
      | .request req => (uplink.step s.up (.findFrag req)).map fun up => { up, down }
      | _ => some { s with down }
    | _, _ => none
  | .downlink a =>
    if a.time.getD s.up.clock = s.up.clock then
      (downlink.step s.down a).map fun down => { s with down }
    else none

/-- What each action needs and does. -/
inductive Moves (s : Service) : Action → Service → Prop
  | uplink (a : uplink.Action) (up : Uplink) (own : ∀ req, a ≠ .findFrag req)
      (turn : uplink.step s.up a = some up) : Moves s (.uplink a) { s with up }
  | request (bytes : List UInt8) (req : RUdpFragmntReq) (up : Uplink) (down : Downlink)
      (idle : s.up.answer = .idle) (turn : downlink.step s.down (.fusionRecv bytes) = some down)
      (came : (fusion_receive s.down.rxMsgPayload bytes).2 = .request req)
      (find : uplink.step s.up (.findFrag req) = some up) :
      Moves s (.downlink (.fusionRecv bytes)) { up, down }
  | recv (bytes : List UInt8) (down : Downlink) (idle : s.up.answer = .idle)
      (turn : downlink.step s.down (.fusionRecv bytes) = some down)
      (came : ∀ req, (fusion_receive s.down.rxMsgPayload bytes).2 ≠ .request req) :
      Moves s (.downlink (.fusionRecv bytes)) { s with down }
  | downlink (a : downlink.Action) (down : Downlink) (own : a.isRecv = false)
      (clock : a.time.getD s.up.clock = s.up.clock) (turn : downlink.step s.down a = some down) :
      Moves s (.downlink a) { s with down }

theorem moves_of_step {s s' : Service} {a : Action} (h : step s a = some s') : Moves s a s' := by
  unfold step at h
  split at h
  · cases h
  · rename_i a own
    obtain ⟨up, turn, rfl⟩ := Option.map_eq_some_iff.mp h
    exact .uplink a up (fun req ha => own req ha) turn
  · rename_i bytes
    split at h
    · rename_i down idle turn
      split at h
      · rename_i req came
        obtain ⟨up, find, rfl⟩ := Option.map_eq_some_iff.mp h
        exact .request bytes req up down idle turn came find
      · rename_i came
        cases h
        exact .recv bytes down idle turn fun req => came req
    · cases h
  · rename_i a own
    split at h
    · rename_i clock
      obtain ⟨down, turn, rfl⟩ := Option.map_eq_some_iff.mp h
      refine .downlink a down ?_ clock turn
      cases a with
      | fusionRecv bytes => exact absurd rfl (own bytes)
      | _ => rfl
    · cases h

/-! ## A run of both parts -/

/-- What came with the datagrams of a run, in order. -/
def came : MsgBuf → List Action → List Received
  | _, [] => []
  | rxMsgPayload, .downlink (.fusionRecv bytes) :: as =>
    (fusion_receive rxMsgPayload bytes).2 :: came (fusion_receive rxMsgPayload bytes).1 as
  | rxMsgPayload, _ :: as => came rxMsgPayload as

def request? : Received → Option RUdpFragmntReq
  | .request req => some req
  | _ => none

def data? : Received → Option MsgBuf
  | .data msg => some msg
  | _ => none

/-- The request that an action of the uplink looks up. -/
def lookup? : uplink.Action → Option RUdpFragmntReq
  | .findFrag req => some req
  | _ => none

/-- The part of the downlink in a run. -/
def downPart (as : List Action) : List downlink.Action :=
  as.filterMap fun
    | .downlink a => some a
    | .uplink _ => none

/-- `fusion_receive_routine` answers a request or has a data message, but not both. -/
def OneThread (s : Service) : Prop := s.up.answer = .idle ∨ s.down.fusion = .start

section parts

variable {s s' u : Service} {a : Action} {as : List Action}

theorem came_cons (rxMsgPayload : MsgBuf) (a : Action) (as : List Action) :
    came rxMsgPayload (a :: as) = came rxMsgPayload [a] ++ came (match a with
      | .downlink (.fusionRecv bytes) => (fusion_receive rxMsgPayload bytes).1
      | _ => rxMsgPayload) as := by
  cases a with
  | uplink a => rfl
  | downlink a => cases a <;> rfl

/-- The data messages of the downlink are those that came. -/
theorem arrivals_downPart (rxMsgPayload : MsgBuf) (as : List Action) :
    downlink.arrivals rxMsgPayload (downPart as) = (came rxMsgPayload as).filterMap data? := by
  induction as generalizing rxMsgPayload with
  | nil => rfl
  | cons a as ih =>
    cases a with
    | uplink a => exact ih rxMsgPayload
    | downlink a =>
      cases a with
      | fusionRecv bytes =>
        have hrest := ih (fusion_receive rxMsgPayload bytes).1
        unfold downPart at hrest ⊢
        simp only [List.filterMap_cons, downlink.arrivals, came]
        rcases hgot : fusion_receive rxMsgPayload bytes with ⟨rx, _ | req | msg⟩ <;>
          simpa [hgot, data?] using hrest
      | _ => exact ih rxMsgPayload

/-- `rxMsgPayload` is what the last datagram left. -/
theorem rxMsgPayload_step {d d' : Downlink} {c : downlink.Action}
    (h : downlink.step d c = some d') : d'.rxMsgPayload = match c with
      | .fusionRecv bytes => (fusion_receive d.rxMsgPayload bytes).1
      | _ => d.rxMsgPayload := by
  cases downlink.moves_of_step h with
  | data bytes rx msg hand recv => simp [recv]
  | other bytes rx got hand recv no => simp [recv]
  | _ => rfl

/-- One action is a few actions of the uplink and at most one of the downlink. The
uplink looks up the request that came, if one did. -/
theorem parts_moves (hm : Moves s a s') : ∃ ups, run uplink.step s.up ups = some s'.up ∧
    run downlink.step s.down (downPart [a]) = some s'.down ∧
    ups.filterMap lookup? = (came s.down.rxMsgPayload [a]).filterMap request? ∧
    ∀ as, came s.down.rxMsgPayload (a :: as) =
      came s.down.rxMsgPayload [a] ++ came s'.down.rxMsgPayload as := by
  cases hm with
  | uplink a up own turn =>
    refine ⟨[a], by simp [run, turn], rfl, ?_, fun as => rfl⟩
    cases a with
    | findFrag req => exact absurd rfl (own req)
    | _ => rfl
  | request bytes req up down idle turn got find =>
    refine ⟨[.findFrag req], by simp [run, find], by simp [downPart, run, turn], ?_, fun as => ?_⟩
    · simp [came, got, lookup?, request?]
    · rw [came_cons, rxMsgPayload_step turn]
  | recv bytes down idle turn got =>
    refine ⟨[], rfl, by simp [downPart, run, turn], ?_, fun as => ?_⟩
    · rcases hgot : (fusion_receive s.down.rxMsgPayload bytes).2 with _ | req | msg
      · simp [came, hgot, request?]
      · exact absurd hgot (got req)
      · simp [came, hgot, request?]
    · rw [came_cons, rxMsgPayload_step turn]
  | downlink a down own clock turn =>
    refine ⟨[], rfl, by simp [downPart, run, turn], ?_, fun as => ?_⟩
    · cases a with
      | fusionRecv bytes => cases own
      | _ => rfl
    · rw [came_cons, rxMsgPayload_step turn]
      cases a with
      | fusionRecv bytes => cases own
      | _ => rfl

theorem run_parts (hr : run step s as = some u) : ∃ ups, run uplink.step s.up ups = some u.up ∧
    run downlink.step s.down (downPart as) = some u.down ∧
    ups.filterMap lookup? = (came s.down.rxMsgPayload as).filterMap request? := by
  induction as generalizing s with
  | nil =>
    cases hr
    exact ⟨[], rfl, rfl, rfl⟩
  | cons a as ih =>
    obtain ⟨s', hs, hr'⟩ := run_cons_eq_some.mp hr
    obtain ⟨first, hup, hdown, hlookup, hcame⟩ := parts_moves (moves_of_step hs)
    obtain ⟨rest, hups, hdowns, hlookups⟩ := ih hr'
    have hpart : downPart (a :: as) = downPart [a] ++ downPart as := by
      rw [downPart, ← List.singleton_append, List.filterMap_append]
      rfl
    refine ⟨first ++ rest, ?_, ?_, ?_⟩
    · rw [run_append, hup]
      exact hups
    · rw [hpart, run_append, hdown]
      exact hdowns
    · rw [List.filterMap_append, hlookup, hlookups, ← List.filterMap_append, ← hcame]

theorem oneThread_moves (h : OneThread s) (hm : Moves s a s') : OneThread s' := by
  cases hm with
  | uplink a up own turn =>
    -- Only a look-up starts an answer.
    rcases h with hidle | hstart
    · refine .inl ?_
      cases uplink.moves_of_step turn with
      | found req pkt idle find => exact absurd rfl (own req)
      | lingerFrag req pkt was pending =>
        rw [hidle] at pending
        cases pending
      | sendReply req pkt was pending => rfl
      | _ => exact hidle
    · exact .inr hstart
  | request bytes req up down idle turn got find =>
    refine .inr ?_
    cases downlink.moves_of_step turn with
    | data bytes rx msg hand recv =>
      rw [recv] at got
      cases got
    | other bytes rx answered hand recv no => exact hand
  | recv bytes down idle turn got => exact .inl idle
  | downlink a down own clock turn =>
    rcases h with hidle | hstart
    · exact .inl hidle
    · refine .inr ?_
      cases downlink.moves_of_step turn with
      | data bytes rx msg hand recv => cases own
      | fusionGet msg p ps hand fifo =>
        rw [hstart] at hand
        cases hand
      | fusionPut p hand => rfl
      | _ => exact hstart

theorem parts_of_init {upFeed downFeed : Feed} {upHeap downHeap : Ptr → MsgBuf}
    {rxMsgPayload : MsgBuf} {now : Nat}
    (hr : run step (init upFeed downFeed upHeap downHeap rxMsgPayload now) as = some s) :
    Reachable uplink.step (uplink.init upFeed upHeap now) s.up ∧
      run downlink.step (downlink.init downFeed downHeap rxMsgPayload) (downPart as) =
        some s.down ∧
      OneThread s := by
  obtain ⟨ups, hups, hdowns, -⟩ := run_parts hr
  refine ⟨⟨ups, hups⟩, hdowns, ?_⟩
  exact run_invariant (fun s a s' h hstep => oneThread_moves h (moves_of_step hstep))
    (Or.inl rfl) hr

end parts

/-- In the whole service the two directions share a thread and a clock, but each goes
through a run of its own. In it the uplink looks up the requests among the datagrams
of fusion, and the downlink has the data messages among them, each in the order in
which they came. A request is answered while no data message is in the hand of
`fusion_receive_routine`. -/
theorem a_run_of_the_service_is_a_run_of_its_parts (upFeed downFeed : Feed)
    (upHeap downHeap : Ptr → MsgBuf) (rxMsgPayload : MsgBuf) (now : Nat) (as : List Action)
    (s : Service)
    (hr : run step (init upFeed downFeed upHeap downHeap rxMsgPayload now) as = some s) :
    ∃ ups downs, run uplink.step (uplink.init upFeed upHeap now) ups = some s.up ∧
      run downlink.step (downlink.init downFeed downHeap rxMsgPayload) downs = some s.down ∧
      ups.filterMap lookup? = (came rxMsgPayload as).filterMap request? ∧
      downlink.arrivals rxMsgPayload downs = (came rxMsgPayload as).filterMap data? ∧
      (s.up.answer = .idle ∨ s.down.fusion = .start) := by
  obtain ⟨ups, hups, hdowns, hlookups⟩ := run_parts hr
  exact ⟨ups, downPart as, hups, hdowns, hlookups, arrivals_downPart rxMsgPayload as,
    (parts_of_init hr).2.2⟩

/-- A datagram of a device goes out, and fusion sends a data message and a request
for the fragment. -/
def sentAndAsked : List Action :=
  (uplink.oneFrgmnt [7]).map .uplink ++
    [.downlink (.fusionRecv (downlink.frgmntOfThree 0)), .downlink .fusionGet,
      .downlink .fusionPut, .downlink (.fusionRecv [2, 0, 1])]

/-- The request is looked up, and the data message went to the downlink. -/
theorem a_request_after_a_message :
    ∃ s, run step (init uplink.numbered uplink.numbered (fun _ => .zero) (fun _ => .zero)
        .zero 5) sentAndAsked = some s ∧
      s.up.answer ≠ .idle ∧ ∃ ups downs, downlink.processed (downPart sentAndAsked) = 1 ∧
        run uplink.step (uplink.init uplink.numbered (fun _ => .zero) 5) ups = some s.up ∧
        run downlink.step (downlink.init uplink.numbered (fun _ => .zero) .zero) downs =
          some s.down ∧
        (ups.filterMap lookup?).length = 1 := by
  have hrun : (run step (init uplink.numbered uplink.numbered (fun _ => .zero) (fun _ => .zero)
      .zero 5) sentAndAsked).map (fun s => s.up.answer.pending) = some (some 0) := by
    decide +kernel
  obtain ⟨s, hs, hpending⟩ := Option.map_eq_some_iff.mp hrun
  obtain ⟨ups, downs, hups, hdowns, hlookups, -, -⟩ :=
    a_run_of_the_service_is_a_run_of_its_parts uplink.numbered uplink.numbered (fun _ => .zero)
      (fun _ => .zero) .zero 5 sentAndAsked s hs
  refine ⟨s, hs, ?_, ups, downs, rfl, hups, hdowns, ?_⟩
  · intro hidle
    rw [hidle] at hpending
    cases hpending
  · rw [hlookups]
    decide +kernel

/-! ## The end of the answers -/

/-- The action is a piece of a turn of `fusion_receive_routine`. -/
def Action.isReceive : Action → Bool
  | .uplink a => a.isAnswer
  | .downlink (.fusionRecv _) => true
  | .downlink .fusionGet => true
  | .downlink .fusionPut => true
  | _ => false

/-- `fusion_receive_routine` waits in `Fifo_get` with a data message, and there is no
buffer that could come back. -/
structure Waiting (s : Service) : Prop where
  idle : s.up.answer = .idle
  received : ∃ msg, s.down.fusion = .received msg
  places : downlink.places s.down = []

section ending

variable {s s' u : Service} {a : Action} {as : List Action}

/-- A thread that has a message reads no other one. -/
theorem no_recv {d : Downlink} {msg : MsgBuf} {bytes : List UInt8}
    (hand : d.fusion = .received msg) : downlink.step d (.fusionRecv bytes) = none := by
  simp only [downlink.step, hand]

theorem waiting_moves (h : Waiting s) (hm : Moves s a s') :
    a.isReceive = false ∧ Waiting s' := by
  obtain ⟨msg, hmsg⟩ := h.received
  cases hm with
  | uplink a up own turn =>
    have hidle := h.idle
    cases uplink.moves_of_step turn with
    | found req pkt idle find => exact absurd rfl (own req)
    | notFound req idle find => exact absurd rfl (own req)
    | lingerFrag req pkt was pending =>
      rw [hidle] at pending
      cases pending
    | sendReply req pkt was pending =>
      rw [hidle] at pending
      cases pending
    | _ => exact ⟨rfl, hidle, h.received, h.places⟩
  | request bytes req up down idle turn got find =>
    rw [no_recv hmsg] at turn
    cases turn
  | recv bytes down idle turn got =>
    rw [no_recv hmsg] at turn
    cases turn
  | downlink a down own clock turn =>
    have hturn := downlink.moves_of_step turn
    obtain ⟨hidle, hplaces⟩ := downlink.idle_of_no_places h.places hturn
    cases hturn with
    | sweep curTime => exact ⟨rfl, h.idle, h.received, hplaces⟩
    | data bytes rx msg' hand recv => cases own
    | other bytes rx answered hand recv no => cases own
    | _ => cases hidle

theorem waiting_run (h : Waiting s) (hr : run step s as = some u) :
    ∀ a ∈ as, a.isReceive = false := by
  induction as generalizing s with
  | nil =>
    intro a ha
    cases ha
  | cons b as ih =>
    obtain ⟨s', hs, hr'⟩ := run_cons_eq_some.mp hr
    obtain ⟨hno, h'⟩ := waiting_moves h (moves_of_step hs)
    exact List.forall_mem_cons.mpr ⟨hno, ih h' hr'⟩

/-- What the uplink does without an answer, the service can do. -/
theorem run_uplink {up : Uplink} {ups : List uplink.Action}
    (hups : run uplink.step s.up ups = some up) (hno : ∀ a ∈ ups, a.isAnswer = false) :
    run step s (ups.map .uplink) = some { s with up } := by
  induction ups generalizing s with
  | nil =>
    cases hups
    rfl
  | cons a ups ih =>
    obtain ⟨mid, ha, hrest⟩ := run_cons_eq_some.mp hups
    obtain ⟨hfirst, hothers⟩ := List.forall_mem_cons.mp hno
    have hstep : step s (.uplink a) = some { s with up := mid } := by
      cases a with
      | findFrag req => cases hfirst
      | _ => simp only [step, ha, Option.map_some]
    exact run_cons_eq_some.mpr ⟨_, hstep, ih (s := { s with up := mid }) hrest hothers⟩

/-- What the downlink does without a datagram, at the time of the clock, the service
can do. -/
theorem run_downlink {down : Downlink} {downs : List downlink.Action}
    (hdowns : run downlink.step s.down downs = some down)
    (hno : ∀ a ∈ downs, a.isRecv = false ∧ a.time.getD s.up.clock = s.up.clock) :
    run step s (downs.map .downlink) = some { s with down } := by
  induction downs generalizing s with
  | nil =>
    cases hdowns
    rfl
  | cons a downs ih =>
    obtain ⟨mid, ha, hrest⟩ := run_cons_eq_some.mp hdowns
    obtain ⟨⟨hfirst, htime⟩, hothers⟩ := List.forall_mem_cons.mp hno
    have hstep : step s (.downlink a) = some { s with down := mid } := by
      cases a with
      | fusionRecv bytes => cases hfirst
      | _ => simp only [step, htime, ha, Option.map_some, if_true]
    exact run_cons_eq_some.mpr ⟨_, hstep, ih (s := { s with down := mid }) hrest hothers⟩

/-- A data message is no request. -/
theorem step_message {down : Downlink} (hidle : s.up.answer = .idle)
    (hturn : downlink.step s.down (.fusionRecv (bytesOf downlink.secondOfThree)) = some down) :
    step s (.downlink (.fusionRecv (bytesOf downlink.secondOfThree))) =
      some { s with down } := by
  obtain ⟨m, hrecv, -⟩ := fusion_receive_bytesOf s.down.rxMsgPayload
    (b := downlink.secondOfThree) (by decide) (by decide)
  simp only [step, hidle, hturn, hrecv]

/-- The clock can go on to any later time. -/
theorem exists_ticks {now : Nat} (hnow : s.up.clock ≤ now) :
    ∃ ticks, (∀ a ∈ ticks, a.isAnswer = false) ∧
      run uplink.step s.up ticks = some { s.up with clock := now } := by
  obtain ⟨ticks, hticks, hno⟩ :=
    uplink.run_of_unasked ⟨_, uplink.run_ticks s.up (now - s.up.clock)⟩
  rw [Nat.add_sub_cancel' hnow] at hticks
  exact ⟨ticks, hno, hticks⟩

theorem downPart_append (as bs : List Action) :
    downPart (as ++ bs) = downPart as ++ downPart bs := List.filterMap_append

@[simp] theorem downPart_uplink (ups : List uplink.Action) : downPart (ups.map .uplink) = [] := by
  simp [downPart, List.filterMap_map]

@[simp] theorem downPart_downlink (downs : List downlink.Action) :
    downPart (downs.map .downlink) = downs := by
  simp [downPart, List.filterMap_map]

/-- The service can process 807 data messages. -/
theorem run_of_messages (upFeed downFeed : Feed) (upHeap downHeap : Ptr → MsgBuf)
    (rxMsgPayload : MsgBuf) (now : Nat) {n : Nat} (hn : n ≤ 807) : ∃ as s,
      run step (init upFeed downFeed upHeap downHeap rxMsgPayload now) as = some s ∧
      downlink.Quiet s.down ∧ s.up.answer = .idle ∧ downlink.processed (downPart as) = n := by
  induction n with
  | zero => exact ⟨[], _, rfl, ⟨rfl, rfl, rfl⟩, rfl, rfl⟩
  | succ n ih =>
    obtain ⟨as, s, hr, hq, hidle, hcount⟩ := ih (Nat.le_of_succ_le hn)
    obtain ⟨-, hdowns, -⟩ := parts_of_init hr
    obtain ⟨p, ps, hfifo⟩ := hq.buffer hdowns (hcount ▸ hn)
    obtain ⟨curTime, bs, down, hnow, hbs, hq', htimes, hone⟩ := hq.more hfifo s.up.clock
    obtain ⟨ticks, hno, hticks⟩ := exists_ticks hnow
    obtain ⟨mid, hturn, hrest⟩ := run_cons_eq_some.mp hbs
    -- The clock goes on, the message comes, and then it is handled.
    have hwait := run_uplink hticks hno
    have hmessage : step { s with up := { s.up with clock := curTime } }
        (.downlink (.fusionRecv (bytesOf downlink.secondOfThree))) =
          some { up := { s.up with clock := curTime }, down := mid } :=
      step_message hidle hturn
    have hhandled : run step { up := { s.up with clock := curTime }, down := mid }
        (bs.map .downlink) = some { up := { s.up with clock := curTime }, down } :=
      run_downlink hrest htimes
    refine ⟨as ++ (ticks.map .uplink ++
      .downlink (.fusionRecv (bytesOf downlink.secondOfThree)) :: bs.map .downlink),
      { up := { s.up with clock := curTime }, down }, ?_, hq', hidle, ?_⟩
    · rw [run_append, hr, Option.bind_some, run_append, hwait, Option.bind_some]
      exact run_cons_eq_some.mpr ⟨_, hmessage, hhandled⟩
    · have hpart : downPart (.downlink (.fusionRecv (bytesOf downlink.secondOfThree)) ::
          bs.map .downlink) = .fusionRecv (bytesOf downlink.secondOfThree) :: bs :=
        downPart_downlink (_ :: bs)
      rw [downPart_append, downPart_append, downPart_uplink, hpart, List.nil_append]
      unfold downlink.processed at hcount hone ⊢
      rw [List.countP_append, hcount, List.countP_cons_of_neg (by decide), hone]

/-- After 807 data messages, the next one never gets a buffer. -/
theorem waiting_of_init {upFeed downFeed : Feed} {upHeap downHeap : Ptr → MsgBuf}
    {rxMsgPayload : MsgBuf} {now : Nat}
    (hr : run step (init upFeed downFeed upHeap downHeap rxMsgPayload now) as = some s)
    (hall : downlink.processed (downPart as) = 807)
    (hcame : ((came rxMsgPayload as).filterMap data?).length = 808) : Waiting s := by
  obtain ⟨-, hdowns, hone⟩ := parts_of_init hr
  have hplaces := downlink.no_places hdowns hall
  obtain ⟨done, harrived, hdone, -⟩ := downlink.oneThread_of_init hdowns
  rw [arrivals_downPart] at harrived
  have hlen := congrArg List.length harrived
  rw [hcame, List.length_append, hdone, hall] at hlen
  have hfusion : ∃ msg, s.down.fusion = .received msg := by
    cases hand : s.down.fusion with
    | start =>
      rw [hand] at hlen
      simp [downlink.Turn.msgs] at hlen
    | received msg => exact ⟨msg, rfl⟩
    | copied p => simp [downlink.places, hand, downlink.Turn.ptrs] at hplaces
  refine ⟨?_, hfusion, hplaces⟩
  obtain ⟨msg, hmsg⟩ := hfusion
  rcases hone with hidle | hstart
  · exact hidle
  · rw [hmsg] at hstart
    cases hstart

end ending

/-- No pass of `free_history` takes a buffer that a reply is pending for. -/
def KeepsPending (s : Service) : Action → Prop
  | .uplink a => uplink.KeepsPending s.up a
  | .downlink _ => True

theorem settled_moves {feed : Feed} (h : uplink.Settled feed s.up) (hk : KeepsPending s a)
    (hm : Moves s a s') : uplink.Settled feed s'.up := by
  cases hm with
  | uplink a up own turn => exact h.step hk turn
  | request bytes req up down idle turn got find => exact h.step (a := .findFrag req) trivial find
  | recv bytes down idle turn got => exact h
  | downlink a down own clock turn => exact h

theorem settled_of_guarded {upFeed downFeed : Feed} {upHeap downHeap : Ptr → MsgBuf}
    {rxMsgPayload : MsgBuf} {now : Nat}
    (hr : run step (init upFeed downFeed upHeap downHeap rxMsgPayload now) as = some s)
    (hg : Guarded step KeepsPending (init upFeed downFeed upHeap downHeap rxMsgPayload now) as) :
    uplink.Settled upFeed s.up :=
  run_invariant_guarded (I := fun s => uplink.Settled upFeed s.up)
    (fun _ _ _ h hk hstep => settled_moves h hk (moves_of_step hstep))
    (uplink.settled_init upHeap now) hg hr

/-- The end of the downlink is the end of the answers. A run can process 807 data
messages and read one more. Wherever a run did so, `fusion_receive_routine` does
nothing in any run from there: no datagram of fusion is read and no request is
answered, so no lost fragment comes a second time. The uplink goes on: the threads can
still send all that was read and any further datagram of a device. The codes of what they
sent are right when no pass of `free_history` took a buffer that a reply was pending
for. -/
theorem the_answers_end_with_the_downlink (upFeed downFeed : Feed)
    (upHeap downHeap : Ptr → MsgBuf) (rxMsgPayload : MsgBuf) (now : Nat) :
    (∃ as s, run step (init upFeed downFeed upHeap downHeap rxMsgPayload now) as = some s ∧
      downlink.processed (downPart as) = 807 ∧
      ((came rxMsgPayload as).filterMap data?).length = 808) ∧
    ∀ as s, run step (init upFeed downFeed upHeap downHeap rxMsgPayload now) as = some s →
      downlink.processed (downPart as) = 807 →
      ((came rxMsgPayload as).filterMap data?).length = 808 →
        (∀ bs u, run step s bs = some u → ∀ b ∈ bs, b.isReceive = false) ∧
        ∀ (d : List UInt8) (pool : Nat → Nat → MsgBuf), d.length ≤ NET_PACKET_SIZE →
          ∃ bs u, run step s bs = some u ∧ u.up.reads = s.up.reads ++ [d] ∧
            uplink.sentAsData u.up =
              (uplink.oneThread pool 0 0 (s.up.reads ++ [d])).map bytesOf ∧
            (Guarded step KeepsPending
                (init upFeed downFeed upHeap downHeap rxMsgPayload now) as →
              uplink.sentBytes u.up = uplink.sentAsData u.up) := by
  refine ⟨?_, fun as s hr hall hcame => ?_⟩
  · obtain ⟨as, s, hr, hq, hidle, hall⟩ := run_of_messages upFeed downFeed upHeap downHeap
      rxMsgPayload now (Nat.le_refl 807)
    obtain ⟨m, hrecv, -⟩ := fusion_receive_bytesOf s.down.rxMsgPayload
      (b := downlink.secondOfThree) (by decide) (by decide)
    have hturn : downlink.step s.down (.fusionRecv (bytesOf downlink.secondOfThree)) =
        some { s.down with rxMsgPayload := m, fusion := .received m } := by
      simp only [downlink.step, hq.fusion, hrecv]
    have hr' := (run_snoc hr).trans (step_message hidle hturn)
    have hall' : downlink.processed (downPart (as ++
        [.downlink (.fusionRecv (bytesOf downlink.secondOfThree))])) = 807 := by
      rw [downPart_append, downlink.processed, List.countP_append]
      exact hall
    refine ⟨_, _, hr', hall', ?_⟩
    obtain ⟨done, harrived, hdone, -⟩ := downlink.oneThread_of_init (parts_of_init hr').2.1
    rw [← arrivals_downPart, harrived, List.length_append, hdone, hall']
    rfl
  · have hwaiting := waiting_of_init hr hall hcame
    refine ⟨fun bs u hbs => waiting_run hwaiting hbs, fun d pool hd => ?_⟩
    obtain ⟨hup, -⟩ := parts_of_init hr
    obtain ⟨ups, up, hups, hno, hreads, hsent, hcodes⟩ := uplink.goes_on hup hd pool
    exact ⟨ups.map .uplink, _, run_uplink hups hno, hreads, hsent,
      fun hg => hcodes (settled_of_guarded hr hg).unmarked⟩

end whole_service

end udp_service
