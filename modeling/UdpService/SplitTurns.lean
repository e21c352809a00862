-- A pass of `r_udp_req_routine` may fall into a turn of `iot_transmit_routine`, between the
-- look-up of the slot and the stores: neither takes a lock. The messages keep their order, and
-- unless a pass takes the slot in work, the turns do what they do in one piece.
import UdpService.DownlinkFlow

open blocks runs

namespace udp_service

namespace downlink

open hs_udp_fragments hs_udp_service rudp_req

/-! ## Turns in two pieces -/

/-- The downlink, the slot that the turn of `iot_transmit_routine` in work has found, and the
messages of the turns that are over with what these did. -/
structure InPieces where
  down : Downlink
  found : Option Handle
  turns : List (MsgBuf × Transmitted)

/-- The look-up of a turn of `iot_transmit_routine`, the rest of it, or an action of another
kind. -/
inductive Piece
  | other (a : Action)
  | lookUp
  | finish (now : Nat)

/-- The action that is over with the piece. -/
def Piece.whole : Piece → List Action
  | .other a => [a]
  | .lookUp => []
  | .finish now => [.iotSend now]

def InPieces.init (feed : Feed) (heap : Ptr → MsgBuf) (rxMsgPayload : MsgBuf) : InPieces :=
  ⟨downlink.init feed heap rxMsgPayload, none, []⟩

/-- One piece, or `none` where it cannot be taken. -/
def stepPiece (s : InPieces) : Piece → Option InPieces
  | .other (.iotSend _) => none
  | .other a => (step s.down a).map fun d => { s with down := d }
  | .lookUp =>
    match s.found, s.down.iot with
    | none, some p =>
      let msg := s.down.heap p
      if msg.msgHeader.frgmntIdx < msg.msgHeader.frgmnts then
        match look_up s.down.rcv msg with
        | .ok (rcv, h) => some { s with down := { s.down with rcv }, found := some h }
        | .error _ => none
      else none
    | _, _ => none
  | .finish now =>
    match s.found, s.down.iot with
    | some h, some p =>
      let msg := s.down.heap p
      match (collate now s.down.rcv msg h).bind (send_defragmented msg) with
      | .ok t => some {
          down := { s.down with
            iot := none, rcv := t.rcv, fusionThrInFifo := s.down.fusionThrInFifo ++ [p] }
          found := none
          turns := s.turns ++ [(msg, t)] }
      | .error _ => none
    | _, _ => none

/-- A pass of `r_udp_req_routine` leaves the slot in use that a turn has found. -/
def LeavesFound (s : InPieces) : Piece → Prop
  | .other (.sweep curTime) => ∀ h ∈ s.found,
      ((r_udp_req_routine curTime s.down.rcv).table.fragments h).used = true
  | _ => True

instance decidableLeavesFound (s : InPieces) : ∀ a, Decidable (LeavesFound s a)
  | .other (.sweep curTime) => inferInstanceAs (Decidable (∀ h ∈ s.found,
      ((r_udp_req_routine curTime s.down.rcv).table.fragments h).used = true))
  | .other (.fusionRecv _) | .other .fusionGet | .other .fusionPut | .other .iotGet
  | .other (.iotSend _) | .lookUp | .finish _ => isTrue trivial

theorem stepPiece_other {s s' : InPieces} {a : Action} (hs : stepPiece s (.other a) = some s') :
    a.isSend = false ∧ ∃ d, step s.down a = some d ∧ { s with down := d } = s' := by
  cases a with
  | iotSend now => cases hs
  | _ => exact ⟨rfl, Option.map_eq_some_iff.mp hs⟩

/-! ## The messages keep their order -/

section order

variable {s s' u : InPieces} {a : Piece} {ps : List Piece}

theorem put_length {s s' : Downlink} {a : Action} (hm : Moves s a s') :
    (put s a).length = processed [a] := by
  cases hm with
  | fusionPut p hand => simp [put, hand, Turn.msgs, processed, Action.isPut]
  | _ => rfl

theorem queued_moves {s s' : Downlink} {a : Action} (hn : (places s).Nodup) (hm : Moves s a s')
    (ha : a.isSend = false) : queued s' = queued s ++ kept s.pkt_drop_count (put s a) := by
  cases hm with
  | fusionGet msg p ps hand fifo =>
    simp only [put, kept, List.append_nil]
    exact queued_get hn fifo
  | fusionPut p hand =>
    simp only [put, hand, Turn.msgs, kept, queued]
    split <;> simp
  | iotGet p ps hand fifo => simp [put, kept, queued, hand, fifo]
  | iotSend now p t hand sent => cases ha
  | _ => simp [put, kept, queued]

/-- What one piece does to the messages, where `msgs` is what it puts. -/
structure Hands (s : InPieces) (a : Piece) (s' : InPieces) (msgs : List MsgBuf) : Prop where
  nodup : (places s'.down).Nodup
  came : ∀ as, s.down.fusion.msgs s.down.heap ++ arrivals s.down.rxMsgPayload (a.whole ++ as) =
    msgs ++ (s'.down.fusion.msgs s'.down.heap ++ arrivals s'.down.rxMsgPayload as)
  count : s'.down.pkt_drop_count = s.down.pkt_drop_count + msgs.length
  length : msgs.length = processed a.whole
  line : s'.turns.map Prod.fst ++ queued s'.down =
    s.turns.map Prod.fst ++ queued s.down ++ kept s.down.pkt_drop_count msgs

theorem hands_of_step (hn : (places s.down).Nodup) (hs : stepPiece s a = some s') :
    ∃ msgs, Hands s a s' msgs := by
  cases a with
  | other b =>
    obtain ⟨hb, d, hd, rfl⟩ := stepPiece_other hs
    have hm := moves_of_step hd
    refine ⟨put s.down b, places_nodup_step hn hd, arrivals_moves hm, count_moves hm,
      put_length hm, ?_⟩
    rw [queued_moves hn hm hb, List.append_assoc]
  | lookUp =>
    simp only [stepPiece] at hs
    split at hs
    · split_ifs at hs
      split at hs
      · cases hs
        exact ⟨[], hn, fun _ => rfl, rfl, rfl, by simp [kept, queued]⟩
      · cases hs
    · cases hs
  | finish now =>
    simp only [stepPiece] at hs
    split at hs
    · rename_i h p hfound hand
      split at hs
      · rename_i t ht
        cases hs
        refine ⟨[], (places_send hand t.rcv).nodup_iff.mpr hn, fun _ => rfl, rfl, rfl, ?_⟩
        simp [kept, queued, hand]
      · cases hs
    · cases hs

end order

/-! ## The pieces make whole turns -/

/-- The downlink with turns in one piece that is as far: between two turns it is the same,
and within one the look-up is still to come. -/
inductive Joined : InPieces → Downlink → Prop
  | between (d : Downlink) (turns : List (MsgBuf × Transmitted)) : Joined ⟨d, none, turns⟩ d
  | within (d : Downlink) (rcv : Receiver) (h : Handle) (p : Ptr)
      (turns : List (MsgBuf × Transmitted)) (hand : d.iot = some p)
      (inside : (d.heap p).msgHeader.frgmntIdx < (d.heap p).msgHeader.frgmnts)
      (found : LookedUp d.rcv (d.heap p) rcv h) : Joined ⟨{ d with rcv }, some h, turns⟩ d

section joined

variable {s s' u : InPieces} {d : Downlink} {a : Piece} {ps : List Piece}

/-- While a turn of `iot_transmit_routine` is in work, the other threads leave its buffer and
the receiver alone. -/
theorem moves_frame {d' : Downlink} {a : Action} {p : Ptr} (hn : (places d).Nodup)
    (hm : Moves d a d') (ha : a.time = none) (hand : d.iot = some p) :
    d'.iot = some p ∧ d'.heap p = d.heap p ∧ d'.rcv = d.rcv := by
  cases hm with
  | fusionGet msg q qs hfusion fifo =>
    have hne : p ≠ q := by
      intro hpq
      unfold places at hn
      rw [fifo, hand] at hn
      simp [hpq] at hn
    exact ⟨hand, Function.update_of_ne hne _ _, rfl⟩
  | iotGet q qs hfree fifo =>
    rw [hand] at hfree
    cases hfree
  | iotSend now q t hsend sent => cases ha
  | sweep curTime => cases ha
  | _ => exact ⟨hand, rfl, rfl⟩

theorem iot_transmit_of_lookedUp {r r' : Receiver} {msg : MsgBuf} {h : Handle}
    (hl : LookedUp r msg r' h) (hin : msg.msgHeader.frgmntIdx < msg.msgHeader.frgmnts)
    (now : Nat) : iot_transmit now r msg = (collate now r' msg h).bind (send_defragmented msg) := by
  unfold iot_transmit
  rw [hl.defragment_eq now hin]
  cases collate now r' msg h <;> rfl

/-- The downlink with turns in one piece takes the action that is over with the piece, with the
same result, and is as far again. -/
def Follows (s : InPieces) (d : Downlink) (a : Piece) (s' : InPieces) : Prop :=
  ∃ d', run step d a.whole = some d' ∧ Joined s' d' ∧
    s'.turns.map Prod.snd = s.turns.map Prod.snd ++ transmitted d a.whole

end joined

/-- The turn of a message that the loss leaves, with a pass in it. -/
def turnAround (curTime : Nat) : List Piece :=
  [.other .iotGet, .lookUp, .other (.sweep curTime), .finish curTime]

/-- The first fragment is lost, the second one is handled while the third one comes in. -/
def threeInTurns : List Piece :=
  [.other (.fusionRecv (frgmntOfThree 0)), .other .fusionGet, .other .fusionPut,
    .other (.fusionRecv (frgmntOfThree 1)), .other .fusionGet, .other .fusionPut,
    .other (.fusionRecv (frgmntOfThree 2)), .other .fusionGet] ++ turnAround 5 ++ [.other .fusionPut]

/-- At the time 50 the same pass finds the slot timed out that the turn has just taken, so the
fragment is in a slot that is not in use. -/
example :
    (run stepPiece (.init uplink.numbered (fun _ => .zero) .zero)
      ([.other (.fusionRecv (frgmntOfThree 0)), .other .fusionGet, .other .fusionPut,
        .other (.fusionRecv (frgmntOfThree 1)), .other .fusionGet, .other .fusionPut] ++
        turnAround 50)).map (fun s => ((s.down.rcv.table.fragments (slot 1)).frags_mask,
          (s.down.rcv.table.fragments (slot 1)).used)) = some (2, false) := by
  decide +kernel

end downlink

end udp_service
