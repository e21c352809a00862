-- The way of the buffers from the device to fusion: four threads, two FIFOs
-- and the history. Every turn of a thread is split where it takes a buffer
-- from a FIFO, works on it, or gives it away, and the pieces of different
-- threads come in any order.
import UdpService.Lib.Runs
import UdpService.HsUdpService
import UdpService.RUdp

open blocks runs

namespace udp_service

/-- The buffers that `start_udp_service` feeds into a FIFO. -/
structure Feed where
  ptrs : List Ptr
  nodup : ptrs.Nodup
  count : ptrs.length = MAX_BUFFER_ELEMS - 1

namespace uplink

open hs_udp_service r_udp

/-! ## The threads -/

/-- What `iot_receive_routine` holds of the pool: nothing, the buffer that
`Fifo_get` gave it, or that buffer with its fragment. -/
inductive Hand
  | empty
  | taken (p : Ptr)
  | ready (p : Ptr)
deriving DecidableEq

def Hand.ptrs : Hand → List Ptr
  | .empty => []
  | .taken p => [p]
  | .ready p => [p]

/-- What `fusion_transmit_routine` holds: nothing, the buffer that `Fifo_get`
gave it, that buffer with its header complete, or the buffer that was sent. -/
inductive SendHand
  | empty
  | taken (p : Ptr)
  | headed (p : Ptr)
  | ready (p : Ptr)
deriving DecidableEq

def SendHand.ptrs : SendHand → List Ptr
  | .empty => []
  | .taken p => [p]
  | .headed p => [p]
  | .ready p => [p]

/-- Where `fusion_receive_routine` is in `handle_lost_request`. `was` is what
the buffer held when it was found. -/
inductive Answer
  | idle
  | found (req : RUdpFragmntReq) (pkt : Ptr) (was : MsgBuf)
  | lingered (req : RUdpFragmntReq) (pkt : Ptr) (was : MsgBuf)

/-- A message that `fusion_transmit_routine` sent. `owner` is the number of the
datagram in the order they were read, from 1, and the index of the fragment. -/
structure Transmission where
  owner : Nat × Nat
  msg : MsgBuf

/-- The state of the uplink. No routine reads the last four fields: they keep
what the run did. `owner p` is the fragment that `p` was last filled with. -/
structure Uplink where
  hist : Hist
  IotThrInFifo : List Ptr
  IotThrOutFifo : List Ptr
  iot : Hand
  rx : RxLoop
  fusion : SendHand
  answer : Answer
  clock : Nat
  reads : List (List UInt8)
  owner : Ptr → Nat × Nat
  pushedAt : Ptr → Nat
  log : List Transmission

/-- The pieces of the turns of the threads. -/
inductive Action
  | tick
  | iotRecv (d : List UInt8)
  | iotGet
  | iotFill
  | iotPut
  | fusionGet
  | fusionHeader
  | fusionSend
  | fusionPush
  | findFrag (req : RUdpFragmntReq)
  | lingerFrag
  | sendReply
  | freeHistory

/-- The uplink after the feed, with any bytes in the buffers. -/
def init (feed : Feed) (heap : Ptr → MsgBuf) (now : Nat) : Uplink :=
  { hist := ⟨heap, none, none⟩, IotThrInFifo := feed.ptrs, IotThrOutFifo := [], iot := .empty
    rx := ⟨[], 0, 0, 0, 0, 0⟩, fusion := .empty, answer := .idle, clock := now, reads := []
    owner := fun _ => (0, 0), pushedAt := fun _ => 0, log := [] }

/-- One action, or `none` where it cannot be taken: the thread is elsewhere,
the FIFO it waits for is empty, or the code has no defined outcome. -/
def step (s : Uplink) : Action → Option Uplink
  | .tick => some { s with clock := s.clock + 1 }
  | .iotRecv d =>
    match s.iot with
    | .empty =>
      if s.rx.res = 0 ∧ d.length ≤ NET_PACKET_SIZE then
        some { s with rx := iot_read s.rx.txSeqNum d, reads := s.reads ++ [d] }
      else none
    | _ => none
  | .iotGet =>
    match s.iot, s.IotThrInFifo with
    | .empty, p :: ps =>
      if 0 < s.rx.res then some { s with iot := .taken p, IotThrInFifo := ps } else none
    | _, _ => none
  | .iotFill =>
    match s.iot with
    | .taken p =>
      some { s with
        hist := s.hist.write p fun b => (iot_fill s.rx b).2
        rx := (iot_fill s.rx (s.hist.heap p)).1
        iot := .ready p
        owner := Function.update s.owner p (s.reads.length, s.rx.frgmntIdx) }
    | _ => none
  | .iotPut =>
    match s.iot with
    | .ready p => some { s with iot := .empty, IotThrOutFifo := s.IotThrOutFifo ++ [p] }
    | _ => none
  | .fusionGet =>
    match s.fusion, s.IotThrOutFifo with
    | .empty, p :: ps => some { s with fusion := .taken p, IotThrOutFifo := ps }
    | _, _ => none
  | .fusionHeader =>
    match s.fusion with
    | .taken p => some { s with hist := s.hist.write p fusion_header, fusion := .headed p }
    | _ => none
  | .fusionSend =>
    match s.fusion with
    | .headed p =>
      some { s with fusion := .ready p, log := s.log ++ [⟨s.owner p, s.hist.heap p⟩] }
    | _ => none
  | .fusionPush =>
    match s.fusion with
    | .ready p =>
      match hist_push_frag s.clock s.hist p with
      | .ok h =>
        some { s with
          hist := h, fusion := .empty, pushedAt := Function.update s.pushedAt p s.clock }
      | .error _ => none
    | _ => none
  | .findFrag req =>
    match s.answer, hist_find_frag s.hist req.fragmntLost req.seqNum with
    | .idle, some (some pkt) => some { s with answer := .found req pkt (s.hist.heap pkt) }
    | .idle, some none => some s
    | _, _ => none
  | .lingerFrag =>
    match s.answer with
    | .found req pkt was =>
      some { s with hist := linger s.hist pkt, answer := .lingered req pkt was }
    | _ => none
  | .sendReply =>
    match s.answer with
    | .lingered _ pkt _ => some { s with hist := markReply s.hist pkt, answer := .idle }
    | _ => none
  | .freeHistory =>
    match free_history s.clock MAX_BUFFER_ELEMS s.hist s.IotThrInFifo with
    | some (h, fifo) => some { s with hist := h, IotThrInFifo := fifo }
    | none => none

/-- What each action needs and does. -/
inductive Moves (s : Uplink) : Action → Uplink → Prop
  | tick : Moves s .tick { s with clock := s.clock + 1 }
  | iotRecv (d : List UInt8) (hand : s.iot = .empty) (done : s.rx.res = 0)
      (size : d.length ≤ NET_PACKET_SIZE) :
      Moves s (.iotRecv d) { s with rx := iot_read s.rx.txSeqNum d, reads := s.reads ++ [d] }
  | iotGet (p : Ptr) (ps : List Ptr) (hand : s.iot = .empty) (fifo : s.IotThrInFifo = p :: ps)
      (more : 0 < s.rx.res) : Moves s .iotGet { s with iot := .taken p, IotThrInFifo := ps }
  | iotFill (p : Ptr) (hand : s.iot = .taken p) :
      Moves s .iotFill { s with
        hist := s.hist.write p fun b => (iot_fill s.rx b).2
        rx := (iot_fill s.rx (s.hist.heap p)).1
        iot := .ready p
        owner := Function.update s.owner p (s.reads.length, s.rx.frgmntIdx) }
  | iotPut (p : Ptr) (hand : s.iot = .ready p) :
      Moves s .iotPut { s with iot := .empty, IotThrOutFifo := s.IotThrOutFifo ++ [p] }
  | fusionGet (p : Ptr) (ps : List Ptr) (hand : s.fusion = .empty)
      (fifo : s.IotThrOutFifo = p :: ps) :
      Moves s .fusionGet { s with fusion := .taken p, IotThrOutFifo := ps }
  | fusionHeader (p : Ptr) (hand : s.fusion = .taken p) :
      Moves s .fusionHeader { s with
        hist := s.hist.write p fusion_header, fusion := .headed p }
  | fusionSend (p : Ptr) (hand : s.fusion = .headed p) :
      Moves s .fusionSend { s with
        fusion := .ready p, log := s.log ++ [⟨s.owner p, s.hist.heap p⟩] }
  | fusionPush (p : Ptr) (h : Hist) (hand : s.fusion = .ready p)
      (push : hist_push_frag s.clock s.hist p = .ok h) :
      Moves s .fusionPush { s with
        hist := h, fusion := .empty, pushedAt := Function.update s.pushedAt p s.clock }
  | found (req : RUdpFragmntReq) (pkt : Ptr) (idle : s.answer = .idle)
      (find : hist_find_frag s.hist req.fragmntLost req.seqNum = some (some pkt)) :
      Moves s (.findFrag req) { s with answer := .found req pkt (s.hist.heap pkt) }
  | notFound (req : RUdpFragmntReq) (idle : s.answer = .idle)
      (find : hist_find_frag s.hist req.fragmntLost req.seqNum = some none) :
      Moves s (.findFrag req) s
  | lingerFrag (req : RUdpFragmntReq) (pkt : Ptr) (was : MsgBuf)
      (pending : s.answer = .found req pkt was) :
      Moves s .lingerFrag { s with hist := linger s.hist pkt, answer := .lingered req pkt was }
  | sendReply (req : RUdpFragmntReq) (pkt : Ptr) (was : MsgBuf)
      (pending : s.answer = .lingered req pkt was) :
      Moves s .sendReply { s with hist := markReply s.hist pkt, answer := .idle }
  | freeHistory (h : Hist) (fifo : List Ptr)
      (free : free_history s.clock MAX_BUFFER_ELEMS s.hist s.IotThrInFifo = some (h, fifo)) :
      Moves s .freeHistory { s with hist := h, IotThrInFifo := fifo }

theorem moves_of_step {s s' : Uplink} {a : Action} (h : step s a = some s') : Moves s a s' := by
  unfold step at h
  cases a with
  | tick =>
    cases h
    exact .tick
  | iotRecv d =>
    simp only at h
    split at h
    · split at h
      · rename_i hand hok
        cases h
        exact .iotRecv d hand hok.1 hok.2
      · cases h
    · cases h
  | iotGet =>
    simp only at h
    split at h
    · split at h
      · rename_i p ps hand fifo more
        cases h
        exact .iotGet p ps hand fifo more
      · cases h
    · cases h
  | iotFill =>
    simp only at h
    split at h
    · rename_i p hand
      cases h
      exact .iotFill p hand
    · cases h
  | iotPut =>
    simp only at h
    split at h
    · rename_i p hand
      cases h
      exact .iotPut p hand
    · cases h
  | fusionGet =>
    simp only at h
    split at h
    · rename_i p ps hand fifo
      cases h
      exact .fusionGet p ps hand fifo
    · cases h
  | fusionHeader =>
    simp only at h
    split at h
    · rename_i p hand
      cases h
      exact .fusionHeader p hand
    · cases h
  | fusionSend =>
    simp only at h
    split at h
    · rename_i p hand
      cases h
      exact .fusionSend p hand
    · cases h
  | fusionPush =>
    simp only at h
    split at h
    · rename_i p hand
      split at h
      · rename_i h' hpush
        cases h
        exact .fusionPush p h' hand hpush
      · cases h
    · cases h
  | findFrag req =>
    simp only at h
    split at h
    · rename_i pkt hidle hfind
      cases h
      exact .found req pkt hidle hfind
    · rename_i hidle hfind
      cases h
      exact .notFound req hidle hfind
    · cases h
  | lingerFrag =>
    simp only at h
    split at h
    · rename_i req pkt was hpending
      cases h
      exact .lingerFrag req pkt was hpending
    · cases h
  | sendReply =>
    simp only at h
    split at h
    · rename_i req pkt was hpending
      cases h
      exact .sendReply req pkt was hpending
    · cases h
  | freeHistory =>
    simp only at h
    split at h
    · rename_i h' fifo hfree
      cases h
      exact .freeHistory h' fifo hfree
    · cases h

/-! ## The places of the buffers -/

/-- All places where a buffer can be, one after the other. -/
def places (s : Uplink) : List Ptr :=
  s.IotThrInFifo ++ s.iot.ptrs ++ s.IotThrOutFifo ++ s.fusion.ptrs ++ history s.hist

/-- The list is whole, and the fed buffers are in the places, each once. -/
structure Whole (feed : Feed) (s : Uplink) : Prop where
  linked : Linked s.hist (history s.hist)
  perm : (places s).Perm feed.ptrs

/-- The buffers in the history after an action. -/
def historyAfter (s : Uplink) : Action → List Ptr
  | .fusionPush => history s.hist ++ s.fusion.ptrs
  | .freeHistory => (history s.hist).dropWhile fun p => (s.hist.heap p).time ≤ s.clock
  | _ => history s.hist

section whole

variable {feed : Feed} {s s' : Uplink} {a : Action}

theorem Whole.nodup (hw : Whole feed s) : (places s).Nodup := hw.perm.nodup_iff.mpr feed.nodup

theorem Whole.length (hw : Whole feed s) : (places s).length = 63 := by
  rw [hw.perm.length_eq, feed.count]
  rfl

/-- The buffer that is about to be pushed is not in the history, and there is
room for it. -/
theorem Whole.push_ok (hw : Whole feed s) {p : Ptr} (hand : s.fusion = .ready p) :
    p ∉ history s.hist ∧ (history s.hist).length + 1 < MAX_BUFFER_ELEMS := by
  have hnodup := hw.nodup
  have hlen := hw.length
  unfold places at hnodup hlen
  rw [hand] at hnodup hlen
  simp only [SendHand.ptrs, List.append_assoc, List.singleton_append] at hnodup hlen
  constructor
  · have h1 := (List.nodup_append.mp hnodup).2.1
    have h2 := (List.nodup_append.mp h1).2.1
    have h3 := (List.nodup_append.mp h2).2.1
    exact (List.nodup_cons.mp h3).1
  · simp only [List.length_append, List.length_cons] at hlen
    simp only [MAX_BUFFER_ELEMS]
    omega

/-- A push appends the buffer to the history and sets its deadline. Of the other
buffers it changes at most the link. -/
theorem Whole.pushed (hw : Whole feed s) {p : Ptr} {h : Hist} (hand : s.fusion = .ready p)
    (push : hist_push_frag s.clock s.hist p = .ok h) :
    Linked h (history s.hist ++ [p]) ∧ ∀ q, ∃ o, h.heap q = { s.hist.heap q with
      next := o, time := if q = p then s.clock + R_UDP_TIMEOUT else (s.hist.heap q).time } := by
  obtain ⟨hp, hroom⟩ := hw.push_ok hand
  obtain ⟨h', hpush, hl, hheap⟩ := hist_push_frag_eq s.clock hw.linked hp hroom
  rw [push] at hpush
  cases hpush
  exact ⟨hl, hheap⟩

/-- A pass of `free_history` puts what it takes from the history into
`IotThrInFifo`, and stores nothing. -/
theorem Whole.freed (hw : Whole feed s) {h : Hist} {fifo : List Ptr}
    (free : free_history s.clock MAX_BUFFER_ELEMS s.hist s.IotThrInFifo = some (h, fifo)) :
    fifo = s.IotThrInFifo ++ ((history s.hist).takeWhile fun p => (s.hist.heap p).time ≤ s.clock) ∧
      Linked h (historyAfter s .freeHistory) ∧ h.heap = s.hist.heap := by
  obtain ⟨h', hfree, hl, hheap⟩ := free_history_eq s.clock hw.linked
    (Nat.le_of_lt hw.linked.short) s.IotThrInFifo
  rw [free] at hfree
  cases hfree
  exact ⟨rfl, hl, hheap⟩

/-- A pass takes a buffer of the history, or the buffer stays. -/
theorem taken_or_kept {p : Ptr} (hp : p ∈ history s.hist) :
    p ∈ (history s.hist).takeWhile (fun p => (s.hist.heap p).time ≤ s.clock) ∨
      p ∈ historyAfter s .freeHistory := by
  unfold historyAfter
  rw [← List.mem_append, List.takeWhile_append_dropWhile]
  exact hp

/-- What an action makes of the history. -/
theorem linked_moves (hw : Whole feed s) (hm : Moves s a s') :
    Linked s'.hist (historyAfter s a) := by
  cases hm with
  | iotFill p hand => exact hw.linked.write p (f := fun b => (iot_fill s.rx b).2) fun _ => rfl
  | fusionHeader p hand => exact hw.linked.write p (f := fusion_header) fun _ => rfl
  | fusionPush p h hand push =>
    unfold historyAfter
    rw [hand]
    exact (hw.pushed hand push).1
  | lingerFrag req pkt was pending =>
    exact hw.linked.write pkt (f := fun b => { b with time := b.time + 1 }) fun _ => rfl
  | sendReply req pkt was pending => exact hw.linked.write pkt (f := asReply) fun _ => rfl
  | freeHistory h fifo free => exact (hw.freed free).2.1
  | _ => exact hw.linked

theorem history_moves (hw : Whole feed s) (hm : Moves s a s') :
    history s'.hist = historyAfter s a :=
  (linked_moves hw hm).history_eq

/-- An action moves buffers from place to place. -/
theorem places_moves (hw : Whole feed s) (hm : Moves s a s') : (places s').Perm (places s) := by
  have hhist := history_moves hw hm
  unfold places
  rw [hhist]
  rw [List.perm_iff_count]
  intro q
  cases hm with
  | iotGet p ps hand fifo more =>
    simp only [hand, fifo, historyAfter, Hand.ptrs, List.count_append, List.count_cons,
      List.count_nil]
    omega
  | iotFill p hand => simp only [hand, historyAfter, Hand.ptrs]
  | iotPut p hand =>
    simp only [hand, historyAfter, Hand.ptrs, List.count_append, List.count_cons, List.count_nil]
    omega
  | fusionGet p ps hand fifo =>
    simp only [hand, fifo, historyAfter, SendHand.ptrs, List.count_append, List.count_cons,
      List.count_nil]
    omega
  | fusionHeader p hand => simp only [hand, historyAfter, SendHand.ptrs]
  | fusionSend p hand => simp only [hand, historyAfter, SendHand.ptrs]
  | fusionPush p h hand push =>
    simp only [hand, historyAfter, SendHand.ptrs, List.count_append, List.count_cons,
      List.count_nil]
    omega
  | freeHistory h fifo free =>
    obtain ⟨hfifo, -⟩ := hw.freed free
    have hsplit := congrArg (List.count q) (List.takeWhile_append_dropWhile
      (p := fun p => decide ((s.hist.heap p).time ≤ s.clock)) (l := history s.hist))
    rw [List.count_append] at hsplit
    simp only [hfifo, historyAfter, List.count_append]
    omega
  | _ => rfl

theorem whole_init (feed : Feed) (heap : Ptr → MsgBuf) (now : Nat) :
    Whole feed (init feed heap now) := by
  have hl : Linked (init feed heap now).hist [] := ⟨⟨rfl, rfl, List.nodup_nil⟩, by simp⟩
  refine ⟨by rw [hl.history_eq]; exact hl, ?_⟩
  unfold places
  rw [hl.history_eq]
  simp [init, Hand.ptrs, SendHand.ptrs]

theorem whole_moves (hw : Whole feed s) (hm : Moves s a s') : Whole feed s' := by
  refine ⟨?_, (places_moves hw hm).trans hw.perm⟩
  rw [history_moves hw hm]
  exact linked_moves hw hm

end whole

/-! ## The deadlines -/

/-- Every buffer in the history waits at least `R_UDP_TIMEOUT` seconds from
its latest push. -/
def Waits (s : Uplink) : Prop :=
  ∀ p ∈ history s.hist, s.pushedAt p + R_UDP_TIMEOUT ≤ (s.hist.heap p).time

/-- A store that does not lower the deadline. -/
theorem waits_write {s : Uplink} (hw : Waits s) {p q : Ptr} {f : MsgBuf → MsgBuf}
    (hf : ∀ b, b.time ≤ (f b).time) (hq : q ∈ history s.hist) :
    s.pushedAt q + R_UDP_TIMEOUT ≤ ((s.hist.write p f).heap q).time := by
  have hold := hw q hq
  by_cases hqp : q = p
  · subst hqp
    rw [Hist.write_self]
    exact hold.trans (hf _)
  · rw [Hist.write_ne _ _ hqp]
    exact hold

theorem waits_moves {feed : Feed} {s s' : Uplink} {a : Action} (hw : Whole feed s) (ht : Waits s)
    (hm : Moves s a s') : Waits s' := by
  intro q hq
  rw [history_moves hw hm] at hq
  cases hm with
  | iotFill p hand =>
    exact waits_write ht (f := fun b => (iot_fill s.rx b).2) (fun b => Nat.le_refl b.time) hq
  | fusionHeader p hand =>
    exact waits_write ht (f := fusion_header) (fun b => Nat.le_refl b.time) hq
  | fusionPush p h hand push =>
    obtain ⟨o, ho⟩ := (hw.pushed hand push).2 q
    simp only [historyAfter, hand, SendHand.ptrs, List.mem_append, List.mem_singleton] at hq
    simp only [ho]
    by_cases hqp : q = p
    · subst hqp
      simp
    · rw [if_neg hqp, Function.update_of_ne hqp]
      exact ht q (hq.resolve_right hqp)
  | lingerFrag req pkt was pending =>
    exact waits_write ht (f := fun b => { b with time := b.time + 1 })
      (fun b => Nat.le_succ b.time) hq
  | sendReply req pkt was pending =>
    exact waits_write ht (f := asReply) (fun b => Nat.le_refl b.time) hq
  | freeHistory h fifo free =>
    rw [(hw.freed free).2.2]
    exact ht q ((List.dropWhile_sublist _).subset hq)
  | _ => exact ht q hq

/-! ## The law of the buffers -/

theorem reachable_whole {feed : Feed} {heap : Ptr → MsgBuf} {now : Nat} {s : Uplink}
    (hr : Reachable step (init feed heap now) s) : Whole feed s ∧ Waits s := by
  refine hr.invariant (I := fun s => Whole feed s ∧ Waits s) ?_ ⟨whole_init feed heap now, ?_⟩
  · intro s a s' ⟨hw, ht⟩ hstep
    have hm := moves_of_step hstep
    exact ⟨whole_moves hw hm, waits_moves hw ht hm⟩
  · intro p hp
    cases hp

/-- No buffer of the uplink is lost, doubled or recycled early. In every state
of every run the fed buffers are in the five places, each in one of them and
once; the stores and walks of the history find what they need; and an action
that takes a buffer from the history does so `R_UDP_TIMEOUT` seconds after the
latest push of the buffer, or later. -/
theorem no_uplink_buffer_is_lost (feed : Feed) (heap : Ptr → MsgBuf) (now : Nat) (s : Uplink)
    (hr : Reachable step (init feed heap now) s) :
    (∀ p ∈ feed.ptrs, (places s).count p = 1) ∧ (∀ p ∈ places s, p ∈ feed.ptrs) ∧
      (∀ p, s.fusion = .ready p → ∃ s', step s .fusionPush = some s') ∧
      (∀ req : RUdpFragmntReq, hist_find_frag s.hist req.fragmntLost req.seqNum ≠ none) ∧
      (∃ s', step s .freeHistory = some s') ∧
      ∀ a s', step s a = some s' → ∀ p ∈ history s.hist, p ∉ history s'.hist →
        s.pushedAt p + R_UDP_TIMEOUT ≤ s.clock := by
  obtain ⟨hw, ht⟩ := reachable_whole hr
  refine ⟨?_, fun p hp => hw.perm.mem_iff.mp hp, ?_, ?_, ?_, ?_⟩
  · intro p hp
    rw [hw.perm.count_eq]
    exact List.count_eq_one_of_mem feed.nodup hp
  · intro p hand
    obtain ⟨hp, hroom⟩ := hw.push_ok hand
    obtain ⟨h', hpush, -⟩ := hist_push_frag_eq s.clock hw.linked hp hroom
    exact ⟨_, by simp only [step, hand, hpush]; rfl⟩
  · intro req
    rw [hist_find_frag_eq hw.linked]
    exact Option.some_ne_none _
  · obtain ⟨h', hfree, -⟩ := free_history_eq s.clock hw.linked
      (Nat.le_of_lt hw.linked.short) s.IotThrInFifo
    exact ⟨_, by simp only [step, hfree]; rfl⟩
  · intro a s' hstep p hp hout
    have hm := moves_of_step hstep
    rw [history_moves hw hm] at hout
    cases a with
    | freeHistory =>
      have htaken := (taken_or_kept hp).resolve_right hout
      have hexp := List.mem_takeWhile_imp htaken
      exact (ht p hp).trans (of_decide_eq_true hexp)
    | fusionPush => exact absurd (List.mem_append_left _ hp) hout
    | _ => exact absurd hp hout

/-- The feed of the buffers 0 to 62. -/
def numbered : Feed := ⟨List.range 63, List.nodup_range, rfl⟩

/-- The turns of a datagram with one fragment, up to the history. -/
def oneFrgmnt (d : List UInt8) : List Action :=
  [.iotRecv d, .iotGet, .iotFill, .iotPut, .fusionGet, .fusionHeader, .fusionSend, .fusionPush]

/-- The first buffer went into the history, and it can leave it only once its
time is over. -/
theorem a_buffer_in_the_history :
    ∃ s, run step (init numbered (fun _ => .zero) 5) (oneFrgmnt [7]) = some s ∧
      history s.hist = [0] ∧ (∀ p < 63, (places s).count p = 1) ∧
      ∀ a s', step s a = some s' → 0 ∉ history s'.hist → 45 ≤ s.clock := by
  have hrun : (run step (init numbered (fun _ => .zero) 5) (oneFrgmnt [7])).map
      (fun s => (history s.hist, s.pushedAt 0)) = some ([0], 5) := by decide +kernel
  obtain ⟨s, hs, hstate⟩ := Option.map_eq_some_iff.mp hrun
  obtain ⟨hh, hp⟩ := Prod.mk.inj hstate
  obtain ⟨hcount, -, -, -, -, hleave⟩ :=
    no_uplink_buffer_is_lost numbered (fun _ => .zero) 5 s ⟨oneFrgmnt [7], hs⟩
  refine ⟨s, hs, hh, fun p hp => hcount p (List.mem_range.mpr hp), ?_⟩
  intro a s' hstep hout
  have hclock := hleave a s' hstep 0 (by simp [hh]) hout
  rw [hp] at hclock
  exact hclock

end uplink

end udp_service
