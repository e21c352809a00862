-- The packets of many datagrams at the receiver: which packet is the current
-- one, and which fragments are asked for at the end of a packet.
import UdpService.Arrivals
import UdpService.RUdp

open blocks

namespace udp_service

namespace packet_runs

open hs_udp_fragments rudp_req hs_udp_service reassembly arrivals runs

/-- A datagram under a number that has a slot. -/
structure Packet where
  seqNum : Fin MAX_PKTS
  dg : Datagram

/-- A message arrives, taken for the fragment `o.2` of the packet `o.1`, or the
sweep passes. -/
inductive Event
  | arrival (o : Nat × Nat) (a : Arrival)
  | sweep (curTime : Nat)

/-- What arrives is the fragment that it is taken for. -/
def FragmentIn (xs : List Packet) (o : Nat × Nat) (a : Arrival) : Prop :=
  ∃ x, xs[o.1]? = some x ∧ IsFrgmnt a.msg x.seqNum x.dg.bytes o.2

/-- The receiver after one event. A complete packet is released. -/
def next (r : Receiver) : Event → Option Receiver
  | .arrival _ a => (defragment a.now r a.msg).toOption.map released
  | .sweep curTime => some (r_udp_req_routine curTime r)

theorem next_arrival {r : Receiver} {o : Nat × Nat} {a : Arrival} {c : Collated}
    (hc : defragment a.now r a.msg = .ok c) : next r (.arrival o a) = some (released c) := by
  simp only [next, hc]
  rfl

/-- No slot is in use for another terminal, and the current packet has a slot or
there is none. -/
structure Served (r : Receiver) : Prop where
  terminalId : ∀ s, (r.table.fragments (slot s)).used = true →
    (r.table.fragments (slot s)).terminalId = TERMINAL_ID
  last_pkt_seq : r.last_pkt_seq = -1 ∨ ∃ s : Fin MAX_PKTS, r.last_pkt_seq = s.val

/-! ## One call -/

theorem toUint8_ne {x : Int} {s : Fin MAX_PKTS} (h : x = -1 ∨ ∃ s : Fin MAX_PKTS, x = s.val)
    (hne : x ≠ s.val) : toUint8 x ≠ s := by
  have hs := s.isLt
  unfold toUint8
  rcases h with rfl | ⟨s', rfl⟩
  · simp only [MAX_PKTS] at hs
    omega
  · have hs' := s'.isLt
    simp only [MAX_PKTS] at hs hs'
    omega

/-- To acquire a slot changes nothing for the packets of the other slots. -/
theorem complete_last_pkt_acquired (t : UdpFragmentsTable) {s : Fin MAX_PKTS} {p : Nat}
    (hne : p ≠ s) : rrudp_complete_last_pkt (t.acquired (slot s) TERMINAL_ID) p =
      rrudp_complete_last_pkt t p := by
  unfold rrudp_complete_last_pkt
  by_cases hp : p < MAX_PKTS
  · obtain ⟨s', rfl⟩ : ∃ s' : Fin MAX_PKTS, p = s'.val := ⟨⟨p, hp⟩, rfl⟩
    have hslot : slot s' ≠ slot s := by
      intro h
      exact hne (congrArg Fin.val (slot_inj.mp h))
    rw [find_terminal_slot, find_terminal_slot, UdpFragmentsTable.acquired_ne _ _ hslot]
    split_ifs
    · simp only [UdpFragmentsTable.acquired_ne _ _ hslot]
    · rfl
  · rw [find_terminal_high _ _ (Nat.le_of_not_lt hp), find_terminal_high _ _ (Nat.le_of_not_lt hp)]

/-- What a call of `defragment` does with a fragment: it makes its packet the
current one, and sends the end-of-packet requests for the packet that was, when
the fragment finds no slot in use. -/
structure Called (r : Receiver) (s : Fin MAX_PKTS) (c : Collated) : Prop where
  last_pkt_seq : c.rcv.last_pkt_seq = s.val
  used : (c.rcv.table.fragments (slot s)).used = true
  terminalId : (c.rcv.table.fragments (slot s)).terminalId = TERMINAL_ID
  frame : ∀ k ≠ slot s, c.rcv.table.fragments k = r.table.fragments k
  out : c.outFragment = none ∨ c.outFragment = some (slot s)
  completed : c.completed = if (r.table.fragments (slot s)).used ∨ r.last_pkt_seq = s.val then none
    else some (toUint8 r.last_pkt_seq)
  reqs : ∃ gap, c.reqs = (if (r.table.fragments (slot s)).used ∨ r.last_pkt_seq = s.val then []
      else rrudp_complete_last_pkt r.table (toUint8 r.last_pkt_seq)) ++ gap ∧
    ∀ q ∈ gap, q.seqNum = s.val

theorem Served.call {r : Receiver} (h : Served r) {a : Arrival} {s : Fin MAX_PKTS}
    {d : List UInt8} {i : Nat} (hd : d.length ≤ NET_PACKET_SIZE) (hm : IsFrgmnt a.msg s d i) :
    ∃ c, defragment a.now r a.msg = .ok c ∧ Called r s c := by
  have hfit := hm.fits hd
  have hloc : ((located r a.msg s).table.fragments (slot s)).used = true ∧
      ((located r a.msg s).table.fragments (slot s)).terminalId = TERMINAL_ID := by
    rw [located_self]
    split_ifs with hused
    · exact ⟨hused, h.terminalId s hused⟩
    · exact ⟨rfl, rfl⟩
  rw [defragment_eq a.now hm.before_end hm.seqNum (h.terminalId s), collate_eq _ _ _ _ hfit]
  refine ⟨_, rfl, ?_, ?_, ?_, ?_, ?_, ?_, ?_⟩
  · simp [hm.not_request, hm.seqNum]
  · simpa [stored] using hloc.1
  · simpa [stored] using hloc.2
  · intro k hk
    simp only [UdpFragmentsTable.set_ne _ _ hk]
    exact located_ne _ _ hk
  · simp only
    split_ifs
    · exact Or.inr rfl
    · exact Or.inl rfl
  · simp only [hm.seqNum]
    exact endedPkt_located r s hm.not_request
  · refine ⟨gapRequests ((located r a.msg s).table.fragments (slot s)) a.msg.msgHeader, ?_, ?_⟩
    · simp only [hm.seqNum]
      rw [endRequests_located r s hm.not_request]
      by_cases hsilent : (r.table.fragments (slot s)).used ∨ r.last_pkt_seq = s.val
      · rw [if_pos hsilent, if_pos hsilent]
      · have hne : r.last_pkt_seq ≠ s.val := fun he => hsilent (Or.inr he)
        rw [if_neg hsilent, if_neg hsilent,
          complete_last_pkt_acquired _ (toUint8_ne h.last_pkt_seq hne)]
    · intro q hq
      rw [gapRequests_seqNum hq, hm.seqNum]

theorem released_last_pkt_seq (c : Collated) :
    (released c).last_pkt_seq = c.rcv.last_pkt_seq := by
  unfold released
  split <;> rfl

theorem Called.served {r : Receiver} {s : Fin MAX_PKTS} {c : Collated} (hr : Served r)
    (h : Called r s c) : Served (released c) := by
  refine ⟨released_terminalId ?_, Or.inr ⟨s, by rw [released_last_pkt_seq, h.last_pkt_seq]⟩⟩
  intro s' hused
  by_cases hs : slot s' = slot s
  · rw [hs]
    exact h.terminalId
  · rw [h.frame _ hs] at hused ⊢
    exact hr.terminalId s' hused

theorem Served.sweep {r : Receiver} (h : Served r) (curTime : Nat) :
    Served (r_udp_req_routine curTime r) :=
  ⟨sweep_terminalId h.terminalId curTime, h.last_pkt_seq⟩

/-- The events are fragments of the packets, and sweeps. -/
def Fragments (xs : List Packet) : Event → Prop
  | .arrival o a => FragmentIn xs o a
  | .sweep _ => True

theorem Served.next {xs : List Packet} {r : Receiver} {e : Event} (h : Served r)
    (he : Fragments xs e) : ∃ r', next r e = some r' ∧ Served r' := by
  cases e with
  | arrival o a =>
    obtain ⟨x, -, hm⟩ := he
    obtain ⟨c, hc, hcall⟩ := h.call x.dg.le hm
    exact ⟨_, next_arrival hc, hcall.served h⟩
  | sweep curTime => exact ⟨_, rfl, h.sweep curTime⟩

theorem Served.init : Served .init := ⟨fun _ _ => rfl, Or.inl rfl⟩

/-! ## The current packet -/

def isOriginal (a : Arrival) : Bool := a.msg.msgHeader.msgCode = MSG_CODE_REG_DATA

def isReply (a : Arrival) : Bool := a.msg.msgHeader.msgCode = MSG_CODE_REPLY_FRAG

/-- The number of the latest original fragment, once an event is past. -/
def latestAfter (latest : Int) : Event → Int
  | .arrival _ a => if isOriginal a then a.msg.msgHeader.seqNum.val else latest
  | .sweep _ => latest

/-- The packets that original fragments came of, once an event is past. -/
def begunAfter (begun : List Nat) : Event → List Nat
  | .arrival o a => if isOriginal a then begun ++ [o.1] else begun
  | .sweep _ => begun

/-- The receiver, the number of the latest original fragment or -1, and the packets
that original fragments came of. -/
structure Current where
  rcv : Receiver
  latest : Int
  begun : List Nat

def Current.init : Current := ⟨.init, -1, []⟩

def step (g : Current) (e : Event) : Option Current :=
  (next g.rcv e).map fun r => ⟨r, latestAfter g.latest e, begunAfter g.begun e⟩

/-- What arrives is an original fragment, or a reply with one. -/
def Coded : Event → Prop
  | .arrival _ a => isOriginal a = true ∨ isReply a = true
  | .sweep _ => True

/-- The event is an original fragment of a packet, a reply with one, or a sweep. -/
def Expected (xs : List Packet) (e : Event) : Prop := Fragments xs e ∧ Coded e

/-- A new packet: what arrives is the first original fragment of it, after those of
another. -/
def Begins (g : Current) (o : Nat × Nat) (a : Arrival) : Prop :=
  isOriginal a = true ∧ o.1 ∉ g.begun ∧ g.begun ≠ []

/-- After the call `last_pkt_seq` is the number of the latest original fragment,
and for a new packet `rrudp_complete_last_pkt` was called for the packet of the
latest one before it. -/
def KeepsCurrent (g : Current) : Event → Prop
  | .arrival o a => ∃ c, defragment a.now g.rcv a.msg = .ok c ∧
      c.rcv.last_pkt_seq = latestAfter g.latest (.arrival o a) ∧
      (Begins g o a → c.completed = some (toUint8 g.latest) ∧
        ∃ gap, c.reqs = rrudp_complete_last_pkt g.rcv.table (toUint8 g.latest) ++ gap ∧
          ∀ q ∈ gap, q.seqNum = a.msg.msgHeader.seqNum.val)
  | .sweep _ => True

/-- A reply carries the number of the latest original fragment, and a new packet
finds no slot in use and has another number. -/
def InStep (g : Current) : Event → Prop
  | .arrival o a =>
      (isReply a = true → (a.msg.msgHeader.seqNum.val : Int) = g.latest) ∧
      (Begins g o a → find_terminal g.rcv.table TERMINAL_ID a.msg.msgHeader.seqNum = none ∧
        (a.msg.msgHeader.seqNum.val : Int) ≠ g.latest)
  | .sweep _ => True

section Current

variable {xs : List Packet} {g g' : Current} {e : Event}

theorem step_expected (h : Served g.rcv) (he : Expected xs e) :
    ∃ g', step g e = some g' ∧ Served g'.rcv := by
  obtain ⟨r, hr, hserved⟩ := h.next he.1
  refine ⟨⟨r, latestAfter g.latest e, begunAfter g.begun e⟩, ?_, hserved⟩
  rw [step, hr]
  rfl

theorem not_reply_of_original {a : Arrival} (h : isOriginal a = true) : isReply a = false := by
  unfold isOriginal at h
  unfold isReply
  rw [of_decide_eq_true h]
  rfl

/-- The number of an original, or of a reply, against that of the latest original. -/
theorem latestAfter_iff {o : Nat × Nat} {a : Arrival} {latest : Int}
    (hcode : isOriginal a = true ∨ isReply a = true) :
    (a.msg.msgHeader.seqNum.val : Int) = latestAfter latest (.arrival o a) ↔
      (isReply a = true → (a.msg.msgHeader.seqNum.val : Int) = latest) := by
  simp only [latestAfter]
  by_cases horig : isOriginal a = true
  · simp [if_pos horig, not_reply_of_original horig]
  · rw [if_neg horig, imp_iff_right (hcode.resolve_left horig)]

theorem Served.find_none_iff {r : Receiver} (h : Served r) (s : Fin MAX_PKTS) :
    find_terminal r.table TERMINAL_ID s = none ↔ (r.table.fragments (slot s)).used = false := by
  rw [find_terminal_slot]
  by_cases hused : (r.table.fragments (slot s)).used = true
  · simp [hused, h.terminalId s hused]
  · simp [hused]

/-- The call is for the packet that was current exactly when the fragment finds no
slot in use and has another number. -/
theorem Called.completed_iff {r : Receiver} {s : Fin MAX_PKTS} {c : Collated} (hr : Served r)
    (h : Called r s c) : (c.completed = some (toUint8 r.last_pkt_seq) ∧
      ∃ gap, c.reqs = rrudp_complete_last_pkt r.table (toUint8 r.last_pkt_seq) ++ gap ∧
        ∀ q ∈ gap, q.seqNum = s.val) ↔
      find_terminal r.table TERMINAL_ID s = none ∧ (s.val : Int) ≠ r.last_pkt_seq := by
  rw [h.completed, hr.find_none_iff s]
  obtain ⟨gap, hreqs, hgap⟩ := h.reqs
  by_cases hsilent : (r.table.fragments (slot s)).used ∨ r.last_pkt_seq = s.val
  · rw [if_pos hsilent]
    refine iff_of_false (fun h => by cases h.1) ?_
    rintro ⟨hfree, hne⟩
    rcases hsilent with hused | hlast
    · rw [hused] at hfree
      cases hfree
    · exact hne hlast.symm
  · rw [if_neg hsilent] at hreqs ⊢
    refine iff_of_true ⟨rfl, gap, hreqs, hgap⟩ ⟨?_, fun he => hsilent (Or.inr he.symm)⟩
    exact Bool.eq_false_iff.mpr fun hused => hsilent (Or.inl hused)

/-- Where the current packet is that of the latest original fragment, an event
keeps it so exactly when it is in step. -/
theorem keepsCurrent_iff (h : Served g.rcv) (hcur : g.rcv.last_pkt_seq = g.latest)
    (he : Expected xs e) : KeepsCurrent g e ↔ InStep g e := by
  cases e with
  | arrival o a =>
    obtain ⟨⟨x, -, hm⟩, hcode⟩ := he
    obtain ⟨c, hc, hcall⟩ := h.call x.dg.le hm
    have hlatest := @latestAfter_iff o a g.latest hcode
    have hcompleted := hcall.completed_iff h
    rw [hm.seqNum] at hlatest
    rw [hcur] at hcompleted
    simp only [KeepsCurrent, InStep, hc, Except.ok.injEq, exists_eq_left', hcall.last_pkt_seq,
      hm.seqNum, hcompleted, hlatest]
  | sweep curTime => exact Iff.rfl

theorem keepsCurrent_step (h : Served g.rcv) (hcur : g.rcv.last_pkt_seq = g.latest)
    (he : Expected xs e) (hok : InStep g e) (hs : step g e = some g') :
    g'.rcv.last_pkt_seq = g'.latest := by
  have hkeeps := (keepsCurrent_iff h hcur he).mpr hok
  cases e with
  | arrival o a =>
    obtain ⟨c, hc, hlast, -⟩ := hkeeps
    unfold step at hs
    rw [next_arrival hc] at hs
    cases hs
    exact (released_last_pkt_seq c).trans hlast
  | sweep curTime =>
    cases hs
    exact hcur

theorem run_expected {es : List Event} (hes : ∀ e ∈ es, Expected xs e) :
    ∃ u, run step .init es = some u := by
  have hkeep : ∀ g : Current, ∀ e ∈ es, Served g.rcv →
      ∃ g', step g e = some g' ∧ Served g'.rcv := fun g e he h => step_expected h (hes e he)
  have hstart : Served Current.init.rcv := .init
  obtain ⟨u, hu, -⟩ := run_total hkeep hstart
  exact ⟨u, hu⟩

theorem guarded_keepsCurrent_iff {es : List Event} {u : Current} (hes : ∀ e ∈ es, Expected xs e)
    (hr : run step .init es = some u) :
    Guarded step KeepsCurrent .init es ↔ Guarded step InStep .init es := by
  have hstart : Served Current.init.rcv := .init
  apply guarded_congr (I := fun g : Current => Served g.rcv ∧ g.rcv.last_pkt_seq = g.latest)
    ?_ ?_ ⟨hstart, rfl⟩ hr
  · intro g e he g' h _
    exact keepsCurrent_iff h.1 h.2 (hes e he)
  · intro g e he g' h hok hs
    obtain ⟨g'', hs'', hserved⟩ := step_expected h.1 (hes e he)
    rw [hs] at hs''
    cases hs''
    exact ⟨hserved, keepsCurrent_step h.1 h.2 (hes e he) hok hs⟩

/-- In every run of originals, replies and sweeps no call fails, and every call
keeps the current packet exactly when every arrival is in step: a reply carries the
number of the latest original fragment before it, and a new packet finds no slot in
use and has another number. -/
theorem the_current_packet_is_kept_iff_in_step {es : List Event}
    (hes : ∀ e ∈ es, Expected xs e) : ∃ u, run step .init es = some u ∧
      (Guarded step KeepsCurrent .init es ↔ Guarded step InStep .init es) := by
  obtain ⟨u, hu⟩ := run_expected hes
  exact ⟨u, hu, guarded_keepsCurrent_iff hes hu⟩

end Current

theorem isFrgmnt_asReply {msg : MsgBuf} {s i : Nat} {d : List UInt8} (h : IsFrgmnt msg s d i) :
    IsFrgmnt (r_udp.asReply msg) s d i :=
  ⟨h.seqNum, h.frgmntIdx, h.frgmnts, h.data, h.inside, by simp [retransmit_msg, r_udp.asReply]⟩

/-- Two packets of two fragments, under the numbers 1 and 2. -/
def twoPackets : List Packet := [⟨1, (twoFrgmnts 7 0).dg⟩, ⟨2, (twoFrgmnts 9 1).dg⟩]

theorem expected_sent {xs : List Packet} {j i : Nat} {s : Fin MAX_PKTS} {x : Sent} (now : Nat)
    (hx : xs[j]? = some ⟨s, x.dg⟩) (hs : x.seqNum = s) (hi : i < x.frgmnts) :
    Expected xs (.arrival (j, i) (ofSent x now i)) ∧
      Expected xs (.arrival (j, i) ⟨now, r_udp.asReply (x.message i)⟩) := by
  have hm := Sent.messages_isFrgmnt (x.messages_getElem? hi)
  rw [hs] at hm
  exact ⟨⟨⟨_, hx, hm⟩, Or.inl rfl⟩, ⟨⟨_, hx, isFrgmnt_asReply hm⟩, Or.inr rfl⟩⟩

/-- The first packet loses a fragment, the second begins, and then the reply
comes. -/
def lateReply : List Event :=
  [.arrival (0, 0) (ofSent (twoFrgmnts 7 0) 3 0), .arrival (1, 0) (ofSent (twoFrgmnts 9 1) 3 0),
    .arrival (0, 1) ⟨4, r_udp.asReply ((twoFrgmnts 7 0).message 1)⟩]

/-- The reply comes before the second packet begins. -/
def promptReply : List Event :=
  [.arrival (0, 0) (ofSent (twoFrgmnts 7 0) 3 0),
    .arrival (0, 1) ⟨4, r_udp.asReply ((twoFrgmnts 7 0).message 1)⟩,
    .arrival (1, 0) (ofSent (twoFrgmnts 9 1) 4 0)]

instance (g : Current) (o : Nat × Nat) (a : Arrival) : Decidable (Begins g o a) :=
  inferInstanceAs (Decidable (_ ∧ _))

instance (g : Current) (e : Event) : Decidable (InStep g e) :=
  match e with
  | .arrival _ _ => inferInstanceAs (Decidable (_ ∧ _))
  | .sweep _ => inferInstanceAs (Decidable True)

/-- The reply makes its packet the current one, though the second has begun. -/
theorem a_reply_changes_the_current_packet :
    ¬ ∀ (xs : List Packet) (es : List Event) (u : Current), (∀ e ∈ es, Expected xs e) →
      run step .init es = some u → Guarded step KeepsCurrent .init es := by
  intro h
  have hes : ∀ e ∈ lateReply, Expected twoPackets e :=
    List.forall_mem_cons.mpr ⟨(expected_sent 3 rfl rfl (by decide)).1,
      List.forall_mem_cons.mpr ⟨(expected_sent 3 rfl rfl (by decide)).1,
        List.forall_mem_singleton.mpr (expected_sent 4 rfl rfl (by decide)).2⟩⟩
  have hok := (guarded_keepsCurrent_iff hes rfl).mp (h _ _ _ hes rfl)
  exact absurd hok (by decide +kernel)

/-- Three packets of two fragments, the last one under the number of the first. -/
def threePackets : List Packet :=
  [⟨2, (twoFrgmnts 9 1).dg⟩, ⟨1, (twoFrgmnts 7 0).dg⟩, ⟨2, (twoFrgmnts 5 17).dg⟩]

/-- Each of them begins, and none is complete. -/
def threeBegin : List Event :=
  [.arrival (0, 0) (ofSent (twoFrgmnts 9 1) 3 0), .arrival (1, 0) (ofSent (twoFrgmnts 7 0) 3 0),
    .arrival (2, 0) (ofSent (twoFrgmnts 5 17) 4 0)]

theorem expected_threeBegin : ∀ e ∈ threeBegin, Expected threePackets e :=
  List.forall_mem_cons.mpr ⟨(expected_sent 3 rfl rfl (by decide)).1,
    List.forall_mem_cons.mpr ⟨(expected_sent 3 rfl rfl (by decide)).1,
      List.forall_mem_singleton.mpr (expected_sent 4 rfl rfl (by decide)).1⟩⟩

/-- Without any reply: the third finds the slot of the first, and nothing is asked of
the second. -/
example : ¬ Guarded step KeepsCurrent .init threeBegin := by
  intro h
  have hok := (guarded_keepsCurrent_iff expected_threeBegin rfl).mp h
  exact absurd hok (by decide +kernel)

theorem a_prompt_reply_keeps_the_packet :
    ∃ u, run step .init promptReply = some u ∧ Guarded step KeepsCurrent .init promptReply := by
  obtain ⟨u, hu, hiff⟩ := @the_current_packet_is_kept_iff_in_step twoPackets promptReply
    (List.forall_mem_cons.mpr ⟨(expected_sent 3 rfl rfl (by decide)).1,
      List.forall_mem_cons.mpr ⟨(expected_sent 4 rfl rfl (by decide)).2,
        List.forall_mem_singleton.mpr (expected_sent 4 rfl rfl (by decide)).1⟩⟩)
  exact ⟨u, hu, hiff.mpr (by decide +kernel)⟩

/-! ## The end of a packet -/

/-- The receiver, what arrived under each number since its slot was acquired, and
all that arrived. -/
structure History where
  rcv : Receiver
  since : Fin MAX_PKTS → List (Nat × Nat)
  arrived : List (Nat × Nat)

/-- An arrival under the number `s`. One that finds the slot not in use acquires
it. -/
def sinceAfter (g : History) (o : Nat × Nat) (s : Fin MAX_PKTS) :
    Fin MAX_PKTS → List (Nat × Nat) :=
  Function.update g.since s
    (if (g.rcv.table.fragments (slot s)).used then g.since s ++ [o] else [o])

def record (xs : List Packet) (g : History) (e : Event) : Option History :=
  (next g.rcv e).map fun r =>
    match e with
    | .arrival o _ =>
      { rcv := r
        since := match xs[o.1]? with
          | some x => sinceAfter g o x.seqNum
          | none => g.since
        arrived := g.arrived ++ [o] }
    | .sweep _ => { g with rcv := r }

/-- The arrival is not of a packet before another that came under its number, and
the first of a packet finds the slot of its number not in use. -/
def InTurn (xs : List Packet) (g : History) : Event → Prop
  | .arrival o _ => ∀ x ∈ xs[o.1]?,
      (∀ o' ∈ g.arrived, ∀ x' ∈ xs[o'.1]?, x'.seqNum = x.seqNum → o'.1 ≤ o.1) ∧
      ((∀ o' ∈ g.arrived, o'.1 ≠ o.1) → (g.rcv.table.fragments (slot x.seqNum)).used = false)
  | .sweep _ => True

instance (xs : List Packet) (g : History) (e : Event) : Decidable (InTurn xs g e) :=
  match e with
  | .arrival _ _ => inferInstanceAs (Decidable (∀ x ∈ _, _))
  | .sweep _ => inferInstanceAs (Decidable True)

/-- The requests for the fragments of packet `j` that are not among `since`. -/
def missing (x : Packet) (j : Nat) (since : List (Nat × Nat)) : List RUdpFragmntReq :=
  ((List.range (frgmntsOf x.dg.bytes.length)).filter fun i => (j, i) ∉ since).map fun i =>
    { msgCode := MSG_CODE_REQUEST_FRAG, fragmntLost := i, seqNum := x.seqNum }

/-- What a slot in use has to do with the history: the fragments in it are those
of one packet, the last that came under the number. -/
def Holding (xs : List Packet) (g : History) (s : Fin MAX_PKTS) (p : Pending) : Prop :=
  ∃ j x, xs[j]? = some x ∧ x.seqNum = s ∧ p.d = x.dg.bytes ∧ p.came ≠ [] ∧
    g.since s = p.came.map (j, ·) ∧ (∃ i, (j, i) ∈ g.arrived) ∧
    ∀ o' ∈ g.arrived, ∀ x', xs[o'.1]? = some x' → x'.seqNum = s → o'.1 ≤ j

/-- The slots gather what the history says. -/
structure Follows (xs : List Packet) (g : History) (σ : Slots) : Prop where
  tracks : Tracks g.rcv σ
  holding : ∀ s p, σ s = some p → Holding xs g s p

/-- The test of `rrudp_complete_last_pkt` reads one bit of the mask. -/
theorem mask_test_iff (m : BitVec 32) (i : Nat) :
    m &&& (1#32 <<< i) = 0 ↔ m.getLsbD i = false := by
  refine ⟨?_, ?_⟩
  · intro h
    by_cases hi : i < 32
    · have hbit := congrArg (·.getLsbD i) h
      simpa [hi] using hbit
    · exact BitVec.getLsbD_of_ge m i (by omega)
  · intro h
    apply BitVec.eq_of_getLsbD_eq
    intro k hk
    rw [BitVec.getLsbD_and, BitVec.getLsbD_shiftLeft, BitVec.getLsbD_one]
    by_cases hki : k = i
    · rw [hki, h]
      simp
    · have hoff : ¬ (¬ k < i ∧ k - i = 0) := by omega
      simp
      omega

/-- For a slot that gathered fragments, the end-of-packet requests are for those
that did not come. -/
theorem complete_last_pkt_gathered {t : UdpFragmentsTable} {s : Fin MAX_PKTS} {d : List UInt8}
    {came : List Nat} (h : Gathered (t.fragments (slot s)) s d came) (hne : came ≠ []) :
    rrudp_complete_last_pkt t s =
      ((List.range (frgmntsOf d.length)).filter fun i => i ∉ came).map fun i =>
        { msgCode := MSG_CODE_REQUEST_FRAG, fragmntLost := i, seqNum := s } := by
  unfold rrudp_complete_last_pkt
  rw [find_terminal_slot, if_pos ⟨h.terminalId, h.used⟩]
  simp only [(h.header hne).2]
  rw [← List.filterMap_eq_map, List.filterMap_filter]
  apply List.filterMap_congr
  intro i _
  simp only [mask_test_iff, h.mask, decide_eq_false_iff_not, decide_eq_true_eq]
  rfl

theorem complete_last_pkt_unused {t : UdpFragmentsTable} {p : Nat}
    (h : ∀ s : Fin MAX_PKTS, s.val = p → (t.fragments (slot s)).used = false) :
    rrudp_complete_last_pkt t p = [] := by
  unfold rrudp_complete_last_pkt
  by_cases hp : p < MAX_PKTS
  · have hfind := find_terminal_slot t TERMINAL_ID ⟨p, hp⟩
    rw [h ⟨p, hp⟩ rfl, if_neg (fun hu => Bool.false_ne_true hu.2)] at hfind
    rw [hfind]
  · rw [find_terminal_high _ _ (Nat.le_of_not_lt hp)]

section History

variable {xs : List Packet} {g g' : History} {σ : Slots}

theorem Follows.init : Follows xs ⟨.init, fun _ => [], []⟩ fun _ => none :=
  ⟨tracks_init, nofun⟩

theorem Follows.used_iff (h : Follows xs g σ) (s : Fin MAX_PKTS) :
    (g.rcv.table.fragments (slot s)).used = true ↔ σ s ≠ none := by
  have hs := h.tracks s
  rcases ho : σ s with _ | p
  · rw [ho] at hs
    have hfree : (g.rcv.table.fragments (slot s)).used = false := hs
    simp [hfree]
  · rw [ho] at hs
    simp [hs.1.used]

/-- A slot in use when a fragment arrives in turn holds its packet. -/
theorem Follows.same {o : Nat × Nat} {a : Arrival} {x : Packet} {p : Pending}
    (h : Follows xs g σ) (hturn : InTurn xs g (.arrival o a)) (hx : xs[o.1]? = some x)
    (hp : σ x.seqNum = some p) : p.d = x.dg.bytes ∧ g.since x.seqNum = p.came.map (o.1, ·) := by
  obtain ⟨j, y, hy, hys, hd, -, hsince, ⟨i, hi⟩, hlast⟩ := h.holding _ _ hp
  obtain ⟨hle, hfirst⟩ := hturn x hx
  have hjo : j ≤ o.1 := hle (j, i) hi y hy hys
  have hseen : ∃ o' ∈ g.arrived, o'.1 = o.1 := by
    by_contra hnone
    push Not at hnone
    have hused := (h.used_iff x.seqNum).mpr (by rw [hp]; simp)
    rw [hfirst hnone] at hused
    cases hused
  obtain ⟨o', ho', hsame⟩ := hseen
  have hoj : o'.1 ≤ j := hlast o' ho' x (by rw [hsame, hx]) rfl
  have hj : j = o.1 := by omega
  subst hj
  rw [hx] at hy
  cases hy
  exact ⟨hd, hsince⟩

/-- The packet of an arrival, when it is not complete with it. -/
theorem Follows.holding_self {o : Nat × Nat} {a : Arrival} {x : Packet} {r : Receiver}
    {p : Pending} (h : Follows xs g σ) (hturn : InTurn xs g (.arrival o a))
    (hx : xs[o.1]? = some x) (hp : arrive σ x.seqNum x.dg.bytes o.2 x.seqNum = some p) :
    Holding xs ⟨r, sinceAfter g o x.seqNum, g.arrived ++ [o]⟩ x.seqNum p := by
  unfold arrive at hp
  rw [Function.update_self] at hp
  split_ifs at hp
  cases hp
  refine ⟨o.1, x, hx, rfl, rfl, by simp, ?_, ⟨o.2, by simp⟩, ?_⟩
  · unfold sinceAfter cameOf
    simp only [Function.update_self]
    have hused := h.used_iff x.seqNum
    rcases hσ : σ x.seqNum with _ | q
    · rw [hσ] at hused
      rw [if_neg (by simpa using hused)]
      rfl
    · rw [hσ] at hused
      rw [if_pos (by simpa using hused), (h.same hturn hx hσ).2]
      simp
  · intro o' ho' x' hx' hs
    rcases List.mem_append.mp ho' with hold | hnew
    · exact (hturn x hx).1 o' hold x' hx' hs
    · rw [List.mem_singleton.mp hnew]

/-- An arrival under another number leaves a slot with its packet. -/
theorem Follows.holding_other {o : Nat × Nat} {x : Packet} {r : Receiver} {s : Fin MAX_PKTS}
    {p : Pending} (h : Follows xs g σ) (hx : xs[o.1]? = some x) (hne : s ≠ x.seqNum)
    (hp : arrive σ x.seqNum x.dg.bytes o.2 s = some p) :
    Holding xs ⟨r, sinceAfter g o x.seqNum, g.arrived ++ [o]⟩ s p := by
  unfold arrive at hp
  rw [Function.update_of_ne hne] at hp
  obtain ⟨j, y, hy, hys, hd, hcame, hsince, ⟨i, hi⟩, hlast⟩ := h.holding s p hp
  refine ⟨j, y, hy, hys, hd, hcame, ?_, ⟨i, List.mem_append_left _ hi⟩, ?_⟩
  · unfold sinceAfter
    simp only [Function.update_of_ne hne]
    exact hsince
  · intro o' ho' x' hx' hs
    rcases List.mem_append.mp ho' with hold | hnew
    · exact hlast o' hold x' hx' hs
    · rw [List.mem_singleton.mp hnew, hx] at hx'
      cases hx'
      exact absurd hs.symm hne

theorem Follows.arrival {o : Nat × Nat} {a : Arrival} (h : Follows xs g σ)
    (hin : FragmentIn xs o a) (hturn : InTurn xs g (.arrival o a)) :
    ∃ g' σ', record xs g (.arrival o a) = some g' ∧ Follows xs g' σ' := by
  obtain ⟨x, hx, hm⟩ := hin
  have hsame : ∀ p, σ x.seqNum = some p → p.d = x.dg.bytes := fun p hp => (h.same hturn hx hp).1
  obtain ⟨c, hc, htr, -, -⟩ := defragment_tracks a.now h.tracks x.dg.le hm hsame
  refine ⟨⟨released c, sinceAfter g o x.seqNum, g.arrived ++ [o]⟩, _, ?_, htr, ?_⟩
  · unfold record
    rw [next_arrival hc]
    simp only [Option.map_some, hx]
  · intro s p hp
    by_cases hs : s = x.seqNum
    · subst hs
      exact h.holding_self hturn hx hp
    · exact h.holding_other hx hs hp

theorem Follows.sweep (h : Follows xs g σ) (curTime : Nat) :
    ∃ g' σ', record xs g (.sweep curTime) = some g' ∧ Follows xs g' σ' := by
  refine ⟨_, _, rfl, tracks_sweep curTime h.tracks, ?_⟩
  intro s p hp
  unfold reassembly.sweep at hp
  split_ifs at hp
  exact h.holding s p hp

/-- At the end of a packet the requests are for what is missing of it, and there
are none without a slot in use. -/
structure AsksForMissing (xs : List Packet) (g : History) : Prop where
  inUse : ∀ s, (g.rcv.table.fragments (slot s)).used = true →
    ∃ j x, xs[j]? = some x ∧ x.seqNum = s ∧ g.since s ≠ [] ∧ (∀ o ∈ g.since s, o.1 = j) ∧
      rrudp_complete_last_pkt g.rcv.table s = missing x j (g.since s)
  unused : ∀ p, (∀ s : Fin MAX_PKTS, s.val = p → (g.rcv.table.fragments (slot s)).used = false) →
    rrudp_complete_last_pkt g.rcv.table p = []

theorem Follows.asksForMissing (h : Follows xs g σ) : AsksForMissing xs g := by
  refine ⟨?_, fun p hp => complete_last_pkt_unused hp⟩
  intro s hused
  have hs := h.tracks s
  rcases hσ : σ s with _ | p
  · exact absurd hσ ((h.used_iff s).mp hused)
  · rw [hσ] at hs
    obtain ⟨j, x, hx, rfl, hd, hcame, hsince, -, -⟩ := h.holding s p hσ
    refine ⟨j, x, hx, rfl, ?_, ?_, ?_⟩
    · rw [hsince]
      simpa using hcame
    · rw [hsince]
      intro o ho
      obtain ⟨i, -, rfl⟩ := List.mem_map.mp ho
      rfl
    · rw [complete_last_pkt_gathered hs.1 hcame, hd, hsince]
      unfold missing
      simp

theorem Follows.next (h : Follows xs g σ) {e : Event} (he : Fragments xs e)
    (hturn : InTurn xs g e) : ∃ g' σ', record xs g e = some g' ∧ Follows xs g' σ' := by
  cases e with
  | arrival o a => exact h.arrival he hturn
  | sweep curTime => exact h.sweep curTime

theorem served_record {e : Event} (h : Served g.rcv) (he : Fragments xs e)
    (hs : record xs g e = some g') : Served g'.rcv := by
  obtain ⟨r, hr, hserved⟩ := h.next he
  unfold record at hs
  rw [hr] at hs
  cases e <;> cases hs <;> exact hserved

/-- In every run in turn no call fails, the end-of-packet requests are those for
the missing fragments in every state that it reaches, and a call of `defragment`
there sends them for the packet that was current, or sends none. -/
theorem end_requests_are_the_missing {es : List Event} (hes : ∀ e ∈ es, Fragments xs e)
    (hturn : Guarded (record xs) (InTurn xs) ⟨.init, fun _ => [], []⟩ es) :
    ∃ g, run (record xs) ⟨.init, fun _ => [], []⟩ es = some g ∧ AsksForMissing xs g ∧
      ∀ (o : Nat × Nat) (a : Arrival) (x : Packet), xs[o.1]? = some x →
        IsFrgmnt a.msg x.seqNum x.dg.bytes o.2 →
        ∃ c, defragment a.now g.rcv a.msg = .ok c ∧ Called g.rcv x.seqNum c := by
  have hstart : (∃ σ, Follows xs ⟨.init, fun _ => [], []⟩ σ) ∧ Served .init :=
    ⟨⟨_, Follows.init⟩, .init⟩
  have hkeep : ∀ g : History, ∀ e ∈ es, (∃ σ, Follows xs g σ) ∧ Served g.rcv → InTurn xs g e →
      ∃ g', record xs g e = some g' ∧ (∃ σ, Follows xs g' σ) ∧ Served g'.rcv := by
    rintro g e he ⟨⟨σ, hσ⟩, hserved⟩ hok
    obtain ⟨g', σ', hs, hσ'⟩ := hσ.next (hes e he) hok
    exact ⟨g', hs, ⟨σ', hσ'⟩, served_record hserved (hes e he) hs⟩
  obtain ⟨g, hg, ⟨σ, hσ⟩, hserved⟩ := run_total_guarded hkeep hstart hturn
  exact ⟨g, hg, hσ.asksForMissing, fun o a x _ hm => hserved.call x.dg.le hm⟩

end History

/-- The second fragment of the first packet is lost, and the second packet
begins. -/
theorem the_lost_fragment_is_asked_for :
    ∃ g, run (record twoPackets) ⟨.init, fun _ => [], []⟩
        [.arrival (0, 0) (ofSent (twoFrgmnts 7 0) 3 0),
          .arrival (1, 0) (ofSent (twoFrgmnts 9 1) 3 0), .sweep 4] = some g ∧
      AsksForMissing twoPackets g ∧ rrudp_complete_last_pkt g.rcv.table 1 =
        [{ msgCode := MSG_CODE_REQUEST_FRAG, fragmntLost := 1, seqNum := 1 }] := by
  obtain ⟨g, hg, hasks, -⟩ := @end_requests_are_the_missing twoPackets
    [.arrival (0, 0) (ofSent (twoFrgmnts 7 0) 3 0),
      .arrival (1, 0) (ofSent (twoFrgmnts 9 1) 3 0), .sweep 4]
    (List.forall_mem_cons.mpr ⟨(expected_sent 3 rfl rfl (by decide)).1.1,
      List.forall_mem_cons.mpr ⟨(expected_sent 3 rfl rfl (by decide)).1.1,
        List.forall_mem_singleton.mpr trivial⟩⟩) (by decide +kernel)
  refine ⟨g, hg, hasks, ?_⟩
  cases hg
  decide +kernel

end packet_runs

end udp_service
