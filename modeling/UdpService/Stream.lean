-- The whole way of a stream without loss: datagrams of a device are read, cut,
-- sent, received, reassembled and handed to the other device. The sequence
-- numbers run up from 1, and the way ends where they leave the numbers that
-- the lookup of a slot serves.
import UdpService.ReassemblyLaws
import UdpService.SlotRuns
import UdpService.Wire

open blocks

namespace udp_service

namespace stream

open hs_udp_fragments rudp_req hs_udp_service wire reassembly slot_runs

/-! ## The pipeline -/

/-- A turn of `fusion_receive_routine` on the bytes that came, without its
simulated drop, and a turn of `iot_transmit_routine` on the message. -/
def deliver (now : Nat) (rx : MsgBuf) (r : Receiver) (bytes : List UInt8) :
    Except Fault (MsgBuf × Transmitted) :=
  match fusion_receive rx bytes with
  | (rx', .data msg) => (iot_transmit now r msg).map (rx', ·)
  | (rx', _) => .ok (rx', ⟨none, [], r⟩)

/-- The messages carried over, message `n` arriving at the time `clock n`: the
state of the terminal after them, and what it handed to the device. -/
def carried (clock : Nat → Nat) :
    Nat → MsgBuf → Receiver → List MsgBuf → Except Fault (MsgBuf × Receiver × List (List UInt8))
  | _, rx, r, [] => .ok (rx, r, [])
  | n, rx, r, msg :: msgs =>
    match deliver (clock n) rx r (bytesOf msg) with
    | .error e => .error e
    | .ok (rx', t) =>
      match carried clock (n + 1) rx' t.rcv msgs with
      | .error e => .error e
      | .ok (rx'', r', out) => .ok (rx'', r', t.sent.toList ++ out)

/-- The datagrams read one after the other. `pool j` is what the buffers of
datagram `j` held before. -/
def readAll : (Nat → Nat → MsgBuf) → Nat → List Datagram → List Sent
  | _, _, [] => []
  | pool, txSeqNum, d :: ds =>
    ⟨d, txSeqNum, pool 0⟩ :: readAll (fun j => pool (j + 1)) ((txSeqNum + 1) % 2 ^ 8) ds

/-- The byte strings handed to the device, for the datagrams `ds`. -/
def delivered (pool : Nat → Nat → MsgBuf) (clock : Nat → Nat) (rxMsgPayload : MsgBuf)
    (ds : List Datagram) : Except Fault (List (List UInt8)) :=
  (carried clock 0 rxMsgPayload .init ((readAll pool 0 ds).flatMap Sent.messages)).map (·.2.2)

theorem carried_append {clock : Nat → Nat} {n : Nat} {rx rx' : MsgBuf} {r r' : Receiver}
    {as : List MsgBuf} {out : List (List UInt8)} (h : carried clock n rx r as = .ok (rx', r', out))
    (bs : List MsgBuf) :
    carried clock n rx r (as ++ bs) =
      (carried clock (n + as.length) rx' r' bs).map fun x => (x.1, x.2.1, out ++ x.2.2) := by
  induction as generalizing n rx r out with
  | nil =>
    cases h
    rw [List.nil_append, List.length_nil, Nat.add_zero]
    cases carried clock n rx' r' bs <;> rfl
  | cons a as ih =>
    simp only [carried, List.cons_append] at h ⊢
    rcases hd : deliver (clock n) rx r (bytesOf a) with e | ⟨rx₁, t⟩
    · rw [hd] at h
      cases h
    · simp only [hd] at h ⊢
      rcases hc : carried clock (n + 1) rx₁ t.rcv as with e | ⟨rx₂, r₂, out₂⟩
      · rw [hc] at h
        cases h
      · rw [hc] at h
        cases h
        rw [ih hc, List.length_cons, Nat.add_right_comm, Nat.add_assoc]
        cases carried clock (n + (as.length + 1)) rx' r' bs with
        | error e => rfl
        | ok x => simp [Except.map, List.append_assoc]

theorem carried_append_error (clock : Nat → Nat) {bs : List MsgBuf}
    (h : ∀ n rx r, ∃ e, carried clock n rx r bs = .error e) (as : List MsgBuf) (n : Nat)
    (rx : MsgBuf) (r : Receiver) : ∃ e, carried clock n rx r (as ++ bs) = .error e := by
  induction as generalizing n rx r with
  | nil => exact h n rx r
  | cons a as ih =>
    simp only [carried, List.cons_append]
    rcases deliver (clock n) rx r (bytesOf a) with e | ⟨rx', t⟩
    · exact ⟨e, rfl⟩
    · obtain ⟨e, he⟩ := ih (n + 1) rx' t.rcv
      exact ⟨e, by simp [he]⟩

/-! ## One fragment over the wire -/

theorem isFrgmnt_received (rx : MsgBuf) {msg : MsgBuf} {s i : Nat} {d : List UInt8}
    (hm : IsFrgmnt msg s d i) :
    ∃ m, fusion_receive rx (bytesOf msg) = (m, .data m) ∧ IsFrgmnt m s d i := by
  have hcode : msg.msgHeader.msgCode ≠ MSG_CODE_REQUEST_FRAG :=
    of_decide_eq_false hm.not_request
  obtain ⟨hlen, hbytes⟩ := hm.data
  obtain ⟨m, hrec, hhdr, hmlen, hdata⟩ := fusion_receive_bytesOf rx hcode hlen
  refine ⟨m, hrec, ?_⟩
  refine ⟨by rw [hhdr]; exact hm.seqNum, by rw [hhdr]; exact hm.frgmntIdx,
    by rw [hhdr]; exact hm.frgmnts, ⟨by rw [hmlen]; exact hlen, ?_⟩, hm.inside,
    by unfold retransmit_msg; rw [hhdr]; exact hm.not_request⟩
  rw [← hbytes]
  apply List.ext_getElem
  · rw [Buffer.bytes_length, Buffer.bytes_length, hmlen]
  · intro j hj _
    rw [Buffer.bytes_length, hmlen] at hj
    simp only [Buffer.bytes, List.getElem_ofFn]
    exact hdata _ hj

/-- What comes in for a fragment is the turn of `iot_transmit_routine` on it. -/
theorem deliver_frgmnt (now : Nat) (rx : MsgBuf) (r : Receiver) {msg : MsgBuf} {s i : Nat}
    {d : List UInt8} (hm : IsFrgmnt msg s d i) :
    ∃ m, IsFrgmnt m s d i ∧
      deliver now rx r (bytesOf msg) = (iot_transmit now r m).map (m, ·) := by
  obtain ⟨m, hrec, hm'⟩ := isFrgmnt_received rx hm
  refine ⟨m, hm', ?_⟩
  unfold deliver
  rw [hrec]

/-! ## Datagrams with a number below `MAX_PKTS` -/

/-- The slot beyond those that the lookup serves. -/
def spare : Handle := (0, Fin.last MAX_PKTS)

/-- The terminal between two datagrams: no slot is in use. -/
structure Idle (r : Receiver) : Prop where
  tracks : Tracks r fun _ => none
  spare : (r.table.fragments spare).used = false

/-- Of the datagram `d` the fragments before `k` came, and nothing else is under
way. -/
def partway (s : Fin MAX_PKTS) (d : List UInt8) (k : Nat) : Slots :=
  Function.update (fun _ => none) s (if k = 0 then none else some ⟨d, List.range k⟩)

section partway

variable {s : Fin MAX_PKTS} {d : List UInt8} {k : Nat}

theorem partway_zero : partway s d 0 = fun _ => none := by
  simp [partway]

theorem cameOf_partway : cameOf (partway s d k) s = List.range k := by
  unfold cameOf partway
  rw [Function.update_self]
  cases k with
  | zero => rfl
  | succ k => rfl

theorem partway_same {p : Pending} (h : partway s d k s = some p) : p.d = d := by
  unfold partway at h
  rw [Function.update_self] at h
  split at h
  · cases h
  · cases h
    rfl

theorem arrive_partway : arrive (partway s d k) s d k =
    if frgmntsOf d.length ≤ k + 1 then fun _ => none else partway s d (k + 1) := by
  unfold arrive
  rw [cameOf_partway, List.length_range, ← List.range_succ]
  unfold partway
  rw [Function.update_idem]
  by_cases hall : frgmntsOf d.length ≤ k + 1
  · simp [hall]
  · simp [hall]

end partway

theorem carried_frgmnts (clock : Nat → Nat) {d : List UInt8} {s : Fin MAX_PKTS} {msgs : List MsgBuf}
    (n k : Nat) (rx : MsgBuf) {r : Receiver} (hd : d.length ≤ NET_PACKET_SIZE)
    (hm : ∀ j msg, msgs[j]? = some msg → IsFrgmnt msg s d (k + j))
    (hlen : k + msgs.length = frgmntsOf d.length) (hpos : 0 < msgs.length)
    (ht : Tracks r (partway s d k)) (hsp : (r.table.fragments spare).used = false) :
    ∃ rx' r', carried clock n rx r msgs = .ok (rx', r', [d]) ∧ Idle r' := by
  induction msgs generalizing n k rx r with
  | nil => cases hpos
  | cons msg msgs ih =>
    obtain ⟨m, hfrg, hdel⟩ := deliver_frgmnt (clock n) rx r (hm 0 msg rfl)
    rw [Nat.add_zero] at hfrg
    obtain ⟨t, hit, htr, -, hsent⟩ :=
      iot_transmit_tracks (clock n) ht hd hfrg fun _ hp => partway_same hp
    have hsp' : (t.rcv.table.fragments spare).used = false := by
      rw [iot_transmit_frame hit]
      · exact hsp
      · rw [hfrg.seqNum]
        exact Nat.ne_of_gt s.isLt
    rw [arrive_partway] at htr
    rw [cameOf_partway, List.length_range, ← List.range_succ] at hsent
    simp only [carried, hdel, hit, Except.map]
    cases msgs with
    | nil =>
      have hall : frgmntsOf d.length ≤ k + 1 := Nat.le_of_eq hlen.symm
      rw [if_pos hall] at htr hsent
      refine ⟨m, t.rcv, ?_, htr, hsp'⟩
      simp [carried, hsent List.nodup_range]
    | cons msg' msgs =>
      have hmore : ¬ frgmntsOf d.length ≤ k + 1 := by
        simp only [List.length_cons] at hlen
        omega
      rw [if_neg hmore] at htr hsent
      have hm' : ∀ j msg'', (msg' :: msgs)[j]? = some msg'' → IsFrgmnt msg'' s d (k + 1 + j) := by
        intro j msg'' hj
        have := hm (j + 1) msg'' (by simpa using hj)
        rwa [Nat.add_right_comm, Nat.add_assoc]
      have hlen' : k + 1 + (msg' :: msgs).length = frgmntsOf d.length := by
        rw [← hlen]
        simp only [List.length_cons]
        omega
      obtain ⟨rx', r', hrun, hidle⟩ := ih (n + 1) (k + 1) m hm' hlen' (by simp) htr hsp'
      refine ⟨rx', r', ?_, hidle⟩
      simp [hrun, hsent]

/-- Datagrams with numbers below `MAX_PKTS` come out as they went in. -/
theorem carried_below (clock : Nat → Nat) {xs : List Sent} (hx : ∀ x ∈ xs, x.seqNum < MAX_PKTS)
    (n : Nat) (rx : MsgBuf) {r : Receiver} (hr : Idle r) :
    ∃ rx' r', carried clock n rx r (xs.flatMap Sent.messages) =
      .ok (rx', r', xs.map (·.dg.bytes)) ∧ Idle r' := by
  induction xs generalizing n rx r with
  | nil => exact ⟨rx, r, rfl, hr⟩
  | cons x xs ih =>
    have hpos := frgmntsOf_pos x.dg.pos
    have hlen := x.messages_length
    have htr : Tracks r (partway ⟨x.seqNum, hx x List.mem_cons_self⟩ x.dg.bytes 0) := by
      rw [partway_zero]
      exact hr.tracks
    have hfrgs : ∀ j msg, x.messages[j]? = some msg →
        IsFrgmnt msg x.seqNum x.dg.bytes (0 + j) := by
      intro j msg hj
      rw [Nat.zero_add]
      exact Sent.messages_isFrgmnt hj
    obtain ⟨rx₁, r₁, hrun, hr₁⟩ := carried_frgmnts clock n 0 rx x.dg.le hfrgs
      (by rw [Nat.zero_add]; exact hlen) (by rw [hlen]; exact hpos) htr hr.spare
    obtain ⟨rx₂, r₂, hrun₂, hr₂⟩ := ih (fun y hy => hx y (by simp [hy]))
      (n + x.messages.length) rx₁ hr₁
    refine ⟨rx₂, r₂, ?_, hr₂⟩
    rw [List.flatMap_cons, carried_append hrun, hrun₂]
    rfl

/-! ## The number `MAX_PKTS` and the numbers beyond it -/

/-- A fragment under the number `MAX_PKTS`: the lookup never finds its slot, so
a slot in use stops the process. -/
theorem defragment_at_max (now : Nat) (r : Receiver) {msg : MsgBuf} {d : List UInt8} {i : Nat}
    (hd : d.length ≤ NET_PACKET_SIZE) (hm : IsFrgmnt msg MAX_PKTS d i) :
    if (r.table.fragments spare).used then defragment now r msg = .error .nullStore
    else ∃ c, defragment now r msg = .ok c ∧ Stored now r c spare MAX_PKTS d [i] := by
  have hin := hm.before_end
  have hget := get_freeFragment_inside r.table TERMINAL_ID (Fin.last MAX_PKTS)
  change get_freeFragment r.table TERMINAL_ID MAX_PKTS = if (r.table.fragments spare).used then _
    else _ at hget
  unfold defragment look_up
  simp only [if_pos hin, hm.seqNum, find_terminal_high _ _ (Nat.le_refl MAX_PKTS), hget]
  split
  · rfl
  · have hg : Gathered ((r.table.acquired spare TERMINAL_ID).fragments spare) MAX_PKTS d [] := by
      rw [UdpFragmentsTable.acquired_self]
      exact gathered_opened _ _ _
    obtain ⟨c, hc, hst⟩ := collate_frgmnt (r := { r with table := _ }) now hd hm hg
      (Nat.lt_of_le_of_lt (Nat.zero_le _) hm.inside)
    refine ⟨c, hc, { hst with frame := fun h hh => ?_ }⟩
    rw [hst.frame h hh]
    exact UdpFragmentsTable.acquired_ne _ _ hh

theorem iot_transmit_at_max_single (now : Nat) {r : Receiver} {msg : MsgBuf} {d : List UInt8}
    (hd : d.length ≤ NET_PACKET_SIZE) (hm : IsFrgmnt msg MAX_PKTS d 0)
    (hone : frgmntsOf d.length ≤ 1) (hfree : (r.table.fragments spare).used = false) :
    ∃ t, iot_transmit now r msg = .ok t ∧ t.sent = some d := by
  have hdef := defragment_at_max now r hd hm
  simp only [hfree, Bool.false_eq_true, if_false] at hdef
  obtain ⟨c, hc, hst⟩ := hdef
  obtain ⟨hret, hout⟩ := hst.complete hone
  have hpay := payload_gathered hst.gathered hd (List.nodup_singleton 0) hone
  unfold iot_transmit send_defragmented
  simp only [hc, hret, if_true, hout, hpay]
  exact ⟨_, rfl, rfl⟩

/-- The first of several fragments under the number `MAX_PKTS` leaves its slot
in use, if the process is alive after it. -/
theorem iot_transmit_at_max_first {now : Nat} {r : Receiver} {msg : MsgBuf} {d : List UInt8}
    {t : Transmitted} (hd : d.length ≤ NET_PACKET_SIZE) (hm : IsFrgmnt msg MAX_PKTS d 0)
    (hmany : 1 < frgmntsOf d.length) (ht : iot_transmit now r msg = .ok t) :
    (t.rcv.table.fragments spare).used = true := by
  have hdef := defragment_at_max now r hd hm
  unfold iot_transmit send_defragmented at ht
  split at hdef
  · rw [hdef] at ht
    cases ht
  · obtain ⟨c, hc, hst⟩ := hdef
    obtain ⟨hret, -⟩ := hst.incomplete hmany
    simp only [hc, hret] at ht
    cases ht
    exact hst.gathered.used

theorem carried_at_max_error (clock : Nat → Nat) {x : Sent} (hs : x.seqNum = MAX_PKTS)
    (hmany : 1 < x.frgmnts) (rest : List MsgBuf) (n : Nat) (rx : MsgBuf) (r : Receiver) :
    ∃ e, carried clock n rx r (x.messages ++ rest) = .error e := by
  obtain ⟨m₀, m₁, ms, hmsgs⟩ : ∃ m₀ m₁ ms, x.messages = m₀ :: m₁ :: ms := by
    have hlen := x.messages_length
    rcases hx : x.messages with _ | ⟨m₀, _ | ⟨m₁, ms⟩⟩
    · rw [hx] at hlen
      simp only [List.length_nil] at hlen
      omega
    · rw [hx] at hlen
      simp only [List.length_singleton] at hlen
      omega
    · exact ⟨m₀, m₁, ms, rfl⟩
  have hf₀ : IsFrgmnt m₀ MAX_PKTS x.dg.bytes 0 := by
    rw [← hs]
    exact Sent.messages_isFrgmnt (by rw [hmsgs]; rfl)
  have hf₁ : IsFrgmnt m₁ MAX_PKTS x.dg.bytes 1 := by
    rw [← hs]
    exact Sent.messages_isFrgmnt (by rw [hmsgs]; rfl)
  rw [hmsgs]
  simp only [List.cons_append, carried]
  obtain ⟨m, hm, hdel⟩ := deliver_frgmnt (clock n) rx r hf₀
  rw [hdel]
  rcases hit : iot_transmit (clock n) r m with e | t
  · exact ⟨e, rfl⟩
  · obtain ⟨m', hm', hdel'⟩ := deliver_frgmnt (clock (n + 1)) m t.rcv hf₁
    have hused := iot_transmit_at_max_first x.dg.le hm hmany hit
    have hdef := defragment_at_max (clock (n + 1)) t.rcv x.dg.le hm'
    rw [if_pos hused] at hdef
    have hstop : iot_transmit (clock (n + 1)) t.rcv m' = .error .nullStore := by
      unfold iot_transmit send_defragmented
      rw [hdef]
    exact ⟨.nullStore, by simp [Except.map, hdel', hstop]⟩

theorem carried_beyond_error (clock : Nat → Nat) {x : Sent} (hs : MAX_PKTS < x.seqNum)
    (rest : List MsgBuf) (n : Nat) (rx : MsgBuf) (r : Receiver) :
    ∃ e, carried clock n rx r (x.messages ++ rest) = .error e := by
  obtain ⟨m₀, ms, hmsgs⟩ : ∃ m₀ ms, x.messages = m₀ :: ms := by
    have hpos := frgmntsOf_pos x.dg.pos
    have hlen := x.messages_length
    rcases hx : x.messages with _ | ⟨m₀, ms⟩
    · rw [hx, List.length_nil] at hlen
      exact absurd hlen (Nat.ne_of_lt hpos)
    · exact ⟨m₀, ms, rfl⟩
  have hf₀ : IsFrgmnt m₀ x.seqNum x.dg.bytes 0 := Sent.messages_isFrgmnt (by rw [hmsgs]; rfl)
  obtain ⟨m, hm, hdel⟩ := deliver_frgmnt (clock n) rx r hf₀
  have hin : m.msgHeader.frgmntIdx < m.msgHeader.frgmnts := by
    rw [Fin.lt_def, hm.frgmntIdx, hm.frgmnts]
    exact hm.inside
  have hstop : iot_transmit (clock n) r m = .error .slotIndex := by
    unfold iot_transmit send_defragmented defragment look_up
    simp only [if_pos hin, hm.seqNum, find_terminal_high _ _ (Nat.le_of_lt hs),
      get_freeFragment_high _ _ hs]
  exact ⟨.slotIndex, by simp [hmsgs, carried, hdel, hstop, Except.map]⟩

/-! ## The law of the stream -/

theorem idle_init : Idle .init := ⟨tracks_init, rfl⟩

theorem readAll_dg (pool : Nat → Nat → MsgBuf) (txSeqNum : Nat) (ds : List Datagram) :
    (readAll pool txSeqNum ds).map (·.dg) = ds := by
  induction ds generalizing pool txSeqNum with
  | nil => rfl
  | cons d ds ih => simp [readAll, ih]

theorem readAll_bytes (pool : Nat → Nat → MsgBuf) (txSeqNum : Nat) (ds : List Datagram) :
    (readAll pool txSeqNum ds).map (·.dg.bytes) = ds.map (·.bytes) := by
  conv_rhs => rw [← readAll_dg pool txSeqNum ds, List.map_map]
  rfl

theorem readAll_length (pool : Nat → Nat → MsgBuf) (txSeqNum : Nat) (ds : List Datagram) :
    (readAll pool txSeqNum ds).length = ds.length := by
  simpa using congrArg List.length (readAll_dg pool txSeqNum ds)

theorem readAll_seqNum {pool : Nat → Nat → MsgBuf} {txSeqNum j : Nat} {ds : List Datagram}
    {x : Sent} (h : (readAll pool txSeqNum ds)[j]? = some x) :
    x.seqNum = (txSeqNum + j + 1) % 16 := by
  induction ds generalizing pool txSeqNum j with
  | nil => cases h
  | cons d ds ih =>
    cases j with
    | zero =>
      cases h
      simp only [Sent.seqNum]
      omega
    | succ j =>
      have := ih (by simpa [readAll] using h)
      omega

/-- Up to three datagrams have numbers below `MAX_PKTS`. -/
theorem delivered_short (pool : Nat → Nat → MsgBuf) (clock : Nat → Nat) (rxMsgPayload : MsgBuf)
    {ds : List Datagram} (h : ds.length ≤ 3) :
    delivered pool clock rxMsgPayload ds = .ok (ds.map (·.bytes)) := by
  have hbelow : ∀ x ∈ readAll pool 0 ds, x.seqNum < MAX_PKTS := by
    intro x hx
    obtain ⟨j, hj⟩ := List.mem_iff_getElem?.mp hx
    have hlen := readAll_length pool 0 ds
    have hjlt := (List.getElem?_eq_some_iff.mp hj).1
    rw [readAll_seqNum hj]
    simp only [MAX_PKTS]
    omega
  obtain ⟨rx', r', hrun, -⟩ := carried_below clock hbelow 0 rxMsgPayload idle_init
  unfold delivered
  rw [hrun, readAll_bytes]
  rfl

theorem carried_at_max_single (clock : Nat → Nat) {x : Sent} (hs : x.seqNum = MAX_PKTS)
    (hone : x.frgmnts ≤ 1) (n : Nat) (rx : MsgBuf) {r : Receiver} (hr : Idle r) :
    ∃ rx' r', carried clock n rx r x.messages = .ok (rx', r', [x.dg.bytes]) := by
  obtain ⟨m₀, hmsgs⟩ : ∃ m₀, x.messages = [m₀] := by
    have hpos := frgmntsOf_pos x.dg.pos
    have hlen := x.messages_length
    unfold Sent.frgmnts at hone hlen
    exact List.length_eq_one_iff.mp (by omega)
  have hf₀ : IsFrgmnt m₀ MAX_PKTS x.dg.bytes 0 := by
    rw [← hs]
    exact Sent.messages_isFrgmnt (by rw [hmsgs]; rfl)
  obtain ⟨m, hm, hdel⟩ := deliver_frgmnt (clock n) rx r hf₀
  obtain ⟨t, hit, hsent⟩ := iot_transmit_at_max_single (clock n) x.dg.le hm hone hr.spare
  exact ⟨m, t.rcv, by simp [hmsgs, carried, hdel, hit, hsent, Except.map]⟩

theorem carried_numbered (clock : Nat → Nat) {xs : List Sent}
    (hseq : ∀ j x, xs[j]? = some x → x.seqNum = (j + 1) % 16) (hlong : 3 < xs.length)
    (rx : MsgBuf) :
    (carried clock 0 rx .init (xs.flatMap Sent.messages)).map (·.2.2) =
        .ok (xs.map (·.dg.bytes)) ↔
      xs.length = 4 ∧ ∀ x, xs[3]? = some x → x.frgmnts ≤ 1 := by
  obtain ⟨front, x, rest, rfl, hfront⟩ : ∃ front x rest, xs = front ++ x :: rest ∧
      front.length = 3 := by
    refine ⟨xs.take 3, xs[3], xs.drop 4, ?_, by simp; omega⟩
    rw [← List.drop_eq_getElem_cons, List.take_append_drop]
  have hnth : ∀ j, (front ++ x :: rest)[3 + j]? = (x :: rest)[j]? := fun j => by
    rw [← hfront, List.getElem?_append_right (Nat.le_add_right _ _), Nat.add_sub_cancel_left]
  have hx : x.seqNum = MAX_PKTS := hseq 3 x (hnth 0)
  have hbelow : ∀ y ∈ front, y.seqNum < MAX_PKTS := by
    intro y hy
    obtain ⟨j, hj⟩ := List.mem_iff_getElem?.mp hy
    have hjlt := (List.getElem?_eq_some_iff.mp hj).1
    rw [hseq j y (by rw [List.getElem?_append_left hjlt, hj])]
    simp only [MAX_PKTS]
    omega
  obtain ⟨rx', r', hrun, hidle⟩ := carried_below clock hbelow 0 rx idle_init
  rw [List.flatMap_append, carried_append hrun, List.flatMap_cons]
  have hfail : ∀ {e : Fault} {c}, c = Except.error e → ¬ Except.map (fun p => p.2.2)
      (Except.map (fun q : MsgBuf × Receiver × List (List UInt8) =>
        (q.1, q.2.1, front.map (·.dg.bytes) ++ q.2.2)) c) =
          .ok ((front ++ x :: rest).map (·.dg.bytes)) := by
    rintro e _ rfl h
    cases h
  cases rest with
  | nil =>
    rw [List.flatMap_nil]
    by_cases hone : x.frgmnts ≤ 1
    · obtain ⟨rx'', r'', hlast⟩ := carried_at_max_single clock hx hone
        (0 + (front.flatMap Sent.messages).length) rx' hidle
      rw [List.append_nil, hlast]
      refine iff_of_true (by simp [Except.map]) ⟨by simp [hfront], fun y hy => ?_⟩
      rw [show (3 : Nat) = 3 + 0 by rfl, hnth] at hy
      cases hy
      exact hone
    · obtain ⟨e, he⟩ := carried_at_max_error clock hx (Nat.lt_of_not_le hone) []
        (0 + (front.flatMap Sent.messages).length) rx' r'
      refine iff_of_false (hfail he) fun h => hone (h.2 x (hnth 0))
  | cons y rest =>
    have hy : y.seqNum = 5 := hseq 4 y (hnth 1)
    obtain ⟨e, he⟩ := carried_append_error clock
      (fun n rx r => carried_beyond_error clock (x := y) (by rw [hy]; decide)
        (rest.flatMap Sent.messages) n rx r)
      x.messages (0 + (front.flatMap Sent.messages).length) rx' r'
    rw [List.flatMap_cons]
    refine iff_of_false (hfail he) fun h => ?_
    have hlen := h.1
    simp only [List.length_append, List.length_cons, hfront] at hlen
    omega

/-- A loss-free stream comes out as it went in exactly when it has at most
three datagrams, or a fourth one that needs no second fragment. -/
theorem the_stream_comes_out_iff_it_is_short (pool : Nat → Nat → MsgBuf) (clock : Nat → Nat)
    (rxMsgPayload : MsgBuf) (ds : List Datagram) :
    delivered pool clock rxMsgPayload ds = .ok (ds.map (·.bytes)) ↔
      ds.length ≤ 3 ∨
        ds.length = 4 ∧ ∀ d, ds[3]? = some d → d.bytes.length ≤ MAX_MSG_SIZE := by
  by_cases hshort : ds.length ≤ 3
  · exact iff_of_true (delivered_short pool clock rxMsgPayload hshort) (Or.inl hshort)
  have hseq : ∀ j x, (readAll pool 0 ds)[j]? = some x → x.seqNum = (j + 1) % 16 := by
    intro j x hx
    rw [readAll_seqNum hx, Nat.zero_add]
  have hlen := readAll_length pool 0 ds
  have hlaw := carried_numbered clock hseq (by omega) rxMsgPayload
  rw [readAll_bytes, hlen] at hlaw
  unfold delivered
  rw [hlaw, or_iff_right hshort]
  have hnth : ds[3]? = (readAll pool 0 ds)[3]?.map (·.dg) := by
    rw [← List.getElem?_map, readAll_dg]
  refine and_congr_right fun _ => ⟨fun h d hd => ?_, fun h x hx => ?_⟩
  · rw [hnth] at hd
    obtain ⟨x, hx, rfl⟩ := Option.map_eq_some_iff.mp hd
    have hle := h x hx
    have hlt := lt_frgmntsOf (n := x.dg.bytes.length) (k := 1)
    unfold Sent.frgmnts at hle
    simp only [MAX_MSG_SIZE]
    omega
  · have hd : ds[3]? = some x.dg := by rw [hnth, hx]; rfl
    exact count_le (by simp) (by simpa using h _ hd)

/-- A datagram of one byte. -/
def oneByte (b : UInt8) : Datagram := ⟨[b], by simp, by simp⟩

/-- Five datagrams of one byte: the fifth one stops the process. -/
theorem five_datagrams_do_not_come_out :
    delivered (fun _ _ => .zero) (fun _ => 0) .zero
        [oneByte 1, oneByte 2, oneByte 3, oneByte 4, oneByte 5] = .error .slotIndex ∧
      delivered (fun _ _ => .zero) (fun _ => 0) .zero
        [oneByte 1, oneByte 2, oneByte 3, oneByte 4, oneByte 5] ≠
          .ok ([oneByte 1, oneByte 2, oneByte 3, oneByte 4, oneByte 5].map (·.bytes)) := by
  have hrun : delivered (fun _ _ => .zero) (fun _ => 0) .zero
      [oneByte 1, oneByte 2, oneByte 3, oneByte 4, oneByte 5] = .error .slotIndex := by rfl
  refine ⟨hrun, fun h => ?_⟩
  rw [hrun] at h
  cases h

end stream

end udp_service
