-- What the slots gather. An abstract receiver keeps, for each packet number,
-- the datagram under way and the fragments of it that came. `defragment`
-- follows it step by step: the counter, the size, the mask and the data of a
-- slot are those of the fragments that came.
import UdpService.HsUdpService

open blocks

namespace udp_service

namespace reassembly

open hs_udp_fragments rudp_req hs_udp_service

/-! ## One fragment, one slot -/

/-- The message is fragment `i` of the datagram `d`, sent under the number `s`. -/
structure IsFrgmnt (msg : MsgBuf) (s : Nat) (d : List UInt8) (i : Nat) : Prop where
  seqNum : msg.msgHeader.seqNum.val = s
  frgmntIdx : msg.msgHeader.frgmntIdx.val = i
  frgmnts : msg.msgHeader.frgmnts.val = frgmntsOf d.length
  data : ∃ h, msg.data.bytes msg.msgLen h = frgmntOf d i
  inside : i < frgmntsOf d.length
  not_request : retransmit_msg msg = false

/-- The slot is in use for the number `s`, and since it was acquired the
fragments `came` of `d` arrived in it, in that order. -/
structure Gathered (f : UdpFragment) (s : Nat) (d : List UInt8) (came : List Nat) : Prop where
  used : f.used = true
  terminalId : f.terminalId = TERMINAL_ID
  accumulated : f.accumulatedFrgmnts = came.length
  size : f.size = (came.map fun k => (frgmntOf d k).length).sum
  mask : ∀ k, f.frags_mask.getLsbD k = decide (k ∈ came)
  last : f.frgmntIdx = came.getLastD 0
  header : came ≠ [] → f.pktSeqNum = s ∧ f.frgmnts = frgmntsOf d.length
  holds : Holds MAX_MSG_SIZE d f.data came
  inside : ∀ k ∈ came, k < frgmntsOf d.length

theorem IsFrgmnt.msgLen {msg : MsgBuf} {s i : Nat} {d : List UInt8} (h : IsFrgmnt msg s d i) :
    msg.msgLen = (frgmntOf d i).length := by
  obtain ⟨hlen, hdata⟩ := h.data
  rw [← hdata, Buffer.bytes_length]

theorem IsFrgmnt.fits {msg : MsgBuf} {s i : Nat} {d : List UInt8} (h : IsFrgmnt msg s d i)
    (hd : d.length ≤ NET_PACKET_SIZE) :
    msg.msgLen ≤ MAX_MSG_SIZE ∧ msg.msgHeader.frgmntIdx * MAX_MSG_SIZE + msg.msgLen ≤
      NET_PACKET_SIZE := by
  have hi := lt_frgmntsOf.mp h.inside
  rw [h.msgLen, h.frgmntIdx, frgmntOf_length]
  simp only [MAX_MSG_SIZE, NET_PACKET_SIZE] at hd ⊢
  omega

theorem IsFrgmnt.before_end {msg : MsgBuf} {s i : Nat} {d : List UInt8} (h : IsFrgmnt msg s d i) :
    msg.msgHeader.frgmntIdx < msg.msgHeader.frgmnts := by
  rw [Fin.lt_def, h.frgmntIdx, h.frgmnts]
  exact h.inside

theorem gathered_opened (f : UdpFragment) (s : Nat) (d : List UInt8) :
    Gathered (f.opened TERMINAL_ID) s d [] := by
  refine ⟨rfl, rfl, rfl, rfl, ?_, rfl, fun h => absurd rfl h, holds_nil _ _ _, ?_⟩
  · intro k
    simp [UdpFragment.opened]
  · intro k hk
    cases hk

theorem mask_bit (m : BitVec 32) {i : Nat} (hi : i < 32) (k : Nat) :
    (m ||| 1#32 <<< i).getLsbD k = (m.getLsbD k || decide (k = i)) := by
  rw [BitVec.getLsbD_or]
  congr 1
  rw [BitVec.getLsbD_shiftLeft, BitVec.getLsbD_one, Bool.eq_iff_iff]
  simp only [Bool.and_eq_true, Bool.not_eq_true', decide_eq_true_eq, decide_eq_false_iff_not]
  omega

/-- The stores of `defragment` set the bit of the message in the mask. -/
theorem stored_mask (now : Nat) (f : UdpFragment) (msg : MsgBuf) (hlen : msg.msgLen ≤ MAX_MSG_SIZE)
    (k : Nat) : (stored now f msg hlen).frags_mask.getLsbD k =
      (f.frags_mask.getLsbD k || decide (k = msg.msgHeader.frgmntIdx.val)) :=
  mask_bit _ msg.msgHeader.frgmntIdx.isLt k

/-- The stores of `defragment` add one fragment to what the slot gathered. -/
theorem gathered_stored {f : UdpFragment} {msg : MsgBuf} {s i : Nat} {d : List UInt8}
    {came : List Nat} (now : Nat) (h : Gathered f s d came) (hm : IsFrgmnt msg s d i)
    (hd : d.length ≤ NET_PACKET_SIZE) (hroom : came.length < frgmntsOf d.length)
    (hlen : msg.msgLen ≤ MAX_MSG_SIZE) :
    Gathered (stored now f msg hlen) s d (came ++ [i]) := by
  have h25 := frgmntsOf_le hd
  have hsum : f.size ≤ 60 * came.length := by
    rw [h.size]
    exact sum_block_length_le 60 d came
  have hbytes : msg.data.bytes msg.msgLen hlen = frgmntOf d i := hm.data.2
  refine ⟨h.used, h.terminalId, ?_, ?_, ?_, ?_, ?_, ?_, ?_⟩
  · have hacc := h.accumulated
    simp only [stored, List.length_append, List.length_singleton]
    omega
  · simp only [stored, List.map_append, List.sum_append, List.map_cons, List.map_nil,
      List.sum_cons, List.sum_nil, Nat.add_zero]
    rw [← h.size, ← hm.msgLen]
    simp only [MAX_MSG_SIZE] at hlen
    omega
  · intro k
    rw [stored_mask, h.mask, hm.frgmntIdx]
    simp
  · simp [stored, hm.frgmntIdx]
  · intro _
    exact ⟨hm.seqNum, hm.frgmnts⟩
  · simp only [stored, hbytes, hm.frgmntIdx]
    exact holds_write (by simp) h.holds i
  · intro k hk
    rcases List.mem_append.mp hk with hk | hk
    · exact h.inside k hk
    · rw [List.mem_singleton.mp hk]
      exact hm.inside

/-- A slot that gathered as many different fragments as there are holds the
datagram in its first `size` bytes. -/
theorem payload_gathered {f : UdpFragment} {s : Nat} {d : List UInt8} {came : List Nat}
    (h : Gathered f s d came) (hd : d.length ≤ NET_PACKET_SIZE) (hn : came.Nodup)
    (hall : frgmntsOf d.length ≤ came.length) : payload f = .ok d := by
  have hperm := perm_range_of_nodup h.inside hn hall
  have hsize : f.size = d.length := by
    rw [h.size]
    exact sum_of_all (by simp) d hperm
  have hmem : ∀ k < count MAX_MSG_SIZE d.length, k ∈ came := fun k hk =>
    hperm.mem_iff.mpr (List.mem_range.mpr hk)
  have hbytes : f.data.bytes d.length hd = d := bytes_of_holds (by simp) h.holds hd hmem
  unfold payload
  simp only [hsize]
  rw [dif_pos hd, hbytes]

/-- Whatever came, the size of a slot that is not overfull fits the buffer. -/
theorem payload_ok {f : UdpFragment} {s : Nat} {d : List UInt8} {came : List Nat}
    (h : Gathered f s d came) (hd : d.length ≤ NET_PACKET_SIZE)
    (hroom : came.length ≤ frgmntsOf d.length) : ∃ b, payload f = .ok b := by
  have h25 := frgmntsOf_le hd
  have hsum : f.size ≤ 60 * came.length := by
    rw [h.size]
    exact sum_block_length_le 60 d came
  unfold payload
  rw [dif_pos (by simp only [NET_PACKET_SIZE]; omega)]
  exact ⟨_, rfl⟩

/-! ## One call of `defragment` -/

/-- The slot before the message is stored: free, with nothing gathered, or in
use with the fragments `came`. -/
def Before (f : UdpFragment) (s : Nat) (d : List UInt8) (came : List Nat) : Prop :=
  (f.used = false ∧ came = []) ∨ Gathered f s d came

/-- What `defragment` did with a fragment that had room in the slot at `h`. -/
structure Stored (now : Nat) (r : Receiver) (c : Collated) (h : Handle) (s : Nat) (d : List UInt8)
    (came : List Nat) : Prop where
  gathered : Gathered (c.rcv.table.fragments h) s d came
  lastTime : (c.rcv.table.fragments h).lastTime = now
  frame : ∀ k ≠ h, c.rcv.table.fragments k = r.table.fragments k
  last_pkt_seq : c.rcv.last_pkt_seq = s
  complete : frgmntsOf d.length ≤ came.length → c.ret = 0 ∧ c.outFragment = some h
  incomplete : came.length < frgmntsOf d.length → c.ret = -1 ∧ c.outFragment = none

theorem collate_frgmnt {r : Receiver} {msg : MsgBuf} {h : Handle} {s : Nat} {d : List UInt8}
    {i : Nat} {came : List Nat} (now : Nat) (hd : d.length ≤ NET_PACKET_SIZE)
    (hm : IsFrgmnt msg s d i) (hg : Gathered (r.table.fragments h) s d came)
    (hroom : came.length < frgmntsOf d.length) :
    ∃ c, collate now r msg h = .ok c ∧ Stored now r c h s d (came ++ [i]) := by
  have hfit := hm.fits hd
  have hst := gathered_stored now hg hm hd hroom hfit.1
  rw [collate_eq now r msg h hfit]
  simp only [hm.frgmnts, hst.accumulated]
  refine ⟨_, rfl, ?_, ?_, ?_, ?_, ?_, ?_⟩
  · rw [UdpFragmentsTable.set_self]
    exact hst
  · simp [stored]
  · intro k hk
    exact UdpFragmentsTable.set_ne _ _ hk
  · simp [hm.not_request, hm.seqNum]
  · intro hall
    exact ⟨if_pos hall, if_pos hall⟩
  · intro hless
    have hnot := Nat.not_le_of_lt hless
    exact ⟨if_neg hnot, if_neg hnot⟩

theorem Before.terminalId {f : UdpFragment} {s : Nat} {d : List UInt8} {came : List Nat}
    (h : Before f s d came) (hused : f.used = true) : f.terminalId = TERMINAL_ID := by
  rcases h with ⟨hfree, -⟩ | hg
  · rw [hused] at hfree
    cases hfree
  · exact hg.terminalId

/-- The slot that `defragment` found or acquired has gathered what it had before. -/
theorem Before.located {r : Receiver} {s : Fin MAX_PKTS} {d : List UInt8} {came : List Nat}
    (h : Before (r.table.fragments (slot s)) s d came) (msg : MsgBuf) :
    Gathered ((located r msg s).table.fragments (slot s)) s d came := by
  rw [located_self]
  rcases h with ⟨hfree, rfl⟩ | hg
  · rw [hfree]
    exact gathered_opened _ _ _
  · rw [if_pos hg.used]
    exact hg

theorem defragment_frgmnt {r : Receiver} {msg : MsgBuf} {s : Fin MAX_PKTS} {d : List UInt8}
    {i : Nat} {came : List Nat} (now : Nat) (hd : d.length ≤ NET_PACKET_SIZE)
    (hm : IsFrgmnt msg s d i) (hb : Before (r.table.fragments (slot s)) s d came)
    (hroom : came.length < frgmntsOf d.length) :
    ∃ c, defragment now r msg = .ok c ∧ Stored now r c (slot s) s d (came ++ [i]) := by
  rw [defragment_eq now hm.before_end hm.seqNum hb.terminalId]
  obtain ⟨c, hc, hst⟩ := collate_frgmnt now hd hm (hb.located msg) hroom
  refine ⟨c, hc, { hst with frame := fun k hk => ?_ }⟩
  rw [hst.frame k hk]
  exact located_ne _ _ hk

/-! ## The abstract receiver -/

/-- A datagram under way: its bytes and the fragments of it that came. -/
structure Pending where
  d : List UInt8
  came : List Nat

/-- The abstract receiver: what is under way for each packet number. -/
abbrev Slots := Fin MAX_PKTS → Option Pending

/-- The fragments that came for a packet number. -/
def cameOf (σ : Slots) (s : Fin MAX_PKTS) : List Nat := (σ s).elim [] (·.came)

/-- One arrival. With the last fragment the packet leaves the receiver. -/
def arrive (σ : Slots) (s : Fin MAX_PKTS) (d : List UInt8) (i : Nat) : Slots :=
  Function.update σ s
    (if frgmntsOf d.length ≤ (cameOf σ s).length + 1 then none else some ⟨d, cameOf σ s ++ [i]⟩)

/-- What a slot holds when the abstract receiver has `o` for its number. -/
def SlotIs (f : UdpFragment) (s : Nat) : Option Pending → Prop
  | none => f.used = false
  | some p => Gathered f s p.d p.came ∧ p.came.length < frgmntsOf p.d.length ∧
      p.d.length ≤ NET_PACKET_SIZE

/-- The receiver and the abstract receiver agree on every packet number. -/
def Tracks (r : Receiver) (σ : Slots) : Prop :=
  ∀ s, SlotIs (r.table.fragments (slot s)) s (σ s)

theorem tracks_init : Tracks .init fun _ => none := fun _ => rfl

theorem before_of_tracks {r : Receiver} {σ : Slots} {s : Fin MAX_PKTS} {d : List UInt8}
    (h : Tracks r σ) (hd : ∀ p, σ s = some p → p.d = d) (hpos : 0 < frgmntsOf d.length) :
    Before (r.table.fragments (slot s)) s d (cameOf σ s) ∧
      (cameOf σ s).length < frgmntsOf d.length := by
  have hs := h s
  unfold cameOf
  rcases ho : σ s with _ | p
  · rw [ho] at hs
    exact ⟨Or.inl ⟨hs, rfl⟩, hpos⟩
  · rw [ho] at hs
    obtain ⟨hg, hlt, -⟩ := hs
    rw [hd p ho] at hg hlt
    exact ⟨Or.inr hg, hlt⟩

/-- The table after a call of `defragment`, with the slot released when the
packet is complete. -/
def released (c : Collated) : Receiver :=
  match c.outFragment with
  | some handle => { c.rcv with table := release_fragment c.rcv.table handle }
  | none => c.rcv

theorem released_fragments (c : Collated) (k : Handle) :
    (released c).table.fragments k =
      if c.outFragment = some k then .zero else c.rcv.table.fragments k := by
  unfold released release_fragment
  rcases c.outFragment with _ | h
  · rfl
  · by_cases hk : k = h
    · simp [hk]
    · simp [hk, Ne.symm hk]

theorem released_terminalId {c : Collated}
    (h : ∀ s, (c.rcv.table.fragments (slot s)).used = true →
      (c.rcv.table.fragments (slot s)).terminalId = TERMINAL_ID) (s : Fin MAX_PKTS)
    (hused : ((released c).table.fragments (slot s)).used = true) :
    ((released c).table.fragments (slot s)).terminalId = TERMINAL_ID := by
  rw [released_fragments] at hused ⊢
  split_ifs at hused ⊢
  · cases hused
  · exact h s hused

/-- One arrival keeps the two receivers in step. -/
theorem tracks_released {now : Nat} {r : Receiver} {σ : Slots} {c : Collated} {s : Fin MAX_PKTS}
    {d : List UInt8} {i : Nat} (h : Tracks r σ) (hd : d.length ≤ NET_PACKET_SIZE)
    (hc : Stored now r c (slot s) s d (cameOf σ s ++ [i])) :
    Tracks (released c) (arrive σ s d i) := by
  intro s'
  have hlen : (cameOf σ s ++ [i]).length = (cameOf σ s).length + 1 := by simp
  rw [released_fragments]
  by_cases hs : s' = s
  · subst hs
    by_cases hall : frgmntsOf d.length ≤ (cameOf σ s').length + 1
    · simp [(hc.complete (hlen ▸ hall)).2, arrive, hall, SlotIs, UdpFragment.zero]
    · have hless : (cameOf σ s' ++ [i]).length < frgmntsOf d.length := by omega
      simp only [(hc.incomplete hless).2, arrive, Function.update_self, if_neg hall]
      exact ⟨hc.gathered, hless, hd⟩
  · have hne : slot s' ≠ slot s := by simpa using hs
    have hout : c.outFragment ≠ some (slot s') := by
      rcases Nat.lt_or_ge (cameOf σ s ++ [i]).length (frgmntsOf d.length) with hless | hall
      · simp [(hc.incomplete hless).2]
      · simpa [(hc.complete hall).2] using Ne.symm hs
    simp only [if_neg hout, arrive, Function.update_of_ne hs, hc.frame _ hne]
    exact h s'

/-- `defragment`, on a fragment of the datagram under way. A packet with no
fragment twice comes out as it was sent. -/
theorem defragment_tracks {r : Receiver} {σ : Slots} {msg : MsgBuf} {s : Fin MAX_PKTS}
    {d : List UInt8} {i : Nat} (now : Nat) (h : Tracks r σ) (hd : d.length ≤ NET_PACKET_SIZE)
    (hm : IsFrgmnt msg s d i) (hsame : ∀ p, σ s = some p → p.d = d) :
    ∃ c, defragment now r msg = .ok c ∧ Tracks (released c) (arrive σ s d i) ∧
      c.rcv.last_pkt_seq = s.val ∧
      if frgmntsOf d.length ≤ (cameOf σ s).length + 1 then
        c.ret = 0 ∧ c.outFragment = some (slot s) ∧
          ∃ b, payload (c.rcv.table.fragments (slot s)) = .ok b ∧
            ((cameOf σ s ++ [i]).Nodup → b = d)
      else c.ret = -1 ∧ c.outFragment = none := by
  obtain ⟨hb, hroom⟩ := before_of_tracks h hsame (Nat.lt_of_le_of_lt (Nat.zero_le _) hm.inside)
  obtain ⟨c, hc, hst⟩ := defragment_frgmnt now hd hm hb hroom
  have hlen : (cameOf σ s ++ [i]).length = (cameOf σ s).length + 1 := by simp
  refine ⟨c, hc, tracks_released h hd hst, hst.last_pkt_seq, ?_⟩
  split
  · rename_i hall
    obtain ⟨hret, hout⟩ := hst.complete (hlen ▸ hall)
    obtain ⟨b, hpay⟩ := payload_ok hst.gathered hd (by omega)
    refine ⟨hret, hout, b, hpay, fun hn => ?_⟩
    rw [payload_gathered hst.gathered hd hn (hlen ▸ hall)] at hpay
    cases hpay
    rfl
  · exact hst.incomplete (by omega)

/-- One turn of `iot_transmit_routine`, on a fragment of the datagram under
way. -/
theorem iot_transmit_tracks {r : Receiver} {σ : Slots} {msg : MsgBuf} {s : Fin MAX_PKTS}
    {d : List UInt8} {i : Nat} (now : Nat) (h : Tracks r σ) (hd : d.length ≤ NET_PACKET_SIZE)
    (hm : IsFrgmnt msg s d i) (hsame : ∀ p, σ s = some p → p.d = d) :
    ∃ t, iot_transmit now r msg = .ok t ∧ Tracks t.rcv (arrive σ s d i) ∧
      t.rcv.last_pkt_seq = s.val ∧
      if frgmntsOf d.length ≤ (cameOf σ s).length + 1 then
        (cameOf σ s ++ [i]).Nodup → t.sent = some d
      else t.sent = none := by
  obtain ⟨c, hc, htr, hlast, hout⟩ := defragment_tracks now h hd hm hsame
  unfold iot_transmit send_defragmented
  unfold released at htr
  simp only [hc]
  split at hout
  · rename_i hall
    obtain ⟨hret, hhandle, b, hpay, hb⟩ := hout
    rw [hhandle] at htr
    simp only [hret, if_true, hhandle, hpay, if_pos hall]
    exact ⟨_, rfl, htr, hlast, fun hn => congrArg some (hb hn)⟩
  · rename_i hall
    obtain ⟨hret, hhandle⟩ := hout
    rw [hhandle] at htr
    simp only [hret, if_neg hall]
    exact ⟨_, rfl, htr, hlast, rfl⟩

/-! ## The sweep -/

/-- The abstract sweep drops what timed out. -/
def sweep (curTime : Nat) (r : Receiver) (σ : Slots) : Slots := fun s =>
  if TimedOut curTime (r.table.fragments (slot s)) then none else σ s

theorem tracks_sweep {r : Receiver} {σ : Slots} (curTime : Nat) (h : Tracks r σ) :
    Tracks (r_udp_req_routine curTime r) (sweep curTime r σ) := by
  intro s
  unfold sweep
  rw [r_udp_req_routine_slot]
  by_cases hto : TimedOut curTime (r.table.fragments (slot s))
  · simp [hto, SlotIs]
  · simp only [hto, if_false]
    exact h s

end reassembly

end udp_service
