-- How `iot_receive_routine` cuts a datagram: the fragments that the loop leaves
-- in the buffers, for datagrams of any size that the device can send.
import UdpService.HsUdpService

open blocks

namespace udp_service

namespace fragmentation

open hs_udp_service

/-- The variables of the inner loop after `k` of its turns. -/
def after (pool : Nat → MsgBuf) : Nat → RxLoop → RxLoop
  | 0, l => l
  | k + 1, l => (iot_fill (after pool k l) (pool (after pool k l).frgmntIdx)).1

/-- The number of fragments of `n` bytes: `n / MAX_MSG_SIZE`, rounded up. -/
def fragments (n : Nat) : Nat := (n + MAX_MSG_SIZE - 1) / MAX_MSG_SIZE

/-- The bytes of a buffer that count. -/
def carried (b : MsgBuf) : List UInt8 := (List.ofFn b.data).take b.msgLen

/-- The buffers carry the fragments of the datagram, in order, and nothing else. -/
structure Cut (d : List UInt8) (seqNum : Nat) (bufs : List MsgBuf) : Prop where
  length : bufs.length = fragments d.length
  header : ∀ (k : Nat) (b : MsgBuf), bufs[k]? = some b → b.msgHeader.frgmntIdx.val = k ∧
    b.msgHeader.frgmnts.val = fragments d.length ∧ b.msgHeader.frgmntIdx < b.msgHeader.frgmnts
  full : ∀ (k : Nat) (b : MsgBuf), bufs[k]? = some b → k + 1 < bufs.length → b.msgLen = MAX_MSG_SIZE
  last : ∀ (k : Nat) (b : MsgBuf), bufs[k]? = some b → k + 1 = bufs.length →
    1 ≤ b.msgLen ∧ b.msgLen ≤ MAX_MSG_SIZE
  padding : ∀ b ∈ bufs, ∀ j : Fin MAX_MSG_SIZE, b.msgLen ≤ j.val → b.data j = 0
  seqNum : ∀ b ∈ bufs, b.seqNum = seqNum
  joined : bufs.flatMap carried = d

theorem frgmntsOf_eq (n : Nat) : frgmntsOf n = fragments n := by
  have hcount : frgmntsOf n = n / 60 + if 0 < n % 60 then 1 else 0 := rfl
  have hceil : fragments n = (n + 60 - 1) / 60 := rfl
  have h := Nat.div_add_mod n 60
  rw [hcount, hceil]
  split <;> omega

/-! ## The turns of the loop -/

theorem after_eq (pool : Nat → MsgBuf) (txSeqNum : Nat) {d : List UInt8}
    (hd : d.length ≤ NET_PACKET_SIZE) {k : Nat} (hk : k ≤ frgmntsOf d.length) :
    after pool k (iot_read txSeqNum d) = turn d ((txSeqNum + 1) % 2 ^ 8) k := by
  induction k with
  | zero => exact iot_read_eq txSeqNum d
  | succ k ih =>
    rw [after, ih (Nat.le_of_succ_le hk), iot_fill_turn _ _ hd hk]

/-- The condition of the loop holds before the turns of the fragments, and no longer. -/
theorem res_pos_iff (pool : Nat → MsgBuf) (txSeqNum : Nat) {d : List UInt8}
    (hd : d.length ≤ NET_PACKET_SIZE) {k : Nat} (hk : k ≤ frgmntsOf d.length) :
    0 < (after pool k (iot_read txSeqNum d)).res ↔ k < frgmntsOf d.length := by
  have hres : (turn d ((txSeqNum + 1) % 2 ^ 8) k).res = d.length - 60 * k := rfl
  rw [after_eq pool txSeqNum hd hk, hres, lt_frgmntsOf]
  omega

/-! ## The buffers it fills -/

theorem carried_filled (d : List UInt8) (txSeqNum k : Nat) (b : MsgBuf) :
    carried (filled d txSeqNum k b) = frgmntOf d k := by
  have hlen : (frgmntOf d k).length ≤ MAX_MSG_SIZE := block_length_le _ _ _
  apply List.ext_getElem
  · simp only [carried, filled, List.length_take, List.length_ofFn]
    omega
  · intro i h1 h2
    simp only [carried, List.getElem_take, List.getElem_ofFn]
    exact Option.getD_eq_iff.mpr (.inl (List.getElem?_eq_getElem h2))

section cut

variable {d : List UInt8} (pool : Nat → MsgBuf) (seqNum : Nat)

/-- The header of fragment `k` keeps its numbers: a datagram has at most 25 fragments. -/
theorem header_filled (hd : d.length ≤ NET_PACKET_SIZE) {k : Nat}
    (hk : k < frgmntsOf d.length) (b : MsgBuf) :
    (filled d seqNum k b).msgHeader.frgmntIdx.val = k ∧
      (filled d seqNum k b).msgHeader.frgmnts.val = frgmntsOf d.length := by
  have h25 := frgmntsOf_le hd
  refine ⟨?_, ?_⟩
  · exact Nat.mod_eq_of_lt (by omega)
  · exact Nat.mod_eq_of_lt (by omega)

theorem cut_filled (hd : d.length ≤ NET_PACKET_SIZE) :
    Cut d seqNum ((List.range (frgmntsOf d.length)).map fun i => filled d seqNum i (pool i)) := by
  have hget : ∀ (k : Nat) (b : MsgBuf),
      ((List.range (frgmntsOf d.length)).map fun i => filled d seqNum i (pool i))[k]? = some b →
      k < frgmntsOf d.length ∧ b = filled d seqNum k (pool k) := by
    intro k b h
    rw [List.getElem?_map, Option.map_eq_some_iff] at h
    obtain ⟨i, hi, rfl⟩ := h
    obtain ⟨hlt, rfl⟩ := List.getElem?_eq_some_iff.mp hi
    simp only [List.length_range] at hlt
    exact ⟨by simpa using hlt, by simp⟩
  have hmem : ∀ b ∈ (List.range (frgmntsOf d.length)).map fun i => filled d seqNum i (pool i),
      ∃ k, b = filled d seqNum k (pool k) := by
    intro b hb
    obtain ⟨k, -, rfl⟩ := List.mem_map.mp hb
    exact ⟨k, rfl⟩
  refine { length := ?_, header := ?_, full := ?_, last := ?_, padding := ?_, seqNum := ?_
           joined := ?_ }
  · rw [List.length_map, List.length_range, frgmntsOf_eq]
  · intro k b h
    obtain ⟨hk, rfl⟩ := hget k b h
    obtain ⟨hidx, hn⟩ := header_filled seqNum hd hk (pool k)
    refine ⟨hidx, hn.trans (frgmntsOf_eq _), ?_⟩
    rw [Fin.lt_def, hidx, hn]
    exact hk
  · intro k b h hlast
    obtain ⟨-, rfl⟩ := hget k b h
    rw [List.length_map, List.length_range] at hlast
    have := lt_frgmntsOf.mp hlast
    simp only [filled, frgmntOf_length, MAX_MSG_SIZE]
    omega
  · intro k b h hlast
    obtain ⟨hk, rfl⟩ := hget k b h
    have := lt_frgmntsOf.mp hk
    simp only [filled, frgmntOf_length, MAX_MSG_SIZE]
    omega
  · intro b hb j hj
    obtain ⟨k, rfl⟩ := hmem b hb
    have hj' : (frgmntOf d k).length ≤ j.val := hj
    have hnone : (frgmntOf d k)[j.val]? = none := List.getElem?_eq_none hj'
    simp only [filled, Buffer.padded, hnone, Option.getD_none]
  · intro b hb
    obtain ⟨k, rfl⟩ := hmem b hb
    rfl
  · have hall := (lt_frgmntsOf (k := frgmntsOf d.length) (n := d.length)).not.mp (Nat.lt_irrefl _)
    rw [List.flatMap_map]
    simp only [carried_filled]
    calc (List.range (frgmntsOf d.length)).flatMap (frgmntOf d)
        = d.take (MAX_MSG_SIZE * frgmntsOf d.length) := flatMap_block _ _ _
      _ = d := List.take_of_length_le (by simpa using hall)

end cut

/-- A datagram of `n` bytes takes exactly `n / MAX_MSG_SIZE` turns, rounded up,
and the buffers partition it. -/
theorem iot_receive_partitions (pool : Nat → MsgBuf) (txSeqNum : Nat) (dg : Datagram) :
    (∀ k ≤ fragments dg.bytes.length,
      0 < (after pool k (iot_read txSeqNum dg.bytes)).res ↔ k < fragments dg.bytes.length) ∧
    ∀ fuel, fragments dg.bytes.length ≤ fuel →
      Cut dg.bytes ((txSeqNum + 1) % 2 ^ 8) (iot_loop pool fuel (iot_read txSeqNum dg.bytes)) := by
  simp only [← frgmntsOf_eq]
  refine ⟨fun k hk => res_pos_iff pool txSeqNum dg.le hk, ?_⟩
  intro fuel hfuel
  rw [iot_read_eq, iot_loop_turn pool dg.le (frgmntsOf dg.bytes.length) 0 fuel (by omega) hfuel,
    ← List.range_eq_range']
  exact cut_filled pool _ dg.le

-- 61 bytes take two buffers: 60 bytes and one.
example : (iot_loop (fun _ => .zero) 61 (iot_read 7 (List.replicate 61 1))).map MsgBuf.msgLen =
    [60, 1] := by
  decide

end fragmentation

end udp_service
