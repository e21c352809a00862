-- The repair of a packet, whatever fragments of it were lost: the next packet
-- brings the requests for exactly these, the history answers each of them, and
-- with the last answer the datagram is whole, in whatever order they arrive.
import UdpService.Retransmission
import UdpService.PacketRuns

open blocks runs

namespace udp_service

namespace repair

open hs_udp_fragments rudp_req hs_udp_service r_udp wire reassembly stream retransmission

/-! ## What the history answers -/

/-- Fragment `i` of the datagram `j` is in the history. -/
def Kept (up : uplink.Uplink) (j i : Nat) : Prop := ∃ p ∈ history up.hist, up.owner p = (j, i)

/-- The request for fragment `i` under the number `s`. -/
def request (s i : Nat) : RUdpFragmntReq :=
  { msgCode := MSG_CODE_REQUEST_FRAG, fragmntLost := i, seqNum := s }

section answers

variable {feed : Feed} {heap : Ptr → MsgBuf} {now : Nat} {up : uplink.Uplink} {j i : Nat}
  {d : List UInt8}

end answers

/-! ## The replies go out -/

section replies

variable {feed : Feed} {heap : Ptr → MsgBuf} {now j : Nat} {d : List UInt8} {s : Link}

end replies

/-! ## The replies arrive -/

section arrivals

variable {s : Link} {num : Fin MAX_PKTS} {d : List UInt8} {σ : Slots} {came : List Nat}

end arrivals

/-! ## The end of the packet -/

/-- The fragments of a datagram that its slot has not recorded. -/
def lost (r : Receiver) (num : Fin MAX_PKTS) (d : List UInt8) : List Nat :=
  (List.range (frgmntsOf d.length)).filter fun i =>
    !(r.table.fragments (slot num)).frags_mask.getLsbD i

section ending

variable {feed : Feed} {heap : Ptr → MsgBuf} {now : Nat} {upRx downRx : MsgBuf} {as : List Action}
  {s : Link} {r : Receiver} {num : Fin MAX_PKTS} {d : List UInt8} {came : List Nat}

end ending

end repair

end udp_service
