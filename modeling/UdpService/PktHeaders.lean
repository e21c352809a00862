-- The packets of the service (pkt_headers.h): the header with its bit
-- fields, the message buffer that the threads pass around, and the request
-- for a lost fragment.
import UdpService.Lib.Blocks

open blocks

namespace udp_service

/-- `MAX_MSG_SIZE`: the data bytes of one fragment. -/
@[simp] def MAX_MSG_SIZE : Nat := 60

/-- `NET_PACKET_SIZE`: the largest datagram of a device. -/
@[simp] def NET_PACKET_SIZE : Nat := 1500

-- The bit fields have 2, 4 and 5 bits, so a number is stored modulo 4, 16 and 32.
instance neZero_four : NeZero 4 := ⟨by decide⟩
instance neZero_sixteen : NeZero 16 := ⟨by decide⟩
instance neZero_thirtyTwo : NeZero 32 := ⟨by decide⟩

@[simp] def SEQ_MASK : Nat := 0b1111
@[simp] def FRAG_MASK : Nat := 0b11111

@[simp] def MSG_CODE_REG_DATA : Fin 4 := 0
@[simp] def MSG_CODE_REPLY_FRAG : Fin 4 := 1
@[simp] def MSG_CODE_REQUEST_FRAG : Fin 4 := 2

@[simp] def TERMINAL_ID : Nat := 0

/-- `sizeof(Msg_Header_t)`: 16 bits of bit fields and the size byte. -/
@[simp] abbrev MSG_HEADER_SIZE : Nat := 3

/-- `Msg_Header_t`. Each bit field has the type of its width, so a store into
it truncates. -/
structure MsgHeader where
  msgCode : Fin 4
  frgmntIdx : Fin 32
  frgmnts : Fin 32
  seqNum : Fin 16
  size : UInt8
deriving DecidableEq

/-- The address of a `Msg_Buf_t`. -/
abbrev Ptr := Nat

/-- `Msg_Buf_t`, without `opCode`, `termId` and `hiSkyId`, which no routine
reads or writes. `msgLen` is a `uint16_t`, `seqNum` a `uint8_t`, and of
`time` only the seconds are ever read. -/
structure MsgBuf where
  msgHeader : MsgHeader
  data : Buffer UInt8 MAX_MSG_SIZE
  msgLen : Nat
  seqNum : Nat
  time : Nat
  next : Option Ptr

/-- A buffer of zeroes. -/
def MsgBuf.zero : MsgBuf :=
  { msgHeader := ⟨0, 0, 0, 0, 0⟩, data := fun _ => 0, msgLen := 0, seqNum := 0, time := 0
    next := none }

/-- `rUdpFragmntReq_t`. No code ever stores into `pad`, so it is not part of
the record: the bytes on the wire carry whatever the stack held there. -/
structure RUdpFragmntReq where
  msgCode : Fin 4
  fragmntLost : Nat
  seqNum : Nat
deriving DecidableEq

/-- What the C code does that has no defined outcome, or kills the process. -/
inductive Fault
  /-- A store through a NULL pointer. -/
  | nullStore
  /-- `release_fragment(NULL)`, after these bytes went out to the device. -/
  | nullRelease (sent : List UInt8)
  /-- A slot index beyond the declared array. -/
  | slotIndex
  /-- A copy that leaves its source or its destination. -/
  | copyBounds
deriving DecidableEq

/-- The datagrams that a device can send: 1 to 1500 bytes. -/
structure Datagram where
  bytes : List UInt8
  pos : 0 < bytes.length
  le : bytes.length ≤ NET_PACKET_SIZE

/-- The number of fragments of `n` bytes. -/
def frgmntsOf (n : Nat) : Nat := count MAX_MSG_SIZE n

/-- The data of fragment `i` of a datagram. -/
def frgmntOf (d : List UInt8) (i : Nat) : List UInt8 := block MAX_MSG_SIZE d i

theorem lt_frgmntsOf {n k : Nat} : k < frgmntsOf n ↔ 60 * k < n :=
  lt_count_iff (by simp) n k

theorem frgmntsOf_le {n : Nat} (h : n ≤ NET_PACKET_SIZE) : frgmntsOf n ≤ 25 :=
  count_le (by simp) (by simpa using h)

theorem frgmntsOf_pos {n : Nat} (h : 0 < n) : 0 < frgmntsOf n := lt_frgmntsOf.mpr (by omega)

theorem frgmntsOf_le_self (n : Nat) : frgmntsOf n ≤ n := by
  by_contra h
  have := lt_frgmntsOf.mp (Nat.lt_of_not_le h)
  omega

@[simp] theorem frgmntOf_length (d : List UInt8) (i : Nat) :
    (frgmntOf d i).length = min 60 (d.length - 60 * i) := by
  simp [frgmntOf]

end udp_service
