-- The reassembly slots (hs_udp_fragments.c): the table, the lookup of the
-- slot of a packet, the allocation of a free slot, and its release.
import UdpService.PktHeaders

open blocks

namespace udp_service

@[simp] abbrev FRAGMENTS_TABLE_COUNT : Nat := 1

instance neZero_rows : NeZero FRAGMENTS_TABLE_COUNT := ⟨by decide⟩

/-- `MAX_PKTS`: the lookup serves the sequence numbers below it. -/
@[simp] abbrev MAX_PKTS : Nat := 4

/-- `UDP_Fragment_t`. The counters are `uint8_t`, `size` is a `uint16_t`. -/
structure UdpFragment where
  used : Bool
  frgmntIdx : Nat
  accumulatedFrgmnts : Nat
  frgmnts : Nat
  pktSeqNum : Nat
  frags_mask : BitVec 32
  lastTime : Nat
  size : Nat
  terminalId : Nat
  data : Buffer UInt8 NET_PACKET_SIZE

/-- A slot after `memset(handle, 0, sizeof(UDP_Fragment_t))`. -/
def UdpFragment.zero : UdpFragment :=
  { used := false, frgmntIdx := 0, accumulatedFrgmnts := 0, frgmnts := 0, pktSeqNum := 0,
    frags_mask := 0, lastTime := 0, size := 0, terminalId := 0, data := fun _ => 0 }

/-- What `get_freeFragment` stores into the slot that it gives. The data and
the time stay as they were. -/
def UdpFragment.opened (f : UdpFragment) (terminalId : Nat) : UdpFragment :=
  { f with
    terminalId, used := true, frgmntIdx := 0, accumulatedFrgmnts := 0, frgmnts := 0,
    frags_mask := 0, size := 0, pktSeqNum := 0xFF }

/-- A pointer to `fragments[row][col]` of the declared array. -/
abbrev Handle := Fin FRAGMENTS_TABLE_COUNT × Fin (MAX_PKTS + 1)

/-- `UDP_Fragments_Table_t`. -/
@[ext] structure UdpFragmentsTable where
  unusedIdx : Nat
  fragments : Handle → UdpFragment

namespace UdpFragmentsTable

/-- The table before the first packet: a global, so all zero. -/
def init : UdpFragmentsTable := ⟨0, fun _ => .zero⟩

/-- The table with the contents of one slot replaced. -/
def set (t : UdpFragmentsTable) (h : Handle) (f : UdpFragment) : UdpFragmentsTable :=
  { t with fragments := Function.update t.fragments h f }

@[simp] theorem set_self (t : UdpFragmentsTable) (h : Handle) (f : UdpFragment) :
    (t.set h f).fragments h = f := by
  simp [set]

@[simp] theorem set_ne (t : UdpFragmentsTable) {h k : Handle} (f : UdpFragment) (hk : k ≠ h) :
    (t.set h f).fragments k = t.fragments k := by
  simp [set, hk]

/-- The table after `get_freeFragment` gave the slot `h`. -/
def acquired (t : UdpFragmentsTable) (h : Handle) (terminalId : Nat) : UdpFragmentsTable :=
  { t.set h ((t.fragments h).opened terminalId) with unusedIdx := h.1 }

@[simp] theorem acquired_self (t : UdpFragmentsTable) (h : Handle) (id : Nat) :
    (t.acquired h id).fragments h = (t.fragments h).opened id := by
  simp [acquired]

@[simp] theorem acquired_ne (t : UdpFragmentsTable) {h k : Handle} (id : Nat) (hk : k ≠ h) :
    (t.acquired h id).fragments k = t.fragments k := by
  simp [acquired, hk]

end UdpFragmentsTable

namespace hs_udp_fragments

/-- The slot that the lookup reads for a packet number below `MAX_PKTS`. -/
def slot (s : Fin MAX_PKTS) : Handle := (0, s.castSucc)

@[simp] theorem slot_inj {s s' : Fin MAX_PKTS} : slot s = slot s' ↔ s = s' := by
  simp [slot]

/-- The table has one row, so a slot is known by its column. -/
theorem handle_ext {h : Handle} {s : Fin (MAX_PKTS + 1)} (hs : h.2.val = s.val) : h = (0, s) := by
  obtain ⟨row, col⟩ := h
  obtain rfl : row = 0 := Subsingleton.elim _ _
  exact congrArg (Prod.mk 0) (Fin.ext hs)

/-- Every slot but one is that of a packet number below `MAX_PKTS`. -/
theorem slot_or_last (h : Handle) : (∃ s, h = slot s) ∨ h = (0, Fin.last MAX_PKTS) := by
  rcases Fin.eq_castSucc_or_eq_last h.2 with ⟨s, hs⟩ | hs
  · exact Or.inl ⟨s, handle_ext (congrArg Fin.val hs)⟩
  · exact Or.inr (handle_ext (congrArg Fin.val hs))

theorem last_ne_slot (s : Fin MAX_PKTS) : (0, Fin.last MAX_PKTS) ≠ slot s := by
  intro h
  exact s.castSucc_ne_last (congrArg Prod.snd h).symm

/-- `find_terminal`: the slot in use for a packet, or NULL. -/
def find_terminal (t : UdpFragmentsTable) (terminalId pktSeq : Nat) : Option Handle :=
  if h : pktSeq < MAX_PKTS then
    (List.finRange FRAGMENTS_TABLE_COUNT).findSome? fun index =>
      let handle : Handle := (index, ⟨pktSeq, Nat.lt_succ_of_lt h⟩)
      if (t.fragments handle).terminalId = terminalId ∧ (t.fragments handle).used then some handle
      else none
  else none

/-- `get_freeFragment`: a free slot for a packet, or NULL. The code indexes
the array with any `pktSeq`. -/
def get_freeFragment (t : UdpFragmentsTable) (terminalId pktSeq : Nat) :
    Except Fault (UdpFragmentsTable × Option Handle) :=
  if h : pktSeq < MAX_PKTS + 1 then
    match (List.finRange FRAGMENTS_TABLE_COUNT).find? fun index =>
        !(t.fragments (index, ⟨pktSeq, h⟩)).used with
    | none => .ok (t, none)
    | some index => .ok (t.acquired (index, ⟨pktSeq, h⟩) terminalId, some (index, ⟨pktSeq, h⟩))
  else .error .slotIndex

/-- `release_fragment`, on a slot. -/
def release_fragment (t : UdpFragmentsTable) (handle : Handle) : UdpFragmentsTable :=
  t.set handle .zero

/-! ## What the lookup and the allocation give -/

theorem find_terminal_slot (t : UdpFragmentsTable) (id : Nat) (s : Fin MAX_PKTS) :
    find_terminal t id s = if (t.fragments (slot s)).terminalId = id ∧ (t.fragments (slot s)).used
      then some (slot s) else none := by
  unfold find_terminal slot
  rw [dif_pos s.isLt]
  simp [List.finRange, Fin.castSucc, Fin.castAdd, Fin.castLE]

theorem find_terminal_high (t : UdpFragmentsTable) (id : Nat) {pktSeq : Nat}
    (h : MAX_PKTS ≤ pktSeq) : find_terminal t id pktSeq = none := by
  unfold find_terminal
  rw [dif_neg (by omega)]

/-- The lookup of a slot inside the array: it never sees the last column. -/
theorem find_terminal_inside (t : UdpFragmentsTable) (id : Nat) (s : Fin (MAX_PKTS + 1)) :
    find_terminal t id s = if s.val < MAX_PKTS ∧ (t.fragments (0, s)).terminalId = id ∧
      (t.fragments (0, s)).used then some (0, s) else none := by
  by_cases hlow : s.val < MAX_PKTS
  · have hfind := find_terminal_slot t id ⟨s, hlow⟩
    simp only [hlow, true_and]
    exact hfind
  · rw [find_terminal_high t id (Nat.le_of_not_lt hlow), if_neg fun h => hlow h.1]

/-- The lookup gives only the slot of the packet, and only in use. -/
theorem find_terminal_eq_some {t : UdpFragmentsTable} {id pktSeq : Nat} {h : Handle}
    (hf : find_terminal t id pktSeq = some h) :
    ∃ s : Fin MAX_PKTS, s.val = pktSeq ∧ h = slot s ∧ (t.fragments h).terminalId = id ∧
      (t.fragments h).used = true := by
  rcases Nat.lt_or_ge pktSeq MAX_PKTS with hs | hs
  · have := find_terminal_slot t id ⟨pktSeq, hs⟩
    simp only at this
    rw [hf] at this
    split at this
    · rename_i hu
      cases this
      exact ⟨⟨pktSeq, hs⟩, rfl, rfl, hu.1, hu.2⟩
    · cases this
  · rw [find_terminal_high t id hs] at hf
    cases hf

/-- The allocation of a slot inside the array. -/
theorem get_freeFragment_inside (t : UdpFragmentsTable) (id : Nat) (s : Fin (MAX_PKTS + 1)) :
    get_freeFragment t id s = if (t.fragments (0, s)).used then .ok (t, none)
      else .ok (t.acquired (0, s) id, some (0, s)) := by
  unfold get_freeFragment
  rw [dif_pos s.isLt]
  simp only [FRAGMENTS_TABLE_COUNT, List.finRange]
  cases hu : (t.fragments (0, s)).used with
  | true => simp [hu]
  | false => simp [hu]

theorem get_freeFragment_high (t : UdpFragmentsTable) (id : Nat) {pktSeq : Nat}
    (h : MAX_PKTS < pktSeq) : get_freeFragment t id pktSeq = .error .slotIndex := by
  unfold get_freeFragment
  rw [dif_neg (by omega)]

end hs_udp_fragments

end udp_service
