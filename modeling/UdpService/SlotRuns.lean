-- The lookup and the allocation of slots over whole runs of the receiver:
-- messages with any header and sweeps at any time. For the numbers below
-- `MAX_PKTS` the two agree, and for the others the sender can use they do
-- not.
import UdpService.Lib.Runs
import UdpService.HsUdpService

namespace udp_service

namespace slot_runs

open hs_udp_fragments rudp_req hs_udp_service runs

/-! ## Runs of the receiver -/

/-- What happens at the receiver: a message is taken from the FIFO, or the
sweep passes. -/
inductive Event
  | message (now : Nat) (msg : MsgBuf)
  | sweep (curTime : Nat)

/-- One event. A fault ends the process, so nothing follows it. -/
def step (r : Receiver) : Event → Option Receiver
  | .message now msg => (iot_transmit now r msg).toOption.map (·.rcv)
  | .sweep curTime => some (r_udp_req_routine curTime r)

/-- The event releases the slot, or the sweep finds it timed out. -/
def Frees (h : Handle) (r : Receiver) : Event → Prop
  | .message now msg => ∃ c, defragment now r msg = .ok c ∧ c.outFragment = some h
  | .sweep curTime => TimedOut curTime (r.table.fragments h)

/-! ## What one call can do -/

/-- What a call of `defragment` does to the slot that it stores into: the slot
is in use, no other changes, and only a complete packet comes out of it. -/
structure StoresInto (r : Receiver) (msg : MsgBuf) (c : Collated) (h : Handle) : Prop where
  col : h.2.val = msg.msgHeader.seqNum.val
  used : (c.rcv.table.fragments h).used = true
  terminalId : (c.rcv.table.fragments h).terminalId = TERMINAL_ID
  frame : ∀ k ≠ h, c.rcv.table.fragments k = r.table.fragments k
  out : (c.ret = 0 ∧ c.outFragment = some h) ∨ (c.ret = -1 ∧ c.outFragment = none)

theorem collate_storesInto {now : Nat} {r : Receiver} {msg : MsgBuf} {h : Handle} {c : Collated}
    (hc : collate now r msg h = .ok c) (hcol : h.2.val = msg.msgHeader.seqNum.val)
    (hu : (r.table.fragments h).used = true)
    (ht : (r.table.fragments h).terminalId = TERMINAL_ID) : StoresInto r msg c h := by
  have hfit := collate_fits hc
  rw [collate_eq now r msg h hfit] at hc
  cases hc
  refine ⟨hcol, ?_, ?_, ?_, ?_⟩
  · simp [stored, hu]
  · simpa [stored] using ht
  · intro k hk
    exact UdpFragmentsTable.set_ne _ _ hk
  · simp only
    split_ifs
    · exact Or.inl ⟨rfl, rfl⟩
    · exact Or.inr ⟨rfl, rfl⟩

/-- A call of `defragment` that returns has left everything as it was, for a
packet that needs no reassembly, or has stored into one slot. -/
theorem defragment_cases {now : Nat} {r : Receiver} {msg : MsgBuf} {c : Collated}
    (hc : defragment now r msg = .ok c) :
    (c.ret = 0 ∧ c.outFragment = none ∧ c.rcv = r) ∨ ∃ h, StoresInto r msg c h := by
  by_cases hin : msg.msgHeader.frgmntIdx < msg.msgHeader.frgmnts
  · obtain ⟨r', h, hl, hcol⟩ := lookedUp_of_defragment hin hc
    have hst := collate_storesInto hcol hl.col hl.used hl.terminalId
    exact Or.inr ⟨h, { hst with frame := fun k hk => (hst.frame k hk).trans (hl.frame k hk) }⟩
  · unfold defragment at hc
    rw [if_neg hin] at hc
    cases hc
    exact Or.inl ⟨rfl, rfl, rfl⟩

/-- The receiver after one turn of `iot_transmit_routine` that returned. -/
theorem iot_transmit_cases {now : Nat} {r : Receiver} {msg : MsgBuf} {t : Transmitted}
    (ht : iot_transmit now r msg = .ok t) :
    ∃ c h, defragment now r msg = .ok c ∧ StoresInto r msg c h ∧
      t.rcv = (if c.outFragment = some h then
        { c.rcv with table := release_fragment c.rcv.table h } else c.rcv) := by
  unfold iot_transmit at ht
  rcases hc : defragment now r msg with e | c
  · rw [hc] at ht
    cases ht
  · rw [hc] at ht
    obtain ⟨-, hsent⟩ := send_defragmented_cases ht
    refine ⟨c, ?_⟩
    rcases defragment_cases hc with ⟨hret, hout, -⟩ | ⟨h, hst⟩
    · rcases hsent with ⟨k, -, hk, -⟩ | ⟨hne, -⟩
      · rw [hout] at hk
        cases hk
      · exact absurd hret hne
    · refine ⟨h, rfl, hst, ?_⟩
      rcases hst.out with ⟨hret, hout⟩ | ⟨hret, hout⟩
      · rcases hsent with ⟨k, -, hk, hrcv⟩ | ⟨hne, -⟩
        · rw [hout] at hk
          cases hk
          rw [if_pos hout]
          exact hrcv
        · exact absurd hret hne
      · rcases hsent with ⟨k, -, hk, -⟩ | ⟨-, hrcv⟩
        · rw [hout] at hk
          cases hk
        · rw [hrcv, hout]
          rfl

/-- The requests of a turn are those of its call of `defragment`. -/
theorem iot_transmit_reqs {now : Nat} {r : Receiver} {t : Transmitted} {msg : MsgBuf} {c : Collated}
    (ht : iot_transmit now r msg = .ok t) (hc : defragment now r msg = .ok c) :
    t.reqs = c.reqs := by
  unfold iot_transmit at ht
  rw [hc] at ht
  exact (send_defragmented_cases ht).1

/-- A turn that returned has left the slots of other packet numbers alone. -/
theorem iot_transmit_frame {now : Nat} {r : Receiver} {msg : MsgBuf} {t : Transmitted}
    (ht : iot_transmit now r msg = .ok t) {k : Handle} (hk : k.2.val ≠ msg.msgHeader.seqNum.val) :
    t.rcv.table.fragments k = r.table.fragments k := by
  obtain ⟨c, h, -, hst, hrcv⟩ := iot_transmit_cases ht
  have hne : k ≠ h := by
    rintro rfl
    exact hk hst.col
  rw [hrcv]
  split_ifs
  · exact (UdpFragmentsTable.set_ne _ _ hne).trans (hst.frame _ hne)
  · exact hst.frame _ hne

theorem step_message {now : Nat} {r r' : Receiver} {msg : MsgBuf} :
    step r (.message now msg) = some r' ↔ ∃ t, iot_transmit now r msg = .ok t ∧ t.rcv = r' := by
  unfold step
  rcases ht : iot_transmit now r msg with e | t
  · simp [ht, Except.toOption]
  · simp [ht, Except.toOption]

/-! ## A slot stays in use until it is freed -/

/-- The slot is in use for the terminal. -/
def InUse (h : Handle) (r : Receiver) : Prop :=
  (r.table.fragments h).terminalId = TERMINAL_ID ∧ (r.table.fragments h).used = true

theorem find_terminal_of_inUse {s : Fin MAX_PKTS} {r : Receiver} (h : InUse (slot s) r) :
    find_terminal r.table TERMINAL_ID s = some (slot s) := by
  rw [find_terminal_slot]
  exact if_pos h

/-- An event that does not free the slot leaves it in use. -/
theorem inUse_step {h : Handle} {r r' : Receiver} {e : Event} (hu : InUse h r)
    (hf : ¬ Frees h r e) (hs : step r e = some r') : InUse h r' := by
  cases e with
  | message now msg =>
    obtain ⟨t, ht, rfl⟩ := step_message.mp hs
    obtain ⟨c, k, hc, hst, hrcv⟩ := iot_transmit_cases ht
    have hin : InUse h c.rcv := by
      by_cases hk : h = k
      · subst hk
        exact ⟨hst.terminalId, hst.used⟩
      · unfold InUse
        rw [hst.frame h hk]
        exact hu
    rw [hrcv]
    split
    · rename_i hout
      have hk : h ≠ k := fun he => hf ⟨c, hc, by rw [he]; exact hout⟩
      unfold InUse release_fragment
      rw [UdpFragmentsTable.set_ne _ _ hk]
      exact hin
    · exact hin
  | sweep curTime =>
    cases hs
    have hto : ¬ TimedOut curTime (r.table.fragments h) := hf
    unfold InUse
    rw [r_udp_req_routine_fragments, if_neg fun hm => hto hm.2]
    exact hu

theorem inUse_run {h : Handle} {r r' : Receiver} {es : List Event} (hu : InUse h r)
    (hg : Guarded step (fun r e => ¬ Frees h r e) r es) (hr : run step r es = some r') :
    InUse h r' :=
  run_invariant_guarded (fun _ _ _ hi hf hs => inUse_step hi hf hs) hu hg hr

/-! ## Where the lookup and the allocation agree -/

/-- In the state `r`, a packet number `s` finds its slot: the lookup and the
allocation index the array with `s` inside its bounds, and the slot that the
allocation gives is the one that the lookup then finds, right away, after the
message is stored, and until an event frees it. -/
structure Agree (r : Receiver) (s : Nat) : Prop where
  lookup : ∀ h, find_terminal r.table TERMINAL_ID s = some h → h.2.val = s
  inside : get_freeFragment r.table TERMINAL_ID s ≠ .error .slotIndex
  found : ∀ t h, get_freeFragment r.table TERMINAL_ID s = .ok (t, some h) →
    find_terminal t TERMINAL_ID s = some h ∧
      ∀ now msg c, msg.msgHeader.seqNum.val = s → collate now { r with table := t } msg h = .ok c →
        ∀ es r', Guarded step (fun r e => ¬ Frees h r e) c.rcv es →
          run step c.rcv es = some r' → find_terminal r'.table TERMINAL_ID s = some h

theorem agree_below (r : Receiver) (s : Fin MAX_PKTS) : Agree r s := by
  have hget := get_freeFragment_inside r.table TERMINAL_ID s.castSucc
  rw [Fin.val_castSucc] at hget
  refine ⟨?_, ?_, ?_⟩
  · intro h hfind
    obtain ⟨s', hs', rfl, -⟩ := find_terminal_eq_some hfind
    exact hs'
  · rw [hget]
    split <;> simp
  · intro t h heq
    rw [hget] at heq
    split at heq
    · cases heq
    · cases heq
      have hin : ∀ r' : Receiver, InUse (slot s) r' →
          find_terminal r'.table TERMINAL_ID s = some (0, s.castSucc) :=
        fun r' h => find_terminal_of_inUse h
      have hu : InUse (slot s) { r with table := r.table.acquired (slot s) TERMINAL_ID } := by
        simp [InUse, UdpFragment.opened]
      refine ⟨hin _ hu, ?_⟩
      intro now msg c hseq hc es r' hg hr
      have hst := collate_storesInto hc hseq.symm hu.2 hu.1
      exact hin r' (inUse_run ⟨hst.terminalId, hst.used⟩ hg hr)

theorem not_agree_at_max {r : Receiver} (hfree : (r.table.fragments (0, Fin.last MAX_PKTS)).used =
    false) : ¬ Agree r MAX_PKTS := by
  intro h
  have hget := get_freeFragment_inside r.table TERMINAL_ID (Fin.last MAX_PKTS)
  rw [hfree] at hget
  simp only [Bool.false_eq_true, if_false] at hget
  have hfound := (h.found _ _ hget).1
  rw [find_terminal_high _ _ (Nat.le_refl _)] at hfound
  cases hfound

/-- The lookup and the allocation agree in every state that the receiver can
reach exactly for the packet numbers below `MAX_PKTS`. -/
theorem slots_agree_iff_below_max_pkts (s : Fin 16) :
    (∀ r, Reachable step .init r → Agree r s) ↔ s.val < MAX_PKTS := by
  constructor
  · intro h
    have hinit := h .init (Reachable.refl _)
    rcases Nat.lt_trichotomy s.val MAX_PKTS with hlt | heq | hgt
    · exact hlt
    · rw [heq] at hinit
      exact absurd hinit (not_agree_at_max rfl)
    · exact absurd (get_freeFragment_high _ _ hgt) hinit.inside
  · intro hlt r _
    exact agree_below r ⟨s, hlt⟩

/-- A packet number that the sender can use, 5, for which the allocation
leaves the array at the very start, and 4, for which the lookup never finds
the slot that the allocation gave. -/
theorem a_sequence_number_without_a_slot :
    get_freeFragment Receiver.init.table TERMINAL_ID 5 = .error .slotIndex ∧
      ∃ t h, get_freeFragment Receiver.init.table TERMINAL_ID 4 = .ok (t, some h) ∧
        find_terminal t TERMINAL_ID 4 = none :=
  ⟨rfl, _, _, rfl, rfl⟩

end slot_runs

end udp_service
